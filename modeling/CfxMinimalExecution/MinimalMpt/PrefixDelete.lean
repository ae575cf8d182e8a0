import CfxMinimalExecution.MinimalMpt.PrefixRead

/-!
# Prefix deletes

On layers of full keys, a prefix delete drops the delta records that the scan selects and then
writes a tombstone for every matching key that the lower layers hold. It returns what a prefix read
returns, the matching keys read as deleted, and the layers below are as before. A prefix made of
whole fields selects no other keys; a byte prefix drops the whole delta.

## Main definitions

* `Layers.Deleted`: the layers on the way through a prefix delete

## Main results

* `Layers.Keyed.deletePrefix_spec`: a prefix delete, loop by loop
* `State.deleteAllByPrefix_spec`: what a prefix delete returns and what is read after it
-/

open Std (ExtTreeMap ExtTreeSet)
open Fallible (exec Ensures)

namespace MinimalMpt

open StorageKeyWithSpace (fromDeltaMptKey fromKeyBytes PrefixKey FieldPrefix BytePrefix Full Storable)

variable {keccak : Bytes → H256}

namespace Layers

variable {L L' : Layers keccak} {p : StorageKeyWithSpace}

/-- The layers on the way through a delete of `L`: the delta records under `deltaPrefix` are
dropped, and the keys in `T` have tombstones. -/
structure Deleted (L : Layers keccak) (deltaPrefix : Bytes) (T : StorableKey → Prop)
    (L' : Layers keccak) : Prop where
  below : L.SameBelow L'
  tombstone : ∀ k, T k →
    L'.delta.entries[k.1.rawKey keccak L.deltaPadding]? = some .tombstone
  other : ∀ raw : Bytes, (∀ k, T k → k.1.rawKey keccak L.deltaPadding ≠ raw) →
    L'.delta.entries[raw]? = if deltaPrefix <+: raw then none else L.delta.entries[raw]?

theorem deleted_dropDelta (L : Layers keccak) (deltaPrefix : Bytes) :
    L.Deleted deltaPrefix (fun _ => False) (L.dropDelta deltaPrefix) where
  below := ⟨L.delta.dropPrefix deltaPrefix, rfl⟩
  tombstone := fun _ h => h.elim
  other := fun raw _ => Layer.getElem?_dropPrefix L.delta deltaPrefix raw

theorem Deleted.congr {deltaPrefix : Bytes} {T T' : StorableKey → Prop}
    (h : L.Deleted deltaPrefix T L') (hT : ∀ k, T k ↔ T' k) : L.Deleted deltaPrefix T' L' := by
  obtain rfl : T = T' := funext fun k => propext (hT k)
  exact h

/-- One more tombstone. -/
theorem Deleted.write {deltaPrefix : Bytes} {T : StorableKey → Prop}
    (h : L.Deleted deltaPrefix T L') (k : StorableKey) :
    L.Deleted deltaPrefix (fun k' => T k' ∨ k' = k) (L'.write k.1 .tombstone) := by
  obtain ⟨⟨delta, rfl⟩, htombstone, hother⟩ := h
  have hentries : (delta.write k.1 .tombstone).entries =
      delta.entries.insert (k.1.rawKey keccak L.deltaPadding) .tombstone :=
    Layer.entries_write delta (k.2.deltaKey_eq keccak L.deltaPadding) .tombstone
  refine ⟨⟨delta.write k.1 .tombstone, rfl⟩, fun k' hk' => ?_, fun raw hraw => ?_⟩
  · show (delta.write k.1 .tombstone).entries[_]? = _
    rw [hentries, getElem?_insert_eq]
    by_cases heq : k.1.rawKey keccak L.deltaPadding = k'.1.rawKey keccak L.deltaPadding
    · rw [if_pos heq]
    · rw [if_neg heq]
      rcases hk' with hk' | rfl
      · exact htombstone k' hk'
      · exact absurd rfl heq
  · show (delta.write k.1 .tombstone).entries[_]? = _
    rw [hentries, getElem?_insert_eq, if_neg (hraw k (Or.inr rfl))]
    exact hother raw fun k' hk' => hraw k' (Or.inl hk')

/-- The keys that the intermediate entries `kvs` give tombstones to. -/
def tombIntermediate (L : Layers keccak) (p : StorageKeyWithSpace) (kvs : List Entry)
    (k : StorableKey) : Prop :=
  p.Matches k.1 ∧ ∃ v, (k.1.rawKey keccak L.intermediatePadding, MptValue.some v) ∈ kvs

/-- The keys that the snapshot entries `kvs` give tombstones to. -/
def tombSnapshot (kvs : List MptKeyValue) (k : StorableKey) : Prop :=
  ∃ v, (k.1.canonical, v) ∈ kvs

/-- A round over an intermediate entry writes a tombstone for a matching key with a live record. -/
theorem Keyed.deleteIntermediate_spec (h : L.Keyed Storable) (hp : p.PrefixKey) {e : Entry}
    (he : e ∈ StringMap.scanPrefix L.intermediate.entries
      (p.rawKey keccak L.intermediatePadding)) {deltaPrefix : Bytes} {T : StorableKey → Prop}
    (hL' : L.Deleted deltaPrefix T L') (found : Collected) :
    Ensures (deleteIntermediate set (addressPrefixFilter p) found e) L' fun found' L'' =>
      found' = (selected (addressPrefixFilter p) [e]).foldl Collected.addRecord found ∧
      L.Deleted deltaPrefix (fun k => T k ∨ L.tombIntermediate p [e] k) L'' := by
  obtain ⟨raw, value⟩ := e
  obtain ⟨hmem, hextends⟩ := Layer.mem_of_mem_scanPrefix he
  obtain ⟨k, hk, rfl⟩ := h.intermediate raw (Layer.mem_entries hmem)
  have hmatches := StorageKeyWithSpace.selects_iff hp hk keccak L.intermediatePadding
  rw [and_iff_right hextends] at hmatches
  -- the record is that of `k`
  have htomb : ∀ k', L.tombIntermediate p [(k.rawKey keccak L.intermediatePadding, value)] k' ↔
      p.Matches k ∧ value.visibleValue.isSome ∧ k' = ⟨k, hk⟩ := by
    intro k'
    unfold tombIntermediate
    constructor
    · rintro ⟨hm, v, hv⟩
      obtain ⟨hraw, rfl⟩ := Prod.mk.inj (List.mem_singleton.mp hv)
      obtain rfl : k' = ⟨k, hk⟩ := Subtype.ext
        (StorageKeyWithSpace.rawKey_injective k'.2 hk keccak L.intermediatePadding hraw)
      exact ⟨hm, rfl, rfl⟩
    · rintro ⟨hm, hlive, rfl⟩
      cases value with
      | some v => exact ⟨hm, v, List.mem_singleton.mpr rfl⟩
      | tombstone => cases hlive
  have hcanonical : canonicalOf (k.rawKey keccak L.intermediatePadding) = k.canonical :=
    canonicalOf_rawKey hk L.intermediatePadding
  -- a record that is skipped leaves the layers, and adds nothing to the tombstones
  have hskip : ¬ p.Matches k ∨ value.visibleValue.isSome = false →
      L.Deleted deltaPrefix (fun k' => T k' ∨ L.tombIntermediate p
        [(k.rawKey keccak L.intermediatePadding, value)] k') L' := by
    intro hno
    refine hL'.congr fun k' => (or_iff_left ?_).symm
    rw [htomb]
    rintro ⟨hm, hlive, -⟩
    rcases hno with hno | hno
    · exact hno hm
    · rw [hlive] at hno
      cases hno
  unfold deleteIntermediate
  refine Ensures.lift_bind (hk.fromDeltaMptKey_rawKey keccak L.intermediatePadding) ?_
  refine Ensures.lift_bind hk.toKeyBytes_eq ?_
  rw [selected_cons, hcanonical]
  -- the record is dropped by the filter, is deleted already, or is buried
  cases hfilter : isFiltered (addressPrefixFilter p) _ with
  | true =>
    refine Ensures.pure ⟨rfl, hskip (Or.inl fun hm => ?_)⟩
    rw [hmatches.mpr hm] at hfilter
    cases hfilter
  | false =>
    have hm := hmatches.mp hfilter
    cases hlive : value.visibleValue.isSome with
    | false => exact Ensures.pure ⟨rfl, hskip (Or.inr hlive)⟩
    | true =>
      have hset := exec_set L' hk []
      refine Ensures.bind (Q := fun _ s => s = L'.write k .tombstone) ⟨_, _, hset, rfl⟩ ?_
      rintro _ _ rfl
      refine Ensures.pure ⟨rfl, (hL'.write ⟨_, hk⟩).congr fun k' => or_congr_right ?_⟩
      rw [htomb]
      exact ⟨fun heq => ⟨hm, hlive, heq⟩, fun h => h.2.2⟩

theorem selected_append (addressPrefix : Option Bytes) (kvs kvs' : List Entry) :
    selected addressPrefix (kvs ++ kvs') =
      selected addressPrefix kvs ++ selected addressPrefix kvs' := by
  unfold selected
  rw [List.map_append, List.filter_append]

theorem tombIntermediate_append {kvs kvs' : List Entry} {k : StorableKey} :
    L.tombIntermediate p (kvs ++ kvs') k ↔
      L.tombIntermediate p kvs k ∨ L.tombIntermediate p kvs' k := by
  unfold tombIntermediate
  simp only [List.mem_append]
  rw [exists_or, and_or_left]

theorem tombSnapshot_append {kvs kvs' : List MptKeyValue} {k : StorableKey} :
    tombSnapshot (kvs ++ kvs') k ↔ tombSnapshot kvs k ∨ tombSnapshot kvs' k := by
  unfold tombSnapshot
  simp only [List.mem_append]
  rw [exists_or]

/-- The loop over the intermediate entries. -/
theorem Keyed.foldlM_deleteIntermediate (h : L.Keyed Storable) (hp : p.PrefixKey)
    {deltaPrefix : Bytes} {T : StorableKey → Prop} (hL' : L.Deleted deltaPrefix T L')
    (found : Collected) :
    let kvs := StringMap.scanPrefix L.intermediate.entries (p.rawKey keccak L.intermediatePadding)
    Ensures (kvs.foldlM (deleteIntermediate set (addressPrefixFilter p)) found) L'
      fun found' L'' =>
        found' = (L.intermediate.selected p).foldl Collected.addRecord found ∧
        L.Deleted deltaPrefix (fun k => T k ∨ L.tombIntermediate p kvs k) L'' := by
  intro kvs
  refine Ensures.foldlM (fun done found' L'' =>
    found' = (selected (addressPrefixFilter p) done).foldl Collected.addRecord found ∧
    L.Deleted deltaPrefix (fun k => T k ∨ L.tombIntermediate p done k) L'') kvs ?_ found ?_
  · rintro done e rest _ L₁ hkvs ⟨rfl, hL₁⟩
    have he : e ∈ kvs := by simp [hkvs]
    obtain ⟨found', L₂, hexec, hfound, hL₂⟩ := h.deleteIntermediate_spec hp he hL₁ _
    refine ⟨found', L₂, hexec, ?_, hL₂.congr fun k => ?_⟩
    · rw [hfound, selected_append, List.foldl_append]
    · rw [tombIntermediate_append, or_assoc]
  · refine ⟨rfl, hL'.congr fun k => (or_iff_left ?_).symm⟩
    rintro ⟨-, v, hv⟩
    exact absurd hv List.not_mem_nil

/-- A round over a snapshot entry writes a tombstone for its key. -/
theorem Keyed.deleteSnapshot_spec (h : L.Keyed Full) {e : MptKeyValue}
    (he : e ∈ L.snapshot.toList) {deltaPrefix : Bytes} {T : StorableKey → Prop}
    (hL' : L.Deleted deltaPrefix T L') (found : Collected) :
    Ensures (deleteSnapshot set found e) L' fun found' L'' =>
      found' = found.addRecord (e.1, some e.2) ∧
      L.Deleted deltaPrefix (fun k => T k ∨ tombSnapshot [e] k) L'' := by
  obtain ⟨c, v⟩ := e
  have hmem : c ∈ L.snapshot :=
    ExtTreeMap.mem_iff_isSome_getElem?.mpr (by simp [StringMap.mem_toList.mp he])
  obtain ⟨k, hk, rfl⟩ := h.snapshot c hmem
  have hset := exec_set L' (Or.inl hk) []
  unfold deleteSnapshot
  apply Ensures.lift_bind hk.fromKeyBytes_canonical
  refine Ensures.bind (Q := fun _ s => s = L'.write k .tombstone) ⟨_, _, hset, rfl⟩ ?_
  rintro _ _ rfl
  refine Ensures.pure ⟨rfl, (hL'.write ⟨k, Or.inl hk⟩).congr fun k' => or_congr_right ?_⟩
  unfold tombSnapshot
  constructor
  · rintro rfl
    exact ⟨v, List.mem_singleton.mpr rfl⟩
  · rintro ⟨v', hv'⟩
    obtain ⟨hcanonical, -⟩ := Prod.mk.inj (List.mem_singleton.mp hv')
    exact Subtype.ext (StorageKeyWithSpace.canonical_injective k'.2 (Or.inl hk) hcanonical)

/-- The loop over the snapshot entries. -/
theorem Keyed.foldlM_deleteSnapshot (h : L.Keyed Full) {deltaPrefix : Bytes}
    {T : StorableKey → Prop} (hL' : L.Deleted deltaPrefix T L') (canonicalPrefix : Bytes)
    (found : Collected) :
    Ensures ((L.snapshotKvs canonicalPrefix).foldlM (deleteSnapshot set) found) L'
      fun found' L'' =>
        found' = ((L.snapshotKvs canonicalPrefix).map fun e => (e.1, some e.2)).foldl
          Collected.addRecord found ∧
        L.Deleted deltaPrefix (fun k => T k ∨ tombSnapshot (L.snapshotKvs canonicalPrefix) k)
          L'' := by
  refine Ensures.foldlM (fun done found' L'' =>
    found' = (done.map fun e => (e.1, some e.2)).foldl Collected.addRecord found ∧
    L.Deleted deltaPrefix (fun k => T k ∨ tombSnapshot done k) L'') _ ?_ found ?_
  · rintro done e rest _ L₁ hkvs ⟨rfl, hL₁⟩
    have he : e ∈ L.snapshotKvs canonicalPrefix := by simp [hkvs]
    obtain ⟨found', L₂, hexec, hfound, hL₂⟩ :=
      h.deleteSnapshot_spec (List.mem_of_mem_filter he) hL₁ _
    refine ⟨found', L₂, hexec, ?_, hL₂.congr fun k => ?_⟩
    · rw [hfound, List.map_append, List.foldl_append]
      rfl
    · rw [tombSnapshot_append, or_assoc]
  · refine ⟨rfl, hL'.congr fun k => (or_iff_left ?_).symm⟩
    rintro ⟨v, hv⟩
    exact absurd hv List.not_mem_nil

/-! ## The whole delete -/

/-- The matching keys that the layers below the delta hold: those that need a tombstone. -/
def Buried (L : Layers keccak) (p : StorageKeyWithSpace) (k : StorableKey) : Prop :=
  p.Matches k.1 ∧ ((∃ v, L.intermediate.overlay k = some (some v)) ∨ ∃ v, L.below k = some v)

theorem mem_scanPrefix_intermediate (hp : p.PrefixKey) {k : StorableKey} {value : MptValue}
    (hm : p.Matches k.1) :
    (k.1.rawKey keccak L.intermediatePadding, value) ∈
      StringMap.scanPrefix L.intermediate.entries (p.rawKey keccak L.intermediatePadding) ↔
    L.intermediate.entries[k.1.rawKey keccak L.intermediatePadding]? = some value := by
  have hextends := ((StorageKeyWithSpace.selects_iff hp k.2 keccak L.intermediatePadding).mpr hm).1
  rw [StringMap.scanPrefix_eq_filter, List.mem_filter, StringMap.mem_toList]
  exact and_iff_left (decide_eq_true hextends)

/-- The two loops write tombstones for the keys that need one. -/
theorem buried_iff (hp : p.PrefixKey) (k : StorableKey) :
    L.tombIntermediate p (StringMap.scanPrefix L.intermediate.entries
      (p.rawKey keccak L.intermediatePadding)) k ∨ tombSnapshot (L.snapshotKvs p.canonical) k ↔
      L.Buried p k := by
  have hsnapshot : tombSnapshot (L.snapshotKvs p.canonical) k ↔
      p.Matches k.1 ∧ ∃ v, L.below k = some v := by
    unfold tombSnapshot snapshotKvs below
    simp only [List.mem_filter, decide_eq_true_eq, StringMap.mem_toList]
    rw [exists_and_right, and_comm]
    rfl
  have hintermediate : L.tombIntermediate p (StringMap.scanPrefix L.intermediate.entries
      (p.rawKey keccak L.intermediatePadding)) k ↔
        p.Matches k.1 ∧ ∃ v, L.intermediate.overlay k = some (some v) := by
    unfold tombIntermediate
    refine and_congr_right fun hm => exists_congr fun v => ?_
    rw [mem_scanPrefix_intermediate hp hm]
    unfold Layer.overlay
    rw [Option.map_eq_some_iff]
    constructor
    · intro hget
      exact ⟨.some v, hget, rfl⟩
    · rintro ⟨value, hget, hvisible⟩
      cases value with
      | some v' => rw [hget, Option.some.inj hvisible]
      | tombstone => cases hvisible
  rw [hsnapshot, hintermediate, ← and_or_left]
  rfl

/-- **A prefix delete, loop by loop.** It returns what a prefix read returns, drops the selected
delta records and writes tombstones for the matching keys below. -/
theorem Keyed.deletePrefix_spec (h : L.Keyed Full) (hp : p.PrefixKey) :
    Ensures (deletePrefix p) L fun values L' =>
      L.readPrefix p = .ok values ∧
      L.Deleted (p.rawKey keccak L.deltaPadding) (L.Buried p) L' := by
  have hstorable : L.Keyed Storable := h.mono fun _ => Or.inl
  unfold deletePrefix
  refine Ensures.lift_bind hp.toKeyBytes_eq (Ensures.read ?_)
  refine Ensures.lift_bind (hp.deltaKey_eq keccak L.deltaPadding) ?_
  refine Ensures.lift_bind (hp.deltaKey_eq keccak L.intermediatePadding) ?_
  refine Ensures.bind (Q := fun _ L' => L.Deleted _ (fun _ => False) L')
    (Ensures.update (L.deleted_dropDelta _)) fun _ L₁ hL₁ => ?_
  refine Ensures.lift_bind hstorable.collectDeltaKvs_eq ?_
  refine (hstorable.foldlM_deleteIntermediate hp hL₁ _).bind ?_
  rintro _ L₂ ⟨rfl, hL₂⟩
  refine (h.foldlM_deleteSnapshot hL₂ p.canonical _).bind ?_
  rintro _ L₃ ⟨rfl, hL₃⟩
  refine Ensures.pure ⟨?_, hL₃.congr fun k => ?_⟩
  · rw [hstorable.readPrefix_eq hp, records, List.foldl_append, List.foldl_append]
    rfl
  · rw [false_or, buried_iff hp]

/-! ## Reads after a delete -/

/-- Over the same lower layers, a key is read from the delta or else from these. -/
theorem SameBelow.view_eq (h : L.SameBelow L') (k : StorableKey) :
    L'.view k = ((L'.delta.entries[k.1.rawKey keccak L.deltaPadding]?).map
      MptValue.visibleValue).getD (L.intermediate.overlay.onto L.below k) := by
  obtain ⟨delta, rfl⟩ := h
  rfl

/-- A matching key reads as deleted. -/
theorem Deleted.view_of_matches
    (h : L.Deleted (p.rawKey keccak L.deltaPadding) (L.Buried p) L') (hp : p.PrefixKey)
    {k : StorableKey} (hm : p.Matches k.1) : L'.view k = none := by
  rw [h.below.view_eq]
  by_cases hburied : L.Buried p k
  · rw [h.tombstone k hburied]
    rfl
  · have hextends := ((StorageKeyWithSpace.selects_iff hp k.2 keccak L.deltaPadding).mpr hm).1
    have hother := h.other (k.1.rawKey keccak L.deltaPadding) fun k' hk' heq => hburied
      (Subtype.ext (StorageKeyWithSpace.rawKey_injective k'.2 k.2 keccak _ heq) ▸ hk')
    rw [hother, if_pos hextends]
    show L.intermediate.overlay.onto L.below k = none
    -- without a tombstone there is nothing to uncover
    unfold Overlay.onto
    cases hintermediate : L.intermediate.overlay k with
    | some r =>
      cases r with
      | some v => exact absurd ⟨hm, Or.inl ⟨v, hintermediate⟩⟩ hburied
      | none => rfl
    | none =>
      cases hbelow : L.below k with
      | some v => exact absurd ⟨hm, Or.inr ⟨v, hbelow⟩⟩ hburied
      | none => rfl

/-- A key outside the prefix shares no delta encoding with a full key that matches. -/
theorem rawKey_ne_of_not_matches {q : StorageKeyWithSpace}
    (hq : p.Misses q) {padding : DeltaMptKeyPadding}
    {raw : Bytes} (hraw : q.deltaKey keccak padding = .ok raw) {k : StorageKeyWithSpace}
    (hk : k.Full) (hm : p.Matches k) : k.rawKey keccak padding ≠ raw := by
  rintro rfl
  have hkey := StorageKeyWithSpace.fromDeltaMptKey_deltaKey keccak hraw
  rw [Storable.fromDeltaMptKey_rawKey (Or.inl hk)] at hkey
  have hcanonical :=
    StorageKeyWithSpace.toKeyBytes_normalize keccak hraw (hk.rawKey_ne_nil keccak padding)
  rw [← Except.ok.inj hkey, Storable.toKeyBytes_eq (Or.inl hk)] at hcanonical
  exact hq k.canonical hcanonical.symm hm

/-- Only full keys are buried in layers of full keys. -/
theorem Keyed.full_of_buried (h : L.Keyed Full) {k : StorableKey} (hk : L.Buried p k) :
    k.1.Full := by
  rcases hk.2 with ⟨v, hv⟩ | ⟨v, hv⟩
  · obtain ⟨value, hget, -⟩ := Option.map_eq_some_iff.mp hv
    obtain ⟨k', hk', heq⟩ := h.intermediate _
      (ExtTreeMap.mem_iff_isSome_getElem?.mpr (by rw [hget]; rfl))
    rwa [← StorageKeyWithSpace.rawKey_injective (Or.inl hk') k.2 keccak _ heq]
  · obtain ⟨k', hk', heq⟩ := h.snapshot k.1.canonical
      (ExtTreeMap.mem_iff_isSome_getElem?.mpr (by rw [show L.snapshot[_]? = _ from hv]; rfl))
    rwa [← StorageKeyWithSpace.canonical_injective (Or.inl hk') k.2 heq]

/-- Outside the prefix a delete only drops the delta records that the scan selects. -/
theorem Deleted.getElem?_delta
    (h : L.Deleted (p.rawKey keccak L.deltaPadding) (L.Buried p) L') (hL : L.Keyed Full)
    {q : StorageKeyWithSpace} (hq : p.Misses q) {raw : Bytes}
    (hraw : q.deltaKey keccak L.deltaPadding = .ok raw) :
    L'.delta.entries[raw]? =
      if p.rawKey keccak L.deltaPadding <+: raw then none else L.delta.entries[raw]? :=
  h.other raw fun _ hk => rawKey_ne_of_not_matches hq hraw (hL.full_of_buried hk) hk.1

/-- What the layers below the delta hold. -/
def getBelow (L : Layers keccak) (key : StorageKeyWithSpace) : Except Error (Option Bytes) := do
  let intermediateKey ← key.deltaKey keccak L.intermediatePadding
  match L.intermediate.entries[intermediateKey]? with
  | some value => return value.visibleValue
  | none =>
    let canonical ← key.toKeyBytes
    return L.snapshot[canonical]?

section Get

variable {q : StorageKeyWithSpace} {raw : Bytes}

/-- Over the same lower layers, a read looks in the delta or else below. -/
theorem SameBelow.get_eq (h : L.SameBelow L') (q : StorageKeyWithSpace) :
    L'.get q = (q.deltaKey keccak L.deltaPadding).bind fun raw =>
      L'.delta.entries[raw]?.elim (L.getBelow q) fun value => .ok value.visibleValue := by
  obtain ⟨delta, rfl⟩ := h
  show (q.deltaKey keccak L.deltaPadding).bind _ = _
  refine congrArg _ (funext fun raw => ?_)
  dsimp only
  cases delta.entries[raw]? <;> rfl

theorem SameBelow.get_of_record (h : L.SameBelow L') {value : MptValue}
    (hraw : q.deltaKey keccak L.deltaPadding = .ok raw)
    (hvalue : L'.delta.entries[raw]? = some value) : L'.get q = .ok value.visibleValue := by
  rw [h.get_eq, hraw, Except.bind, hvalue]
  rfl

theorem SameBelow.get_of_none (h : L.SameBelow L')
    (hraw : q.deltaKey keccak L.deltaPadding = .ok raw) (hnone : L'.delta.entries[raw]? = none) :
    L'.get q = L.getBelow q := by
  rw [h.get_eq, hraw, Except.bind, hnone]
  rfl

theorem SameBelow.get_of_error (h : L.SameBelow L') {e : Error}
    (herror : q.deltaKey keccak L.deltaPadding = .error e) : L'.get q = L.getBelow q := by
  rw [h.get_eq, getBelow, herror, StorageKeyWithSpace.deltaKey_eq_error keccak herror]
  rfl

end Get

/-- A field prefix does not touch its neighbours. -/
theorem Deleted.get_of_fieldPrefix
    (h : L.Deleted (p.rawKey keccak L.deltaPadding) (L.Buried p) L') (hL : L.Keyed Full)
    (hp : p.FieldPrefix) {q : StorageKeyWithSpace}
    (hq : p.Misses q) : L'.get q = L.get q := by
  have hself : L.SameBelow L := ⟨L.delta, rfl⟩
  cases hraw : q.deltaKey keccak L.deltaPadding with
  | error e => rw [h.below.get_of_error hraw, hself.get_of_error hraw]
  | ok raw =>
    have hdelta : L'.delta.entries[raw]? = L.delta.entries[raw]? := by
      rw [h.getElem?_delta hL hq hraw]
      split
      · next hextends =>
        -- a record under the prefix would be that of a matching key
        by_contra hne
        have hmem : raw ∈ L.delta.entries := by
          rw [ExtTreeMap.mem_iff_isSome_getElem?, Option.isSome_iff_ne_none]
          exact Ne.symm hne
        obtain ⟨k, hk, rfl⟩ := hL.delta raw hmem
        have hm := (StorageKeyWithSpace.rawKey_isPrefix_iff hp (Or.inl hk) keccak _).mp hextends
        exact rawKey_ne_of_not_matches hq hraw hk hm rfl
      · rfl
    cases hget : L.delta.entries[raw]? with
    | some value =>
      rw [h.below.get_of_record hraw (hdelta.trans hget), hself.get_of_record hraw hget]
    | none => rw [h.below.get_of_none hraw (hdelta.trans hget), hself.get_of_none hraw hget]

/-- A byte prefix uncovers the layers below for the keys that do not match. -/
theorem Deleted.get_of_bytePrefix
    (h : L.Deleted (p.rawKey keccak L.deltaPadding) (L.Buried p) L') (hL : L.Keyed Full)
    (hp : p.BytePrefix) {q : StorageKeyWithSpace}
    (hq : p.Misses q) : L'.get q = L.getBelow q := by
  cases hraw : q.deltaKey keccak L.deltaPadding with
  | error e => exact h.below.get_of_error hraw
  | ok raw =>
    apply h.below.get_of_none hraw
    rw [h.getElem?_delta hL hq hraw,
      StorageKeyWithSpace.rawKey_of_deltaKey (hp.deltaKey_eq keccak L.deltaPadding)]
    exact if_pos List.nil_prefix

end Layers

/-! ## Prefix deletes of the state -/

namespace State

variable (keccak)

/-- Every key of the three layers is full. -/
structure FullKeys (s : State) : Prop where
  snapshot : ∀ c ∈ s.snapshot.toCanonicalMap,
    ∃ k : StorageKeyWithSpace, k.Full ∧ k.toKeyBytes = .ok c
  intermediate : ∀ raw ∈ s.intermediate,
    ∃ k : StorageKeyWithSpace, k.Full ∧ k.deltaKey keccak s.intermediatePadding = .ok raw
  delta : ∀ raw ∈ s.delta,
    ∃ k : StorageKeyWithSpace, k.Full ∧ k.deltaKey keccak s.deltaPadding = .ok raw

/-- The layers below the delta, the roots, the paddings and the height are the same. -/
structure SameBelow (s s' : State) : Prop where
  snapshot : s'.snapshot.toCanonicalMap = s.snapshot.toCanonicalMap
  intermediate : s'.intermediate = s.intermediate
  snapshotRoot : s'.snapshotRoot = s.snapshotRoot
  intermediateRoot : s'.intermediateRoot = s.intermediateRoot
  intermediatePadding : s'.intermediatePadding = s.intermediatePadding
  deltaPadding : s'.deltaPadding = s.deltaPadding
  height : s'.height = s.height

/-- The intermediate record of a key, or else its snapshot value. -/
def getBelow (s : State) (key : StorageKeyWithSpace) : Except Error (Option Bytes) := do
  let intermediateKey ← key.deltaKey keccak s.intermediatePadding
  match s.intermediate[intermediateKey]? with
  | some value => return value.visibleValue
  | none =>
    let canonical ← key.toKeyBytes
    return s.snapshot.snapshotGetOwned canonical

/-- What a delete of `p` from `s` leaves in `s'`: the matching keys read as deleted, and the keys
that `p` misses read as before under a field prefix and from the lower layers under a byte
prefix. -/
structure Deletes (s : State) (p : StorageKeyWithSpace) (s' : State) : Prop where
  below : s.SameBelow s'
  matching : ∀ k : StorageKeyWithSpace, k.Storable → p.Matches k →
    (step keccak s' (.get k)).1 = .ok (.value none)
  untouched : p.FieldPrefix → ∀ q : StorageKeyWithSpace, p.Misses q →
    (step keccak s' (.get q)).1 = (step keccak s (.get q)).1
  uncovered : p.BytePrefix → ∀ q : StorageKeyWithSpace, p.Misses q →
    (step keccak s' (.get q)).1 = (getBelow keccak s q).map Reply.value

variable {keccak} {s s' : State} {L L' : Layers keccak}

theorem Represents.keyed_full (h : s.Represents keccak L) (hs : s.FullKeys keccak) :
    L.Keyed Full where
  snapshot := by
    rw [← h.snapshot.toCanonicalMap]
    intro c hc
    obtain ⟨k, hk, hkey⟩ := hs.snapshot c hc
    exact ⟨k, hk, StorageKeyWithSpace.canonical_of_toKeyBytes hkey⟩
  intermediate := by
    intro raw hraw
    rw [← h.intermediate] at hraw
    obtain ⟨k, hk, hkey⟩ := hs.intermediate raw hraw
    rw [h.intermediatePadding] at hkey
    exact ⟨k, hk, StorageKeyWithSpace.rawKey_of_deltaKey hkey⟩
  delta := by
    intro raw hraw
    rw [← h.delta] at hraw
    obtain ⟨k, hk, hkey⟩ := hs.delta raw hraw
    rw [h.deltaPadding] at hkey
    exact ⟨k, hk, StorageKeyWithSpace.rawKey_of_deltaKey hkey⟩

/-- States of keyed layers have full keys. -/
theorem Represents.fullKeys (h : s.Represents keccak L) (hL : L.Keyed Full) :
    s.FullKeys keccak where
  snapshot := by
    rw [h.snapshot.toCanonicalMap]
    intro c hc
    obtain ⟨k, hk, rfl⟩ := hL.snapshot c hc
    exact ⟨k, hk, Storable.toKeyBytes_eq (Or.inl hk)⟩
  intermediate := by
    rw [h.intermediate, h.intermediatePadding]
    intro raw hraw
    obtain ⟨k, hk, rfl⟩ := hL.intermediate raw hraw
    exact ⟨k, hk, Storable.deltaKey_eq (Or.inl hk) keccak _⟩
  delta := by
    rw [h.delta, h.deltaPadding]
    intro raw hraw
    obtain ⟨k, hk, rfl⟩ := hL.delta raw hraw
    exact ⟨k, hk, Storable.deltaKey_eq (Or.inl hk) keccak _⟩

theorem Represents.sameBelow (h : s.Represents keccak L) (h' : s'.Represents keccak L')
    (hL : L.SameBelow L') : s.SameBelow s' := by
  obtain ⟨delta, rfl⟩ := hL
  exact {
    snapshot := h'.snapshot.toCanonicalMap.trans h.snapshot.toCanonicalMap.symm
    intermediate := h'.intermediate.trans h.intermediate.symm
    snapshotRoot := h'.snapshotRoot.trans h.snapshotRoot.symm
    intermediateRoot := h'.intermediateRoot.trans h.intermediateRoot.symm
    intermediatePadding := h'.intermediatePadding.trans h.intermediatePadding.symm
    deltaPadding := h'.deltaPadding.trans h.deltaPadding.symm
    height := h'.height.trans h.height.symm }

theorem Represents.getBelow_eq (h : s.Represents keccak L) (key : StorageKeyWithSpace) :
    getBelow keccak s key = L.getBelow key := by
  unfold getBelow Layers.getBelow
  rw [h.intermediate, h.intermediatePadding]
  simp only [h.snapshot.snapshotGetOwned]

/-- A prefix delete of the state is a prefix delete of its layers. -/
theorem Represents.deletes (h : s.Represents keccak L) (h' : s'.Represents keccak L')
    (hL : L.Keyed Full) {p : StorageKeyWithSpace} (hp : p.PrefixKey)
    (hdeleted : L.Deleted (p.rawKey keccak L.deltaPadding) (L.Buried p) L') :
    Deletes keccak s p s' where
  below := h.sameBelow h' hdeleted.below
  matching := by
    intro k hk hm
    rw [h'.get_reply, L'.get_eq_view ⟨k, hk⟩, hdeleted.view_of_matches hp hm]
    rfl
  untouched := by
    intro hfield q hq
    rw [h'.get_reply, h.get_reply, hdeleted.get_of_fieldPrefix hL hfield hq]
  uncovered := by
    intro hbyte q hq
    rw [h'.get_reply, h.getBelow_eq, hdeleted.get_of_bytePrefix hL hbyte hq]

variable (keccak) in
/-- **A prefix delete returns what a prefix read returns and deletes exactly that.** In every
reachable state of full keys the two calls return alike and without an error. The delete makes the
matching keys read as deleted, and leaves the snapshot, the intermediate layer, their roots, the
paddings and the height alone. Under a field prefix every other key reads as before; under a byte
prefix the delta records of the other keys are lost. -/
theorem deleteAllByPrefix_spec (origin : Origin) (ops : List Op) (p : StorageKeyWithSpace)
    (hp : p.PrefixKey) :
    let s := Machine.final (step keccak) (origin.state keccak) ops
    FullKeys keccak s →
    (∃ values, (step keccak s (.getAllByPrefix p)).1 = .ok (.entries values) ∧
      (step keccak s (.deleteAllByPrefix p)).1 = .ok (.entries values)) ∧
    Deletes keccak s p (step keccak s (.deleteAllByPrefix p)).2 := by
  intro s hs
  obtain ⟨L, hrep⟩ := exists_represents_final keccak origin ops
  have hL := hrep.keyed_full hs
  obtain ⟨values, L', hexec, hread, hdeleted⟩ := hL.deletePrefix_spec hp
  have hstep : L.step (.deleteAllByPrefix p) = (.ok (.entries (nonEmpty values)), L') := by
    refine Fallible.exec_bind_ok (a := nonEmpty values) ?_
    exact Fallible.exec_bind_ok hexec
  have hnext : State.Represents keccak (step keccak s (.deleteAllByPrefix p)).2
      (L.step (.deleteAllByPrefix p)).2 := simulation.next trivial hrep
  rw [hstep] at hnext
  refine ⟨⟨nonEmpty values, ?_, ?_⟩, hrep.deletes hnext hL hp hdeleted⟩
  · rw [hrep.getAllByPrefix_reply, Layers.getAllByPrefix, hread]
    rfl
  · rw [simulation.reply trivial hrep, hstep]

/-- Runs that set full keys only meet the condition on the stored keys. -/
theorem fullKeys_final {origin : Origin} (horigin : origin.Keyed Full) {ops : List Op}
    (hops : ∀ op ∈ ops, Layers.Sets Full op) :
    FullKeys keccak (Machine.final (step keccak) (origin.state keccak) ops) := by
  obtain ⟨L, hrep, hL⟩ := exists_keyed_final keccak Layers.writable_full horigin hops
  exact hrep.fullKeys hL

/-- Two accounts of which one is deleted. -/
theorem deleteAllByPrefix_spec_account :
    let p : StorageKeyWithSpace := ⟨.account (List.replicate accountBytes 1), .native⟩
    let s := Machine.final (step keccak256) (Origin.new.state keccak256)
      [.set p [7], .set ⟨.account (List.replicate accountBytes 2), .native⟩ [8], .commit]
    (∃ values, (step keccak256 s (.getAllByPrefix p)).1 = .ok (.entries values) ∧
      (step keccak256 s (.deleteAllByPrefix p)).1 = .ok (.entries values)) ∧
    Deletes keccak256 s p (step keccak256 s (.deleteAllByPrefix p)).2 := by
  intro p s
  have hfull : ∀ byte : UInt8,
      Full ⟨.account (List.replicate accountBytes byte), .native⟩ :=
    fun byte => List.length_replicate
  refine deleteAllByPrefix_spec keccak256 .new _ _ (Or.inl ⟨hfull 1, ?_⟩)
    (fullKeys_final (show Origin.new.Keyed Full from trivial) ?_)
  · intro address storageKey h
    cases h
  · intro op hop
    rcases List.mem_cons.mp hop with rfl | hop
    · exact hfull 1
    · rcases List.mem_cons.mp hop with rfl | hop
      · exact hfull 2
      · obtain rfl := List.mem_singleton.mp hop
        trivial

end State

end MinimalMpt
