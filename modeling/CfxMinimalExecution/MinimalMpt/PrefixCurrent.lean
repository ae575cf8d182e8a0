import CfxMinimalExecution.MinimalMpt.FailedCalls
import CfxMinimalExecution.MinimalMpt.PrefixDelete
import CfxMinimalExecution.MinimalMpt.PrefixReach

/-!
# Stale results of prefix operations

A prefix operation returns the first record that it finds of a canonical key. That is the current
one, unless the prefix reaches the key in the snapshot only: an incomplete storage key misses the
records of the upper layers.

## Main definitions

* `Layers.Finds`: where a returned pair has been found
* `State.Unrecorded`: the upper layers hold no record of a canonical key
* `State.HasPair`: a key with a canonical encoding is read as a value

## Main results

* `Layers.finds_of_readPrefix`: every returned pair has been found in a layer
* `State.prefixPairs_spec`: what is returned is current, and is deleted
* `State.not_prefixPairs`: an incomplete storage key returns the value of a deleted key
-/

open Std (ExtTreeMap ExtTreeSet)
open Fallible (exec)
open Radix (valueAt valueAt_append valueAt_cons mem_of_valueAt)

namespace MinimalMpt

open StorageKeyWithSpace (fromDeltaMptKey fromKeyBytes Addressed BytePrefix Full)

/-! ## The loops -/

namespace Collected

theorem mem_seen_addRecord {found : Collected} {r : Record} {c : Bytes} :
    c ∈ (found.addRecord r).seen ↔ r.1 = c ∨ c ∈ found.seen := by
  unfold addRecord add
  split
  · next hseen =>
    refine (or_iff_right_of_imp ?_).symm
    rintro rfl
    exact ExtTreeSet.mem_iff_contains.mpr hseen
  · rw [seen_push, mem_seen_mark]

theorem mem_result_addRecord {found : Collected} {r : Record} {c v : Bytes}
    (h : (c, v) ∈ (found.addRecord r).result) :
    (c, v) ∈ found.result ∨ (c ∉ found.seen ∧ r = (c, some v)) := by
  obtain ⟨c', r⟩ := r
  unfold addRecord add at h
  split at h
  · exact .inl h
  · next hseen =>
    rcases mem_push.mp h with hold | ⟨rfl, rfl⟩
    · exact .inl hold
    · exact .inr ⟨fun hmem => hseen (ExtTreeSet.mem_iff_contains.mp hmem), rfl⟩

/-- What the rounds over the lower layers add is the first record of a key not seen above. -/
theorem mem_result_foldl {records : List Record} {found : Collected} {c v : Bytes}
    (h : (c, v) ∈ (records.foldl addRecord found).result) :
    (c, v) ∈ found.result ∨ (c ∉ found.seen ∧ valueAt records c = some (some v)) := by
  induction records generalizing found with
  | nil => exact .inl h
  | cons r records ih =>
    rcases ih h with hfirst | ⟨hunseen, hvalue⟩
    · refine (mem_result_addRecord hfirst).imp_right ?_
      rintro ⟨hunseen, rfl⟩
      exact ⟨hunseen, by rw [valueAt_cons, if_pos rfl]⟩
    · rw [mem_seen_addRecord, not_or] at hunseen
      refine .inr ⟨hunseen.2, ?_⟩
      rwa [valueAt_cons, if_neg hunseen.1]

/-- The rounds over the delta mark every key and return every live record. -/
theorem foldl_overwrite (records : List Record) (found : Collected) :
    (∀ c, c ∈ (records.foldl overwrite found).seen ↔
      c ∈ found.seen ∨ ∃ r, (c, r) ∈ records) ∧
    ∀ c v, (c, v) ∈ (records.foldl overwrite found).result ↔
      (c, v) ∈ found.result ∨ (c, some v) ∈ records := by
  induction records generalizing found with
  | nil => simp
  | cons r records ih =>
    obtain ⟨hseen, hresult⟩ := ih (found.overwrite r)
    refine ⟨fun c => ?_, fun c v => ?_⟩
    · rw [List.foldl_cons, hseen, overwrite, seen_push, mem_seen_mark]
      obtain ⟨c', r⟩ := r
      simp only [List.mem_cons, Prod.mk.injEq]
      grind
    · rw [List.foldl_cons, hresult, overwrite, mem_push]
      obtain ⟨c', r⟩ := r
      simp only [List.mem_cons, Prod.mk.injEq]
      have hmark : (c, v) ∈ (found.mark c').result ↔ (c, v) ∈ found.result := Iff.rfl
      grind

end Collected

/-! ## What a layer contributes -/

variable {keccak : Bytes → H256}

section Layer

variable {padding : DeltaMptKeyPadding} {l : Layer keccak padding} {p : StorageKeyWithSpace}

/-- The record of a key. -/
def Layer.recordOf (l : Layer keccak padding) (k : StorageKeyWithSpace) : Option (Option Bytes) :=
  l.entries[k.rawKey keccak padding]?.map MptValue.visibleValue

/-- The canonical key of the record of a key. -/
theorem canonicalOf_rawKey_of_addressed {k : StorageKeyWithSpace} (hk : k.Addressed)
    (padding : DeltaMptKeyPadding) : canonicalOf (k.rawKey keccak padding) = k.canonical := by
  obtain ⟨-, hempty, hbytes⟩ := hk.record
  obtain ⟨-, -, hcodec⟩ := StorageKeyWithSpace.keyCodec_spec keccak
  obtain ⟨k', c, hdecode, hc, hkc⟩ := hcodec k padding _ hempty hbytes (hk.deltaKey_eq keccak padding)
  unfold canonicalOf
  rw [hdecode, Except.bind, hc, StorageKeyWithSpace.canonical_of_toKeyBytes hkc]
  rfl

/-- Every record is that of a key with both encodings. -/
theorem Layer.exists_addressed {raw : Bytes} (hraw : raw ∈ l.entries) :
    ∃ k : StorageKeyWithSpace, k.Addressed ∧ k.rawKey keccak padding = raw := by
  obtain ⟨key, hkey⟩ := l.encoded raw hraw
  rcases StorageKeyWithSpace.deltaKey_cases keccak hkey with hlen | hshort | ⟨-, rfl⟩
  · exact ⟨key, .inl hlen, StorageKeyWithSpace.rawKey_of_deltaKey hkey⟩
  · obtain ⟨bytes, space, rfl, hlen, -⟩ := hshort
    exact ⟨_, .inr ⟨bytes, space, rfl, hlen⟩, StorageKeyWithSpace.rawKey_of_deltaKey hkey⟩
  · -- a byte prefix is written where the account with no bytes is
    exact ⟨⟨.account [], .native⟩, .inr ⟨[], .native, rfl, by decide⟩, rfl⟩

/-- The records that the loop over a layer looks at, by key. -/
theorem Layer.mem_selected_iff {c : Bytes} {r : Option Bytes} : (c, r) ∈ l.selected p ↔
    ∃ k : StorageKeyWithSpace, k.Addressed ∧ k.canonical = c ∧ p.Selects keccak padding k ∧
      l.recordOf k = some r := by
  unfold Layer.selected MinimalMpt.selected Layer.recordOf StorageKeyWithSpace.Selects
  rw [List.mem_filter, List.mem_map]
  constructor
  · rintro ⟨⟨⟨raw, value⟩, he, heq⟩, hfilter⟩
    obtain ⟨rfl, rfl⟩ := Prod.mk.inj heq
    obtain ⟨hmem, hextends⟩ := Layer.mem_of_mem_scanPrefix he
    obtain ⟨k, hk, rfl⟩ := Layer.exists_addressed (Layer.mem_entries hmem)
    have hcanonical : canonicalOf (k.rawKey keccak padding) = k.canonical :=
      canonicalOf_rawKey_of_addressed hk padding
    rw [hcanonical] at hfilter ⊢
    refine ⟨k, hk, rfl, ⟨hextends, by simpa using hfilter⟩, ?_⟩
    rw [StringMap.mem_toList.mp hmem, Option.map_some]
  · rintro ⟨k, hk, rfl, ⟨hextends, hfilter⟩, hrecord⟩
    obtain ⟨value, hvalue, rfl⟩ := Option.map_eq_some_iff.mp hrecord
    refine ⟨⟨(k.rawKey keccak padding, value), ?_, ?_⟩, by simpa using hfilter⟩
    · rw [StringMap.scanPrefix_eq_filter, List.mem_filter]
      exact ⟨StringMap.mem_toList.mpr hvalue, decide_eq_true hextends⟩
    · rw [canonicalOf_rawKey_of_addressed hk]

end Layer

/-! ## Prefix reads -/

namespace Layers

variable {L L' : Layers keccak} {p k : StorageKeyWithSpace} {values : List MptKeyValue}

/-- A read of a key looks for its first record, and then in the snapshot. -/
theorem get_eq_of_addressed (L : Layers keccak) (hk : k.Addressed) :
    L.get k = .ok ((L.delta.recordOf k).getD
      ((L.intermediate.recordOf k).getD L.snapshot[k.canonical]?)) := by
  unfold get Layer.recordOf
  rw [hk.deltaKey_eq, Except.ok_bind]
  show _ = Except.ok ((L.delta.entries[k.rawKey keccak L.deltaPadding]?.map _).getD _)
  cases L.delta.entries[k.rawKey keccak L.deltaPadding]? with
  | some value => rfl
  | none =>
    dsimp only
    rw [hk.deltaKey_eq, Except.ok_bind]
    cases L.intermediate.entries[k.rawKey keccak L.intermediatePadding]? with
    | some value => rfl
    | none =>
      dsimp only
      rw [hk.toKeyBytes_eq, Except.ok_bind]
      rfl

/-- Where a prefix operation finds the pair `(c, v)`: in the first layer that has a record of `c`
under the prefix. -/
inductive Finds (L : Layers keccak) (p : StorageKeyWithSpace) (c v : Bytes) : Prop
  | delta (h : (c, some v) ∈ L.delta.selected p)
  | intermediate (hdelta : ∀ r, (c, r) ∉ L.delta.selected p)
      (h : (c, some v) ∈ L.intermediate.selected p)
  | snapshot (hdelta : ∀ r, (c, r) ∉ L.delta.selected p)
      (hintermediate : ∀ r, (c, r) ∉ L.intermediate.selected p)
      (h : (c, some v) ∈ L.snapshotRecords p)

/-- A prefix that can be encoded. -/
theorem addressed_or_bytePrefix {padding : DeltaMptKeyPadding} {raw : Bytes}
    (h : p.deltaKey keccak padding = .ok raw) : p.Addressed ∨ p.BytePrefix := by
  rcases StorageKeyWithSpace.deltaKey_cases keccak h with hlen | ⟨bytes, space, rfl, hlen, -⟩ |
    ⟨⟨space, rfl | ⟨bytes, rfl⟩⟩, -⟩
  · exact .inl (.inl hlen)
  · exact .inl (.inr ⟨bytes, space, rfl, hlen⟩)
  · exact .inr (.inl rfl)
  · exact .inr (.inr ⟨bytes, rfl⟩)

variable (keccak) in
theorem encodes (h : p.Addressed ∨ p.BytePrefix) : p.toKeyBytes = .ok p.canonical ∧
    ∀ padding, p.deltaKey keccak padding = .ok (p.rawKey keccak padding) := by
  rcases h with h | h
  · exact ⟨h.toKeyBytes_eq, h.deltaKey_eq keccak⟩
  · refine ⟨h.toKeyBytes_eq, fun padding => ?_⟩
    rw [StorageKeyWithSpace.rawKey_of_deltaKey (h.deltaKey_eq keccak padding)]
    exact h.deltaKey_eq keccak padding

/-- The loops of a prefix read that returns. -/
theorem readPrefix_eq_ok (h : L.readPrefix p = .ok values) :
    (p.Addressed ∨ p.BytePrefix) ∧
      values = ((L.intermediate.selected p ++ L.snapshotRecords p).foldl Collected.addRecord
        ((L.delta.selected p).foldl Collected.overwrite .empty)).result := by
  unfold readPrefix at h
  obtain ⟨canonicalPrefix, hcanonical, h⟩ := Except.bind_eq_ok.mp h
  obtain ⟨deltaPrefix, hdelta, h⟩ := Except.bind_eq_ok.mp h
  obtain ⟨intermediatePrefix, hintermediate, h⟩ := Except.bind_eq_ok.mp h
  obtain rfl := StorageKeyWithSpace.canonical_of_toKeyBytes hcanonical
  obtain rfl := StorageKeyWithSpace.rawKey_of_deltaKey hdelta
  obtain rfl := StorageKeyWithSpace.rawKey_of_deltaKey hintermediate
  refine ⟨addressed_or_bytePrefix hdelta, ?_⟩
  dsimp only [collectDeltaKvs] at h
  rw [foldlM_collectDelta (fun e he => L.delta.decodes (Layer.mem_of_mem_scanPrefix he).1),
    Except.ok_bind, foldlM_collectIntermediate
      (fun e he => L.intermediate.decodes (Layer.mem_of_mem_scanPrefix he).1), Except.ok_bind,
    foldl_collectSnapshot, ← List.foldl_append] at h
  exact (Except.ok.inj h).symm

/-- **Every returned pair has been found in a layer.** -/
theorem finds_of_readPrefix (h : L.readPrefix p = .ok values) {c v : Bytes}
    (hmem : (c, v) ∈ values) : L.Finds p c v := by
  obtain ⟨-, rfl⟩ := readPrefix_eq_ok h
  obtain ⟨hseen, hresult⟩ := Collected.foldl_overwrite (L.delta.selected p) .empty
  -- the delta is looked at first, and what is seen there is not looked up below
  rcases Collected.mem_result_foldl hmem with hfirst | ⟨hunseen, hvalue⟩
  · rcases (hresult c v).mp hfirst with hempty | hselected
    · cases hempty
    · exact .delta hselected
  · have hdelta : ∀ r, (c, r) ∉ L.delta.selected p :=
      fun r hr => hunseen ((hseen c).mpr (.inr ⟨r, hr⟩))
    rw [valueAt_append] at hvalue
    cases hfound : valueAt (L.intermediate.selected p) c with
    | some r =>
      rw [hfound, Option.some_or] at hvalue
      obtain rfl := Option.some.inj hvalue
      exact .intermediate hdelta (mem_of_valueAt hfound)
    | none =>
      rw [hfound, Option.none_or] at hvalue
      refine .snapshot hdelta (fun r hr => ?_) (mem_of_valueAt hvalue)
      rw [valueAt, Option.map_eq_none_iff, List.find?_eq_none] at hfound
      exact hfound _ hr (decide_eq_true rfl)

/-- The layers above the snapshot hold no record of a key with canonical encoding `c`. -/
def Unrecorded (L : Layers keccak) (c : Bytes) : Prop :=
  ∀ k : StorageKeyWithSpace, k.Addressed → k.canonical = c →
    L.delta.recordOf k = none ∧ L.intermediate.recordOf k = none

section Finds

variable {c v : Bytes}

/-- A pair that is found in the intermediate layer is that of a key with no record above. -/
theorem exists_of_intermediate (hp : p.Addressed ∨ p.BytePrefix)
    (hdelta : ∀ r, (c, r) ∉ L.delta.selected p) (h : (c, some v) ∈ L.intermediate.selected p)
    (hreach : p.Reaches c) : ∃ k : StorageKeyWithSpace, k.Addressed ∧ k.canonical = c ∧
      p.Covers k ∧ L.delta.recordOf k = none ∧ L.intermediate.recordOf k = some (some v) := by
  -- a record of the key in the delta would have been selected with it
  obtain ⟨k, hk, rfl, hselects, hrecord⟩ := Layer.mem_selected_iff.mp h
  have hcovers := (hreach.selects_iff hp hk).mp hselects
  refine ⟨k, hk, rfl, hcovers, ?_, hrecord⟩
  by_contra hsome
  obtain ⟨r, hr⟩ := Option.ne_none_iff_exists'.mp hsome
  exact hdelta r (Layer.mem_selected_iff.mpr ⟨k, hk, rfl, (hreach.selects_iff hp hk).mpr hcovers, hr⟩)

/-- **What is found is current**, when the prefix reaches the key or no upper layer has a record
of it. -/
theorem Finds.exists_get (hp : p.Addressed ∨ p.BytePrefix) (h : L.Finds p c v)
    (hnamed : ∃ k : StorageKeyWithSpace, k.Addressed ∧ k.canonical = c)
    (hreach : p.Reaches c ∨ L.Unrecorded c) :
    ∃ k : StorageKeyWithSpace, k.Addressed ∧ k.canonical = c ∧ L.get k = .ok (some v) := by
  cases h with
  | delta h =>
    obtain ⟨k, hk, hc, -, hrecord⟩ := Layer.mem_selected_iff.mp h
    exact ⟨k, hk, hc, by rw [L.get_eq_of_addressed hk, hrecord]; rfl⟩
  | intermediate hdelta h =>
    rcases hreach with hreach | hunrecorded
    · obtain ⟨k, hk, hc, -, hnone, hrecord⟩ := exists_of_intermediate hp hdelta h hreach
      exact ⟨k, hk, hc, by rw [L.get_eq_of_addressed hk, hnone, hrecord]; rfl⟩
    · obtain ⟨k, hk, hc, -, hrecord⟩ := Layer.mem_selected_iff.mp h
      rw [(hunrecorded k hk hc).2] at hrecord
      cases hrecord
  | snapshot hdelta hintermediate h =>
    obtain ⟨hextends, v', hv, heq⟩ := mem_snapshotRecords.mp h
    obtain rfl := Option.some.inj heq
    obtain ⟨k₀, hk₀, rfl⟩ := hnamed
    have hget : ∀ k : StorageKeyWithSpace, k.Addressed → k.canonical = k₀.canonical →
        L.delta.recordOf k = none → L.intermediate.recordOf k = none →
          L.get k = .ok (some v) := by
      intro k hk hc hnone hnone'
      rw [L.get_eq_of_addressed hk, hnone, hnone', hc, hv]
      rfl
    -- where `p` reaches, some key covers `c`, and the layers above select it if they record it
    rcases hreach with hreach | hunrecorded
    · obtain ⟨k, hk, hc, hcovers⟩ := hreach.exists_covers hp hk₀ hextends
      rw [← hc] at hreach
      have hselects : ∀ padding, p.Selects keccak padding k :=
        fun padding => (hreach.selects_iff hp hk).mpr hcovers
      refine ⟨k, hk, hc, hget k hk hc ?_ ?_⟩
      · by_contra hsome
        obtain ⟨r, hr⟩ := Option.ne_none_iff_exists'.mp hsome
        exact hdelta r (Layer.mem_selected_iff.mpr ⟨k, hk, hc, hselects _, hr⟩)
      · by_contra hsome
        obtain ⟨r, hr⟩ := Option.ne_none_iff_exists'.mp hsome
        exact hintermediate r (Layer.mem_selected_iff.mpr ⟨k, hk, hc, hselects _, hr⟩)
    · obtain ⟨hnone, hnone'⟩ := hunrecorded k₀ hk₀ rfl
      exact ⟨k₀, hk₀, rfl, hget k₀ hk₀ rfl hnone hnone'⟩

end Finds

/-! ## Prefix deletes -/

/-- A round over an intermediate record that returns finds what a read finds. -/
theorem collectIntermediate_of_deleteIntermediate {addressPrefix : Option Bytes}
    {found found' : Collected} {e : Entry}
    (h : exec (deleteIntermediate set addressPrefix found e) L = (.ok found', L')) :
    collectIntermediate addressPrefix found e = .ok found' := by
  unfold deleteIntermediate at h
  obtain ⟨storageKey, hkey, h⟩ := Fallible.exec_lift_bind_eq_ok h
  obtain ⟨canonical, hcanonical, h⟩ := Fallible.exec_lift_bind_eq_ok h
  rw [collectIntermediate, hkey, Except.ok_bind, hcanonical, Except.ok_bind]
  cases hfilter : isFiltered addressPrefix canonical with
  | true =>
    rw [hfilter] at h
    exact congrArg Prod.fst h
  | false =>
    rw [hfilter] at h
    cases hlive : e.2.visibleValue.isSome with
    | true =>
      rw [hlive] at h
      obtain ⟨_, _, -, h⟩ := Fallible.exec_bind_eq_ok h
      exact congrArg Prod.fst h
    | false =>
      rw [hlive] at h
      exact congrArg Prod.fst h

theorem collectSnapshot_of_deleteSnapshot {found found' : Collected} {e : MptKeyValue}
    (h : exec (deleteSnapshot set found e) L = (.ok found', L')) :
    collectSnapshot found e = found' := by
  unfold deleteSnapshot at h
  obtain ⟨storageKey, -, h⟩ := Fallible.exec_lift_bind_eq_ok h
  obtain ⟨_, _, -, h⟩ := Fallible.exec_bind_eq_ok h
  exact Except.ok.inj (congrArg Prod.fst h)

/-- **A prefix delete that returns, returns what a prefix read returns.** -/
theorem readPrefix_of_deletePrefix (h : exec (deletePrefix p) L = (.ok values, L')) :
    L.readPrefix p = .ok values := by
  unfold deletePrefix at h
  obtain ⟨canonicalPrefix, hcanonical, h⟩ := Fallible.exec_lift_bind_eq_ok h
  rw [Fallible.exec_bind_ok (Fallible.exec_get L)] at h
  obtain ⟨deltaPrefix, hdelta, h⟩ := Fallible.exec_lift_bind_eq_ok h
  obtain ⟨intermediatePrefix, hintermediate, h⟩ := Fallible.exec_lift_bind_eq_ok h
  obtain ⟨_, L₁, -, h⟩ := Fallible.exec_bind_eq_ok h
  obtain ⟨found, hfound, h⟩ := Fallible.exec_lift_bind_eq_ok h
  obtain ⟨found', L₂, hloop, h⟩ := Fallible.exec_bind_eq_ok h
  obtain ⟨found'', L₃, hloop', h⟩ := Fallible.exec_bind_eq_ok h
  have hread := Fallible.foldlM_eq_ok
    (fun _ _ _ _ _ => collectIntermediate_of_deleteIntermediate) hloop
  have hread' := Fallible.foldlM_eq_ok (g := fun found e => pure (collectSnapshot found e))
    (fun _ _ _ _ _ h => congrArg Except.ok (collectSnapshot_of_deleteSnapshot h)) hloop'
  rw [List.foldlM_pure] at hread'
  rw [readPrefix, hcanonical, Except.ok_bind, hdelta, Except.ok_bind, hintermediate, Except.ok_bind]
  dsimp only
  rw [hfound, Except.ok_bind, hread, Except.ok_bind, Except.ok.inj hread']
  exact congrArg Prod.fst h

/-- What a prefix delete of `L` that returns leaves in the delta: no live record under the prefix,
and tombstones over what the loops have found below. -/
structure Buries (L : Layers keccak) (p : StorageKeyWithSpace) (L' : Layers keccak) : Prop where
  below : L.SameBelow L'
  delta : ∀ k : StorageKeyWithSpace, p.Selects keccak L.deltaPadding k →
    L'.delta.recordOf k = none ∨ L'.delta.recordOf k = some none
  intermediate : ∀ k : StorageKeyWithSpace, k.Addressed →
    p.Selects keccak L.intermediatePadding k → ∀ v, L.intermediate.recordOf k = some (some v) →
      L'.delta.recordOf k = some none
  snapshot : ∀ k : StorageKeyWithSpace, k.Full → p.Matches k → k.canonical ∈ L.snapshot →
    L'.delta.recordOf k = some none

/-- A key with a tombstone is read as deleted. -/
theorem get_of_tombstone (hk : k.Addressed) (hrecord : L.delta.recordOf k = some none) :
    L.get k = .ok none := by
  rw [L.get_eq_of_addressed hk, hrecord]
  rfl

/-- Over the same lower layers, a key without a record is read from these. -/
theorem SameBelow.get_of_recordOf_eq_none (h : L.SameBelow L') (hk : k.Addressed)
    (hrecord : L'.delta.recordOf k = none) :
    L'.get k = .ok ((L.intermediate.recordOf k).getD L.snapshot[k.canonical]?) := by
  rw [L'.get_eq_of_addressed hk, hrecord]
  obtain ⟨delta, rfl⟩ := h
  rfl

/-- A full key of the snapshot under the prefix is deleted. -/
theorem Buries.get_of_full (h : L.Buries p L') (hk : k.Full) (hm : p.Matches k)
    (hmem : k.canonical ∈ L.snapshot) : L'.get k = .ok none :=
  get_of_tombstone (.inl hk.address_length) (h.snapshot k hk hm hmem)

/-- **What is found above the snapshot is deleted**, when the prefix reaches the key. -/
theorem Buries.exists_get {c v : Bytes} (h : L.Buries p L') (hp : p.Addressed ∨ p.BytePrefix)
    (hfinds : L.Finds p c v) (hreach : p.Reaches c) (habsent : c ∉ L.snapshot) :
    ∃ k : StorageKeyWithSpace, k.Addressed ∧ k.canonical = c ∧ L.get k = .ok (some v) ∧
      L'.get k = .ok none := by
  cases hfinds with
  | delta hfound =>
    obtain ⟨k, hk, rfl, hselects, hrecord⟩ := Layer.mem_selected_iff.mp hfound
    have hselects' : p.Selects keccak L.intermediatePadding k :=
      (hreach.selects_iff hp hk).mpr ((hreach.selects_iff hp hk).mp hselects)
    refine ⟨k, hk, rfl, by rw [L.get_eq_of_addressed hk, hrecord]; rfl, ?_⟩
    rcases h.delta k hselects with hnone | htombstone
    · rw [h.below.get_of_recordOf_eq_none hk hnone, ExtTreeMap.getElem?_eq_none habsent]
      cases hbelow : L.intermediate.recordOf k with
      | none => rfl
      | some r =>
        cases r with
        | none => rfl
        | some v' =>
          -- a live record below has been buried
          rw [h.intermediate k hk hselects' v' hbelow] at hnone
          cases hnone
    · exact get_of_tombstone hk htombstone
  | intermediate hdelta hfound =>
    obtain ⟨k, hk, rfl, hcovers, hnone, hrecord⟩ := exists_of_intermediate hp hdelta hfound hreach
    refine ⟨k, hk, rfl, by rw [L.get_eq_of_addressed hk, hnone, hrecord]; rfl, ?_⟩
    exact get_of_tombstone hk
      (h.intermediate k hk ((hreach.selects_iff hp hk).mpr hcovers) v hrecord)
  | snapshot _ _ hfound =>
    obtain ⟨-, v', hv, -⟩ := mem_snapshotRecords.mp hfound
    exact absurd (ExtTreeMap.mem_iff_isSome_getElem?.mpr (by rw [hv]; rfl)) habsent

end Layers

namespace State

variable {s s' : State} {L L' : Layers keccak} {p : StorageKeyWithSpace}
  {values : List MptKeyValue}

variable (keccak) in
/-- A round over a live intermediate record writes a tombstone to the delta key of its key. -/
theorem intermediateRound_of_live {k : StorageKeyWithSpace} (hk : k.Addressed)
    {addressPrefix : Option Bytes} (hfilter : isFiltered addressPrefix k.canonical = false)
    {value : MptValue} {v : Bytes} (hvisible : value.visibleValue = some v)
    (padding deltaPadding : DeltaMptKeyPadding) :
    intermediateRound keccak addressPrefix deltaPadding (k.rawKey keccak padding, value) =
      .ok (some (k.rawKey keccak deltaPadding)) := by
  obtain ⟨hdecode, hcanonical⟩ := canonicalOf_spec (hk.deltaKey_eq keccak padding)
  rw [canonicalOf_rawKey_of_addressed hk] at hcanonical
  unfold intermediateRound
  rw [hdecode, Except.ok_bind, hcanonical, Except.ok_bind, hfilter, hvisible,
    StorageKeyWithSpace.deltaKey_normalize keccak hk, hk.deltaKey_eq]
  rfl

variable (keccak) in
/-- A round over a snapshot entry of a full key writes a tombstone to its delta key. -/
theorem snapshotRound_of_full {k : StorageKeyWithSpace} (hk : k.Full) (v : Bytes)
    (deltaPadding : DeltaMptKeyPadding) :
    snapshotRound keccak deltaPadding (k.canonical, v) =
      .ok (some (k.rawKey keccak deltaPadding)) := by
  unfold snapshotRound
  rw [hk.fromKeyBytes_canonical, Except.ok_bind,
    StorageKeyWithSpace.Storable.deltaKey_eq (.inl hk)]
  rfl

/-- **What a prefix delete that returns leaves.** -/
theorem Represents.buries (h : s.Represents keccak L)
    (hexec : exec (deletePrefix keccak p) s = (.ok values, s')) (h' : s'.Represents keccak L')
    (hbelow : L.SameBelow L') : L.readPrefix p = .ok values ∧ L.Buries p L' := by
  obtain ⟨hreply, -⟩ := deletePrefix_coupled h p
  rw [hexec] at hreply
  have hlayers : exec (Layers.deletePrefix p) L =
      (.ok values, (exec (Layers.deletePrefix p) L).2) := Prod.ext hreply.symm rfl
  have hread := Layers.readPrefix_of_deletePrefix hlayers
  refine ⟨hread, ?_⟩
  obtain ⟨hp, -⟩ := Layers.readPrefix_eq_ok hread
  -- the call succeeds, so no round failed: the delta is the dropped one, buried by the rounds
  obtain ⟨hcanonical, hdelta⟩ := Layers.encodes keccak hp
  obtain ⟨dropped, hget, hends⟩ := deletePrefix_ends
    ⟨h.deltaAccountCache, h.intermediateAccountCache⟩ hcanonical (hdelta _) (hdelta _)
  unfold Fallible.Ends at hends
  rw [hexec, h.deltaPadding, h.intermediatePadding] at hends
  rw [h.deltaPadding, h.delta] at hget
  obtain ⟨hnone, hsame⟩ := hends
  generalize hrounds : s.deleteRounds keccak p p.canonical (p.rawKey keccak L.deltaPadding)
    (p.rawKey keccak L.intermediatePadding) = rounds at hnone hsame
  have hwritten : ∀ raw, .ok (some raw) ∈ rounds → raw ∈ rounds.beforeError.reduceOption :=
    fun raw hraw => List.reduceOption_mem_iff.mpr (List.mem_beforeError hnone.symm hraw)
  have hentries : L'.delta.entries = bury dropped rounds.beforeError.reduceOption := by
    rw [← h'.delta, hsame.delta]
  have hpadding : L'.deltaPadding = L.deltaPadding := by
    rw [← h'.deltaPadding, hsame.deltaPadding, h.deltaPadding]
  have hrecord : ∀ k : StorageKeyWithSpace, L'.delta.recordOf k =
      (if k.rawKey keccak L.deltaPadding ∈ rounds.beforeError.reduceOption then some .tombstone
        else dropped[k.rawKey keccak L.deltaPadding]?).map MptValue.visibleValue := by
    intro k
    rw [← getElem?_bury, ← hentries, ← hpadding]
    rfl
  have htombstone : ∀ k : StorageKeyWithSpace,
      .ok (some (k.rawKey keccak L.deltaPadding)) ∈ rounds → L'.delta.recordOf k = some none := by
    intro k hk
    rw [hrecord, if_pos (hwritten _ hk)]
    rfl
  refine ⟨hbelow, fun k hselects => ?_, fun k hk hselects v hlive => htombstone k ?_,
    fun k hk hm hmem => htombstone k ?_⟩
  · rw [hrecord, hget, if_pos hselects.1]
    split
    · exact .inr rfl
    · exact .inl rfl
  · obtain ⟨value, hvalue, hvisible⟩ := Option.map_eq_some_iff.mp hlive
    have hround := intermediateRound_of_live keccak hk hselects.2 hvisible
      L.intermediatePadding L.deltaPadding
    rw [← hrounds, deleteRounds, List.mem_append, List.mem_append, h.intermediate, h.deltaPadding]
    refine .inr (.inl (List.mem_map.mpr ⟨_, ?_, hround⟩))
    rw [StringMap.scanPrefix_eq_filter, List.mem_filter]
    exact ⟨StringMap.mem_toList.mpr hvalue, decide_eq_true hselects.1⟩
  · obtain ⟨v, hv⟩ := Option.isSome_iff_exists.mp (ExtTreeMap.mem_iff_isSome_getElem?.mp hmem)
    have hround := snapshotRound_of_full keccak hk v L.deltaPadding
    rw [← hrounds, deleteRounds, List.mem_append, List.mem_append, h.deltaPadding,
      h.snapshot.snapshotScanPrefix]
    refine .inr (.inr (List.mem_map.mpr ⟨_, ?_, hround⟩))
    rw [List.mem_filter]
    exact ⟨StringMap.mem_toList.mpr hv, decide_eq_true hm⟩

/-! ## Returned pairs -/

variable (keccak)

/-- The call returns the pair `(c, v)`. -/
def Returns (s : State) (op : Op) (c v : Bytes) : Prop :=
  ∃ values, (step keccak s op).1 = .ok (.entries (some values)) ∧ (c, v) ∈ values

/-- The upper layers hold no record of a key with canonical encoding `c`. -/
def Unrecorded (s : State) (c : Bytes) : Prop :=
  ∀ k : StorageKeyWithSpace, k.Record → k.toKeyBytes = .ok c → ∀ raw,
    (k.deltaKey keccak s.deltaPadding = .ok raw → raw ∉ s.delta) ∧
      (k.deltaKey keccak s.intermediatePadding = .ok raw → raw ∉ s.intermediate)

/-- A key with canonical encoding `c` is read as `v`. -/
def HasPair (s : State) (c v : Bytes) : Prop :=
  ∃ k : StorageKeyWithSpace, k.Record ∧ k.toKeyBytes = .ok c ∧
    (step keccak s (.get k)).1 = .ok (.value (some v))

variable {keccak} {c v : Bytes}

theorem eq_of_nonEmpty {values values' : List MptKeyValue} (h : nonEmpty values = some values') :
    values = values' := by
  unfold nonEmpty at h
  split at h
  · cases h
  · exact Option.some.inj h

/-- A prefix delete that returns entries has run to its end. -/
theorem exec_deletePrefix_of_returns
    (h : (step keccak s (.deleteAllByPrefix p)).1 = .ok (.entries (some values))) :
    exec (deletePrefix keccak p) s = (.ok values, (step keccak s (.deleteAllByPrefix p)).2) := by
  obtain ⟨s', hs'⟩ : ∃ s', step keccak s (.deleteAllByPrefix p) =
      (.ok (.entries (some values)), s') := ⟨_, Prod.ext h rfl⟩
  rw [hs']
  obtain ⟨values', s₁, hdelete, hreply⟩ := Fallible.exec_bind_eq_ok hs'
  obtain ⟨values'', s₂, hdone, hnonEmpty⟩ := Fallible.exec_bind_eq_ok hdelete
  obtain ⟨heq, rfl⟩ := Prod.mk.inj hreply
  obtain ⟨heq', rfl⟩ := Prod.mk.inj hnonEmpty
  obtain rfl := Reply.entries.inj (Except.ok.inj heq)
  rw [hdone, eq_of_nonEmpty (Except.ok.inj heq')]

/-- What a prefix operation returns is what a prefix read of the layers returns. -/
theorem Represents.readPrefix_of_returns (h : s.Represents keccak L)
    (hreply : (step keccak s (.getAllByPrefix p)).1 = .ok (.entries (some values))) :
    L.readPrefix p = .ok values := by
  rw [h.getAllByPrefix_reply, Layers.getAllByPrefix] at hreply
  cases hread : L.readPrefix p with
  | error e =>
    rw [hread] at hreply
    cases hreply
  | ok values' =>
    rw [hread] at hreply
    rw [eq_of_nonEmpty (Reply.entries.inj (Except.ok.inj hreply))]

theorem Represents.buries_of_returns (h : s.Represents keccak L)
    (hreply : (step keccak s (.deleteAllByPrefix p)).1 = .ok (.entries (some values))) :
    L.readPrefix p = .ok values ∧ L.Buries p (L.step (.deleteAllByPrefix p)).2 :=
  h.buries (exec_deletePrefix_of_returns hreply) (simulation.next trivial h)
    (L.sameBelow_step nofun)

theorem Represents.unrecorded (h : s.Represents keccak L) (hs : s.Unrecorded keccak c) :
    L.Unrecorded c := by
  rintro k hk rfl
  have hraw := fun raw => hs k hk.record hk.toKeyBytes_eq raw
  unfold Layer.recordOf
  rw [Option.map_eq_none_iff, Option.map_eq_none_iff]
  constructor
  · have hnot := (hraw (k.rawKey keccak L.deltaPadding)).1
    rw [h.deltaPadding, h.delta] at hnot
    exact ExtTreeMap.getElem?_eq_none (hnot (hk.deltaKey_eq keccak _))
  · have hnot := (hraw (k.rawKey keccak L.intermediatePadding)).2
    rw [h.intermediatePadding, h.intermediate] at hnot
    exact ExtTreeMap.getElem?_eq_none (hnot (hk.deltaKey_eq keccak _))

theorem Represents.get_reply_ok (h : s.Represents keccak L) {k : StorageKeyWithSpace}
    {value : Option Bytes} (hget : L.get k = .ok value) :
    (step keccak s (.get k)).1 = .ok (.value value) := by
  rw [h.get_reply, hget]
  rfl

variable (keccak)

/-- **What a prefix operation returns is current, and a prefix delete deletes it.** In every
reachable state and for every prefix, a returned pair `(c, v)` is current if the prefix reaches `c`,
or if the upper layers hold no record of it. A prefix delete that returns `c` deletes the full key
of `c` if the snapshot holds it under the prefix; if the snapshot does not hold `c`, it deletes a key
of `c` that was read as `v`. -/
theorem prefixPairs_spec (origin : Origin) (ops : List Op) (p : StorageKeyWithSpace)
    (c v : Bytes) :
    let s := Machine.final (step keccak) (origin.state keccak) ops
    let s' := (step keccak s (.deleteAllByPrefix p)).2
    ((Returns keccak s (.getAllByPrefix p) c v ∨ Returns keccak s (.deleteAllByPrefix p) c v) →
      (∃ k : StorageKeyWithSpace, k.Record ∧ k.toKeyBytes = .ok c) →
      (p.Reaches c ∨ Unrecorded keccak s c) → HasPair keccak s c v) ∧
    (Returns keccak s (.deleteAllByPrefix p) c v →
      (∀ k : StorageKeyWithSpace, k.Full → k.toKeyBytes = .ok c → p.canonical <+: c →
        c ∈ s.snapshot.toCanonicalMap → (step keccak s' (.get k)).1 = .ok (.value none)) ∧
      (p.Reaches c → c ∉ s.snapshot.toCanonicalMap →
        ∃ k : StorageKeyWithSpace, k.Record ∧ k.toKeyBytes = .ok c ∧
          (step keccak s (.get k)).1 = .ok (.value (some v)) ∧
          (step keccak s' (.get k)).1 = .ok (.value none))) := by
  intro s s'
  obtain ⟨L, hrep⟩ := exists_represents_final keccak origin ops
  have hnext : s'.Represents keccak (L.step (.deleteAllByPrefix p)).2 :=
    simulation.next trivial hrep
  have hcanonical : ∀ k : StorageKeyWithSpace, k.Addressed → k.canonical = c →
      k.Record ∧ k.toKeyBytes = .ok c := fun k hk hc => ⟨hk.record, hc ▸ hk.toKeyBytes_eq⟩
  refine ⟨fun hreturns hnamed hreach => ?_, fun hreturns => ?_⟩
  · obtain ⟨k₀, hk₀, hc₀⟩ := hnamed
    have hnamed : ∃ k : StorageKeyWithSpace, k.Addressed ∧ k.canonical = c :=
      ⟨k₀, hk₀.addressed hc₀, StorageKeyWithSpace.canonical_of_toKeyBytes hc₀⟩
    obtain ⟨values, hread, hmem⟩ : ∃ values, L.readPrefix p = .ok values ∧ (c, v) ∈ values := by
      rcases hreturns with ⟨values, hreply, hmem⟩ | ⟨values, hreply, hmem⟩
      · exact ⟨values, hrep.readPrefix_of_returns hreply, hmem⟩
      · exact ⟨values, (hrep.buries_of_returns hreply).1, hmem⟩
    obtain ⟨hp, -⟩ := Layers.readPrefix_eq_ok hread
    obtain ⟨k, hk, hc, hget⟩ := (Layers.finds_of_readPrefix hread hmem).exists_get hp hnamed
      (hreach.imp_right hrep.unrecorded)
    obtain ⟨hrecord, hkey⟩ := hcanonical k hk hc
    exact ⟨k, hrecord, hkey, hrep.get_reply_ok hget⟩
  · obtain ⟨values, hreply, hmem⟩ := hreturns
    obtain ⟨hread, hburies⟩ := hrep.buries_of_returns hreply
    obtain ⟨hp, -⟩ := Layers.readPrefix_eq_ok hread
    rw [hrep.snapshot.toCanonicalMap]
    refine ⟨fun k hk hkey hextends hsnapshot => ?_, fun hreach habsent => ?_⟩
    · obtain rfl := StorageKeyWithSpace.canonical_of_toKeyBytes hkey
      exact hnext.get_reply_ok (hburies.get_of_full hk hextends hsnapshot)
    · obtain ⟨k, hk, hc, hget, hgone⟩ :=
        hburies.exists_get hp (Layers.finds_of_readPrefix hread hmem) hreach habsent
      obtain ⟨hrecord, hkey⟩ := hcanonical k hk hc
      exact ⟨k, hrecord, hkey, hrep.get_reply_ok hget, hnext.get_reply_ok hgone⟩

deriving instance DecidableEq for Reply

/-- A short account that is deleted through a byte prefix. -/
theorem prefixPairs_spec_short :
    let s := Machine.final (step keccak256) (Origin.new.state keccak256)
      [.set ⟨.account [1], .native⟩ [7]]
    let s' := (step keccak256 s (.deleteAllByPrefix ⟨.addressPrefix [1], .native⟩)).2
    HasPair keccak256 s [1] [7] ∧
      ∃ k : StorageKeyWithSpace, k.Record ∧ k.toKeyBytes = .ok [1] ∧
        (step keccak256 s (.get k)).1 = .ok (.value (some [7])) ∧
        (step keccak256 s' (.get k)).1 = .ok (.value none) := by
  intro s s'
  have hreturns : Returns keccak256 s (.deleteAllByPrefix ⟨.addressPrefix [1], .native⟩) [1] [7] :=
    ⟨[([1], [7])], by decide +kernel, List.mem_singleton.mpr rfl⟩
  have hshort : Addressed ⟨.account [1], .native⟩ := .inr ⟨[1], .native, rfl, by decide⟩
  obtain ⟨hcurrent, hdeleted⟩ := prefixPairs_spec keccak256 .new
    [.set ⟨.account [1], .native⟩ [7]] ⟨.addressPrefix [1], .native⟩ [1] [7]
  exact ⟨hcurrent (.inr hreturns) ⟨_, hshort.record, rfl⟩ (.inl trivial),
    (hdeleted hreturns).2 trivial (by decide +kernel)⟩

/-! ## Keys that are missed -/

variable {keccak}

/-- Keys with the same canonical encoding are read alike, unless they are shadowed. -/
theorem Represents.get_reply_congr (h : s.Represents keccak L) {k k' : StorageKeyWithSpace}
    (hk : k.Record) (hk' : k'.Record) (hkey : k.toKeyBytes = k'.toKeyBytes)
    (hshadowed : ¬ k.Shadowed k') :
    (step keccak s (.get k)).1 = (step keccak s (.get k')).1 := by
  have hdelta : ∀ padding, k.deltaKey keccak padding = k'.deltaKey keccak padding :=
    fun padding => (StorageKeyWithSpace.deltaKey_eq_iff keccak padding hk hk').mpr ⟨hkey, hshadowed⟩
  rw [h.get_reply, h.get_reply]
  unfold Layers.get
  rw [hdelta, hdelta, hkey]

/-- A key that is read as deleted has no pair. -/
theorem not_hasPair (h : s.Represents keccak L) {k : StorageKeyWithSpace} (hk : k.Record)
    (hkey : k.toKeyBytes = .ok c) (hshadowed : ∀ k' : StorageKeyWithSpace, ¬ k'.Shadowed k)
    (hnone : (step keccak s (.get k)).1 = .ok (.value none)) : ¬ HasPair keccak s c v := by
  rintro ⟨k', hk', hkey', hvalue⟩
  rw [h.get_reply_congr hk' hk (hkey'.trans hkey.symm) (hshadowed k'), hnone] at hvalue
  cases hvalue

/-- The state over the snapshot entry `c`, in which the key `k` is deleted. -/
def overDeleted (c : Bytes) (k : StorageKeyWithSpace) : State :=
  Machine.final (step keccak256)
    ((Origin.fromSnapshot ((∅ : ExtTreeMap Bytes Bytes).insert c [1])).state keccak256) [.set k []]

theorem not_hasPair_overDeleted {k : StorageKeyWithSpace} (hk : k.Record)
    (hkey : k.toKeyBytes = .ok c) (hshadowed : ∀ k' : StorageKeyWithSpace, ¬ k'.Shadowed k)
    (hnone : (step keccak256 (overDeleted c k) (.get k)).1 = .ok (.value none)) :
    ¬ HasPair keccak256 (overDeleted c k) c v := by
  obtain ⟨L, hrep⟩ := exists_represents_final keccak256
    (.fromSnapshot ((∅ : ExtTreeMap Bytes Bytes).insert c [1])) [.set k []]
  exact not_hasPair hrep hk hkey hshadowed hnone

/-- An incomplete storage key and a short account return the values of deleted keys, and a short
account that the snapshot holds is not deleted. -/
theorem not_prefixPairs :
    (let address := List.replicate accountBytes 7
      let c := address ++ (storagePrefix ++ [0xab, 0xcd])
      let s := overDeleted c ⟨.storage address [0xab, 0xcd], .native⟩
      Returns keccak256 s (.getAllByPrefix ⟨.storage address [0xab], .native⟩) c [1] ∧
        ¬ HasPair keccak256 s c [1]) ∧
    (let address := List.replicate accountBytes 7
      let s := overDeleted address ⟨.account address, .native⟩
      Returns keccak256 s (.getAllByPrefix ⟨.account [7], .native⟩) address [1] ∧
        ¬ HasPair keccak256 s address [1]) ∧
    let k : StorageKeyWithSpace := ⟨.account [7], .native⟩
    let s := (Origin.fromSnapshot ((∅ : ExtTreeMap Bytes Bytes).insert [7] [1])).state keccak256
    Returns keccak256 s (.deleteAllByPrefix k) [7] [1] ∧
      HasPair keccak256 (step keccak256 s (.deleteAllByPrefix k)).2 [7] [1] := by
  refine ⟨⟨⟨_, ?_, List.mem_singleton.mpr rfl⟩, ?_⟩, ⟨⟨_, ?_, List.mem_singleton.mpr rfl⟩, ?_⟩,
    ⟨_, ?_, List.mem_singleton.mpr rfl⟩, ⟨.account [7], .native⟩, ?_, rfl, ?_⟩
  · decide +kernel
  · refine not_hasPair_overDeleted ⟨nofun, nofun, nofun⟩ rfl ?_ (by decide +kernel)
    rintro k ⟨_, _, -, ⟨-, h⟩ | ⟨-, h⟩⟩ <;> cases h
  · decide +kernel
  · refine not_hasPair_overDeleted ⟨?_, nofun, nofun⟩ rfl ?_ (by decide +kernel)
    · rintro _ ⟨⟩
      decide
    · rintro k ⟨_, _, -, ⟨-, h⟩ | ⟨-, h⟩⟩ <;> cases h
  · decide +kernel
  · exact ⟨by rintro _ ⟨⟩; decide, nofun, nofun⟩
  · decide +kernel

end State

end MinimalMpt
