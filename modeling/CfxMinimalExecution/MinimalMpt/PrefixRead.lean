import CfxMinimalExecution.MinimalMpt.KeyPrefix

/-!
# Prefix reads

The loops of a prefix operation collect, layer by layer, the first record of every canonical key.
On layers of storable keys the scans select the keys that the prefix matches, so that a prefix read
is a filter of the logical map.

## Main definitions

* `selected`: the records that the loop over a layer looks at
* `Collected.Holds`: the locals of a loop after it has looked at some records

## Main results

* `Collected.holds_foldl`: the loops keep the first record of every key
* `Layers.readPrefix_spec`: a prefix read is a filter of the logical map
* `State.getAllByPrefix_spec`: the same for the state
-/

open Std (ExtTreeMap ExtTreeSet)
open Fallible (exec)
open Radix (valueAt valueAt_append valueAt_cons mem_of_valueAt)

namespace MinimalMpt

open StorageKeyWithSpace (fromDeltaMptKey PrefixKey Storable)

/-! ## The loops -/

/-- A record under its canonical key. -/
abbrev Record := Bytes × Option Bytes

namespace Collected

/-- The round of a loop that looks at a record. -/
def addRecord (found : Collected) (r : Record) : Collected := found.add r.1 r.2

/-- After a loop over `records`, every key has been seen and the result holds, once each, the
keys whose first record is live. -/
structure Holds (found : Collected) (records : List Record) : Prop where
  seen : ∀ c : Bytes, c ∈ found.seen ↔ (valueAt records c).isSome
  result : ∀ c v : Bytes, (c, v) ∈ found.result ↔ valueAt records c = some (some v)
  nodup : (found.result.map Prod.fst).Nodup

theorem holds_empty : Collected.empty.Holds [] where
  seen := fun c => by simp [Collected.empty]
  result := fun c v => by simp [Collected.empty]
  nodup := List.nodup_nil

theorem seen_push (found : Collected) (c : Bytes) (r : Option Bytes) :
    (found.push c r).seen = found.seen := by
  cases r <;> rfl

theorem mem_seen_mark {found : Collected} {c c' : Bytes} :
    c' ∈ (found.mark c).seen ↔ c = c' ∨ c' ∈ found.seen := by
  unfold mark
  rw [ExtTreeSet.mem_insert, Std.compare_eq_iff_eq]

theorem mem_push {found : Collected} {c c' v' : Bytes} {r : Option Bytes} :
    (c', v') ∈ (found.push c r).result ↔ (c', v') ∈ found.result ∨ (c' = c ∧ r = some v') := by
  cases r with
  | none => simp [push]
  | some v => simp [push, eq_comm]

/-- One round keeps the first record of every key. -/
theorem Holds.addRecord {found : Collected} {records : List Record} (h : found.Holds records)
    (r : Record) : (found.addRecord r).Holds (records ++ [r]) := by
  obtain ⟨c, r⟩ := r
  have hvalueAt : ∀ c' : Bytes, valueAt (records ++ [(c, r)]) c' =
      (valueAt records c').or (if c = c' then some r else none) := by
    intro c'
    rw [valueAt_append, valueAt_cons]
    rfl
  unfold Collected.addRecord add
  by_cases hseen : c ∈ found.seen
  · -- a key already seen keeps its first record
    have hsome := (h.seen c).mp hseen
    have hkeep : ∀ c' : Bytes, valueAt (records ++ [(c, r)]) c' = valueAt records c' := by
      intro c'
      rw [hvalueAt]
      by_cases heq : c = c'
      · obtain ⟨r', hr'⟩ := Option.isSome_iff_exists.mp hsome
        rw [← heq, hr']
        rfl
      · rw [if_neg heq, Option.or_none]
    rw [if_pos (ExtTreeSet.mem_iff_contains.mp hseen)]
    exact ⟨fun c' => by rw [hkeep]; exact h.seen c', fun c' v => by rw [hkeep]; exact h.result c' v,
      h.nodup⟩
  -- a key not seen yet takes the record
  · have hnone : valueAt records c = none := by
      rw [h.seen, Option.not_isSome_iff_eq_none] at hseen
      exact hseen
    have hnew : ∀ c' : Bytes, valueAt (records ++ [(c, r)]) c' =
        if c = c' then some r else valueAt records c' := by
      intro c'
      rw [hvalueAt]
      by_cases heq : c = c'
      · rw [← heq, hnone, if_pos rfl, Option.none_or]
      · rw [if_neg heq, if_neg heq, Option.or_none]
    rw [if_neg fun hcontains => hseen (ExtTreeSet.mem_iff_contains.mpr hcontains)]
    -- the seen keys, the result and its keys, each before and after the record
    refine ⟨fun c' => ?_, fun c' v => ?_, ?_⟩
    · rw [seen_push, mem_seen_mark, hnew, h.seen]
      by_cases heq : c = c'
      · simp [heq]
      · simp [heq]
    · rw [mem_push, hnew]
      show (c', v) ∈ found.result ∨ _ ↔ _
      rw [h.result]
      by_cases heq : c = c'
      · subst heq
        rw [if_pos rfl, hnone]
        simp
      · rw [if_neg heq]
        simp [Ne.symm heq]
    -- a deleted record marks its key as seen, and adds nothing to the result
    · cases r with
      | none => exact h.nodup
      | some v =>
        show ((found.result ++ [(c, v)]).map Prod.fst).Nodup
        rw [List.map_append, List.nodup_append]
        refine ⟨h.nodup, List.nodup_singleton c, fun c' hc' c'' hc'' heq => ?_⟩
        obtain rfl : c'' = c := List.mem_singleton.mp hc''
        obtain ⟨e, hmem, rfl⟩ := List.mem_map.mp hc'
        -- a key of the result would have been seen
        rw [← heq, (h.result e.1 e.2).mp hmem] at hnone
        cases hnone

/-- **The loops keep the first record of every key.** -/
theorem holds_foldl (records : List Record) :
    (records.foldl Collected.addRecord Collected.empty).Holds records := by
  induction records using List.reverseRecOn with
  | nil => exact holds_empty
  | append_singleton records r ih =>
    rw [List.foldl_append]
    exact ih.addRecord r

/-- The round of the loop over the delta, which does not ask whether the key has been seen. -/
def overwrite (found : Collected) (r : Record) : Collected :=
  (found.mark r.1).push r.1 r.2

/-- On distinct keys that have not been seen, asking makes no difference. -/
theorem foldl_overwrite_eq {records : List Record} (hnodup : (records.map Prod.fst).Nodup)
    {found : Collected} (hseen : ∀ r ∈ records, r.1 ∉ found.seen) :
    records.foldl overwrite found = records.foldl addRecord found := by
  induction records generalizing found with
  | nil => rfl
  | cons r records ih =>
    rw [List.map_cons, List.nodup_cons] at hnodup
    have hunseen := hseen r List.mem_cons_self
    have hadd : found.addRecord r = found.overwrite r :=
      if_neg fun hcontains => hunseen (ExtTreeSet.mem_iff_contains.mpr hcontains)
    rw [List.foldl_cons, List.foldl_cons, hadd]
    refine ih hnodup.2 fun r' hr' hmem => ?_
    rw [overwrite, seen_push, mem_seen_mark] at hmem
    rcases hmem with heq | hmem
    · exact hnodup.1 (List.mem_map.mpr ⟨r', hr', heq.symm⟩)
    · exact hseen r' (List.mem_cons_of_mem r hr') hmem

end Collected

/-- The records that the loop over a layer looks at: those that the address filter keeps. -/
def selected (addressPrefix : Option Bytes) (kvs : List Entry) : List Record :=
  (kvs.map fun e => (canonicalOf e.1, e.2.visibleValue)).filter fun r =>
    !isFiltered addressPrefix r.1

/-- A delta key is decoded and encoded canonically without an error. -/
def Decodes (raw : Bytes) : Prop :=
  ∃ storageKey, fromDeltaMptKey raw = .ok storageKey ∧ storageKey.toKeyBytes = .ok (canonicalOf raw)

theorem selected_cons (addressPrefix : Option Bytes) (e : Entry) (kvs : List Entry) :
    selected addressPrefix (e :: kvs) =
      if isFiltered addressPrefix (canonicalOf e.1) then selected addressPrefix kvs
      else (canonicalOf e.1, e.2.visibleValue) :: selected addressPrefix kvs := by
  unfold selected
  rw [List.map_cons, List.filter_cons]
  cases isFiltered addressPrefix (canonicalOf e.1) <;> rfl

theorem nodup_selected {addressPrefix : Option Bytes} {kvs : List Entry}
    (h : (kvs.map fun e => canonicalOf e.1).Nodup) :
    ((selected addressPrefix kvs).map Prod.fst).Nodup := by
  refine List.Nodup.sublist (List.filter_sublist.map Prod.fst) ?_
  rw [List.map_map]
  exact h

theorem foldlM_collectIntermediate {addressPrefix : Option Bytes} {kvs : List Entry}
    (hdecodes : ∀ e ∈ kvs, Decodes e.1) (found : Collected) :
    kvs.foldlM (collectIntermediate addressPrefix) found =
      .ok ((selected addressPrefix kvs).foldl Collected.addRecord found) := by
  induction kvs generalizing found with
  | nil => rfl
  | cons e kvs ih =>
    obtain ⟨storageKey, hkey, hcanonical⟩ := hdecodes e List.mem_cons_self
    have hrest : ∀ e ∈ kvs, Decodes e.1 := fun e' he' => hdecodes e' (List.mem_cons_of_mem e he')
    rw [List.foldlM_cons, collectIntermediate, hkey, Except.ok_bind, hcanonical, Except.ok_bind,
      selected_cons]
    cases isFiltered addressPrefix (canonicalOf e.1) with
    | true => exact ih hrest found
    | false => exact ih hrest (found.add (canonicalOf e.1) e.2.visibleValue)

theorem foldlM_collectDelta {addressPrefix : Option Bytes} {kvs : List Entry}
    (hdecodes : ∀ e ∈ kvs, Decodes e.1) (found : Collected) :
    kvs.foldlM (collectDelta addressPrefix) found =
      .ok ((selected addressPrefix kvs).foldl Collected.overwrite found) := by
  induction kvs generalizing found with
  | nil => rfl
  | cons e kvs ih =>
    obtain ⟨storageKey, hkey, hcanonical⟩ := hdecodes e List.mem_cons_self
    have hrest : ∀ e ∈ kvs, Decodes e.1 := fun e' he' => hdecodes e' (List.mem_cons_of_mem e he')
    rw [List.foldlM_cons, collectDelta, hkey, Except.ok_bind, hcanonical, Except.ok_bind,
      selected_cons]
    cases isFiltered addressPrefix (canonicalOf e.1) with
    | true => exact ih hrest found
    | false => exact ih hrest (found.overwrite (canonicalOf e.1, e.2.visibleValue))

/-- The loop over the delta does not ask whether a key has been seen; on distinct canonical keys
that makes no difference. -/
theorem collectDeltaKvs_eq {addressPrefix : Option Bytes} {kvs : List Entry}
    (hdecodes : ∀ e ∈ kvs, Decodes e.1)
    (hnodup : (kvs.map fun e => canonicalOf e.1).Nodup) :
    collectDeltaKvs addressPrefix kvs =
      .ok ((selected addressPrefix kvs).foldl Collected.addRecord .empty) := by
  rw [collectDeltaKvs, foldlM_collectDelta hdecodes,
    Collected.foldl_overwrite_eq (nodup_selected hnodup) fun r _ => by simp [Collected.empty]]

theorem foldl_collectSnapshot (kvs : List MptKeyValue) (found : Collected) :
    kvs.foldl collectSnapshot found =
      (kvs.map fun e => (e.1, some e.2)).foldl Collected.addRecord found := by
  rw [List.foldl_map]
  rfl

/-! ## What a layer contributes -/

section Layer

variable {keccak : Bytes → H256} {padding : DeltaMptKeyPadding} {l : Layer keccak padding}
  {p : StorageKeyWithSpace}

theorem Layer.decodes (l : Layer keccak padding) {e : Entry} (he : e ∈ l.entries.toList) :
    Decodes e.1 := by
  obtain ⟨key, hkey⟩ := l.encoded e.1 (Layer.mem_entries he)
  obtain ⟨hdecode, hcanonical⟩ := canonicalOf_spec hkey
  exact ⟨key.normalize, hdecode, hcanonical⟩

/-- The records that a prefix operation looks at in a layer. -/
def Layer.selected (l : Layer keccak padding) (p : StorageKeyWithSpace) : List Record :=
  MinimalMpt.selected (addressPrefixFilter p)
    (StringMap.scanPrefix l.entries (p.rawKey keccak padding))

theorem Layer.mem_of_mem_scanPrefix {deltaPrefix : Bytes} {e : Entry}
    (he : e ∈ StringMap.scanPrefix l.entries deltaPrefix) :
    e ∈ l.entries.toList ∧ deltaPrefix <+: e.1 := by
  rw [StringMap.scanPrefix_eq_filter] at he
  obtain ⟨hmem, hextends⟩ := List.mem_filter.mp he
  exact ⟨hmem, of_decide_eq_true hextends⟩

theorem Layer.Keyed.nodup_scanPrefix (h : l.Keyed Storable) (deltaPrefix : Bytes) :
    ((StringMap.scanPrefix l.entries deltaPrefix).map fun e => canonicalOf e.1).Nodup := by
  rw [StringMap.scanPrefix_eq_filter]
  exact h.nodup_canonical.sublist (List.filter_sublist.map _)

/-- The records of a layer that the scan and the filter select are those of the keys that match. -/
theorem Layer.Keyed.mem_selected (h : l.Keyed Storable) (hp : p.PrefixKey) {c : Bytes}
    {r : Option Bytes} : (c, r) ∈ l.selected p ↔
      ∃ k : StorableKey, k.1.canonical = c ∧ p.Matches k.1 ∧ l.overlay k = some r := by
  unfold Layer.selected MinimalMpt.selected
  rw [List.mem_filter, List.mem_map]
  constructor
  · rintro ⟨⟨⟨raw, value⟩, he, heq⟩, hfilter⟩
    obtain ⟨rfl, rfl⟩ := Prod.mk.inj heq
    obtain ⟨hmem, hextends⟩ := Layer.mem_of_mem_scanPrefix he
    obtain ⟨k, hk, rfl⟩ := h raw (Layer.mem_entries hmem)
    rw [canonicalOf_rawKey hk] at hfilter ⊢
    have hmatches := (StorageKeyWithSpace.selects_iff hp hk keccak padding).mp
      ⟨hextends, by simpa using hfilter⟩
    refine ⟨⟨k, hk⟩, rfl, hmatches, ?_⟩
    rw [Layer.overlay, StringMap.mem_toList.mp hmem, Option.map_some]
  · rintro ⟨k, rfl, hmatches, hoverlay⟩
    obtain ⟨value, hvalue, rfl⟩ := Option.map_eq_some_iff.mp hoverlay
    obtain ⟨hextends, hfilter⟩ :=
      (StorageKeyWithSpace.selects_iff hp k.2 keccak padding).mpr hmatches
    refine ⟨⟨(k.1.rawKey keccak padding, value), ?_, ?_⟩, by simpa using hfilter⟩
    · rw [StringMap.scanPrefix_eq_filter, List.mem_filter]
      exact ⟨StringMap.mem_toList.mpr hvalue, decide_eq_true hextends⟩
    · rw [canonicalOf_rawKey k.2]

/-- By canonical key, a layer contributes its records of the keys that match. -/
theorem Layer.Keyed.valueAt_selected (h : l.Keyed Storable) (hp : p.PrefixKey) (k : StorableKey) :
    valueAt (l.selected p) k.1.canonical = if p.Matches k.1 then l.overlay k else none := by
  have hnodup : ((l.selected p).map Prod.fst).Nodup := nodup_selected (h.nodup_scanPrefix _)
  refine Option.ext fun r => ?_
  rw [Radix.valueAt_eq_some_iff hnodup, h.mem_selected hp]
  constructor
  · rintro ⟨k', heq, hmatches, hoverlay⟩
    obtain rfl : k' = k := Subtype.ext (StorageKeyWithSpace.canonical_injective k'.2 k.2 heq)
    rw [if_pos hmatches, hoverlay]
  · intro hr
    by_cases hmatches : p.Matches k.1
    · rw [if_pos hmatches] at hr
      exact ⟨k, rfl, hmatches, hr⟩
    · rw [if_neg hmatches] at hr
      cases hr

end Layer

/-! ## Prefix reads -/

namespace Layers

variable {keccak : Bytes → H256} {L : Layers keccak} {p : StorageKeyWithSpace}

/-- The live snapshot entries that a prefix operation looks at. -/
def snapshotRecords (L : Layers keccak) (p : StorageKeyWithSpace) : List Record :=
  (L.snapshotKvs p.canonical).map fun e => (e.1, some e.2)

/-- The records that a prefix operation looks at, from the top layer down. -/
def records (L : Layers keccak) (p : StorageKeyWithSpace) : List Record :=
  L.delta.selected p ++ (L.intermediate.selected p ++ L.snapshotRecords p)

theorem mem_snapshotRecords {c : Bytes} {r : Option Bytes} :
    (c, r) ∈ L.snapshotRecords p ↔ p.canonical <+: c ∧ ∃ v, L.snapshot[c]? = some v ∧ r = some v := by
  unfold snapshotRecords snapshotKvs
  rw [List.mem_map]
  constructor
  · rintro ⟨⟨c', v⟩, hmem, heq⟩
    obtain ⟨rfl, rfl⟩ := Prod.mk.inj heq
    obtain ⟨hlist, hextends⟩ := List.mem_filter.mp hmem
    exact ⟨of_decide_eq_true hextends, v, StringMap.mem_toList.mp hlist, rfl⟩
  · rintro ⟨hextends, v, hv, rfl⟩
    exact ⟨(c, v), List.mem_filter.mpr ⟨StringMap.mem_toList.mpr hv, decide_eq_true hextends⟩, rfl⟩

/-- By canonical key, the snapshot contributes its values of the keys that match. -/
theorem valueAt_snapshotRecords (k : StorableKey) :
    valueAt (L.snapshotRecords p) k.1.canonical =
      if p.Matches k.1 then (L.below k).map some else none := by
  have hnodup : ((L.snapshotRecords p).map Prod.fst).Nodup := by
    unfold snapshotRecords snapshotKvs
    rw [List.map_map]
    exact ((StringMap.sorted_toList L.snapshot).filter _).nodup_keys
  refine Option.ext fun r => ?_
  rw [Radix.valueAt_eq_some_iff hnodup, mem_snapshotRecords]
  by_cases hmatches : p.Matches k.1
  · rw [if_pos hmatches, Option.map_eq_some_iff]
    constructor
    · rintro ⟨-, v, hv, rfl⟩
      exact ⟨v, hv, rfl⟩
    · rintro ⟨v, hv, rfl⟩
      exact ⟨hmatches, v, hv, rfl⟩
  · rw [if_neg hmatches]
    constructor
    · rintro ⟨hextends, -⟩
      exact absurd hextends hmatches
    · intro h
      cases h

/-- Every key looked at is the canonical key of a storable key that matches. -/
theorem Keyed.exists_of_mem_records (h : L.Keyed Storable) (hp : p.PrefixKey) {c : Bytes}
    {r : Option Bytes} (hr : (c, r) ∈ L.records p) :
    ∃ k : StorableKey, k.1.canonical = c ∧ p.Matches k.1 := by
  rcases List.mem_append.mp hr with hdelta | hr
  · obtain ⟨k, heq, hmatches, -⟩ := (h.delta.mem_selected hp).mp hdelta
    exact ⟨k, heq, hmatches⟩
  · rcases List.mem_append.mp hr with hintermediate | hsnapshot
    · obtain ⟨k, heq, hmatches, -⟩ := (h.intermediate.mem_selected hp).mp hintermediate
      exact ⟨k, heq, hmatches⟩
    · obtain ⟨hextends, v, hv, -⟩ := mem_snapshotRecords.mp hsnapshot
      obtain ⟨k, hk, rfl⟩ := h.snapshot c (ExtTreeMap.mem_iff_isSome_getElem?.mpr (by simp [hv]))
      exact ⟨⟨k, hk⟩, rfl, hextends⟩

/-- The first record looked at of a key is live exactly when the key matches and reads as live. -/
theorem Keyed.valueAt_records (h : L.Keyed Storable) (hp : p.PrefixKey) (k : StorableKey)
    (v : Bytes) : valueAt (L.records p) k.1.canonical = some (some v) ↔
      p.Matches k.1 ∧ L.view k = some v := by
  unfold records view Overlay.onto
  rw [valueAt_append, valueAt_append, h.delta.valueAt_selected hp, h.intermediate.valueAt_selected hp,
    valueAt_snapshotRecords]
  by_cases hmatches : p.Matches k.1
  · rw [if_pos hmatches, if_pos hmatches, if_pos hmatches]
    cases L.delta.overlay k with
    | some r => simp [hmatches]
    | none =>
      cases L.intermediate.overlay k with
      | some r => simp [hmatches]
      | none => simp [hmatches]
  · rw [if_neg hmatches, if_neg hmatches, if_neg hmatches]
    simp [hmatches]

/-- The loop over the delta adds the records it selects. -/
theorem Keyed.collectDeltaKvs_eq (h : L.Keyed Storable) :
    collectDeltaKvs (addressPrefixFilter p)
      (StringMap.scanPrefix L.delta.entries (p.rawKey keccak L.deltaPadding)) =
        .ok ((L.delta.selected p).foldl Collected.addRecord .empty) :=
  MinimalMpt.collectDeltaKvs_eq
    (fun _ he => L.delta.decodes (Layer.mem_of_mem_scanPrefix he).1) (h.delta.nodup_scanPrefix _)

/-- A prefix read collects the records it looks at. -/
theorem Keyed.readPrefix_eq (h : L.Keyed Storable) (hp : p.PrefixKey) :
    L.readPrefix p =
      .ok ((L.records p).foldl Collected.addRecord Collected.empty).result := by
  unfold readPrefix
  rw [hp.toKeyBytes_eq, Except.ok_bind, hp.deltaKey_eq, Except.ok_bind, hp.deltaKey_eq,
    Except.ok_bind]
  dsimp only
  rw [h.collectDeltaKvs_eq, Except.ok_bind, foldlM_collectIntermediate
    (fun e he => L.intermediate.decodes (Layer.mem_of_mem_scanPrefix he).1), Except.ok_bind,
    foldl_collectSnapshot, ← List.foldl_append, ← List.foldl_append]
  rfl

/-- **A prefix read is a filter of the logical map.** -/
theorem Keyed.readPrefix_spec (h : L.Keyed Storable) (hp : p.PrefixKey) :
    ∃ values, L.readPrefix p = .ok values ∧ (values.map Prod.fst).Nodup ∧
      ∀ c v, (c, v) ∈ values ↔
        ∃ k : StorableKey, k.1.canonical = c ∧ p.Matches k.1 ∧ L.view k = some v := by
  have hholds := Collected.holds_foldl (L.records p)
  refine ⟨_, h.readPrefix_eq hp, hholds.nodup, fun c v => ?_⟩
  rw [hholds.result]
  constructor
  · intro hvalue
    obtain ⟨k, rfl, -⟩ := h.exists_of_mem_records hp (mem_of_valueAt hvalue)
    obtain ⟨hmatches, hview⟩ := (h.valueAt_records hp k v).mp hvalue
    exact ⟨k, rfl, hmatches, hview⟩
  · rintro ⟨k, rfl, hmatches, hview⟩
    exact (h.valueAt_records hp k v).mpr ⟨hmatches, hview⟩

end Layers

/-! ## Prefix reads of the state -/

/-- A fresh state over keys in `P`. -/
def Origin.Keyed (P : StorageKeyWithSpace → Prop) : Origin → Prop
  | fromSnapshot snapshot => ∀ c ∈ snapshot, ∃ k : StorageKeyWithSpace, P k ∧ k.canonical = c
  | new | withSnapshotEpochCount _ => True

namespace State

variable (keccak : Bytes → H256)

/-- Every run that sets keys in `P` only ends in a state that represents layers keyed in `P`. -/
theorem exists_keyed_final {P : StorageKeyWithSpace → Prop} (hP : Layers.Writable keccak P)
    {origin : Origin} (horigin : origin.Keyed P) {ops : List Op}
    (hops : ∀ op ∈ ops, Layers.Sets P op) :
    ∃ L : Layers keccak,
      (Machine.final (step keccak) (origin.state keccak) ops).Represents keccak L ∧ L.Keyed P := by
  have hempty : ∀ c ∈ (∅ : ExtTreeMap Bytes Bytes),
      ∃ k : StorageKeyWithSpace, P k ∧ k.canonical = c :=
    fun c hc => absurd hc ExtTreeMap.not_mem_empty
  obtain ⟨L, hrep, hkeyed⟩ : ∃ L : Layers keccak, (origin.state keccak).Represents keccak L ∧
      L.Keyed P := by
    cases origin with
    | new => exact ⟨_, represents_new, Layers.keyed_ofSnapshot hempty _ _⟩
    | withSnapshotEpochCount n =>
      exact ⟨_, represents_withSnapshotEpochCount n, Layers.keyed_ofSnapshot hempty _ _⟩
    | fromSnapshot snapshot =>
      exact ⟨_, represents_fromSnapshot snapshot, Layers.keyed_ofSnapshot horigin _ _⟩
  exact ⟨_, simulation.final_rel hrep fun _ _ => trivial, hkeyed.final hP hops⟩

/-- The canonical key `c` extends that of `p` and belongs to a storable key that reads as `v`. -/
def MatchingPair (s : State) (p : StorageKeyWithSpace) (c v : Bytes) : Prop :=
  ∃ k : StorageKeyWithSpace, k.Storable ∧ k.toKeyBytes = .ok c ∧ p.canonical <+: c ∧
    (step keccak s (.get k)).1 = .ok (.value (some v))

variable {keccak} in
/-- In a state of keyed layers, the matching pairs are those of the logical map. -/
theorem matchingPair_iff {s : State} {L : Layers keccak} (h : s.Represents keccak L)
    {p : StorageKeyWithSpace} {c v : Bytes} : MatchingPair keccak s p c v ↔
      ∃ k : StorableKey, k.1.canonical = c ∧ p.Matches k.1 ∧ L.view k = some v := by
  have hget : ∀ k : StorableKey, (step keccak s (.get k.1)).1 = .ok (.value (L.view k)) := by
    intro k
    rw [h.get_reply, L.get_eq_view]
    rfl
  constructor
  · rintro ⟨k, hk, hc, hextends, hvalue⟩
    obtain rfl := StorageKeyWithSpace.canonical_of_toKeyBytes hc
    rw [hget ⟨k, hk⟩] at hvalue
    exact ⟨⟨k, hk⟩, rfl, hextends, Reply.value.inj (Except.ok.inj hvalue)⟩
  · rintro ⟨k, rfl, hmatches, hview⟩
    exact ⟨k.1, k.2, k.2.toKeyBytes_eq, hmatches, by rw [hget, hview]⟩

/-- **A prefix read is a filter of the readable pairs.** After every run that sets storable keys
only, a prefix read returns each canonical key at most once, exactly the pairs whose canonical key
extends that of the prefix and reads as the value, and `none` exactly if there are none. -/
theorem getAllByPrefix_spec (origin : Origin) (horigin : origin.Keyed Storable) (ops : List Op)
    (hops : ∀ op ∈ ops, Layers.Sets Storable op) (p : StorageKeyWithSpace) (hp : p.PrefixKey) :
    let s := Machine.final (step keccak) (origin.state keccak) ops
    ∃ values, (step keccak s (.getAllByPrefix p)).1 = .ok (.entries values) ∧
      ((values.getD []).map Prod.fst).Nodup ∧
      (∀ c v, (c, v) ∈ values.getD [] ↔ MatchingPair keccak s p c v) ∧
      (values = none ↔ ∀ c v, ¬ MatchingPair keccak s p c v) := by
  obtain ⟨L, hrep, hkeyed⟩ := exists_keyed_final keccak Layers.writable_storable horigin hops
  obtain ⟨values, hread, hnodup, hmem⟩ := hkeyed.readPrefix_spec hp
  have hgetD : (nonEmpty values).getD [] = values := by
    unfold nonEmpty
    cases values <;> rfl
  have hpairs : ∀ c v, (c, v) ∈ values ↔ MatchingPair keccak _ p c v :=
    fun c v => (hmem c v).trans (matchingPair_iff hrep).symm
  refine ⟨nonEmpty values, ?_, by rwa [hgetD], by rwa [hgetD], ?_⟩
  · rw [hrep.getAllByPrefix_reply, Layers.getAllByPrefix, hread]
    rfl
  · constructor
    · intro hnone c v hpair
      have hv := (hpairs c v).mpr hpair
      rw [← hgetD, hnone] at hv
      cases hv
    · intro hall
      cases values with
      | nil => rfl
      | cons e values => exact absurd ((hpairs e.1 e.2).mp List.mem_cons_self) (hall e.1 e.2)

/-- Two accounts of which one has the first byte `1`. -/
theorem getAllByPrefix_spec_address :
    let s := Machine.final (step keccak256) (Origin.new.state keccak256)
      [.set ⟨.account [1], .native⟩ [7], .set ⟨.account [2], .native⟩ [8], .commit]
    ∃ values, (step keccak256 s (.getAllByPrefix ⟨.addressPrefix [1], .native⟩)).1 =
        .ok (.entries values) ∧
      ((values.getD []).map Prod.fst).Nodup ∧
      (∀ c v, (c, v) ∈ values.getD [] ↔
        MatchingPair keccak256 s ⟨.addressPrefix [1], .native⟩ c v) ∧
      (values = none ↔ ∀ c v, ¬ MatchingPair keccak256 s ⟨.addressPrefix [1], .native⟩ c v) :=
  getAllByPrefix_spec keccak256 .new trivial _
    (by
      intro op hop
      rcases List.mem_cons.mp hop with rfl | hop
      · exact Or.inr ⟨[1], rfl, by decide⟩
      · rcases List.mem_cons.mp hop with rfl | hop
        · exact Or.inr ⟨[2], rfl, by decide⟩
        · obtain rfl := List.mem_singleton.mp hop
          trivial)
    _ (Or.inr (Or.inr ⟨[1], rfl⟩))

end State

end MinimalMpt
