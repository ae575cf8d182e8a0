import CfxMinimalExecution.MinimalMpt.LayeredStateOps
import CfxMinimalExecution.MinimalMpt.PrefixCurrent

/-!
# The state and its reference model

The state agrees with the reference model of `layered_state_ops.rs` when every layer holds the same
records, in the state under raw keys and in the model under canonical keys. Both walk their layers
in the order of their own keys, so a prefix operation meets the same records in two orders; what it
collects is the first record of every key in either.

## Main definitions

* `SameRecords`: a layer of the state holds the records of a layer of the model
* `Agrees`: the state and the model hold the same layers, under the same paddings
* `stateRecords`, `modelRecords`: the records that a prefix operation looks at

## Main results

* `Agrees.get`, `Agrees.set`: reads return the same values, and writes keep the agreement
* `Agrees.perm_collected`: a prefix operation collects the same pairs in both
* `Agrees.readPrefix`, `Model.prefixGet_eq`: prefix reads collect them
-/

open Std (ExtTreeMap)
open Fallible (exec Ensures)
open Radix (valueAt valueAt_append)

namespace MinimalMpt

namespace LayeredStateOps

open StorageKeyWithSpace (fromDeltaMptKey fromKeyBytes Full Storable)

/-! ## Seeds -/

theorem length_normalizeSuffix (bytes : Bytes) (len : ℕ) :
    (normalizeSuffix bytes len).length = len := by
  rw [normalizeSuffix, List.length_append, List.length_take, List.length_replicate]
  omega

theorem normalizeSuffix_ne_nil (bytes : Bytes) : normalizeSuffix bytes 32 ≠ [] := by
  intro hnil
  have hlen := length_normalizeSuffix bytes 32
  rw [hnil] at hlen
  cases hlen

/-- Calls are made with full keys. -/
theorem KeySeed.full (seed : KeySeed) : seed.toStorageKey.Full := by
  have haddress : (List.replicate 20 seed.id).length = accountBytes := List.length_replicate
  have hsuffix := normalizeSuffix_ne_nil seed.suffix
  rw [KeySeed.toStorageKey]
  split
  · exact haddress
  · exact haddress
  · exact ⟨haddress, hsuffix⟩
  · exact haddress
  · exact ⟨haddress, hsuffix⟩
  · exact haddress
  · exact haddress

/-- Prefixes have an address of full length, or are bytes. -/
theorem PrefixSeed.addressed (seed : PrefixSeed) :
    seed.toStorageKey.Addressed ∨ seed.toStorageKey.BytePrefix := by
  rw [PrefixSeed.toStorageKey]
  split
  · exact .inr (.inr ⟨_, rfl⟩)
  split
  · exact .inl (.inl List.length_replicate)
  · exact .inl (.inl seed.key.full.address_length)

/-! ## The records of a layer -/

variable {keccak : Bytes → H256} {padding : DeltaMptKeyPadding}
  {entries : ExtTreeMap Bytes MptValue} {records : ExtTreeMap Bytes ModelValue}

variable (keccak) in
/-- Under raw keys of `padding`, the layer of the state holds what the layer of the model holds
under canonical keys. -/
structure SameRecords (padding : DeltaMptKeyPadding) (entries : ExtTreeMap Bytes MptValue)
    (records : ExtTreeMap Bytes ModelValue) : Prop where
  encoded : ∀ raw ∈ entries, ∃ k : StorageKeyWithSpace, k.Full ∧ k.rawKey keccak padding = raw
  canonical : ∀ c ∈ records, ∃ k : StorageKeyWithSpace, k.Full ∧ k.canonical = c
  record : ∀ k : StorageKeyWithSpace, k.Full → records[k.canonical]? =
    entries[k.rawKey keccak padding]?.map fun v => ⟨k.rawKey keccak padding, v.visibleValue⟩

namespace SameRecords

theorem empty : SameRecords keccak padding ∅ ∅ where
  encoded := fun raw hraw => absurd hraw ExtTreeMap.not_mem_empty
  canonical := fun c hc => absurd hc ExtTreeMap.not_mem_empty
  record := fun k _ => by simp

theorem insert (h : SameRecords keccak padding entries records) {k : StorageKeyWithSpace}
    (hk : k.Full) (value : MptValue) :
    SameRecords keccak padding (entries.insert (k.rawKey keccak padding) value)
      (records.insert k.canonical ⟨k.rawKey keccak padding, value.visibleValue⟩) where
  encoded := by
    intro raw hraw
    rcases ExtTreeMap.mem_insert.mp hraw with heq | hmem
    · exact ⟨k, hk, Std.compare_eq_iff_eq.mp heq⟩
    · exact h.encoded raw hmem
  canonical := by
    intro c hc
    rcases ExtTreeMap.mem_insert.mp hc with heq | hmem
    · exact ⟨k, hk, Std.compare_eq_iff_eq.mp heq⟩
    · exact h.canonical c hmem
  record := by
    intro k' hk'
    rw [getElem?_insert_eq, getElem?_insert_eq]
    by_cases heq : k = k'
    · subst heq
      rw [if_pos rfl, if_pos rfl]
      rfl
    -- other full keys have other keys in both layers
    · have hcanonical : k.canonical ≠ k'.canonical := fun hsame =>
        heq (StorageKeyWithSpace.canonical_injective (.inl hk) (.inl hk') hsame)
      have hraw : k.rawKey keccak padding ≠ k'.rawKey keccak padding := fun hsame =>
        heq (StorageKeyWithSpace.rawKey_injective (.inl hk) (.inl hk') keccak padding hsame)
      rw [if_neg hcanonical, if_neg hraw]
      exact h.record k' hk'

/-- Records whose raw keys extend a prefix are dropped from both layers. -/
theorem drop (h : SameRecords keccak padding entries records) {rawPrefix : Bytes}
    {entries' : ExtTreeMap Bytes MptValue} {records' : ExtTreeMap Bytes ModelValue}
    (hentries : ∀ raw : Bytes,
      entries'[raw]? = if rawPrefix <+: raw then none else entries[raw]?)
    (hrecords : ∀ c : Bytes,
      records'[c]? = records[c]?.filter fun v => !decide (rawPrefix <+: v.rawKey)) :
    SameRecords keccak padding entries' records' where
  encoded := by
    intro raw hraw
    apply h.encoded raw
    rw [ExtTreeMap.mem_iff_isSome_getElem?, hentries] at hraw
    rw [ExtTreeMap.mem_iff_isSome_getElem?]
    split at hraw
    · cases hraw
    · exact hraw
  canonical := by
    intro c hc
    apply h.canonical c
    rw [ExtTreeMap.mem_iff_isSome_getElem?, hrecords] at hc
    rw [ExtTreeMap.mem_iff_isSome_getElem?]
    exact Option.isSome_of_isSome_filter _ _ hc
  record := by
    intro k hk
    rw [hrecords, hentries, h.record k hk]
    by_cases hextends : rawPrefix <+: k.rawKey keccak padding
    · rw [if_pos hextends]
      cases entries[k.rawKey keccak padding]? <;> simp [hextends]
    · rw [if_neg hextends]
      cases entries[k.rawKey keccak padding]? <;> simp [hextends]

/-- The layer of the state, with the encodings of its keys. -/
def layer (h : SameRecords keccak padding entries records) : Layer keccak padding where
  entries := entries
  encoded := by
    intro raw hraw
    rcases h.encoded raw hraw with ⟨k, hk, rfl⟩
    exact ⟨k, Storable.deltaKey_eq (.inl hk) keccak padding⟩

theorem keyed (h : SameRecords keccak padding entries records) : h.layer.Keyed Storable := by
  intro raw hraw
  rcases h.encoded raw hraw with ⟨k, hk, hkey⟩
  exact ⟨k, .inl hk, hkey⟩

/-- A record of the model is one of the state. -/
theorem exists_of_mem_toList (h : SameRecords keccak padding entries records) {c : Bytes}
    {value : ModelValue} (hmem : (c, value) ∈ records.toList) :
    ∃ k : StorageKeyWithSpace, ∃ v : MptValue, k.Full ∧ k.canonical = c ∧
      entries[k.rawKey keccak padding]? = some v ∧
      value = ⟨k.rawKey keccak padding, v.visibleValue⟩ := by
  have hget := StringMap.mem_toList.mp hmem
  rcases h.canonical c (ExtTreeMap.mem_iff_isSome_getElem?.mpr (by simp [hget])) with ⟨k, hk, rfl⟩
  rw [h.record k hk, Option.map_eq_some_iff] at hget
  rcases hget with ⟨v, hv, rfl⟩
  exact ⟨k, v, hk, rfl, hv, rfl⟩

/-- A record of the state is one of the model. -/
theorem exists_of_mem_entries (h : SameRecords keccak padding entries records) {raw : Bytes}
    {value : MptValue} (hmem : (raw, value) ∈ entries.toList) :
    ∃ k : StorageKeyWithSpace, k.Full ∧ k.rawKey keccak padding = raw ∧
      (k.canonical, ⟨raw, value.visibleValue⟩) ∈ records.toList := by
  have hget := StringMap.mem_toList.mp hmem
  rcases h.encoded raw (ExtTreeMap.mem_iff_isSome_getElem?.mpr (by simp [hget])) with ⟨k, hk, rfl⟩
  refine ⟨k, hk, rfl, StringMap.mem_toList.mpr ?_⟩
  rw [h.record k hk, hget]
  rfl

end SameRecords

/-! ## What a prefix operation meets in a layer -/

/-- The records that the loops of the model look at in a layer. -/
def selected (rawPrefix : Bytes) (addressPrefix : Option Bytes)
    (records : ExtTreeMap Bytes ModelValue) : List Record :=
  (records.toList.filter fun e => !Model.skips rawPrefix addressPrefix e).map
    fun e => (e.1, e.2.value)

theorem mem_selected {rawPrefix : Bytes} {addressPrefix : Option Bytes} {c : Bytes}
    {r : Option Bytes} : (c, r) ∈ selected rawPrefix addressPrefix records ↔
      ∃ value : ModelValue, (c, value) ∈ records.toList ∧ rawPrefix <+: value.rawKey ∧
        isFiltered addressPrefix c = false ∧ value.value = r := by
  rw [selected, List.mem_map]
  constructor
  · rintro ⟨⟨c', value⟩, hmem, heq⟩
    rcases Prod.mk.inj heq with ⟨rfl, rfl⟩
    rcases List.mem_filter.mp hmem with ⟨hlist, hskips⟩
    rw [Model.skips, Bool.not_or, Bool.and_eq_true, Bool.not_not, decide_eq_true_iff] at hskips
    exact ⟨value, hlist, hskips.1, by simpa using hskips.2, rfl⟩
  · rintro ⟨value, hlist, hextends, hfilter, rfl⟩
    refine ⟨(c, value), List.mem_filter.mpr ⟨hlist, ?_⟩, rfl⟩
    rw [Model.skips, hfilter]
    simpa using hextends

theorem nodup_selected (rawPrefix : Bytes) (addressPrefix : Option Bytes) :
    ((selected rawPrefix addressPrefix records).map Prod.fst).Nodup := by
  rw [selected, List.map_map]
  exact ((StringMap.sorted_toList records).filter _).nodup_keys

/-- Both walks over a layer look at the same records, each in the order of its own keys. -/
theorem SameRecords.mem_selected_iff (h : SameRecords keccak padding entries records)
    {rawPrefix : Bytes} {addressPrefix : Option Bytes} {c : Bytes} {r : Option Bytes} :
    (c, r) ∈ MinimalMpt.selected addressPrefix (StringMap.scanPrefix entries rawPrefix) ↔
      (c, r) ∈ selected rawPrefix addressPrefix records := by
  rw [mem_selected, MinimalMpt.selected, List.mem_filter, List.mem_map,
    StringMap.scanPrefix_eq_filter]
  constructor
  · rintro ⟨⟨⟨raw, value⟩, hmem, heq⟩, hfilter⟩
    rcases Prod.mk.inj heq with ⟨rfl, rfl⟩
    rcases List.mem_filter.mp hmem with ⟨hlist, hextends⟩
    rcases h.exists_of_mem_entries hlist with ⟨k, hk, rfl, hrecord⟩
    rw [canonicalOf_rawKey (.inl hk)] at hfilter ⊢
    exact ⟨_, hrecord, of_decide_eq_true hextends, by simpa using hfilter, rfl⟩
  · rintro ⟨value, hlist, hextends, hfilter, rfl⟩
    rcases h.exists_of_mem_toList hlist with ⟨k, v, hk, rfl, hv, rfl⟩
    refine ⟨⟨(k.rawKey keccak padding, v), ?_, ?_⟩, by simpa using hfilter⟩
    · exact List.mem_filter.mpr ⟨StringMap.mem_toList.mpr hv, decide_eq_true hextends⟩
    · rw [canonicalOf_rawKey (.inl hk)]

theorem SameRecords.nodup_scanned (h : SameRecords keccak padding entries records)
    (rawPrefix : Bytes) (addressPrefix : Option Bytes) :
    ((MinimalMpt.selected addressPrefix
      (StringMap.scanPrefix entries rawPrefix)).map Prod.fst).Nodup :=
  MinimalMpt.nodup_selected (h.keyed.nodup_scanPrefix rawPrefix)

theorem SameRecords.valueAt_selected (h : SameRecords keccak padding entries records)
    (rawPrefix : Bytes) (addressPrefix : Option Bytes) (c : Bytes) :
    valueAt (MinimalMpt.selected addressPrefix (StringMap.scanPrefix entries rawPrefix)) c =
      valueAt (selected rawPrefix addressPrefix records) c := by
  apply Option.ext
  intro r
  rw [Radix.valueAt_eq_some_iff (h.nodup_scanned rawPrefix addressPrefix),
    Radix.valueAt_eq_some_iff (nodup_selected rawPrefix addressPrefix), h.mem_selected_iff]

theorem SameRecords.decodes (h : SameRecords keccak padding entries records) {rawPrefix : Bytes} :
    ∀ e ∈ StringMap.scanPrefix entries rawPrefix, Decodes e.1 :=
  fun e (he : e ∈ StringMap.scanPrefix h.layer.entries rawPrefix) =>
    h.layer.decodes (Layer.mem_of_mem_scanPrefix he).1

/-- The loop of the model over the delta adds the records it looks at. -/
theorem foldl_getDelta (rawPrefix : Bytes) (addressPrefix : Option Bytes) :
    records.toList.foldl (Model.getDelta rawPrefix addressPrefix) .empty =
      (selected rawPrefix addressPrefix records).foldl Collected.addRecord .empty := by
  rw [← Collected.foldl_overwrite_eq (nodup_selected rawPrefix addressPrefix)
    (fun r _ => by simp [Collected.empty]), selected, List.foldl_map, List.foldl_filter]
  congr 1
  funext found e
  rw [Model.getDelta]
  cases Model.skips rawPrefix addressPrefix e <;> rfl

/-- The loop of the model over the intermediate layer adds the records it looks at. -/
theorem foldl_getIntermediate (rawPrefix : Bytes) (addressPrefix : Option Bytes)
    (found : Collected) :
    records.toList.foldl (Model.getIntermediate rawPrefix addressPrefix) found =
      (selected rawPrefix addressPrefix records).foldl Collected.addRecord found := by
  rw [selected, List.foldl_map, List.foldl_filter]
  congr 1
  funext found e
  rw [Model.getIntermediate]
  cases Model.skips rawPrefix addressPrefix e <;> rfl

/-! ## What a prefix operation returns -/

/-- Loops over records that agree by key collect the same pairs. -/
theorem perm_of_holds {found found' : Collected} {rs rs' : List Record} (h : found.Holds rs)
    (h' : found'.Holds rs') (hsame : ∀ c, valueAt rs c = valueAt rs' c) :
    found.result.Perm found'.result := by
  rw [List.perm_ext_iff_of_nodup h.nodup.of_map h'.nodup.of_map]
  rintro ⟨c, v⟩
  rw [h.result, h'.result, hsame]

instance : Std.TransCmp compareKvs := inferInstanceAs (Std.TransCmp (compareLex _ _))

theorem eq_of_kvsLe {a b : MptKeyValue} (hab : kvsLe a b) (hba : kvsLe b a) : a = b := by
  have heq : compareKvs a b = .eq := Std.OrientedCmp.isLE_antisymm hab hba
  rw [compareKvs, compareLex, Ordering.then_eq_eq] at heq
  exact Prod.ext (Std.LawfulEqCmp.compare_eq_iff_eq.mp heq.1)
    (Std.LawfulEqCmp.compare_eq_iff_eq.mp heq.2)

theorem pairwise_mergeSort (values : List MptKeyValue) :
    (values.mergeSort kvsLe).Pairwise fun a b => kvsLe a b := by
  apply List.pairwise_mergeSort
  · intro a b c
    exact Std.TransCmp.isLE_trans
  · intro a b
    rw [kvsLe, kvsLe, @Std.OrientedCmp.eq_swap _ compareKvs _ b a]
    cases compareKvs a b <;> rfl

/-- Sorting forgets the order in which the pairs were collected. -/
theorem mergeSort_eq {values values' : List MptKeyValue} (h : values.Perm values') :
    values.mergeSort kvsLe = values'.mergeSort kvsLe := by
  have hperm := (List.mergeSort_perm values kvsLe).trans
    (h.trans (List.mergeSort_perm values' kvsLe).symm)
  apply List.Perm.eq_of_pairwise _ (pairwise_mergeSort values) (pairwise_mergeSort values') hperm
  intro a b _ _
  exact eq_of_kvsLe

theorem normalizeKvs_nonEmpty {values values' : List MptKeyValue} (h : values.Perm values') :
    normalizeKvs (nonEmpty values) = normalizeKvs (nonEmpty values') := by
  rw [nonEmpty, nonEmpty, h.isEmpty_eq]
  split
  · rfl
  · exact congrArg some (mergeSort_eq h)

/-! ## Agreement -/

variable (keccak) in
/-- The state holds the layers of the model, under the same paddings and with valid caches. -/
structure Agrees (s : State) (m : Model) : Prop where
  snapshot : s.snapshot.Represents keccak m.snapshot
  snapshotKeys : ∀ c ∈ m.snapshot, ∃ k : StorageKeyWithSpace, k.Full ∧ k.canonical = c
  intermediate : SameRecords keccak m.intermediatePadding s.intermediate m.intermediate
  delta : SameRecords keccak m.deltaPadding s.delta m.delta
  intermediatePadding : s.intermediatePadding = m.intermediatePadding
  deltaPadding : s.deltaPadding = m.deltaPadding
  height : s.height = m.height
  snapshotEpochCount : s.snapshotEpochCount = m.snapshotEpochCount
  epochs_pos : 0 < m.snapshotEpochCount
  deltaAccountCache : s.deltaAccountCache.Valid keccak
  intermediateAccountCache : s.intermediateAccountCache.Valid keccak

namespace Agrees

variable {s : State} {m : Model} {k p : StorageKeyWithSpace}

/-! ### Reads and writes -/

theorem deltaKeyCached (h : Agrees keccak s m) (hk : k.Full) :
    Ensures (State.deltaKeyCached keccak k) s fun raw s' =>
      raw = k.rawKey keccak m.deltaPadding ∧ Agrees keccak s' m := by
  rcases StorageKeyWithSpace.toDeltaMptKeyBytes_spec keccak k s.deltaPadding
    (AccountKeyCache.valid_some h.deltaAccountCache) with ⟨hraw, hvalid⟩
  have hkey := Storable.deltaKey_eq (.inl hk) keccak s.deltaPadding
  refine ⟨_, _, Prod.ext (hraw.trans hkey) rfl, ?_, { h with deltaAccountCache := ?_ }⟩
  · rw [h.deltaPadding]
  · exact AccountKeyCache.valid_getD h.deltaAccountCache hvalid

theorem intermediateKeyCached (h : Agrees keccak s m) (hk : k.Full) :
    Ensures (State.intermediateKeyCached keccak k) s fun raw s' =>
      raw = k.rawKey keccak m.intermediatePadding ∧ Agrees keccak s' m := by
  rcases StorageKeyWithSpace.toDeltaMptKeyBytes_spec keccak k s.intermediatePadding
    (AccountKeyCache.valid_some h.intermediateAccountCache) with ⟨hraw, hvalid⟩
  have hkey := Storable.deltaKey_eq (.inl hk) keccak s.intermediatePadding
  refine ⟨_, _, Prod.ext (hraw.trans hkey) rfl, ?_, { h with intermediateAccountCache := ?_ }⟩
  · rw [h.intermediatePadding]
  · exact AccountKeyCache.valid_getD h.intermediateAccountCache hvalid

/-- A read returns what the model holds. -/
theorem get (h : Agrees keccak s m) (hk : k.Full) :
    Ensures (State.get keccak k) s fun value s' =>
      value = m.get k.canonical ∧ Agrees keccak s' m := by
  apply (h.deltaKeyCached hk).bind
  rintro _ s ⟨rfl, h⟩
  apply Ensures.read
  rw [Model.get, h.delta.record k hk]
  cases s.delta[k.rawKey keccak m.deltaPadding]? with
  | some value => exact Ensures.pure ⟨rfl, h⟩
  | none =>
    apply (h.intermediateKeyCached hk).bind
    rintro _ s ⟨rfl, h⟩
    apply Ensures.read
    rw [h.intermediate.record k hk]
    cases s.intermediate[k.rawKey keccak m.intermediatePadding]? with
    | some value => exact Ensures.pure ⟨rfl, h⟩
    | none =>
      apply Ensures.lift_bind (Storable.toKeyBytes_eq (.inl hk))
      exact Ensures.pure ⟨h.snapshot.snapshotGetOwned k.canonical, h⟩

/-- A write reaches the delta of both. -/
theorem set (h : Agrees keccak s m) (hk : k.Full) (value : Bytes) :
    Ensures (State.set keccak k value) s fun _ s' => Agrees keccak s' { m with
      delta := m.delta.insert k.canonical
        ⟨k.rawKey keccak m.deltaPadding, (storedValue value).visibleValue⟩ } := by
  apply (h.deltaKeyCached hk).bind
  rintro _ s ⟨rfl, h⟩
  apply Ensures.update
  exact { h with delta := h.delta.insert hk (storedValue value) }

/-! ### Prefix reads -/

end Agrees

/-- The pairs of a snapshot under a prefix, as records. -/
def snapshotRecords (kvs : List MptKeyValue) : List Record := kvs.map fun e => (e.1, some e.2)

variable (keccak) in
/-- The records that a prefix operation looks at in the state, from the top layer down. -/
def stateRecords (s : State) (m : Model) (p : StorageKeyWithSpace) : List Record :=
  MinimalMpt.selected (addressPrefixFilter p)
      (StringMap.scanPrefix s.delta (p.rawKey keccak m.deltaPadding)) ++
    (MinimalMpt.selected (addressPrefixFilter p)
        (StringMap.scanPrefix s.intermediate (p.rawKey keccak m.intermediatePadding)) ++
      snapshotRecords (StringMap.scanPrefix m.snapshot p.canonical))

variable (keccak) in
/-- The records that a prefix operation looks at in the model, from the top layer down. -/
def modelRecords (m : Model) (p : StorageKeyWithSpace) : List Record :=
  selected (p.rawKey keccak m.deltaPadding) (addressPrefixFilter p) m.delta ++
    (selected (p.rawKey keccak m.intermediatePadding) (addressPrefixFilter p) m.intermediate ++
      snapshotRecords (StringMap.scanPrefix m.snapshot p.canonical))

/-- The pairs that the loops of a prefix operation collect. -/
def collected (rs : List Record) : List MptKeyValue :=
  (rs.foldl Collected.addRecord .empty).result

namespace Agrees

variable {s : State} {m : Model} {k p : StorageKeyWithSpace}

/-- **In both orders the loops collect the same pairs.** -/
theorem perm_collected (h : Agrees keccak s m) (p : StorageKeyWithSpace) :
    (collected (stateRecords keccak s m p)).Perm (collected (modelRecords keccak m p)) := by
  apply perm_of_holds (Collected.holds_foldl _) (Collected.holds_foldl _)
  intro c
  rw [stateRecords, modelRecords, valueAt_append, valueAt_append, valueAt_append, valueAt_append,
    h.delta.valueAt_selected, h.intermediate.valueAt_selected]

theorem scanSnapshot (h : Agrees keccak s m) (canonicalPrefix : Bytes) :
    s.snapshot.snapshotScanPrefix canonicalPrefix =
      StringMap.scanPrefix m.snapshot canonicalPrefix := by
  rw [h.snapshot.snapshotScanPrefix, StringMap.scanPrefix_eq_filter]

/-- A prefix read of the state collects the records of its layers. -/
theorem readPrefix (h : Agrees keccak s m) (hp : p.Addressed ∨ p.BytePrefix) :
    State.readPrefix keccak s p = .ok (collected (stateRecords keccak s m p)) := by
  rcases Layers.encodes keccak hp with ⟨hcanonical, hraw⟩
  have hdelta : (p.toDeltaMptKeyBytes keccak s.deltaPadding none).1 =
      .ok (p.rawKey keccak m.deltaPadding) := h.deltaPadding ▸ hraw m.deltaPadding
  have hintermediate : (p.toDeltaMptKeyBytes keccak s.intermediatePadding none).1 =
      .ok (p.rawKey keccak m.intermediatePadding) :=
    h.intermediatePadding ▸ hraw m.intermediatePadding
  rw [State.readPrefix, hcanonical, Except.ok_bind, hdelta, Except.ok_bind, hintermediate,
    Except.ok_bind]
  dsimp only
  rw [collectDeltaKvs_eq h.delta.decodes (h.delta.keyed.nodup_scanPrefix _), Except.ok_bind,
    foldlM_collectIntermediate h.intermediate.decodes, Except.ok_bind, h.scanSnapshot,
    foldl_collectSnapshot, ← List.foldl_append, ← List.foldl_append]
  rfl

end Agrees

/-- A prefix read of the model collects the records of its layers. -/
theorem Model.prefixGet_eq (m : Model) {p : StorageKeyWithSpace}
    (hp : p.Addressed ∨ p.BytePrefix) :
    m.prefixGet keccak p = some (nonEmpty (collected (modelRecords keccak m p))) := by
  rcases Layers.encodes keccak hp with ⟨hcanonical, hraw⟩
  have hdelta : (p.toDeltaMptKeyBytes keccak m.deltaPadding none).1 =
      .ok (p.rawKey keccak m.deltaPadding) := hraw m.deltaPadding
  have hintermediate : (p.toDeltaMptKeyBytes keccak m.intermediatePadding none).1 =
      .ok (p.rawKey keccak m.intermediatePadding) := hraw m.intermediatePadding
  rw [prefixGet, hcanonical, hdelta, hintermediate]
  show some (nonEmpty ((StringMap.scanPrefix m.snapshot p.canonical).foldl collectSnapshot
    (m.intermediate.toList.foldl (getIntermediate _ _)
      (m.delta.toList.foldl (getDelta _ _) .empty))).result) = _
  rw [foldl_getDelta, foldl_getIntermediate, foldl_collectSnapshot, ← List.foldl_append,
    ← List.foldl_append]
  rfl

end LayeredStateOps

end MinimalMpt
