import CfxMinimalExecution.Library.Overlay
import CfxMinimalExecution.MinimalMpt.IncrementalRoot

/-!
# The snapshot trie

`snapshot.rs` (the in-memory backend) and the snapshot reads of `incremental.rs`: the snapshot is
an incremental trie that holds live values only. It represents a byte-keyed map of values, and
its reads are reads of that map.

## Main definitions

* `SnapshotTrie` and its operations
* `SnapshotTrie.Represents`: the trie holds the values of a map, with a valid cache

## Main results

* `Represents.applyUpdates`: updates are absorbed into the map
* `Represents.snapshotGetOwned`, `Represents.snapshotScanPrefix`, `Represents.toCanonicalMap`
-/

open Std (ExtTreeMap)

namespace MinimalMpt

namespace IncrementalTrie

/-- `snapshot_get`. -/
def snapshotGet (t : IncrementalTrie) (canonical : Bytes) : Option Bytes :=
  t.entries[bytesToNibbles canonical]?.bind MptValue.visibleValue

/-- A live entry under its byte key. -/
def liveEntry : Entry → Option MptKeyValue
  | (nibbles, value) => value.visibleValue.map fun v => (nibblesToBytes nibbles, v)

/-- `snapshot_scan_prefix`. -/
def snapshotScanPrefix (t : IncrementalTrie) (canonicalPrefix : Bytes) : List MptKeyValue :=
  let nibblePrefix := bytesToNibbles canonicalPrefix
  (StringMap.range t.entries nibblePrefix (prefixUpper nibblePrefix)).filterMap liveEntry

/-- `to_canonical_map`. -/
def toCanonicalMap (t : IncrementalTrie) : ExtTreeMap Bytes Bytes :=
  ExtTreeMap.ofList (t.entries.toList.filterMap liveEntry)

end IncrementalTrie

structure SnapshotTrie where
  inner : IncrementalTrie

namespace SnapshotTrie

/-- `SnapshotTrie::default`. -/
def empty : SnapshotTrie := ⟨.empty⟩

def fromSnapshot (snapshot : ExtTreeMap Bytes Bytes) : SnapshotTrie := ⟨.fromSnapshot snapshot⟩

def insert (t : SnapshotTrie) (key : Bytes) (value : MptValue) : SnapshotTrie :=
  ⟨t.inner.insert key value⟩

def remove (t : SnapshotTrie) (key : Bytes) : SnapshotTrie := ⟨t.inner.remove key⟩

/-- The body of the loop of `apply_updates`. -/
def applyUpdate (t : SnapshotTrie) : Bytes × MptValue → SnapshotTrie
  | (key, .some value) => t.insert key (.some value)
  | (key, .tombstone) => t.remove key

def applyUpdates (t : SnapshotTrie) (updates : List (Bytes × MptValue)) : SnapshotTrie :=
  updates.foldl applyUpdate t

def rootWithPolicy (keccak : Bytes → H256) (t : SnapshotTrie) (policy : CachePolicy) :
    H256 × SnapshotTrie :=
  let (root, inner) := t.inner.rootWithPolicy keccak policy
  (root, ⟨inner⟩)

def snapshotGetOwned (t : SnapshotTrie) (canonical : Bytes) : Option Bytes :=
  t.inner.snapshotGet canonical

def snapshotScanPrefix (t : SnapshotTrie) (canonicalPrefix : Bytes) : List MptKeyValue :=
  t.inner.snapshotScanPrefix canonicalPrefix

def toCanonicalMap (t : SnapshotTrie) : ExtTreeMap Bytes Bytes := t.inner.toCanonicalMap

end SnapshotTrie

/-! ## The map of a snapshot -/

/-- The values of a map as live trie values. -/
def liveMap (m : ExtTreeMap Bytes Bytes) : ExtTreeMap Bytes MptValue := m.map fun _ v => .some v

theorem getElem?_liveMap (m : ExtTreeMap Bytes Bytes) (k : Bytes) :
    (liveMap m)[k]? = m[k]?.map MptValue.some :=
  ExtTreeMap.getElem?_map

theorem liveMap_insert (m : ExtTreeMap Bytes Bytes) (k v : Bytes) :
    liveMap (m.insert k v) = (liveMap m).insert k (.some v) := by
  refine ExtTreeMap.ext_getElem? fun l => ?_
  rw [getElem?_liveMap, getElem?_insert_eq, getElem?_insert_eq, getElem?_liveMap]
  exact apply_ite (Option.map MptValue.some) _ _ _

theorem liveMap_erase (m : ExtTreeMap Bytes Bytes) (k : Bytes) :
    liveMap (m.erase k) = (liveMap m).erase k := by
  refine ExtTreeMap.ext_getElem? fun l => ?_
  rw [getElem?_liveMap, getElem?_erase_eq, getElem?_erase_eq, getElem?_liveMap]
  exact apply_ite (Option.map MptValue.some) _ _ _

theorem toList_liveMap (m : ExtTreeMap Bytes Bytes) :
    (liveMap m).toList = m.toList.map fun e => (e.1, MptValue.some e.2) :=
  ExtTreeMap.toList_map

/-- An update as a record of a layer. -/
def record (update : Bytes × MptValue) : Bytes × Option Bytes := (update.1, update.2.visibleValue)

namespace SnapshotTrie

/-- The trie holds the values of the map, with a valid cache. -/
def Represents (keccak : Bytes → H256) (t : SnapshotTrie) (m : ExtTreeMap Bytes Bytes) : Prop :=
  t.inner.Represents keccak (liveMap m)

variable {keccak : Bytes → H256} {t : SnapshotTrie} {m : ExtTreeMap Bytes Bytes}

theorem represents_fromSnapshot (snapshot : ExtTreeMap Bytes Bytes) :
    (fromSnapshot snapshot).Represents keccak snapshot :=
  IncrementalTrie.represents_origin (.fromSnapshot snapshot)

theorem represents_empty : empty.Represents keccak ∅ :=
  IncrementalTrie.represents_origin .empty

theorem Represents.applyUpdate (h : t.Represents keccak m) (update : Bytes × MptValue) :
    (t.applyUpdate update).Represents keccak (absorbRecord m (record update)) := by
  obtain ⟨key, value | _⟩ := update
  · show IncrementalTrie.Represents keccak (t.inner.insert key (.some value))
      (liveMap (m.insert key value))
    rw [liveMap_insert]
    exact IncrementalTrie.Represents.insert h key (.some value)
  · show IncrementalTrie.Represents keccak (t.inner.remove key) (liveMap (m.erase key))
    rw [liveMap_erase]
    exact IncrementalTrie.Represents.remove h key

/-- Updates are absorbed into the map. -/
theorem Represents.applyUpdates (h : t.Represents keccak m) (updates : List (Bytes × MptValue)) :
    (t.applyUpdates updates).Represents keccak (absorb m (updates.map record)) := by
  induction updates generalizing t m with
  | nil => exact h
  | cons update updates ih => exact ih (h.applyUpdate update)

theorem Represents.rootWithPolicy (h : t.Represents keccak m) (policy : CachePolicy) :
    (t.rootWithPolicy keccak policy).1 = trieRoot keccak (liveMap m) ∧
    (t.rootWithPolicy keccak policy).2.Represents keccak m :=
  IncrementalTrie.Represents.root h parallelRebuildThreshold parallelRebuildDepth policy

/-- A read of the trie is a read of the map. -/
theorem Represents.snapshotGetOwned (h : t.Represents keccak m) (canonical : Bytes) :
    t.snapshotGetOwned canonical = m[canonical]? := by
  unfold SnapshotTrie.snapshotGetOwned IncrementalTrie.snapshotGet
  rw [h.entries, getElem?_nibbleMap, getElem?_liveMap]
  cases m[canonical]? <;> rfl

/-- The live entries of the trie are those of the map, in order. -/
theorem Represents.filterMap_entries (h : t.Represents keccak m) (P : Bytes → Bool)
    (P' : Bytes → Bool) (hP : ∀ k, P' (bytesToNibbles k) = P k) :
    (t.inner.entries.toList.filter fun e => P' e.1).filterMap IncrementalTrie.liveEntry =
      m.toList.filter fun e => P e.1 := by
  rw [h.entries, toList_nibbleMap, toList_liveMap]
  induction m.toList with
  | nil => rfl
  | cons e l ih =>
    simp only [List.map_cons, List.filter_cons, hP]
    split
    · rw [List.filterMap_cons, ih]
      simp [IncrementalTrie.liveEntry, MptValue.visibleValue]
    · exact ih

/-- A prefix scan of the trie is a prefix scan of the map. -/
theorem Represents.snapshotScanPrefix (h : t.Represents keccak m) (p : Bytes) :
    t.snapshotScanPrefix p = m.toList.filter fun e => p <+: e.1 := by
  unfold SnapshotTrie.snapshotScanPrefix IncrementalTrie.snapshotScanPrefix
  dsimp only
  rw [show StringMap.range t.inner.entries (bytesToNibbles p) (prefixUpper (bytesToNibbles p)) =
    _ from block_eq_filter t.inner.nibble (bytesToNibbles p)]
  refine h.filterMap_entries (fun k => p <+: k) (fun k => bytesToNibbles p <+: k) fun k => ?_
  exact decide_eq_decide.mpr bytesToNibbles_isPrefix_iff

/-- The trie flattens to the map. -/
theorem Represents.toCanonicalMap (h : t.Represents keccak m) : t.toCanonicalMap = m := by
  unfold SnapshotTrie.toCanonicalMap IncrementalTrie.toCanonicalMap
  have hall := h.filterMap_entries (fun _ => true) (fun _ => true) fun _ => rfl
  rw [List.filter_eq_self.mpr (by simp), List.filter_eq_self.mpr (by simp)] at hall
  rw [hall]
  exact ofList_toList m

end SnapshotTrie

end MinimalMpt
