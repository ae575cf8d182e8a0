import CfxMinimalExecution.MinimalMpt.Snapshot

/-!
# The snapshot trie over a database

`snapshot.rs` (the LMDB backend): the live values stand in a database under nibble keys, and the
walk probes it with cursors. The database is an ordered map; its prefix cursor yields exactly the
keys with the prefix, and a key that it does not have is not found.

## Main definitions

* `LmdbTrie` and its operations
* `LmdbTrie.memory`: the incremental trie with the same keys and values, cache and changed keys
* `SnapshotCall`, `LmdbTrie.step`, `SnapshotTrie.step`: the calls on the two backends

## Main results

* `memoNodeLmdb_eq`: without an empty key the walk is that of the incremental trie
* `replies_lmdb_eq`: the two backends reply alike in every run
-/

open Std (ExtTreeMap ExtTreeSet)
open Radix

namespace MinimalMpt

/-! ## The database -/

/-- The records under a prefix, in order: a prefix cursor, or one over all records. -/
def cursor (db : ExtTreeMap Bytes Bytes) (keyPrefix : Bytes) : List MptKeyValue :=
  if keyPrefix.isEmpty then db.toList else db.toList.filter fun e => keyPrefix <+: e.1

/-- `first_with_prefix`, with its `expect` as an argument. -/
def firstWithPrefix (db : ExtTreeMap Bytes Bytes) (keyPrefix : Bytes)
    (hne : cursor db keyPrefix ≠ []) : Bytes :=
  ((cursor db keyPrefix).head hne).1

/-- `last_with_prefix`, with its `expect` as an argument. -/
def lastWithPrefix (db : ExtTreeMap Bytes Bytes) (keyPrefix : Bytes)
    (hne : cursor db keyPrefix ≠ []) : Bytes :=
  ((cursor db keyPrefix).getLast hne).1

section Walk

variable (keccak : Bytes → H256)

/-- One round of `memo_node_lmdb`'s loop over the children. -/
def memoChildLmdb (db : ExtTreeMap Bytes Bytes) (fullPrefix : Bytes)
    (walk : (rp : Bytes) → cursor db rp ≠ [] → Cache → H256 × Cache) :
    Vector H256 16 × Cache → ℕ → Vector H256 16 × Cache
  | (children, cache), c =>
    let childRp := fullPrefix ++ [UInt8.ofNat c]
    match cache[childRp]? with
    | some hash => (children.setIfInBounds c hash, cache)
    | none =>
      if hchild : cursor db childRp ≠ [] then  -- `prefix_has_key`
        let (hash, cache) := walk childRp hchild cache
        (children.setIfInBounds c hash, cache)
      else (children, cache)

/-- `memo_node_lmdb`. The database has no empty key, so that none is looked up. -/
def memoNodeLmdb (db : ExtTreeMap Bytes Bytes) (policy : CachePolicy) :
    ℕ → (rp : Bytes) → cursor db rp ≠ [] → Bool → Cache → H256 × Cache
  | 0, _, _, _, cache => (merkleNullNode, cache)
  | fuel + 1, rp, hne, allowPathCompression, cache =>
    match cache[rp]? with
    | some hash => (hash, cache)
    | none =>
      let depth := rp.length
      let firstKey := firstWithPrefix db rp hne
      let lastKey :=
        if allowPathCompression || policy == .skipSingleton then lastWithPrefix db rp hne
        else firstKey
      let isSingleton := firstKey == lastKey
      let common :=
        if allowPathCompression then commonPrefixLenFrom firstKey lastKey depth else 0
      let nodeDepth := depth + common
      let fullPrefix := firstKey.take nodeDepth
      let maybeValue := if fullPrefix.isEmpty then none else db[fullPrefix]?
      let (children, cache) := (List.range 16).foldl
        (memoChildLmdb db fullPrefix fun rp hne cache =>
          memoNodeLmdb db policy fuel rp hne true cache)
        (Vector.replicate 16 merkleNullNode, cache)
      let nodeHash :=
        computeNodeMerkle keccak (if hasChildren children then some children else none) maybeValue
      let hash := computePathMerkle keccak (slice firstKey depth nodeDepth) depth nodeHash
      (hash, if policy == .full || !isSingleton then cache.insert rp hash else cache)

/-- `rebuild_snapshot_root_cache`. A live value counts as what it is in the trie. -/
def rebuildSnapshotRootCache (snapshot : ExtTreeMap Bytes Bytes) (policy : CachePolicy) :
    H256 × Cache :=
  if snapshot.isEmpty then (merkleNullNode, ∅)
  else
    let entries := snapshot.toList.map fun (key, value) => (bytesToNibbles key, MptValue.some value)
    let (root, cacheEntries) := memoNodeRebuild keccak parallelRebuildThreshold policy
      (walkFuel entries) entries [] false parallelRebuildDepth
    (root, extendCache ∅ cacheEntries)

end Walk

/-! ## The walk -/

section Walk

variable {keccak : Bytes → H256} {db : ExtTreeMap Bytes Bytes}

theorem cursor_eq_filter (db : ExtTreeMap Bytes Bytes) (keyPrefix : Bytes) :
    cursor db keyPrefix = db.toList.filter fun e => keyPrefix <+: e.1 := by
  unfold cursor
  split
  case isTrue hempty =>
    rw [List.isEmpty_iff.mp hempty]
    exact (List.filter_eq_self.mpr (by simp)).symm
  case isFalse => rfl

theorem mem_liveMap {k : Bytes} : k ∈ liveMap db ↔ k ∈ db := by
  rw [ExtTreeMap.mem_iff_isSome_getElem?, ExtTreeMap.mem_iff_isSome_getElem?, getElem?_liveMap,
    Option.isSome_map]

variable (hnibble : ∀ k ∈ db, ∀ x ∈ k, x < (16 : UInt8))
include hnibble

/-- The block of a prefix is what its cursor yields. -/
theorem block_liveMap (rp : Bytes) :
    block (liveMap db) rp = (cursor db rp).map fun e => (e.1, MptValue.some e.2) := by
  rw [block_eq_filter fun k hk => hnibble k (mem_liveMap.mp hk), toList_liveMap, List.filter_map,
    cursor_eq_filter]
  rfl

theorem block_ne_nil_iff_cursor {rp : Bytes} : block (liveMap db) rp ≠ [] ↔ cursor db rp ≠ [] := by
  rw [block_liveMap hnibble, ne_eq, List.map_eq_nil_iff]

theorem head_block_eq {rp : Bytes} (hne : block (liveMap db) rp ≠ []) (hne' : cursor db rp ≠ []) :
    ((block (liveMap db) rp).head hne).1 = firstWithPrefix db rp hne' := by
  simp only [block_liveMap hnibble, List.head_map]
  rfl

theorem getLast_block_eq {rp : Bytes} (hne : block (liveMap db) rp ≠ [])
    (hne' : cursor db rp ≠ []) :
    ((block (liveMap db) rp).getLast hne).1 = lastWithPrefix db rp hne' := by
  simp only [block_liveMap hnibble, List.getLast_map]
  rfl

/-- One round of the loop over the children. -/
theorem memoChildLmdb_eq {F : Bytes}
    {walk : (rp : Bytes) → block (liveMap db) rp ≠ [] → Cache → H256 × Cache}
    {walk' : (rp : Bytes) → cursor db rp ≠ [] → Cache → H256 × Cache}
    (hwalk : ∀ rp hne hne' cache, walk' rp hne' cache = walk rp hne cache) :
    memoChildLmdb db F walk' = memoChild (liveMap db) F walk := by
  funext ⟨children, cache⟩ c
  unfold memoChildLmdb memoChild
  dsimp only
  cases cache[F ++ [UInt8.ofNat c]]? with
  | some hash => rfl
  | none =>
    by_cases hchild : cursor db (F ++ [UInt8.ofNat c]) ≠ []
    · have hblock := (block_ne_nil_iff_cursor hnibble).mpr hchild
      simp only [dif_pos hchild, dif_pos hblock, hwalk _ hblock hchild]
    · have hblock := mt (block_ne_nil_iff_cursor hnibble).mp hchild
      simp only [dif_neg hchild, dif_neg hblock]

/-- **The walk over the database** is that of the incremental trie, when no key is empty. -/
theorem memoNodeLmdb_eq (hempty : [] ∉ db) (policy : CachePolicy) (fuel : ℕ) (rp : Bytes)
    (hne : cursor db rp ≠ []) (hne' : block (liveMap db) rp ≠ []) (allowPathCompression : Bool)
    (cache : Cache) :
    memoNodeLmdb keccak db policy fuel rp hne allowPathCompression cache =
      memoNode keccak (liveMap db) policy fuel rp hne' allowPathCompression cache := by
  induction fuel generalizing rp allowPathCompression cache with
  | zero => rfl
  | succ fuel ih =>
    have hvalue : ∀ fullPrefix : Bytes, (if fullPrefix.isEmpty then none else db[fullPrefix]?) =
        (liveMap db)[fullPrefix]?.map MptValue.merkleValue := by
      intro fullPrefix
      rw [getElem?_liveMap, Option.map_map]
      cases fullPrefix with
      | nil => rw [ExtTreeMap.getElem?_eq_none hempty]; rfl
      | cons c fullPrefix => exact Option.map_id'.symm
    have hround : ∀ F, memoChildLmdb db F (fun rp hne cache =>
        memoNodeLmdb keccak db policy fuel rp hne true cache) =
          memoChild (liveMap db) F fun rp hne cache =>
            memoNode keccak (liveMap db) policy fuel rp hne true cache :=
      fun F => memoChildLmdb_eq hnibble fun rp hne hne' cache => ih rp hne' hne true cache
    rw [memoNodeLmdb, memoNode]
    cases cache[rp]? with
    | some hash => rfl
    | none =>
      simp only [head_block_eq hnibble hne' hne, getLast_block_eq hnibble hne' hne, hvalue, hround]

end Walk

/-! ## The trie -/

theorem cursor_nil (db : ExtTreeMap Bytes Bytes) : cursor db [] = db.toList := rfl

theorem cursor_nil_ne_nil {db : ExtTreeMap Bytes Bytes} (h : db.size ≠ 0) : cursor db [] ≠ [] := by
  rw [cursor_nil]
  intro hnil
  rw [← ExtTreeMap.length_toList, hnil] at h
  exact h rfl

/-- The trie; its keys are nibbles, and its counter is their number. -/
structure LmdbTrie where
  db : ExtTreeMap Bytes Bytes
  cache : Cache
  dirty : ExtTreeSet Bytes
  len : ℕ
  nibble : ∀ k ∈ db, ∀ x ∈ k, x < (16 : UInt8)
  len_eq : len = db.size

theorem size_nibbleMap {β : Type} (m : ExtTreeMap Bytes β) : (nibbleMap m).size = m.size := by
  rw [← ExtTreeMap.length_toList, ← ExtTreeMap.length_toList, toList_nibbleMap, List.length_map]

namespace LmdbTrie

variable (keccak : Bytes → H256)

/-- `from_snapshot`, with the cache of a rebuild. -/
def fromSnapshot (snapshot : ExtTreeMap Bytes Bytes) : LmdbTrie where
  db := nibbleMap snapshot
  cache := (rebuildSnapshotRootCache keccak snapshot .skipSingleton).2
  dirty := ∅
  len := snapshot.size
  nibble := nibbleMap_lt snapshot
  len_eq := (size_nibbleMap snapshot).symm

/-- A live value of the batch in `apply_updates`. -/
def put (t : LmdbTrie) (key value : Bytes) : LmdbTrie where
  db := t.db.insert (bytesToNibbles key) value
  cache := t.cache
  dirty := t.dirty.insert (bytesToNibbles key)
  len := if bytesToNibbles key ∈ t.db then t.len else t.len + 1
  nibble := fun k hk => by
    rcases ExtTreeMap.mem_insert.mp hk with h | h
    · rw [← Std.compare_eq_iff_eq.mp h]
      exact bytesToNibbles_lt key
    · exact t.nibble k h
  len_eq := by
    rw [ExtTreeMap.size_insert, t.len_eq]
    rfl

/-- A tombstone of the batch in `apply_updates`. -/
def delete (t : LmdbTrie) (key : Bytes) : LmdbTrie where
  db := t.db.erase (bytesToNibbles key)
  cache := t.cache
  dirty := t.dirty.insert (bytesToNibbles key)
  len := if bytesToNibbles key ∈ t.db then t.len - 1 else t.len
  nibble := fun k hk => t.nibble k (ExtTreeMap.mem_of_mem_erase hk)
  len_eq := by
    rw [ExtTreeMap.size_erase, t.len_eq]
    rfl

/-- The body of the loop of `apply_updates`. -/
def applyUpdate (t : LmdbTrie) : Bytes × MptValue → LmdbTrie
  | (key, .some value) => t.put key value
  | (key, .tombstone) => t.delete key

def applyUpdates (t : LmdbTrie) (updates : List (Bytes × MptValue)) : LmdbTrie :=
  updates.foldl applyUpdate t

def rootWithPolicy (t : LmdbTrie) (policy : CachePolicy) : H256 × LmdbTrie :=
  if hlen : t.len = 0 then (merkleNullNode, { t with cache := ∅, dirty := ∅ })
  else
    let cache := evict t.cache t.dirty
    let (root, cache) := memoNodeLmdb keccak t.db policy (walkFuel (liveMap t.db).toList) []
      (cursor_nil_ne_nil (t.len_eq ▸ hlen)) false cache
    (root, { t with cache := cache, dirty := ∅ })

def snapshotGetOwned (t : LmdbTrie) (canonical : Bytes) : Option Bytes :=
  t.db[bytesToNibbles canonical]?

/-- A record under its byte key. -/
def byteEntry (e : MptKeyValue) : MptKeyValue := (nibblesToBytes e.1, e.2)

def snapshotScanPrefix (t : LmdbTrie) (canonicalPrefix : Bytes) : List MptKeyValue :=
  (cursor t.db (bytesToNibbles canonicalPrefix)).map byteEntry

def toCanonicalMap (t : LmdbTrie) : ExtTreeMap Bytes Bytes :=
  ExtTreeMap.ofList (t.db.toList.map byteEntry)

/-- The incremental trie with the same keys and values, cache and changed keys. -/
def memory (t : LmdbTrie) : IncrementalTrie where
  entries := liveMap t.db
  cache := t.cache
  dirty := t.dirty
  nibble := fun k hk => t.nibble k (mem_liveMap.mp hk)

end LmdbTrie

/-- `SnapshotTrie::len` of the in-memory backend. -/
def SnapshotTrie.len (t : SnapshotTrie) : ℕ := t.inner.entries.size

/-! ## What the trie holds -/

theorem liveMap_nibbleMap (m : ExtTreeMap Bytes Bytes) :
    liveMap (nibbleMap m) = nibbleMap (liveMap m) := by
  rw [← ofList_toList (liveMap (nibbleMap m)), ← ofList_toList (nibbleMap (liveMap m)),
    toList_liveMap, toList_nibbleMap, toList_nibbleMap, toList_liveMap, List.map_map, List.map_map]
  rfl

namespace LmdbTrie

variable {keccak : Bytes → H256}

/-- The database holds the map, none of whose keys is empty, with a valid cache. -/
structure Represents (keccak : Bytes → H256) (t : LmdbTrie) (m : ExtTreeMap Bytes Bytes) :
    Prop where
  db : t.db = nibbleMap m
  nonempty : ∀ k ∈ m, k ≠ []
  valid : t.memory.Valid keccak

variable {t : LmdbTrie} {m : ExtTreeMap Bytes Bytes}

theorem Represents.entries (h : t.Represents keccak m) :
    t.memory.entries = nibbleMap (liveMap m) := by
  rw [← liveMap_nibbleMap, ← h.db]
  rfl

theorem Represents.empty_notMem (h : t.Represents keccak m) : [] ∉ t.db := by
  intro hmem
  rw [h.db] at hmem
  obtain ⟨v, hv⟩ := Option.isSome_iff_exists.mp (ExtTreeMap.mem_iff_isSome_getElem?.mp hmem)
  obtain ⟨k, hk, hget⟩ := (getElem?_mapKeys_eq_some_iff bytesToNibbles_injective).mp hv
  refine h.nonempty k (ExtTreeMap.mem_iff_isSome_getElem?.mpr (by rw [hget]; rfl)) ?_
  exact bytesToNibbles_injective hk

/-- **The loaded trie**: the cache of the rebuild has only hashes of the loaded map. -/
theorem represents_fromSnapshot (hm : ∀ k ∈ m, k ≠ []) :
    (fromSnapshot keccak m).Represents keccak m where
  db := rfl
  nonempty := hm
  valid := by
    apply IncrementalTrie.valid_of_clean
    show Clean keccak (liveMap (nibbleMap m)) (rebuildSnapshotRootCache keccak m .skipSingleton).2
    -- the cache is the one of a rebuild from the live entries
    unfold rebuildSnapshotRootCache
    split
    case isTrue => exact Clean.empty _
    case isFalse hempty =>
      have hentries : (m.toList.map fun e => (bytesToNibbles e.1, MptValue.some e.2)) =
          (liveMap (nibbleMap m)).toList := by
        rw [toList_liveMap, toList_nibbleMap, List.map_map]
        rfl
      have hne : (liveMap (nibbleMap m)).toList ≠ [] := by
        rw [← hentries]
        intro hnil
        rw [List.map_eq_nil_iff, ← List.isEmpty_iff, ExtTreeMap.isEmpty_toList] at hnil
        exact hempty hnil
      have hb : Block [] (liveMap (nibbleMap m)).toList :=
        ⟨StringMap.sorted_toList _, hne, fun _ _ => List.nil_prefix⟩
      -- which is clean, as every walk of a block is
      obtain ⟨-, hlist⟩ := @memoNodeRebuild_spec keccak parallelRebuildThreshold
        .skipSingleton _ [] _ parallelRebuildDepth hb fun e he => by
          rw [List.length_nil, Nat.zero_add]
          exact length_lt_walkFuel he
      intro rp hash hget
      rcases getElem?_extendCache hget with hmem | hget
      · exact (hlist rp hash (by rwa [← hentries])).2
      · cases hget

theorem Represents.put (h : t.Represents keccak m) {key : Bytes} (hkey : key ≠ []) (value : Bytes) :
    (t.put key value).Represents keccak (m.insert key value) where
  db := by
    rw [nibbleMap, mapKeys_insert bytesToNibbles_injective, ← nibbleMap, ← h.db]
    rfl
  nonempty := by
    intro k hk
    rcases ExtTreeMap.mem_insert.mp hk with heq | hk
    · rwa [← Std.compare_eq_iff_eq.mp heq]
    · exact h.nonempty k hk
  valid := by
    refine h.valid.of_change (k := bytesToNibbles key) rfl rfl fun rp hrp => ?_
    show below rp (liveMap (t.db.insert _ _)).toList = _
    rw [liveMap_insert]
    exact StringMap.below_insert hrp _

theorem Represents.delete (h : t.Represents keccak m) (key : Bytes) :
    (t.delete key).Represents keccak (m.erase key) where
  db := by
    rw [nibbleMap, mapKeys_erase bytesToNibbles_injective, ← nibbleMap, ← h.db]
    rfl
  nonempty := fun k hk => h.nonempty k (ExtTreeMap.mem_of_mem_erase hk)
  valid := by
    refine h.valid.of_change (k := bytesToNibbles key) rfl rfl fun rp hrp => ?_
    show below rp (liveMap (t.db.erase _)).toList = _
    rw [liveMap_erase]
    exact StringMap.below_erase hrp

/-- A batch is absorbed into the map. -/
theorem Represents.applyUpdates (h : t.Represents keccak m) {updates : List (Bytes × MptValue)}
    (hkeys : ∀ update ∈ updates, update.1 ≠ []) :
    (t.applyUpdates updates).Represents keccak (absorb m (updates.map record)) := by
  induction updates generalizing t m with
  | nil => exact h
  | cons update updates ih =>
    have hrest := fun u hu => hkeys u (List.mem_cons_of_mem update hu)
    obtain ⟨key, value | _⟩ := update
    · exact ih (h.put (hkeys _ List.mem_cons_self) value) hrest
    · exact ih (h.delete key) hrest

/-- **One root**: that of the map, and the trie holds it still. -/
theorem Represents.rootWithPolicy (h : t.Represents keccak m) (policy : CachePolicy) :
    (t.rootWithPolicy keccak policy).1 = trieRoot keccak (liveMap m) ∧
    (t.rootWithPolicy keccak policy).2.Represents keccak m := by
  rw [trieRoot_eq_trieFold, ← h.entries]
  unfold LmdbTrie.rootWithPolicy
  split
  case isTrue hlen =>
    refine ⟨?_, h.db, h.nonempty, IncrementalTrie.valid_of_cache_empty rfl⟩
    have hempty : t.memory.entries.toList = [] := by
      rw [← List.length_eq_zero_iff, ExtTreeMap.length_toList, ← hlen, t.len_eq]
      exact ExtTreeMap.size_map
    rw [hempty]
    rfl
  case isFalse hlen =>
    have hne : cursor t.db [] ≠ [] := cursor_nil_ne_nil (t.len_eq ▸ hlen)
    have hblock := (block_ne_nil_iff_cursor t.nibble).mpr hne
    have hentries : t.memory.entries.toList.isEmpty = false := by
      rw [List.isEmpty_eq_false_iff, ← List.length_pos_iff, ExtTreeMap.length_toList]
      show 0 < (liveMap t.db).size
      rw [liveMap, ExtTreeMap.size_map, ← t.len_eq]
      exact Nat.pos_of_ne_zero hlen
    obtain ⟨hroot, hclean⟩ := h.valid.memoNode_nil keccak policy hblock hentries
    dsimp only
    rw [memoNodeLmdb_eq t.nibble h.empty_notMem policy _ [] hne hblock]
    exact ⟨hroot, h.db, h.nonempty, IncrementalTrie.valid_of_clean hclean⟩

theorem Represents.snapshotGetOwned (h : t.Represents keccak m) (canonical : Bytes) :
    t.snapshotGetOwned canonical = m[canonical]? := by
  unfold LmdbTrie.snapshotGetOwned
  rw [h.db, getElem?_nibbleMap]

/-- The records of a prefix are those of the map, in order. -/
theorem Represents.cursor (h : t.Represents keccak m) (p : Bytes) :
    (cursor t.db (bytesToNibbles p)).map byteEntry = m.toList.filter fun e => p <+: e.1 := by
  rw [cursor_eq_filter, h.db, toList_nibbleMap, List.filter_map, List.map_map]
  have hbyte : byteEntry ∘ (fun e : MptKeyValue => (bytesToNibbles e.1, e.2)) = id := by
    funext e
    exact Prod.ext (nibblesToBytes_bytesToNibbles e.1) rfl
  rw [hbyte, List.map_id]
  refine List.filter_congr fun e _ => ?_
  exact decide_eq_decide.mpr bytesToNibbles_isPrefix_iff

theorem Represents.snapshotScanPrefix (h : t.Represents keccak m) (p : Bytes) :
    t.snapshotScanPrefix p = m.toList.filter fun e => p <+: e.1 := h.cursor p

theorem Represents.toCanonicalMap (h : t.Represents keccak m) : t.toCanonicalMap = m := by
  have hall : t.db.toList.map byteEntry = m.toList.filter fun e => [] <+: e.1 := h.cursor []
  rw [List.filter_eq_self.mpr (by simp)] at hall
  unfold LmdbTrie.toCanonicalMap
  rw [hall]
  exact ofList_toList m

theorem Represents.len (h : t.Represents keccak m) : t.len = m.size := by
  rw [t.len_eq, h.db, size_nibbleMap]

end LmdbTrie

/-! ## The two backends -/

/-- A call on a snapshot. -/
inductive SnapshotCall
  | applyUpdates (updates : List (Bytes × MptValue))
  | rootWithPolicy (policy : CachePolicy)
  | snapshotGetOwned (canonical : Bytes)
  | snapshotScanPrefix (canonicalPrefix : Bytes)
  | toCanonicalMap
  | len

/-- What a call on a snapshot returns. -/
inductive SnapshotReply
  | unit
  | root (root : H256)
  | value (value : Option Bytes)
  | entries (entries : List MptKeyValue)
  | map (map : ExtTreeMap Bytes Bytes)
  | len (len : ℕ)

/-- The keys of a batch are not empty. -/
def SnapshotCall.NonEmptyKeys : SnapshotCall → Prop
  | .applyUpdates updates => ∀ update ∈ updates, update.1 ≠ []
  | _ => True

section Runs

variable (keccak : Bytes → H256)

def SnapshotTrie.step (t : SnapshotTrie) : SnapshotCall → SnapshotReply × SnapshotTrie
  | .applyUpdates updates => (.unit, t.applyUpdates updates)
  | .rootWithPolicy policy =>
    let (root, t) := t.rootWithPolicy keccak policy
    (.root root, t)
  | .snapshotGetOwned canonical => (.value (t.snapshotGetOwned canonical), t)
  | .snapshotScanPrefix canonicalPrefix => (.entries (t.snapshotScanPrefix canonicalPrefix), t)
  | .toCanonicalMap => (.map t.toCanonicalMap, t)
  | .len => (.len t.len, t)

def LmdbTrie.step (t : LmdbTrie) : SnapshotCall → SnapshotReply × LmdbTrie
  | .applyUpdates updates => (.unit, t.applyUpdates updates)
  | .rootWithPolicy policy =>
    let (root, t) := t.rootWithPolicy keccak policy
    (.root root, t)
  | .snapshotGetOwned canonical => (.value (t.snapshotGetOwned canonical), t)
  | .snapshotScanPrefix canonicalPrefix => (.entries (t.snapshotScanPrefix canonicalPrefix), t)
  | .toCanonicalMap => (.map t.toCanonicalMap, t)
  | .len => (.len t.len, t)

variable {keccak}

theorem SnapshotTrie.Represents.len {t : SnapshotTrie} {m : ExtTreeMap Bytes Bytes}
    (h : t.Represents keccak m) : t.len = m.size := by
  unfold SnapshotTrie.len
  rw [h.entries, size_nibbleMap, liveMap, ExtTreeMap.size_map]

/-- **One call**: two tries that hold one map reply alike and hold one map again. -/
theorem lmdb_simulation : Machine.Simulation (LmdbTrie.step keccak) (SnapshotTrie.step keccak)
    SnapshotCall.NonEmptyKeys
    (fun t t' => ∃ m, t.Represents keccak m ∧ t'.Represents keccak m) where
  reply {t t' call} _ h := by
    obtain ⟨m, h, h'⟩ := h
    cases call with
    | applyUpdates updates => rfl
    | rootWithPolicy policy =>
      have hroot := (h.rootWithPolicy policy).1.trans (h'.rootWithPolicy policy).1.symm
      exact congrArg SnapshotReply.root hroot
    | snapshotGetOwned canonical =>
      exact congrArg SnapshotReply.value
        ((h.snapshotGetOwned canonical).trans (h'.snapshotGetOwned canonical).symm)
    | snapshotScanPrefix canonicalPrefix =>
      exact congrArg SnapshotReply.entries
        ((h.snapshotScanPrefix canonicalPrefix).trans (h'.snapshotScanPrefix canonicalPrefix).symm)
    | toCanonicalMap =>
      exact congrArg SnapshotReply.map (h.toCanonicalMap.trans h'.toCanonicalMap.symm)
    | len => exact congrArg SnapshotReply.len (h.len.trans h'.len.symm)
  next {t t' call} hkeys h := by
    obtain ⟨m, h, h'⟩ := h
    cases call with
    | applyUpdates updates => exact ⟨_, h.applyUpdates hkeys, h'.applyUpdates updates⟩
    | rootWithPolicy policy => exact ⟨m, (h.rootWithPolicy policy).2, (h'.rootWithPolicy policy).2⟩
    | snapshotGetOwned canonical => exact ⟨m, h, h'⟩
    | snapshotScanPrefix canonicalPrefix => exact ⟨m, h, h'⟩
    | toCanonicalMap => exact ⟨m, h, h'⟩
    | len => exact ⟨m, h, h'⟩

variable (keccak)

/-- **The two backends are equivalent.** From a snapshot without an empty key, in every run of
batches and reads, the database replies as the memory does. -/
theorem replies_lmdb_eq (snapshot : ExtTreeMap Bytes Bytes) (hsnapshot : ∀ k ∈ snapshot, k ≠ [])
    (calls : List SnapshotCall) (hcalls : ∀ call ∈ calls, call.NonEmptyKeys) :
    Machine.replies (LmdbTrie.step keccak) (.fromSnapshot keccak snapshot) calls =
      Machine.replies (SnapshotTrie.step keccak) (.fromSnapshot snapshot) calls :=
  lmdb_simulation.replies_eq
    ⟨snapshot, LmdbTrie.represents_fromSnapshot hsnapshot,
      SnapshotTrie.represents_fromSnapshot snapshot⟩ hcalls

/-- A snapshot of two keys, and a batch that overwrites one, deletes an absent one and inserts and
deletes another. -/
theorem replies_lmdb_eq_two :
    let snapshot := ((∅ : ExtTreeMap Bytes Bytes).insert [0x12] [1]).insert [0x13] [2]
    let calls : List SnapshotCall := [.rootWithPolicy .skipSingleton,
      .applyUpdates [([0x12], .some [3]), ([0x55], .tombstone), ([0x14], .some [4]),
        ([0x14], .tombstone)],
      .rootWithPolicy .skipSingleton, .snapshotGetOwned [0x12], .snapshotScanPrefix [], .len]
    Machine.replies (LmdbTrie.step keccak256) (.fromSnapshot keccak256 snapshot) calls =
      Machine.replies (SnapshotTrie.step keccak256) (.fromSnapshot snapshot) calls := by
  refine replies_lmdb_eq keccak256 _ ?_ _ ?_
  · intro k hk
    simp only [ExtTreeMap.mem_insert, ExtTreeMap.not_mem_empty, or_false,
      Std.compare_eq_iff_eq] at hk
    rcases hk with rfl | rfl
    · exact List.cons_ne_nil _ _
    · exact List.cons_ne_nil _ _
  · intro call hcall
    simp only [List.mem_cons, List.not_mem_nil, or_false] at hcall
    rcases hcall with rfl | rfl | rfl | rfl | rfl | rfl
    · trivial
    · unfold SnapshotCall.NonEmptyKeys
      decide
    all_goals trivial

end Runs

end MinimalMpt
