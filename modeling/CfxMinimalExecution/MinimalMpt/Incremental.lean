import CfxMinimalExecution.MinimalMpt.Nibbles
import Std.Data.ExtTreeSet.Lemmas

/-!
# The incremental trie

`incremental.rs`: a nibble-keyed map with a cache of subtree hashes, keyed by routing prefix, and
the keys changed since the last root. A root evicts the prefixes of the changed keys and then
walks the map, reusing what is still cached. The rebuild threshold and the parallel depth are
parameters; `rootWithPolicy` takes the constants of the source.

## Main definitions

* `IncrementalTrie` and its operations `insert`, `remove`, `clear`, `rootWithPolicy`
* `memoNode`: the walk over key ranges with a warm cache
* `memoNodeRebuild`: the walk over slices that rebuilds an empty cache
-/

open Std (ExtTreeMap ExtTreeSet)

namespace MinimalMpt

/-- `PARALLEL_REBUILD_THRESHOLD`. -/
def parallelRebuildThreshold : ℕ := 4096

/-- `PARALLEL_REBUILD_DEPTH`. -/
def parallelRebuildDepth : ℕ := 3

/-- Subtree hashes by routing prefix. -/
abbrev Cache := ExtTreeMap Bytes H256

inductive CachePolicy
  | full
  | skipSingleton
deriving DecidableEq

/-- The trie; its keys are nibbles. -/
structure IncrementalTrie where
  entries : ExtTreeMap Bytes MptValue
  cache : Cache
  dirty : ExtTreeSet Bytes
  nibble : ∀ k ∈ entries, ∀ x ∈ k, x < (16 : UInt8)

/-- `prefix_upper`: above every key with the routing prefix `rp`. -/
def prefixUpper (rp : Bytes) : Bytes := rp ++ [16]

/-- `common_prefix_len` of `incremental.rs`: how far two keys agree from `depth` on. -/
def commonPrefixLenFrom (first last : Bytes) (depth : ℕ) : ℕ :=
  (((first.zip last).drop depth).takeWhile fun (a, b) => a == b).length

/-- The keys with the routing prefix `rp`, in order. -/
def block (entries : ExtTreeMap Bytes MptValue) (rp : Bytes) : List Entry :=
  StringMap.range entries rp (prefixUpper rp)

theorem isPrefix_of_mem_block {entries : ExtTreeMap Bytes MptValue} {rp : Bytes} {e : Entry}
    (he : e ∈ block entries rp) : rp <+: e.1 := by
  have hrange := (List.mem_filter.mp he).2
  rw [Bool.and_eq_true, Ordering.isLT_iff_eq_lt] at hrange
  exact Lex.prefix_of_between hrange.1 hrange.2

/-- The range up to the upper bound is the block of the routing prefix. -/
theorem block_eq_filter {entries : ExtTreeMap Bytes MptValue}
    (hnibble : ∀ k ∈ entries, ∀ x ∈ k, x < (16 : UInt8)) (rp : Bytes) :
    block entries rp = entries.toList.filter fun e => rp <+: e.1 :=
  StringMap.range_eq_filter (fun k hk x hx => Std.compare_eq_lt.mpr (hnibble k hk x hx)) rp

/-- A non-empty map has keys under the empty prefix. -/
theorem block_nil_ne_nil {entries : ExtTreeMap Bytes MptValue}
    (hnibble : ∀ k ∈ entries, ∀ x ∈ k, x < (16 : UInt8)) (hne : ¬ entries.isEmpty) :
    block entries [] ≠ [] := by
  rw [block_eq_filter hnibble, List.filter_eq_self.mpr (by simp)]
  intro hnil
  rw [← ExtTreeMap.isEmpty_toList, hnil] at hne
  exact hne rfl

section Walk

variable (keccak : Bytes → H256)

/-- One round of `memo_node`'s loop over the children: a cached hash is reused, a child with keys
is walked, and the slot of a child without keys stays null. -/
def memoChild (entries : ExtTreeMap Bytes MptValue) (fullPrefix : Bytes)
    (walk : (rp : Bytes) → block entries rp ≠ [] → Cache → H256 × Cache) :
    Vector H256 16 × Cache → ℕ → Vector H256 16 × Cache
  | (children, cache), c =>
    let childRp := fullPrefix ++ [UInt8.ofNat c]
    match cache[childRp]? with
    | some hash => (children.setIfInBounds c hash, cache)
    | none =>
      if hchild : block entries childRp ≠ [] then
        let (hash, cache) := walk childRp hchild cache
        (children.setIfInBounds c hash, cache)
      else (children, cache)

/-- `memo_node`. The two `expect`s of the source are the argument `hne`; the cache is threaded
through the loop over the children. -/
def memoNode (entries : ExtTreeMap Bytes MptValue) (policy : CachePolicy) :
    ℕ → (rp : Bytes) → block entries rp ≠ [] → Bool → Cache → H256 × Cache
  | 0, _, _, _, cache => (merkleNullNode, cache)
  | fuel + 1, rp, hne, allowPathCompression, cache =>
    match cache[rp]? with
    | some hash => (hash, cache)
    | none =>
      let depth := rp.length
      let firstKey := ((block entries rp).head hne).1
      let lastKey :=
        if allowPathCompression || policy == .skipSingleton then
          ((block entries rp).getLast hne).1
        else firstKey
      let isSingleton := firstKey == lastKey
      let common :=
        if allowPathCompression then commonPrefixLenFrom firstKey lastKey depth else 0
      let nodeDepth := depth + common
      let fullPrefix := firstKey.take nodeDepth
      let maybeValue := entries[fullPrefix]?.map MptValue.merkleValue
      let (children, cache) := (List.range 16).foldl
        (memoChild entries fullPrefix fun rp hne cache =>
          memoNode entries policy fuel rp hne true cache)
        (Vector.replicate 16 merkleNullNode, cache)
      let nodeHash :=
        computeNodeMerkle keccak (if hasChildren children then some children else none) maybeValue
      let hash := computePathMerkle keccak (slice firstKey depth nodeDepth) depth nodeHash
      (hash, if policy == .full || !isSingleton then cache.insert rp hash else cache)

/-- `memo_node_rebuild`: the root of a slice and the hashes to cache. The parallel branch collects
in order, so the branches differ only in the parallel depth passed on. -/
def memoNodeRebuild (threshold : ℕ) (policy : CachePolicy) :
    ℕ → List Entry → Bytes → Bool → ℕ → H256 × List (Bytes × H256)
  | 0, _, _, _, _ => (merkleNullNode, [])
  | fuel + 1, entries, rp, allowPathCompression, parallelDepth =>
    let depth := rp.length
    let firstKey := firstKey entries
    let lastKey := (entries.getLastD ([], .tombstone)).1  -- a node has entries
    let isSingleton := firstKey == lastKey
    let common :=
      if allowPathCompression then commonPrefixLenFrom firstKey lastKey depth else 0
    let nodeDepth := depth + common
    let fullPrefix := firstKey.take nodeDepth
    let maybeValue := valueAtDepth entries nodeDepth
    let ranges := childRanges entries nodeDepth
    let results :=
      if decide (parallelDepth > 0) && decide (entries.length ≥ threshold) &&
          decide (ranges.length > 1) then
        ranges.map fun (child, start, stop) =>
          (child, memoNodeRebuild threshold policy fuel (slice entries start stop)
            (fullPrefix ++ [child]) true (parallelDepth - 1))
      else
        ranges.map fun (child, start, stop) =>
          (child, memoNodeRebuild threshold policy fuel (slice entries start stop)
            (fullPrefix ++ [child]) true 0)
    let cacheEntries := results.flatMap fun r => r.2.2
    let children := childSlots (results.map fun r => (r.1, r.2.1))
    let nodeHash :=
      computeNodeMerkle keccak (if hasChildren children then some children else none) maybeValue
    let hash := computePathMerkle keccak (slice firstKey depth nodeDepth) depth nodeHash
    (hash, if policy == .full || !isSingleton then cacheEntries ++ [(rp, hash)] else cacheEntries)

/-- `cache.extend(cache_entries)`. -/
def extendCache (cache : Cache) (cacheEntries : List (Bytes × H256)) : Cache :=
  cacheEntries.foldl (fun cache (rp, hash) => cache.insert rp hash) cache

/-- The eviction loop of `root_with_policy`: every prefix of every dirty key. -/
def evict (cache : Cache) (dirty : ExtTreeSet Bytes) : Cache :=
  dirty.toList.foldl
    (fun cache nibbles =>
      (List.range (nibbles.length + 1)).foldl (fun cache len => cache.erase (nibbles.take len))
        cache)
    cache

namespace IncrementalTrie

/-- `IncrementalTrie::default`. -/
def empty : IncrementalTrie where
  entries := ∅
  cache := ∅
  dirty := ∅
  nibble := fun _ hk => absurd hk ExtTreeMap.not_mem_empty

def fromDelta (delta : ExtTreeMap Bytes MptValue) : IncrementalTrie where
  entries := nibbleMap delta
  cache := ∅
  dirty := ∅
  nibble := nibbleMap_lt delta

def fromSnapshot (snapshot : ExtTreeMap Bytes Bytes) : IncrementalTrie where
  entries := nibbleMap (snapshot.map fun _ v => .some v)
  cache := ∅
  dirty := ∅
  nibble := nibbleMap_lt _

def insert (t : IncrementalTrie) (key : Bytes) (value : MptValue) : IncrementalTrie where
  entries := t.entries.insert (bytesToNibbles key) value
  cache := t.cache
  dirty := t.dirty.insert (bytesToNibbles key)
  nibble := fun k hk => by
    rcases ExtTreeMap.mem_insert.mp hk with h | h
    · rw [← Std.compare_eq_iff_eq.mp h]
      exact bytesToNibbles_lt key
    · exact t.nibble k h

def remove (t : IncrementalTrie) (key : Bytes) : IncrementalTrie where
  entries := t.entries.erase (bytesToNibbles key)
  cache := t.cache
  dirty := t.dirty.insert (bytesToNibbles key)
  nibble := fun k hk => t.nibble k (ExtTreeMap.mem_of_mem_erase hk)

def clear (_ : IncrementalTrie) : IncrementalTrie := empty

/-- `root_with_policy`, at any rebuild threshold and parallel depth. -/
def rootWithPolicyAt (threshold parallelDepth : ℕ) (t : IncrementalTrie) (policy : CachePolicy) :
    H256 × IncrementalTrie :=
  if hempty : t.entries.isEmpty then
    (merkleNullNode, { t with cache := ∅, dirty := ∅ })
  else
    let cache := evict t.cache t.dirty
    let fuel := walkFuel t.entries.toList
    if cache.isEmpty && decide (t.entries.size ≥ threshold) then
      let (root, cacheEntries) :=
        memoNodeRebuild keccak threshold policy fuel t.entries.toList [] false parallelDepth
      (root, { t with cache := extendCache cache cacheEntries, dirty := ∅ })
    else
      let (root, cache) :=
        memoNode keccak t.entries policy fuel [] (block_nil_ne_nil t.nibble hempty) false cache
      (root, { t with cache := cache, dirty := ∅ })

def rootWithPolicy (t : IncrementalTrie) (policy : CachePolicy) : H256 × IncrementalTrie :=
  rootWithPolicyAt keccak parallelRebuildThreshold parallelRebuildDepth t policy

/-- `root`. -/
def root (t : IncrementalTrie) : H256 × IncrementalTrie := rootWithPolicy keccak t .full

end IncrementalTrie

end Walk

end MinimalMpt
