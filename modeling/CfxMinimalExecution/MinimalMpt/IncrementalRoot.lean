import CfxMinimalExecution.Library.Machine
import CfxMinimalExecution.MinimalMpt.IncrementalWalk

/-!
# The roots of the incremental trie

A trie is valid when every cached hash is either that of the block now under its prefix or lies
under a prefix of a key that awaits eviction. Every operation keeps validity, and eviction turns
a valid cache into a clean one, so a root equals the stateless root of the entries in every run.

## Main definitions

* `IncrementalTrie.Valid`: the invariant of the cache
* `TrieCall`, `IncrementalTrie.step`: the calls on a trie
* `mapStep`: the same calls on a byte-keyed map, with `trieRoot` as the root

## Main results

* `IncrementalTrie.rootWithPolicyAt_spec`: one root
* `IncrementalTrie.simulation`: a trie and the map it represents answer alike
* `replies_eq_trieRoot`: every root of every run is `trieRoot`
-/

open Std (ExtTreeMap ExtTreeSet)
open Radix

namespace MinimalMpt

/-! ## Eviction -/

theorem getElem?_foldl_erase {ι : Type*} (f : ι → Bytes) (l : List ι) (cache : Cache) (rp : Bytes) :
    (l.foldl (fun cache i => cache.erase (f i)) cache)[rp]? =
      if rp ∈ l.map f then none else cache[rp]? := by
  induction l generalizing cache with
  | nil => simp
  | cons i l ih =>
    rw [List.foldl_cons, ih, List.map_cons, getElem?_erase_eq]
    by_cases hl : rp ∈ l.map f
    · rw [if_pos hl, if_pos (List.mem_cons_of_mem _ hl)]
    · rw [if_neg hl]
      by_cases hi : f i = rp
      · rw [if_pos hi, if_pos (by rw [hi]; exact List.mem_cons_self)]
      · rw [if_neg hi, if_neg]
        rw [List.mem_cons, not_or]
        exact ⟨Ne.symm hi, hl⟩

/-- One dirty key evicts exactly its prefixes. -/
theorem getElem?_evictKey (nibbles : Bytes) (cache : Cache) (rp : Bytes) :
    ((List.range (nibbles.length + 1)).foldl (fun cache len => cache.erase (nibbles.take len))
      cache)[rp]? = if rp <+: nibbles then none else cache[rp]? := by
  rw [getElem?_foldl_erase]
  refine if_congr ?_ rfl rfl
  rw [List.mem_map]
  constructor
  · rintro ⟨len, -, rfl⟩
    exact List.take_prefix _ _
  · intro h
    exact ⟨rp.length, List.mem_range.mpr (Nat.lt_succ_of_le h.length_le),
      (List.prefix_iff_eq_take.mp h).symm⟩

/-- What survives the eviction was cached and is no prefix of a dirty key. -/
theorem getElem?_evict {cache : Cache} {dirty : ExtTreeSet Bytes} {rp : Bytes} {hash : H256}
    (h : (evict cache dirty)[rp]? = some hash) :
    cache[rp]? = some hash ∧ ∀ k ∈ dirty, ¬ rp <+: k := by
  have hfold : ∀ (l : List Bytes) (cache : Cache),
      (l.foldl (fun cache nibbles => (List.range (nibbles.length + 1)).foldl
        (fun cache len => cache.erase (nibbles.take len)) cache) cache)[rp]? = some hash →
      cache[rp]? = some hash ∧ ∀ k ∈ l, ¬ rp <+: k := by
    intro l
    induction l with
    | nil => exact fun cache h => ⟨h, by simp⟩
    | cons k l ih =>
      intro cache h
      obtain ⟨hget, hrest⟩ := ih _ h
      rw [getElem?_evictKey] at hget
      split at hget
      · cases hget
      · next hk => exact ⟨hget, List.forall_mem_cons.mpr ⟨hk, hrest⟩⟩
  obtain ⟨hget, hdirty⟩ := hfold dirty.toList cache h
  exact ⟨hget, fun k hk => hdirty k (ExtTreeSet.mem_toList.mpr hk)⟩

theorem getElem?_extendCache {cacheEntries : List (Bytes × H256)} {cache : Cache} {rp : Bytes}
    {hash : H256} (h : (extendCache cache cacheEntries)[rp]? = some hash) :
    (rp, hash) ∈ cacheEntries ∨ cache[rp]? = some hash := by
  unfold extendCache at h
  induction cacheEntries generalizing cache with
  | nil => exact Or.inr h
  | cons e l ih =>
    rcases ih h with hmem | hget
    · exact Or.inl (List.mem_cons_of_mem e hmem)
    · rw [getElem?_insert_eq] at hget
      split at hget
      · next heq =>
        refine Or.inl (List.mem_cons.mpr (Or.inl ?_))
        rw [← heq, ← Option.some.inj hget]
      · exact Or.inr hget

/-! ## Validity -/

namespace IncrementalTrie

section Valid

variable (keccak : Bytes → H256)

/-- Every cached hash is that of the block now under its prefix, or a dirty key will evict it. -/
def Valid (t : IncrementalTrie) : Prop :=
  ∀ rp hash, t.cache[rp]? = some hash → (∃ k ∈ t.dirty, rp <+: k) ∨
    (below rp t.entries.toList ≠ [] ∧ hash = hashAt keccak t.entries.toList rp)

variable {keccak}

/-- An empty cache is valid for any entries. -/
theorem valid_of_cache_empty {t : IncrementalTrie} (h : t.cache = ∅) : t.Valid keccak := by
  intro rp hash hget
  rw [h] at hget
  simp at hget

/-- A clean cache is valid. -/
theorem valid_of_clean {t : IncrementalTrie} (h : Clean keccak t.entries t.cache) :
    t.Valid keccak :=
  fun rp hash hget => Or.inr (h rp hash hget)

/-- A change of one key that leaves the blocks of its non-prefixes alone keeps validity. -/
theorem Valid.of_change {t t' : IncrementalTrie} (h : t.Valid keccak) {k : Bytes}
    (hcache : t'.cache = t.cache) (hdirty : t'.dirty = t.dirty.insert k)
    (hbelow : ∀ rp, ¬ rp <+: k → below rp t'.entries.toList = below rp t.entries.toList) :
    t'.Valid keccak := by
  intro rp hash hget
  rw [hcache] at hget
  by_cases hk : rp <+: k
  · exact Or.inl ⟨k, by rw [hdirty]; exact ExtTreeSet.mem_insert_self, hk⟩
  · rcases h rp hash hget with ⟨l, hl, hrp⟩ | ⟨hne, heq⟩
    · exact Or.inl ⟨l, by rw [hdirty]; exact ExtTreeSet.mem_insert.mpr (Or.inr hl), hrp⟩
    · rw [hashAt] at heq
      rw [hashAt, hbelow rp hk]
      exact Or.inr ⟨hne, heq⟩

theorem Valid.insert {t : IncrementalTrie} (h : t.Valid keccak) (key : Bytes) (value : MptValue) :
    (t.insert key value).Valid keccak :=
  h.of_change rfl rfl fun _ hrp => StringMap.below_insert hrp value

theorem Valid.remove {t : IncrementalTrie} (h : t.Valid keccak) (key : Bytes) :
    (t.remove key).Valid keccak :=
  h.of_change rfl rfl fun _ hrp => StringMap.below_erase hrp

/-- Eviction cleans a valid cache. -/
theorem Valid.evict {t : IncrementalTrie} (h : t.Valid keccak) :
    Clean keccak t.entries (MinimalMpt.evict t.cache t.dirty) := by
  intro rp hash hget
  obtain ⟨hcached, hclean⟩ := getElem?_evict hget
  rcases h rp hash hcached with ⟨k, hk, hrp⟩ | hblock
  · exact absurd hrp (hclean k hk)
  · exact hblock

end Valid

variable (keccak : Bytes → H256)

/-- The fold at the empty prefix is that of all entries. -/
theorem hashAt_nil {entries : List Entry} (hne : entries.isEmpty = false) :
    hashAt keccak entries [] = trieFold keccak entries := by
  rw [hashAt, trieFold, below_empty, if_neg (by simp [hne])]
  rfl

/-- **The walk from the root** of a valid trie, after the eviction. -/
theorem Valid.memoNode_nil {t : IncrementalTrie} (h : t.Valid keccak) (policy : CachePolicy)
    (hne : block t.entries [] ≠ []) (hentries : t.entries.toList.isEmpty = false) :
    (memoNode keccak t.entries policy (walkFuel t.entries.toList) [] hne false
      (MinimalMpt.evict t.cache t.dirty)).1 = trieFold keccak t.entries.toList ∧
    Clean keccak t.entries (memoNode keccak t.entries policy (walkFuel t.entries.toList) [] hne false
      (MinimalMpt.evict t.cache t.dirty)).2 := by
  rw [← hashAt_nil keccak hentries]
  refine memoNode_spec t.nibble policy (walkFuel t.entries.toList) [] hne _ h.evict fun e he => ?_
  rw [List.length_nil, Nat.zero_add]
  exact length_lt_walkFuel (List.mem_of_mem_filter he)

/-- **One root.** At any rebuild threshold, parallel depth and policy, the root of a valid trie is
the fold over its entries; the entries stay and the trie stays valid. -/
theorem rootWithPolicyAt_spec (threshold parallelDepth : ℕ) {t : IncrementalTrie}
    (h : t.Valid keccak) (policy : CachePolicy) :
    (rootWithPolicyAt keccak threshold parallelDepth t policy).1 =
      trieFold keccak t.entries.toList ∧
    (rootWithPolicyAt keccak threshold parallelDepth t policy).2.entries = t.entries ∧
    (rootWithPolicyAt keccak threshold parallelDepth t policy).2.Valid keccak := by
  rw [rootWithPolicyAt]
  split
  · next hempty =>
    rw [trieFold, ExtTreeMap.isEmpty_toList, if_pos hempty]
    exact ⟨rfl, rfl, valid_of_cache_empty rfl⟩
  · next hempty =>
    have hentries : t.entries.toList.isEmpty = false := by
      rw [ExtTreeMap.isEmpty_toList]
      exact Bool.eq_false_of_not_eq_true hempty
    dsimp only
    split
    · -- the cold rebuild: the cache is empty
      next hcold =>
      have hb : Block [] t.entries.toList :=
        ⟨StringMap.sorted_toList _, List.isEmpty_eq_false_iff.mp hentries,
          fun _ _ => List.nil_prefix⟩
      obtain ⟨hhash, hlist⟩ := memoNodeRebuild_spec threshold policy _ parallelDepth hb fun e he => by
        rw [List.length_nil, Nat.zero_add]
        exact length_lt_walkFuel he
      refine ⟨hhash.trans (hashAt_nil keccak hentries), rfl, valid_of_clean fun rp hash hget => ?_⟩
      rcases getElem?_extendCache hget with hmem | hget
      · exact (hlist rp hash hmem).2
      · exact h.evict rp hash hget
    -- the walk over the cache that is left
    · obtain ⟨hhash, hclean⟩ := h.memoNode_nil keccak policy (block_nil_ne_nil t.nibble hempty)
        hentries
      exact ⟨hhash, rfl, valid_of_clean hclean⟩

end IncrementalTrie

/-! ## Runs -/

/-- A call on an incremental trie. -/
inductive TrieCall
  | insert (key : Bytes) (value : MptValue)
  | remove (key : Bytes)
  | clear
  | root (policy : CachePolicy)

/-- Where an incremental trie comes from. -/
inductive TrieOrigin
  | empty
  | fromDelta (delta : ExtTreeMap Bytes MptValue)
  | fromSnapshot (snapshot : ExtTreeMap Bytes Bytes)

namespace TrieOrigin

def trie : TrieOrigin → IncrementalTrie
  | empty => .empty
  | fromDelta delta => .fromDelta delta
  | fromSnapshot snapshot => .fromSnapshot snapshot

/-- The byte-keyed map the trie represents at first. -/
def map : TrieOrigin → ExtTreeMap Bytes MptValue
  | empty => ∅
  | fromDelta delta => delta
  | fromSnapshot snapshot => snapshot.map fun _ v => .some v

end TrieOrigin

section Runs

variable (keccak : Bytes → H256)

/-- A call on the trie; a root call returns the root. -/
def IncrementalTrie.step (threshold parallelDepth : ℕ) (t : IncrementalTrie) :
    TrieCall → Option H256 × IncrementalTrie
  | .insert key value => (none, t.insert key value)
  | .remove key => (none, t.remove key)
  | .clear => (none, t.clear)
  | .root policy =>
    let (root, t) := t.rootWithPolicyAt keccak threshold parallelDepth policy
    (some root, t)

/-- The same call on the byte-keyed map; a root call returns `trie_root` of the map. -/
def mapStep (kv : ExtTreeMap Bytes MptValue) :
    TrieCall → Option H256 × ExtTreeMap Bytes MptValue
  | .insert key value => (none, kv.insert key value)
  | .remove key => (none, kv.erase key)
  | .clear => (none, ∅)
  | .root _ => (some (trieRoot keccak kv), kv)

/-- The trie holds the nibble image of the map, with a valid cache. -/
structure IncrementalTrie.Represents (t : IncrementalTrie) (kv : ExtTreeMap Bytes MptValue) :
    Prop where
  entries : t.entries = nibbleMap kv
  valid : t.Valid keccak

variable {keccak}

namespace IncrementalTrie

theorem represents_origin (origin : TrieOrigin) :
    origin.trie.Represents keccak origin.map := by
  cases origin with
  | empty => exact ⟨mapKeys_empty.symm, valid_of_cache_empty rfl⟩
  | fromDelta delta => exact ⟨rfl, valid_of_cache_empty rfl⟩
  | fromSnapshot snapshot => exact ⟨rfl, valid_of_cache_empty rfl⟩

variable {t : IncrementalTrie} {kv : ExtTreeMap Bytes MptValue}

theorem Represents.insert (h : t.Represents keccak kv) (key : Bytes) (value : MptValue) :
    (t.insert key value).Represents keccak (kv.insert key value) where
  entries := by
    rw [nibbleMap, mapKeys_insert bytesToNibbles_injective, ← nibbleMap, ← h.entries]
    rfl
  valid := h.valid.insert key value

theorem Represents.remove (h : t.Represents keccak kv) (key : Bytes) :
    (t.remove key).Represents keccak (kv.erase key) where
  entries := by
    rw [nibbleMap, mapKeys_erase bytesToNibbles_injective, ← nibbleMap, ← h.entries]
    rfl
  valid := h.valid.remove key

theorem represents_clear (t : IncrementalTrie) : t.clear.Represents keccak ∅ :=
  represents_origin .empty

/-- A root of a trie that represents `kv` is `trie_root` of `kv`. -/
theorem Represents.root (h : t.Represents keccak kv) (threshold parallelDepth : ℕ)
    (policy : CachePolicy) :
    (rootWithPolicyAt keccak threshold parallelDepth t policy).1 = trieRoot keccak kv ∧
    (rootWithPolicyAt keccak threshold parallelDepth t policy).2.Represents keccak kv := by
  obtain ⟨hroot, hentries, hvalid⟩ :=
    rootWithPolicyAt_spec keccak threshold parallelDepth h.valid policy
  rw [h.entries] at hroot hentries
  exact ⟨hroot.trans (trieRoot_eq_trieFold keccak kv).symm, hentries, hvalid⟩

/-- A trie and the map it represents answer every call alike. -/
theorem simulation (threshold parallelDepth : ℕ) :
    Machine.Simulation (step keccak threshold parallelDepth) (mapStep keccak) (fun _ => True)
      (Represents keccak) where
  reply := by
    intro t kv call _ h
    cases call with
    | insert key value => rfl
    | remove key => rfl
    | clear => rfl
    | root policy => exact congrArg some (h.root threshold parallelDepth policy).1
  next := by
    intro t kv call _ h
    cases call with
    | insert key value => exact h.insert key value
    | remove key => exact h.remove key
    | clear => exact represents_clear t
    | root policy => exact (h.root threshold parallelDepth policy).2

end IncrementalTrie

variable (keccak)

/-- **The incremental root is the stateless root.** In every run of calls, with policies mixed
freely and any number of changes between two roots, every returned root is `trie_root` of the map
obtained by the same changes, at any rebuild threshold and parallel depth. -/
theorem replies_eq_trieRoot (threshold parallelDepth : ℕ) (origin : TrieOrigin)
    (calls : List TrieCall) :
    Machine.replies (IncrementalTrie.step keccak threshold parallelDepth) origin.trie calls =
      Machine.replies (mapStep keccak) origin.map calls :=
  (IncrementalTrie.simulation threshold parallelDepth).replies_eq
    (IncrementalTrie.represents_origin origin) fun _ _ => trivial

end Runs

end MinimalMpt
