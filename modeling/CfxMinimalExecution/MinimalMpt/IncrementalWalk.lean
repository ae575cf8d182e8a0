import CfxMinimalExecution.MinimalMpt.Incremental
import CfxMinimalExecution.MinimalMpt.TrieFold

/-!
# The walks of the incremental trie

A cache is clean when every hash in it is that of the block now under its prefix. On a clean cache
`memoNode` returns the fold at its prefix and leaves the cache clean, whether it descends or meets
cached hashes; `memoNodeRebuild` returns the fold and only clean hashes.

## Main definitions

* `hashAt`: the fold at a routing prefix
* `Clean`: a cache without stale hashes

## Main results

* `memoNode_spec`: the walk over a warm cache
* `memoNodeRebuild_spec`: the cold rebuild
-/

open Std (ExtTreeMap)
open Radix SortedList

namespace MinimalMpt

/-! ## Endpoints of a block -/

theorem takeWhile_zip_eq (k l : Bytes) :
    ((k.zip l).takeWhile fun (a, b) => a == b).length = (commonPrefix k l).length := by
  induction k generalizing l with
  | nil => simp
  | cons a k ih =>
    cases l with
    | nil => simp
    | cons b l =>
      by_cases hab : a = b
      · subst hab
        simp [commonPrefix, ih]
      · simp [commonPrefix, hab]

theorem commonPrefixLenFrom_append (rp k l : Bytes) :
    commonPrefixLenFrom (rp ++ k) (rp ++ l) rp.length = (commonPrefix k l).length := by
  rw [commonPrefixLenFrom, List.zip_append rfl, ← takeWhile_zip_eq]
  congr 2
  exact List.drop_left' (by simp)

section Endpoints

variable {rp : Bytes} {entries : List Entry}

/-- The endpoints of a block share what all its keys share. -/
theorem Block.commonPrefixLenFrom_eq (hb : Block rp entries) :
    commonPrefixLenFrom (entries.head hb.ne_nil).1 (entries.getLast hb.ne_nil).1 rp.length =
      (sharedPrefix (below rp entries)).length := by
  have hshared := sharedPrefix_eq_of_sorted hb.sorted hb.ne_nil
  rw [sharedPrefix_below hb.ne_nil hb.routed] at hshared
  obtain ⟨k, hk⟩ := hb.routed _ (List.head_mem hb.ne_nil)
  obtain ⟨l, hl⟩ := hb.routed _ (List.getLast_mem hb.ne_nil)
  rw [← hk, ← hl, commonPrefix_append, List.append_cancel_left_eq] at hshared
  rw [← hk, ← hl, commonPrefixLenFrom_append, hshared]

/-- The path length as the incremental walks compute it. -/
theorem Block.commonFrom_eq (hb : Block rp entries) {last : Bytes}
    (hlast : rp.length ≠ 0 → last = (entries.getLast hb.ne_nil).1) :
    (if decide (rp.length ≠ 0) then
        commonPrefixLenFrom (entries.head hb.ne_nil).1 last rp.length else 0) =
      (path rp.length (below rp entries)).length := by
  by_cases hroot : rp.length = 0
  · simp [hroot]
  · rw [path_of_ne_zero hroot, ← hb.commonPrefixLenFrom_eq, hlast hroot]
    simp [hroot]

/-- The nibbles of the first key up to the node's depth are the full prefix. -/
theorem Block.take_head (hb : Block rp entries) (d : ℕ) :
    (entries.head hb.ne_nil).1.take (rp.length + (path d (below rp entries)).length) =
      rp ++ path d (below rp entries) := by
  obtain ⟨r, hr⟩ := hb.full d _ (List.head_mem hb.ne_nil)
  rw [← hr, ← List.length_append, List.take_left]

theorem firstKey_eq_head (hne : entries ≠ []) : firstKey entries = (entries.head hne).1 := by
  cases entries with
  | nil => exact absurd rfl hne
  | cons e rest => rfl

end Endpoints

/-! ## Clean caches -/

section Walk

variable (keccak : Bytes → H256)

/-- The fold at the routing prefix `rp`. -/
def hashAt (entries : List Entry) (rp : Bytes) : H256 :=
  fold (trieNode keccak) rp.length (below rp entries)

/-- Every cached hash is that of the block now under its prefix. -/
def Clean (entries : ExtTreeMap Bytes MptValue) (cache : Cache) : Prop :=
  ∀ rp hash, cache[rp]? = some hash →
    below rp entries.toList ≠ [] ∧ hash = hashAt keccak entries.toList rp

variable {keccak}

theorem Clean.empty (entries : ExtTreeMap Bytes MptValue) : Clean keccak entries ∅ := by
  intro rp hash h
  simp at h

theorem Clean.insert {entries : ExtTreeMap Bytes MptValue} {cache : Cache}
    (h : Clean keccak entries cache) {rp : Bytes} (hne : below rp entries.toList ≠ []) :
    Clean keccak entries (cache.insert rp (hashAt keccak entries.toList rp)) := by
  intro rp' hash hget
  rw [getElem?_insert_eq] at hget
  split at hget
  · next heq =>
    subst heq
    exact ⟨hne, (Option.some.inj hget).symm⟩
  · exact h rp' hash hget

theorem Clean.insert_if {entries : ExtTreeMap Bytes MptValue} {cache : Cache}
    (h : Clean keccak entries cache) {rp : Bytes} (hne : below rp entries.toList ≠ []) (keep : Bool) :
    Clean keccak entries
      (if keep then cache.insert rp (hashAt keccak entries.toList rp) else cache) := by
  split
  · exact h.insert hne
  · exact h

variable {entries : ExtTreeMap Bytes MptValue}

/-- The keys with a routing prefix are a block. -/
theorem block_isBlock {rp : Bytes} (hne : block entries rp ≠ []) : Block rp (block entries rp) where
  sorted := (StringMap.sorted_toList entries).filter _
  ne_nil := hne
  routed := fun _ he => isPrefix_of_mem_block he

variable (hnibble : ∀ k ∈ entries, ∀ x ∈ k, x < (16 : UInt8))
include hnibble

theorem below_block (rp : Bytes) : below rp (block entries rp) = below rp entries.toList := by
  rw [block_eq_filter hnibble, below_filter_isPrefix]

theorem block_ne_nil_iff {rp : Bytes} : block entries rp ≠ [] ↔ below rp entries.toList ≠ [] := by
  rw [← below_block hnibble]
  constructor
  · intro hne
    exact (block_isBlock hne).below_ne_nil
  · intro hne hnil
    exact hne (by rw [hnil, below_nil])

/-- The keys with a longer routing prefix. -/
theorem block_subset {rp q : Bytes} {e : Entry} (he : e ∈ block entries (rp ++ q)) :
    e ∈ block entries rp := by
  rw [block_eq_filter hnibble, List.mem_filter, decide_eq_true_iff] at he ⊢
  exact ⟨he.1, (List.prefix_append rp q).trans he.2⟩

/-! ## The walk over a warm cache -/

/-- One round fills the child's slot with its hash, or leaves it where there are no keys. -/
theorem memoChild_spec {F : Bytes} {c : ℕ}
    {walk : (rp : Bytes) → block entries rp ≠ [] → Cache → H256 × Cache}
    (hwalk : ∀ hne cache, Clean keccak entries cache →
      (walk (F ++ [UInt8.ofNat c]) hne cache).1 =
        hashAt keccak entries.toList (F ++ [UInt8.ofNat c]) ∧
      Clean keccak entries (walk (F ++ [UInt8.ofNat c]) hne cache).2)
    (children : Vector H256 16) {cache : Cache} (hclean : Clean keccak entries cache) :
    (memoChild entries F walk (children, cache) c).1 =
      (if below (F ++ [UInt8.ofNat c]) entries.toList = [] then children
        else children.setIfInBounds c (hashAt keccak entries.toList (F ++ [UInt8.ofNat c]))) ∧
    Clean keccak entries (memoChild entries F walk (children, cache) c).2 := by
  rw [memoChild]
  split
  · next hash hget =>
    obtain ⟨hne, rfl⟩ := hclean _ _ hget
    rw [if_neg hne]
    exact ⟨rfl, hclean⟩
  · split
    · next hne =>
      rw [if_neg ((block_ne_nil_iff hnibble).mp hne)]
      obtain ⟨hhash, hcache⟩ := hwalk hne cache hclean
      exact ⟨congrArg (children.setIfInBounds c) hhash, hcache⟩
    · next hnil =>
      rw [if_pos (not_not.mp fun hne => hnil ((block_ne_nil_iff hnibble).mpr hne))]
      exact ⟨rfl, hclean⟩

/-- The rounds fill the slots of the children with keys. -/
theorem foldl_memoChild_spec {F : Bytes} {l : List ℕ}
    {walk : (rp : Bytes) → block entries rp ≠ [] → Cache → H256 × Cache}
    (hwalk : ∀ c ∈ l, ∀ hne cache, Clean keccak entries cache →
      (walk (F ++ [UInt8.ofNat c]) hne cache).1 =
        hashAt keccak entries.toList (F ++ [UInt8.ofNat c]) ∧
      Clean keccak entries (walk (F ++ [UInt8.ofNat c]) hne cache).2)
    (children : Vector H256 16) {cache : Cache} (hclean : Clean keccak entries cache) :
    (∀ i (hi : i < 16), (l.foldl (memoChild entries F walk) (children, cache)).1[i] =
      if i ∈ l ∧ below (F ++ [UInt8.ofNat i]) entries.toList ≠ [] then
        hashAt keccak entries.toList (F ++ [UInt8.ofNat i])
      else children[i]) ∧
    Clean keccak entries (l.foldl (memoChild entries F walk) (children, cache)).2 := by
  induction l generalizing children cache with
  | nil => exact ⟨fun i hi => by simp, hclean⟩
  -- one child, then the rest of them from the array and the cache it leaves
  | cons c l ih =>
    obtain ⟨hchildren, hcache⟩ :=
      memoChild_spec hnibble (hwalk c List.mem_cons_self) children hclean
    obtain ⟨hrest, hlast⟩ :=
      ih (fun c hc => hwalk c (List.mem_cons_of_mem _ hc))
        (memoChild entries F walk (children, cache) c).1 hcache
    -- slot `i` is set by the last `c` of the list equal to it, and all of these set the same hash
    refine ⟨fun i hi => ?_, hlast⟩
    rw [List.foldl_cons, hrest i hi, hchildren]
    by_cases hl : i ∈ l ∧ below (F ++ [UInt8.ofNat i]) entries.toList ≠ []
    · rw [if_pos hl, if_pos ⟨List.mem_cons_of_mem _ hl.1, hl.2⟩]
    · rw [if_neg hl]
      by_cases hic : i = c
      · subst hic
        by_cases hempty : below (F ++ [UInt8.ofNat i]) entries.toList = []
        · simp [hempty]
        · rw [if_neg hempty, if_pos ⟨List.mem_cons_self, hempty⟩, Vector.getElem_setIfInBounds hi,
            if_pos rfl]
      · have hcons : ¬ (i ∈ c :: l ∧ below (F ++ [UInt8.ofNat i]) entries.toList ≠ []) := by
          rintro ⟨hmem, hne⟩
          exact hl ⟨(List.mem_cons.mp hmem).resolve_left hic, hne⟩
        rw [if_neg hcons]
        split
        · rfl
        · rw [Vector.getElem_setIfInBounds hi, if_neg (Ne.symm hic)]

omit hnibble in
/-- The slots of the node at `rp` hold the hashes of the children with keys. -/
theorem getElem_childVector_slots (rp : Bytes) (i : ℕ) (hi : i < 16) :
    (childVector (slots (trieNode keccak) rp.length (below rp entries.toList)))[i] =
      if below (rp ++ path rp.length (below rp entries.toList) ++ [UInt8.ofNat i])
          entries.toList = [] then merkleNullNode
      else hashAt keccak entries.toList
        (rp ++ path rp.length (below rp entries.toList) ++ [UInt8.ofNat i]) := by
  rw [childVector, Vector.getElem_ofFn, slots, slot_below]
  split
  · rfl
  · rw [Option.getD_some, hashAt, List.length_append, List.length_append, List.length_singleton]

omit hnibble in
/-- The hash of the node at `rp` from its slots and its value. -/
theorem hashAt_eq (rp : Bytes) :
    hashAt keccak entries.toList rp =
      computePathMerkle keccak (path rp.length (below rp entries.toList)) rp.length
        (computeNodeMerkle keccak
          (some (childVector (slots (trieNode keccak) rp.length (below rp entries.toList))))
          (entries[rp ++ path rp.length (below rp entries.toList)]?.map
            MptValue.merkleValue)) := by
  rw [hashAt, fold_eq, trieNode, valueAt_below, StringMap.valueAt_toList]

/-- The loop over the children fills the slots of the node. -/
theorem memoChildren_spec {rp F : Bytes} (hF : F = rp ++ path rp.length (below rp entries.toList))
    (walk : (rp : Bytes) → block entries rp ≠ [] → Cache → H256 × Cache)
    (hwalk : ∀ c ∈ List.range 16, ∀ hne cache, Clean keccak entries cache →
      (walk (F ++ [UInt8.ofNat c]) hne cache).1 =
        hashAt keccak entries.toList (F ++ [UInt8.ofNat c]) ∧
      Clean keccak entries (walk (F ++ [UInt8.ofNat c]) hne cache).2)
    {cache : Cache} (hclean : Clean keccak entries cache) :
    ((List.range 16).foldl (memoChild entries F walk)
        (Vector.replicate 16 merkleNullNode, cache)).1 =
      childVector (slots (trieNode keccak) rp.length (below rp entries.toList)) ∧
    Clean keccak entries ((List.range 16).foldl (memoChild entries F walk)
      (Vector.replicate 16 merkleNullNode, cache)).2 := by
  obtain ⟨hchildren, hcache⟩ := foldl_memoChild_spec hnibble hwalk
    (Vector.replicate 16 merkleNullNode) hclean
  refine ⟨Vector.ext fun i hi => ?_, hcache⟩
  rw [hchildren i hi, getElem_childVector_slots, Vector.getElem_replicate, ← hF]
  by_cases hempty : below (F ++ [UInt8.ofNat i]) entries.toList = []
  · rw [if_pos hempty, if_neg fun h => h.2 hempty]
  · rw [if_neg hempty, if_pos ⟨List.mem_range.mpr hi, hempty⟩]

/-- **The walk over a warm cache.** On a clean cache the walk returns the fold at its prefix and
leaves the cache clean. -/
theorem memoNode_spec (policy : CachePolicy) (fuel : ℕ) :
    ∀ (rp : Bytes) (hne : block entries rp ≠ []) (cache : Cache), Clean keccak entries cache →
      (∀ e ∈ block entries rp, e.1.length < rp.length + fuel) →
      (memoNode keccak entries policy fuel rp hne (decide (rp.length ≠ 0)) cache).1 =
        hashAt keccak entries.toList rp ∧
      Clean keccak entries
        (memoNode keccak entries policy fuel rp hne (decide (rp.length ≠ 0)) cache).2 := by
  induction fuel with
  | zero =>
    intro rp hne _ _ hfuel
    obtain ⟨e, he⟩ := List.exists_mem_of_ne_nil _ hne
    have hlen := (isPrefix_of_mem_block he).length_le
    have hlt := hfuel e he
    omega
  | succ fuel ih =>
    intro rp hne cache hclean hfuel
    rw [memoNode]
    split
    · next hash hget =>
      obtain ⟨-, rfl⟩ := hclean _ _ hget
      exact ⟨rfl, hclean⟩
    · have hb := block_isBlock hne
      have hlast : rp.length ≠ 0 →
          (if decide (rp.length ≠ 0) || policy == .skipSingleton then
            ((block entries rp).getLast hne).1 else ((block entries rp).head hne).1) =
          ((block entries rp).getLast hb.ne_nil).1 := by
        intro hroot
        simp [hroot]
      have hfirst := hb.slice_firstKey rp.length
      rw [firstKey_eq_head hne, below_block hnibble, List.length_append] at hfirst
      have htake := hb.take_head rp.length
      rw [below_block hnibble] at htake
      obtain ⟨hchildren, hcache⟩ := memoChildren_spec hnibble
        (rfl : rp ++ path rp.length (below rp entries.toList) = _)
        (fun rp hne cache => memoNode keccak entries policy fuel rp hne true cache)
        (fun c _ hne' cache' hclean' => by
          -- the child's prefix is longer, so less fuel is enough for it
          have hrec := ih _ hne' cache' hclean' fun e he => by
            have hlt := hfuel e (block_subset hnibble (by rwa [List.append_assoc] at he))
            simp only [List.length_append, List.length_singleton]
            omega
          simpa using hrec)
        hclean
      simp only [hb.commonFrom_eq hlast, below_block hnibble, htake, hfirst]
      rw [hchildren, computeNodeMerkle_hasChildren, ← hashAt_eq]
      exact ⟨rfl, hcache.insert_if ((block_ne_nil_iff hnibble).mp hne) _⟩

end Walk

/-! ## The cold rebuild -/

section Rebuild

variable (keccak : Bytes → H256)

/-- Every listed hash is that of the block under its prefix, which extends `rp`. -/
def CleanList (entries : List Entry) (rp : Bytes) (cacheEntries : List (Bytes × H256)) : Prop :=
  ∀ P hash, (P, hash) ∈ cacheEntries →
    rp <+: P ∧ below P entries ≠ [] ∧ hash = hashAt keccak entries P

variable {keccak}

/-- What lies under an extension of a child's prefix lies in the child's block. -/
theorem below_childBlock_of_isPrefix {F P : Bytes} {c : UInt8} (h : F ++ [c] <+: P)
    (entries : List Entry) : below P (childBlock F c entries) = below P entries := by
  obtain ⟨r, rfl⟩ := h
  rw [← below_below, below_childBlock, below_below]

theorem CleanList.of_child {rp F : Bytes} {c : UInt8} {entries : List Entry}
    {cacheEntries : List (Bytes × H256)} (hF : rp <+: F)
    (h : CleanList keccak (childBlock F c entries) (F ++ [c]) cacheEntries) :
    CleanList keccak entries rp cacheEntries := by
  intro P hash hmem
  obtain ⟨hP, hne, rfl⟩ := h P hash hmem
  rw [below_childBlock_of_isPrefix hP] at hne
  refine ⟨hF.trans ((List.prefix_append F [c]).trans hP), hne, ?_⟩
  rw [hashAt, below_childBlock_of_isPrefix hP, hashAt]

/-- **The cold rebuild.** At any threshold and parallel depth the rebuild of a block returns the
fold at its prefix and lists only clean hashes. -/
theorem memoNodeRebuild_spec (threshold : ℕ) (policy : CachePolicy) (fuel : ℕ) :
    ∀ {rp : Bytes} {entries : List Entry} (parallelDepth : ℕ), Block rp entries →
      (∀ e ∈ entries, e.1.length < rp.length + fuel) →
      (memoNodeRebuild keccak threshold policy fuel entries rp (decide (rp.length ≠ 0))
        parallelDepth).1 = hashAt keccak entries rp ∧
      CleanList keccak entries rp
        (memoNodeRebuild keccak threshold policy fuel entries rp (decide (rp.length ≠ 0))
          parallelDepth).2 := by
  induction fuel with
  | zero =>
    intro rp entries _ hb hfuel
    obtain ⟨e, he⟩ := List.exists_mem_of_ne_nil _ hb.ne_nil
    have hlen := (hb.routed e he).length_le
    have hlt := hfuel e he
    omega
  -- induction on the fuel, which the length of the longest key bounds
  | succ fuel ih =>
    intro rp entries parallelDepth hb hfuel
    generalize hF : rp ++ path rp.length (below rp entries) = F
    have hdepth : rp.length + (path rp.length (below rp entries)).length = F.length := by
      rw [← hF, List.length_append]
    have hchild : ∀ (c : UInt8) (depth : ℕ), childBlock F c entries ≠ [] →
        (memoNodeRebuild keccak threshold policy fuel (childBlock F c entries) (F ++ [c]) true
          depth).1 = hashAt keccak (childBlock F c entries) (F ++ [c]) ∧
        CleanList keccak (childBlock F c entries) (F ++ [c])
          (memoNodeRebuild keccak threshold policy fuel (childBlock F c entries) (F ++ [c]) true
            depth).2 := by
      intro c depth hne
      have hrec := ih depth (hb.child hne) fun e he => by
        have := hfuel e (mem_childBlock.mp he).1
        simp only [List.length_append, List.length_singleton]
        omega
      simpa using hrec
    have hslots : ∀ depth : ℕ, childSlots ((childRanges entries F.length).map fun r =>
        (r.1, (memoNodeRebuild keccak threshold policy fuel (slice entries r.2.1 r.2.2)
          (F ++ [r.1]) true depth).1)) =
        childVector (slots (trieNode keccak) rp.length (below rp entries)) := by
      intro depth
      have hchildren := hb.childSlots_eq keccak (fun c block =>
        (memoNodeRebuild keccak threshold policy fuel block (F ++ [c]) true depth).1)
      rw [hF] at hchildren
      exact hchildren fun c hne => (hchild c depth hne).1
    have hcached : ∀ depth : ℕ, CleanList keccak entries rp
        ((childRanges entries F.length).flatMap fun r =>
          (memoNodeRebuild keccak threshold policy fuel (slice entries r.2.1 r.2.2) (F ++ [r.1])
            true depth).2) := by
      intro depth P hash hmem
      obtain ⟨⟨c, s, t⟩, hrange, hmem⟩ := List.mem_flatMap.mp hmem
      have hfull : ∀ e ∈ entries, F <+: e.1 := hF ▸ hb.full rp.length
      obtain ⟨hslice, hne⟩ := (childRanges_spec hb.sorted hfull).1 c s t hrange
      have hlist := (hchild c depth hne).2.of_child (hF ▸ List.prefix_append rp _)
      simp only [hslice] at hmem
      exact hlist P hash hmem
    have hhead := firstKey_eq_head hb.ne_nil
    have hlast : (entries.getLastD ([], .tombstone)).1 = (entries.getLast hb.ne_nil).1 := by
      rw [List.getLastD_eq_getLast?, List.getLast?_eq_some_getLast hb.ne_nil, Option.getD_some]
    have htake := hb.take_head rp.length
    have hpath := hb.slice_firstKey rp.length
    have hvalue := hb.valueAtDepth_eq rp.length
    have hnode : hashAt keccak entries rp =
        computePathMerkle keccak (path rp.length (below rp entries)) rp.length
          (computeNodeMerkle keccak
            (some (childVector (slots (trieNode keccak) rp.length (below rp entries))))
            (valueAtDepth entries F.length)) := by
      rw [hashAt, fold_eq, trieNode, ← hF, hvalue]
    rw [hhead, hF] at hpath
    rw [hdepth, hF] at htake
    rw [memoNodeRebuild]
    -- the branches differ only in the depth passed on
    simp only [hhead, hlast, hb.commonFrom_eq fun _ => rfl, hdepth, htake, hpath,
      ← apply_ite fun depth => (childRanges entries F.length).map fun r =>
        (r.1, memoNodeRebuild keccak threshold policy fuel (slice entries r.2.1 r.2.2)
          (F ++ [r.1]) true depth),
      List.map_map, List.flatMap_map, Function.comp_def, hslots, computeNodeMerkle_hasChildren,
      ← hnode]
    refine ⟨trivial, ?_⟩
    split
    · intro P hash hmem
      rcases List.mem_append.mp hmem with hmem | hmem
      · exact hcached _ P hash hmem
      · obtain ⟨rfl, rfl⟩ := Prod.mk.inj (List.mem_singleton.mp hmem)
        exact ⟨List.prefix_refl _, hb.below_ne_nil, rfl⟩
    · exact hcached _

end Rebuild

end MinimalMpt
