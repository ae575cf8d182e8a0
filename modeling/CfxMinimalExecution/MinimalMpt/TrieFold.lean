import CfxMinimalExecution.MinimalMpt.Nibbles
import Mathlib.Data.List.Find

/-!
# The walk is a fold over the radix trie

The entries of a trie node are a block: a non-empty sorted run of entries whose nibbles extend the
node's routing prefix. Partitioning a block by the nibble at the node's depth gives the blocks of
its children, so the walk over slices computes the fold of `trieNode` over the radix trie of the
entries. Neither the parallel threshold nor the fuel appears in the fold.

## Main definitions

* `Block`: the entries of a node
* `childBlock`: the entries of a child
* `trieNode`: the hash of a node from the hashes of its children
* `trieFold`: the fold of `trieNode` over a map with nibble keys

## Main results

* `childRanges_spec`: the child ranges are the children's blocks
* `merkleForNode_eq_fold`, `trieRootAt_eq_trieFold`: the walk is the fold
-/

open Std (ExtTreeMap)
open Radix SortedList

namespace MinimalMpt

/-! ## Blocks -/

/-- The entries of the node with routing prefix `rp`. -/
structure Block (rp : Bytes) (entries : List Entry) : Prop where
  sorted : Sorted entries
  ne_nil : entries ≠ []
  routed : ∀ e ∈ entries, rp <+: e.1

/-- The entries of the child `c` of a node that has consumed the nibbles `fullPrefix`. -/
def childBlock (fullPrefix : Bytes) (c : UInt8) (entries : List Entry) : List Entry :=
  entries.filter fun e => fullPrefix ++ [c] <+: e.1

theorem mem_childBlock {F : Bytes} {c : UInt8} {entries : List Entry} {e : Entry} :
    e ∈ childBlock F c entries ↔ e ∈ entries ∧ F ++ [c] <+: e.1 := by
  simp [childBlock]

theorem childBlock_append (F : Bytes) (c : UInt8) (l l' : List Entry) :
    childBlock F c (l ++ l') = childBlock F c l ++ childBlock F c l' :=
  List.filter_append ..

theorem childBlock_eq_nil {F : Bytes} {c : UInt8} {entries : List Entry}
    (h : ∀ e ∈ entries, ¬ F ++ [c] <+: e.1) : childBlock F c entries = [] :=
  List.filter_eq_nil_iff.mpr fun e he => by simpa using h e he

theorem Block.child {rp F : Bytes} {c : UInt8} {entries : List Entry} (hb : Block rp entries)
    (hne : childBlock F c entries ≠ []) : Block (F ++ [c]) (childBlock F c entries) where
  sorted := hb.sorted.filter _
  ne_nil := hne
  routed := fun _ he => (mem_childBlock.mp he).2

theorem below_childBlock (F : Bytes) (c : UInt8) (entries : List Entry) :
    below (F ++ [c]) (childBlock F c entries) = below (F ++ [c]) entries :=
  below_filter_isPrefix _ _

/-- A child has entries exactly when the trie's slot is occupied. -/
theorem childBlock_ne_nil_iff {F : Bytes} {c : UInt8} {entries : List Entry} :
    childBlock F c entries ≠ [] ↔ below (F ++ [c]) entries ≠ [] := by
  rw [below_ne_nil_iff]
  constructor
  · intro h
    obtain ⟨e, he⟩ := List.exists_mem_of_ne_nil _ h
    exact ⟨e, mem_childBlock.mp he⟩
  · rintro ⟨e, he⟩
    exact List.ne_nil_of_mem (mem_childBlock.mpr he)

/-- Two extensions of `F` by one symbol with a common extension have the same symbol. -/
theorem symbol_unique {F k : Bytes} {c c' : UInt8} (h : F ++ [c] <+: k) (h' : F ++ [c'] <+: k) :
    c = c' := by
  have heq := List.prefix_of_prefix_length_le h h' (by simp)
  simpa using heq.eq_of_length (by simp)

/-- The symbol after a prefix. -/
theorem append_singleton_isPrefix_iff {F k : Bytes} {c : UInt8} (h : F <+: k) :
    F ++ [c] <+: k ↔ k[F.length]? = some c := by
  obtain ⟨r, rfl⟩ := h
  rw [List.prefix_append_right_inj, List.getElem?_append_right (Nat.le_refl _), Nat.sub_self]
  cases r with
  | nil => simp
  | cons a r => simp [eq_comm]

theorem symbolAt_iff {F k : Bytes} {c : UInt8} (h : F <+: k) :
    (k.length > F.length ∧ k.getD F.length 0 = c) ↔ F ++ [c] <+: k := by
  rw [append_singleton_isPrefix_iff h, List.getD_eq_getElem?_getD]
  by_cases hlt : F.length < k.length
  · simp [hlt]
  · simp [hlt]

/-! ## Child ranges -/

/-- The entries after one with symbol `c` that have symbol `c` too come first. -/
theorem run_pairwise {F : Bytes} {c : UInt8} {e : Entry} {rest : List Entry}
    (hs : Sorted (e :: rest)) (he : F ++ [c] <+: e.1) :
    rest.Pairwise fun a b => F ++ [c] <+: b.1 → F ++ [c] <+: a.1 := by
  obtain ⟨hhead, hrest⟩ := List.pairwise_cons.mp hs
  refine List.Pairwise.imp_of_mem (fun {a b} ha _ hab hb => ?_) hrest
  have hlow : (compare (F ++ [c]) a.1).isLE :=
    Std.TransCmp.isLE_trans (Lex.isLE_of_isPrefix he) (by simp [hhead a ha])
  exact Lex.prefix_of_isLE_of_isLE hlow (by simp [hab]) hb

theorem slice_append_left {ε : Type*} (pre l l' : List ε) :
    slice (pre ++ (l ++ l')) pre.length (pre.length + l.length) = l := by
  simp [slice]

/-- An entry that ends at the node is skipped. -/
theorem childRangesFrom_skip {F : Bytes} {e : Entry} (h : e.1.length = F.length) (idx : ℕ)
    (rest : List Entry) :
    childRangesFrom F.length idx (e :: rest) = childRangesFrom F.length (idx + 1) rest := by
  rw [childRangesFrom, if_pos h]

/-- An entry with symbol `c` opens the range of the child `c`, which takes all its entries. -/
theorem childRangesFrom_run {F : Bytes} {c : UInt8} {e : Entry} {rest : List Entry}
    (hs : Sorted (e :: rest)) (hF : ∀ e ∈ rest, F <+: e.1) (he : F ++ [c] <+: e.1) (idx : ℕ) :
    ∃ others, rest = childBlock F c rest ++ others ∧ (∀ e ∈ others, ¬ F ++ [c] <+: e.1) ∧
      childRangesFrom F.length idx (e :: rest) =
        (c, idx, idx + 1 + (childBlock F c rest).length) ::
          childRangesFrom F.length (idx + 1 + (childBlock F c rest).length) others := by
  obtain ⟨hlonger, hc⟩ := (symbolAt_iff ((List.prefix_append F [c]).trans he)).mpr he
  -- on the entries after `e`, the loop's condition is that the key extends `F ++ [c]`
  have hcond : ∀ e ∈ rest, (decide (e.1.length > F.length) && e.1.getD F.length 0 == c) =
      decide (F ++ [c] <+: e.1) := fun e he => by
    rw [Bool.eq_iff_iff]
    simpa using symbolAt_iff (hF e he)
  -- the entries below `F ++ [c]` come first, so the run the loop takes is a filter
  have hpair : rest.Pairwise fun a b =>
      (decide (b.1.length > F.length) && b.1.getD F.length 0 == c) = true →
      (decide (a.1.length > F.length) && a.1.getD F.length 0 == c) = true :=
    List.Pairwise.imp_of_mem
      (fun {a b} ha hb hab => by
        rw [hcond a ha, hcond b hb, decide_eq_true_iff, decide_eq_true_iff]
        exact hab)
      (run_pairwise hs he)
  have hrun : (rest.takeWhile fun e => decide (e.1.length > F.length) &&
      e.1.getD F.length 0 == c) = childBlock F c rest := by
    rw [takeWhile_eq_filter hpair]
    exact List.filter_congr hcond
  have hothers := dropWhile_eq_filter hpair
  have hsplit := List.takeWhile_append_dropWhile
    (p := fun e : Entry => decide (e.1.length > F.length) && e.1.getD F.length 0 == c) (l := rest)
  rw [hrun] at hsplit
  refine ⟨_, hsplit.symm, ?_, ?_⟩
  · intro a ha
    rw [hothers, List.mem_filter] at ha
    rw [hcond a ha.1] at ha
    simpa using ha.2
  · rw [childRangesFrom, if_neg (Nat.ne_of_gt hlonger)]
    have hdrop := congrArg (List.drop (childBlock F c rest).length) hsplit
    rw [List.drop_left] at hdrop
    simp only [hc, hrun, hdrop]

/-- The ranges of a sorted list of extensions of `F` are the blocks of the symbols after `F`. -/
theorem childRangesFrom_spec {F : Bytes} (n : ℕ) : ∀ (l pre : List Entry), l.length ≤ n →
    Sorted l → (∀ e ∈ l, F <+: e.1) →
    (∀ c s t, (c, s, t) ∈ childRangesFrom F.length pre.length l →
      slice (pre ++ l) s t = childBlock F c l ∧ childBlock F c l ≠ []) ∧
    ∀ c, childBlock F c l ≠ [] → ∃ s t, (c, s, t) ∈ childRangesFrom F.length pre.length l := by
  -- induction on a bound of the length, as the loop drops a whole run at once
  induction n with
  | zero =>
    intro l pre hlen _ _
    obtain rfl := List.length_eq_zero_iff.mp (Nat.le_zero.mp hlen)
    simp [childRangesFrom, childBlock]
  | succ n ih =>
    intro l pre hlen hs hF
    cases l with
    | nil => simp [childRangesFrom, childBlock]
    | cons e rest =>
      have he : F <+: e.1 := hF _ List.mem_cons_self
      have hrestF : ∀ e ∈ rest, F <+: e.1 := fun e he => hF e (List.mem_cons_of_mem _ he)
      have hrest := (List.pairwise_cons.mp hs).2
      rw [List.length_cons, Nat.add_le_add_iff_right] at hlen
      by_cases hend : e.1.length = F.length
      · -- the entry belongs to no child
        have hskip : ∀ c, childBlock F c (e :: rest) = childBlock F c rest := by
          intro c
          refine List.filter_cons_of_neg ?_
          rw [decide_eq_true_iff]
          intro hc
          exact absurd hc.length_le (by simp [hend])
        have hrec := ih rest (pre ++ [e]) hlen hrest hrestF
        rw [childRangesFrom_skip hend]
        simpa only [List.append_assoc, List.singleton_append, List.length_append,
          List.length_cons, List.length_nil, Nat.zero_add, hskip] using hrec
      · obtain ⟨r, hr⟩ := he
        obtain ⟨c, r, rfl⟩ : ∃ c r', r = c :: r' := List.exists_cons_of_ne_nil (by
          rintro rfl
          exact hend (by rw [← hr, List.append_nil]))
        have hc : F ++ [c] <+: e.1 := ⟨r, by rw [← hr]; simp⟩
        obtain ⟨others, hsplit, hothers, hranges⟩ :=
          childRangesFrom_run hs hrestF hc pre.length
        have hblock : childBlock F c (e :: rest) = e :: childBlock F c rest :=
          List.filter_cons_of_pos (by simpa using hc)
        have hother : ∀ c', c' ≠ c → childBlock F c' (e :: rest) = childBlock F c' others := by
          intro c' hne
          have hnone : childBlock F c' (childBlock F c rest) = [] :=
            childBlock_eq_nil fun a ha hc' => hne (symbol_unique hc' (mem_childBlock.mp ha).2)
          have hhead : childBlock F c' [e] = [] :=
            childBlock_eq_nil fun a ha hc' => by
              rw [List.mem_singleton.mp ha] at hc'
              exact hne (symbol_unique hc' hc)
          calc childBlock F c' (e :: rest)
              = childBlock F c' ([e] ++ (childBlock F c rest ++ others)) := by rw [← hsplit]; rfl
            _ = childBlock F c' others := by
              rw [childBlock_append, childBlock_append, hhead, hnone, List.nil_append,
                List.nil_append]
        have hsub : others.Sublist rest := by
          rw [hsplit]
          exact List.sublist_append_right _ _
        -- the induction hypothesis is used after the run, with the run moved to the entries before
        obtain ⟨hsound, hcomplete⟩ := ih others (pre ++ e :: childBlock F c rest)
          (hsub.length_le.trans hlen) (hrest.sublist hsub)
          fun a ha => hrestF a (hsub.subset ha)
        have hidx : pre.length + 1 + (childBlock F c rest).length =
            (pre ++ e :: childBlock F c rest).length := by simp; omega
        have hlist : pre ++ e :: rest = (pre ++ e :: childBlock F c rest) ++ others := by
          conv_lhs => rw [hsplit]
          simp
        rw [hranges, hidx]
        constructor
        · intro c' s t hmem
          rcases List.mem_cons.mp hmem with heq | hmem
          · obtain ⟨rfl, rfl, rfl⟩ : c' = c ∧ s = _ ∧ t = _ := by simpa using heq
            rw [hlist, List.append_assoc, hblock]
            refine ⟨?_, by simp⟩
            simpa using slice_append_left pre (e :: childBlock F c' rest) others
          · obtain ⟨hslice, hne⟩ := hsound c' s t hmem
            have hne' : c' ≠ c := by
              rintro rfl
              exact hne (childBlock_eq_nil hothers)
            rw [hlist, hother c' hne']
            exact ⟨hslice, hne⟩
        · intro c' hne
          by_cases heq : c' = c
          · subst heq
            exact ⟨_, _, List.mem_cons_self⟩
          · rw [hother c' heq] at hne
            obtain ⟨s, t, hmem⟩ := hcomplete c' hne
            exact ⟨s, t, List.mem_cons_of_mem _ hmem⟩

/-- The child ranges of a node are the blocks of its children. -/
theorem childRanges_spec {F : Bytes} {entries : List Entry} (hs : Sorted entries)
    (hF : ∀ e ∈ entries, F <+: e.1) :
    (∀ c s t, (c, s, t) ∈ childRanges entries F.length →
      slice entries s t = childBlock F c entries ∧ childBlock F c entries ≠ []) ∧
    ∀ c, childBlock F c entries ≠ [] → ∃ s t, (c, s, t) ∈ childRanges entries F.length :=
  childRangesFrom_spec _ entries [] (Nat.le_refl _) hs hF

/-! ## The path, the value and the slots of a node -/

/-- Where `P` holds up to `n` and fails at `n`, taking while `P` takes `n` elements. -/
theorem length_takeWhile_eq {ε : Type*} {P : ε → Bool} {l : List ε} {n : ℕ} (hn : n ≤ l.length)
    (hall : ∀ i (h : i < l.length), i < n → P l[i]) (hstop : ∀ h : n < l.length, ¬ P l[n]) :
    (l.takeWhile P).length = n := by
  have htake : ∀ a ∈ l.take n, P a := by
    intro a ha
    obtain ⟨i, hi, rfl⟩ := List.mem_iff_getElem.mp ha
    rw [List.length_take] at hi
    rw [List.getElem_take]
    exact hall i (by omega) (by omega)
  have hdrop : (l.drop n).takeWhile P = [] := by
    rcases Nat.lt_or_ge n l.length with hlt | hge
    · rw [List.drop_eq_getElem_cons hlt, List.takeWhile_cons_of_neg (hstop hlt)]
    · rw [List.drop_eq_nil_of_le hge, List.takeWhile_nil]
  rw [← List.take_append_drop n l, List.takeWhile_append_of_pos htake, hdrop, List.append_nil,
    List.length_take, Nat.min_eq_left hn]

section Node

variable {rp : Bytes} {entries : List Entry}

theorem Block.below_ne_nil (hb : Block rp entries) : below rp entries ≠ [] := by
  rw [below_ne_nil_iff]
  obtain ⟨e, he⟩ := List.exists_mem_of_ne_nil _ hb.ne_nil
  exact ⟨e, he, hb.routed e he⟩

/-- Every key of a block extends the routing prefix and the path the node absorbs. -/
theorem Block.full (hb : Block rp entries) (d : ℕ) :
    ∀ e ∈ entries, rp ++ path d (below rp entries) <+: e.1 := by
  intro e he
  obtain ⟨k, hk⟩ := hb.routed e he
  have hmem : (k, e.2) ∈ below rp entries := mem_below.mpr (by rw [hk]; exact he)
  rw [← hk, List.prefix_append_right_inj]
  exact path_isPrefix hmem

/-- `common_prefix_len` of `trie.rs` measures the shared prefix of the stripped keys. -/
theorem Block.commonPrefixLen_eq (hb : Block rp entries) :
    commonPrefixLen entries rp.length = (sharedPrefix (below rp entries)).length := by
  -- the function compares with the first entry, which the block routes like the rest
  cases entries with
  | nil => exact absurd rfl hb.ne_nil
  | cons e rest =>
    obtain ⟨first, v⟩ := e
    obtain ⟨f, rfl⟩ := hb.routed _ List.mem_cons_self
    generalize hp : sharedPrefix (below rp ((rp ++ f, v) :: rest)) = p
    have hpf : p <+: f := by
      rw [← hp]
      exact sharedPrefix_isPrefix (mem_below.mpr List.mem_cons_self)
    have hshared : ∀ e ∈ rest, rp ++ p <+: e.1 := by
      intro e he
      obtain ⟨k, hk⟩ := hb.routed e (List.mem_cons_of_mem _ he)
      rw [← hk, List.prefix_append_right_inj, ← hp]
      exact sharedPrefix_isPrefix (mem_below.mpr (by rw [hk]; exact List.mem_cons_of_mem _ he))
    simp only [commonPrefixLen, List.length_append, Nat.le_add_right, if_true, List.drop_left]
    refine length_takeWhile_eq (by simpa using hpf.length_le) ?_ ?_
    · intro i hi hip
      rw [List.length_zipIdx] at hi
      simp only [List.getElem_zipIdx, List.all_eq_true, beq_iff_eq]
      intro e he
      obtain ⟨r, hr⟩ := hshared e he
      rw [← hr, List.append_assoc, List.getElem?_append_right (Nat.le_add_right _ _),
        Nat.add_sub_cancel_left, List.getElem?_append_left hip]
      have hfi := List.prefix_iff_getElem?.mp hpf i hip
      rw [List.getElem?_eq_getElem hi] at hfi
      rw [List.getElem?_eq_getElem hip, hfi]
    · intro hlt hall
      rw [List.length_zipIdx] at hlt
      simp only [List.getElem_zipIdx, List.all_eq_true, beq_iff_eq] at hall
      have hlong : p ++ [f[p.length]] <+: p := by
        conv_rhs => rw [← hp]
        rw [prefix_sharedPrefix_iff hb.below_ne_nil]
        rintro ⟨k, w⟩ hk
        rcases List.mem_cons.mp (mem_below.mp hk) with heq | hmem
        · obtain ⟨rfl, -⟩ : k = f ∧ w = v := by simpa using heq
          exact (append_singleton_isPrefix_iff hpf).mpr (List.getElem?_eq_getElem hlt)
        · have hpk := (List.prefix_append_right_inj rp).mp (hshared _ hmem)
          refine (append_singleton_isPrefix_iff hpk).mpr ?_
          rw [← hall _ hmem, List.getElem?_append_right (Nat.le_add_right _ _),
            Nat.add_sub_cancel_left]
      exact absurd hlong.length_le (by simp)

/-- The value at the node is that of the entry with the full prefix as its key. -/
theorem Block.valueAtDepth_eq (hb : Block rp entries) (d : ℕ) :
    valueAtDepth entries (rp ++ path d (below rp entries)).length =
      (valueAt (below rp entries) (path d (below rp entries))).map MptValue.merkleValue := by
  have hfind : (entries.find? fun e => e.1.length == (rp ++ path d (below rp entries)).length) =
      entries.find? fun e => e.1 = rp ++ path d (below rp entries) := by
    refine List.find?_congr fun e he => ?_
    have hfull := hb.full d e he
    rw [Bool.eq_iff_iff, beq_iff_eq, decide_eq_true_iff]
    constructor
    · intro hlen
      exact (hfull.eq_of_length hlen.symm).symm
    · intro heq
      rw [heq]
  rw [valueAtDepth, hfind, valueAt_below, valueAt, Option.map_map]
  rfl

/-- The nibbles of the first key between the node's two depths are the path. -/
theorem Block.slice_firstKey (hb : Block rp entries) (d : ℕ) :
    slice (firstKey entries) rp.length (rp ++ path d (below rp entries)).length =
      path d (below rp entries) := by
  cases entries with
  | nil => exact absurd rfl hb.ne_nil
  | cons e rest =>
    obtain ⟨r, hr⟩ := hb.full d e List.mem_cons_self
    rw [firstKey, ← hr, slice, List.append_assoc, List.drop_left, List.length_append,
      Nat.add_sub_cancel_left, List.take_left]

end Node

/-! ## The children of a node -/

/-- The child slots of a node with the given results. -/
def childVector (slots : UInt8 → Option H256) : Vector H256 16 :=
  Vector.ofFn fun i => (slots (UInt8.ofNat i)).getD merkleNullNode

theorem getElem_foldl_childSlots {slots : UInt8 → Option H256} {l : List (UInt8 × H256)}
    (h : ∀ c hash, (c, hash) ∈ l → slots c = some hash) (children : Vector H256 16) (i : ℕ)
    (hi : i < 16) :
    (l.foldl (fun children e => children.setIfInBounds e.1.toNat e.2) children)[i] =
      if UInt8.ofNat i ∈ l.map Prod.fst then (slots (UInt8.ofNat i)).getD merkleNullNode
      else children[i] := by
  induction l generalizing children with
  | nil => simp
  | cons e l ih =>
    obtain ⟨c, hash⟩ := e
    rw [List.foldl_cons, ih fun c' hash' hmem => h c' hash' (List.mem_cons_of_mem _ hmem),
      List.map_cons]
    by_cases hl : UInt8.ofNat i ∈ l.map Prod.fst
    · rw [if_pos hl, if_pos (List.mem_cons_of_mem _ hl)]
    · rw [if_neg hl, Vector.getElem_setIfInBounds hi]
      by_cases hc : c.toNat = i
      · obtain rfl : c = UInt8.ofNat i := by rw [← hc, UInt8.ofNat_toNat]
        rw [if_pos hc, if_pos List.mem_cons_self, h _ _ List.mem_cons_self]
        rfl
      · rw [if_neg hc, if_neg]
        rw [List.mem_cons, not_or]
        refine ⟨?_, hl⟩
        rintro rfl
        exact hc (UInt8.toNat_ofNat_of_lt' (hi.trans (by decide)))

/-- The child slots filled from the hashes of the occupied children. -/
theorem childSlots_eq {slots : UInt8 → Option H256} {l : List (UInt8 × H256)}
    (h : ∀ c hash, (c, hash) ∈ l ↔ slots c = some hash) : childSlots l = childVector slots := by
  refine Vector.ext fun i hi => ?_
  rw [childSlots, getElem_foldl_childSlots (fun c hash => (h c hash).mp) _ i hi, childVector,
    Vector.getElem_ofFn, Vector.getElem_replicate]
  split
  · rfl
  · next hnone =>
    cases hs : slots (UInt8.ofNat i) with
    | none => rfl
    | some hash => exact absurd (List.mem_map.mpr ⟨_, (h _ _).mpr hs, rfl⟩) hnone

/-- Slots filled range by range hold the results of the occupied children. -/
theorem childSlots_childRanges {F : Bytes} {entries : List Entry} (hs : Sorted entries)
    (hF : ∀ e ∈ entries, F <+: e.1) {hash : UInt8 → List Entry → H256}
    {slots : UInt8 → Option H256}
    (hocc : ∀ c, childBlock F c entries ≠ [] → slots c = some (hash c (childBlock F c entries)))
    (hempty : ∀ c, childBlock F c entries = [] → slots c = none) :
    childSlots ((childRanges entries F.length).map fun (c, s, t) => (c, hash c (slice entries s t)))
      = childVector slots := by
  obtain ⟨hsound, hcomplete⟩ := childRanges_spec hs hF
  refine childSlots_eq fun c h => ?_
  rw [List.mem_map]
  constructor
  · rintro ⟨⟨c, s, t⟩, hmem, heq⟩
    obtain ⟨rfl, rfl⟩ := Prod.mk.inj heq
    obtain ⟨hslice, hne⟩ := hsound c s t hmem
    rw [hocc c hne, hslice]
  · intro hslot
    have hne : childBlock F c entries ≠ [] := fun hnil => by simp [hempty c hnil] at hslot
    obtain ⟨s, t, hmem⟩ := hcomplete c hne
    refine ⟨(c, s, t), hmem, ?_⟩
    rw [hocc c hne] at hslot
    simp only [(hsound c s t hmem).1, Option.some.inj hslot]

/-- Without children the null slots are written, as with them. -/
theorem nodeBuffer_hasChildren (children : Vector H256 16) (maybeValue : Option Bytes) :
    nodeBuffer (if hasChildren children then some children else none) maybeValue =
      nodeBuffer (some children) maybeValue := by
  split
  · rfl
  · next hnone =>
    have hnull : children = Vector.replicate 16 merkleNullNode := by
      refine Vector.ext fun i hi => ?_
      rw [hasChildren, Bool.not_eq_true, List.any_eq_false] at hnone
      have hnull := hnone children[i] (by simp)
      rw [Vector.getElem_replicate]
      simpa using hnull
    rw [hnull]
    rfl

/-! ## The walk is the fold -/

section Fold

variable (keccak : Bytes → H256)

/-- The hash of the node at `depth` that absorbs `path`. -/
def trieNode (depth : ℕ) (path : Bytes) (slots : UInt8 → Option H256) (value : Option MptValue) :
    H256 :=
  computePathMerkle keccak path depth
    (computeNodeMerkle keccak (some (childVector slots)) (value.map MptValue.merkleValue))

theorem computeNodeMerkle_hasChildren (children : Vector H256 16) (maybeValue : Option Bytes) :
    computeNodeMerkle keccak (if hasChildren children then some children else none) maybeValue =
      computeNodeMerkle keccak (some children) maybeValue := by
  rw [computeNodeMerkle, nodeBuffer_hasChildren, computeNodeMerkle]

/-- The path length of a node as the code computes it: compression is off only at the root. -/
theorem Block.common_eq {rp : Bytes} {entries : List Entry} (hb : Block rp entries) :
    (if decide (rp.length ≠ 0) then commonPrefixLen entries rp.length else 0) =
      (path rp.length (below rp entries)).length := by
  by_cases hroot : rp.length = 0
  · simp [hroot]
  · rw [path_of_ne_zero hroot, hb.commonPrefixLen_eq]
    simp [hroot]

/-- The children's results of a node whose child walks compute the fold. -/
theorem Block.childSlots_eq {rp : Bytes} {entries : List Entry} (hb : Block rp entries)
    (hash : UInt8 → List Entry → H256)
    (hchild : ∀ c, childBlock (rp ++ path rp.length (below rp entries)) c entries ≠ [] →
      hash c (childBlock (rp ++ path rp.length (below rp entries)) c entries) =
        fold (trieNode keccak) (rp ++ path rp.length (below rp entries) ++ [c]).length
          (below (rp ++ path rp.length (below rp entries) ++ [c])
            (childBlock (rp ++ path rp.length (below rp entries)) c entries))) :
    childSlots ((childRanges entries (rp ++ path rp.length (below rp entries)).length).map
      fun (c, s, t) => (c, hash c (slice entries s t))) =
        childVector (slots (trieNode keccak) rp.length (below rp entries)) := by
  refine childSlots_childRanges hb.sorted (hb.full _) (fun c hne => ?_) fun c hnil => ?_
  · have hslot : slot rp.length (below rp entries) c ≠ [] := by
      rw [slot_below]
      exact childBlock_ne_nil_iff.mp hne
    rw [slots_of_ne_nil hslot, hchild c hne, slot_below, below_childBlock, List.length_append,
      List.length_append, List.length_singleton]
  · rw [slots_of_nil]
    rw [slot_below, ← below_childBlock, hnil, below_nil]

/-- **The walk is the fold**: at any threshold, parallel or not, with fuel for the longest key. -/
theorem merkleForNode_eq_fold (threshold fuel : ℕ) :
    ∀ {rp : Bytes} {entries : List Entry} (parallel : Bool), Block rp entries →
      (∀ e ∈ entries, e.1.length < rp.length + fuel) →
      merkleForNode keccak threshold fuel entries rp.length parallel (decide (rp.length ≠ 0)) =
        fold (trieNode keccak) rp.length (below rp entries) := by
  induction fuel with
  | zero =>
    intro rp entries _ hb hfuel
    obtain ⟨e, he⟩ := List.exists_mem_of_ne_nil _ hb.ne_nil
    have hlen := (hb.routed e he).length_le
    have hlt := hfuel e he
    omega
  | succ fuel ih =>
    intro rp entries parallel hb hfuel
    have hdepth : rp.length + (path rp.length (below rp entries)).length =
        (rp ++ path rp.length (below rp entries)).length := List.length_append.symm
    have hchildren (p : Bool) := hb.childSlots_eq keccak
      (fun _ block => merkleForNode keccak threshold fuel block
        ((rp ++ path rp.length (below rp entries)).length + 1) p true) fun c hne => by
      have hlen : (rp ++ path rp.length (below rp entries)).length + 1 =
          (rp ++ path rp.length (below rp entries) ++ [c]).length := by
        simp only [List.length_append, List.length_singleton]
      have hrec := ih p (hb.child hne) fun e he => by
        have := hfuel e (mem_childBlock.mp he).1
        simp only [List.length_append, List.length_singleton]
        omega
      rw [hlen, ← hrec]
      simp
    rw [merkleForNode]
    simp only [hb.common_eq, hdepth, hb.valueAtDepth_eq, hb.slice_firstKey]
    split
    · rw [hchildren true, computeNodeMerkle_hasChildren, fold_eq, trieNode]
    · rw [hchildren false, computeNodeMerkle_hasChildren, fold_eq, trieNode]

/-- The root of a sorted list of nibble entries. -/
def trieFold (entries : List Entry) : H256 :=
  if entries.isEmpty then merkleNullNode else fold (trieNode keccak) 0 entries

theorem rootForEntriesAt_eq_trieFold (threshold : ℕ) {entries : List Entry}
    (hs : Sorted entries) : rootForEntriesAt keccak threshold entries = trieFold keccak entries := by
  rw [rootForEntriesAt, trieFold]
  split
  · rfl
  · next hne =>
    have hb : Block [] entries := ⟨hs, by simpa using hne, fun _ _ => List.nil_prefix⟩
    have hfold := merkleForNode_eq_fold keccak threshold (walkFuel entries)
      (decide (entries.length ≥ threshold)) hb fun e he => by
        simpa using length_lt_walkFuel he
    simpa using hfold

/-- The root is the fold over the nibble-keyed image, at any threshold. -/
theorem trieRootAt_eq_trieFold (threshold : ℕ) (kv : ExtTreeMap Bytes MptValue) :
    trieRootAt keccak threshold kv = trieFold keccak (nibbleMap kv).toList := by
  have hentries : nibbleEntries kv = (nibbleMap kv).toList := (toList_nibbleMap kv).symm
  rw [trieRootAt, hentries]
  split
  · next hempty =>
    have hnil : kv.toList = [] := by
      rw [ExtTreeMap.isEmpty_iff.mp hempty]
      rfl
    rw [toList_nibbleMap, hnil]
    rfl
  · exact rootForEntriesAt_eq_trieFold keccak threshold (StringMap.sorted_toList _)

theorem trieRoot_eq_trieFold (kv : ExtTreeMap Bytes MptValue) :
    trieRoot keccak kv = trieFold keccak (nibbleMap kv).toList :=
  trieRootAt_eq_trieFold keccak _ kv

end Fold

end MinimalMpt
