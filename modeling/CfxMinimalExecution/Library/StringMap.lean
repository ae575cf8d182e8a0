import CfxMinimalExecution.Library.Radix
import Mathlib.Data.List.Sort
import Std.Data.ExtTreeMap.Lemmas

/-!
# Ordered maps with string keys

A B-tree map is a finite map whose entries are read in ascending key order. It is modelled by
`Std.ExtTreeMap`; this module adds what maps with string keys need, the keys being compared
lexicographically: ranges, prefix scans, the block of keys under a prefix and re-keying.

## Main definitions

* `range m lo hi`: the entries with keys from `lo` up to and excluding `hi`
* `scanPrefix m p`: the entries from `p` on, as long as their keys extend `p`
* `mapKeys f m`: the entries of `m` under the keys `f k`

## Main results

* `range_eq_filter`, `scanPrefix_eq_filter`: both read exactly the keys that extend a prefix
* `sharedPrefix_eq_of_sorted`: the shared prefix of a sorted block is that of its endpoints
* `below_insert`, `below_erase`: a change of one key changes only the blocks of its prefixes
* `toList_mapKeys`, `mapKeys_insert`, `mapKeys_erase`: re-keying along a monotone function
-/

open Std (ExtTreeMap TransOrd LawfulEqOrd ReflCmp OrientedCmp TransCmp LawfulEqCmp Antisymm Irrefl)

/-! ## The lexicographic order and prefixes -/

namespace Lex

variable {α : Type*} [Ord α] [LawfulEqOrd α]

theorem isLE_of_isPrefix {p k : List α} (h : p <+: k) : (compare p k).isLE := by
  obtain ⟨r, rfl⟩ := h
  induction p with
  | nil => exact List.isLE_compare_nil_left
  | cons a p ih => simpa using ih

/-- An extension of `p` whose symbols lie below `u` lies below `p ++ [u]`. -/
theorem lt_of_isPrefix {p k : List α} {u : α} (h : p <+: k) (hu : ∀ x ∈ k, compare x u = .lt) :
    compare k (p ++ [u]) = .lt := by
  obtain ⟨r, rfl⟩ := h
  induction p with
  | nil =>
    cases r with
    | nil => rfl
    | cons x r => simp [hu x (by simp)]
  | cons a p ih =>
    simp only [List.cons_append, List.compare_cons_cons, ReflCmp.compare_self, Ordering.eq_then]
    exact ih fun x hx => hu x (List.mem_cons_of_mem a hx)

variable [TransOrd α]

/-- The strings with a given prefix are an interval: what lies between `p` and an extension of
`p` extends `p`. -/
theorem prefix_of_isLE_of_isLE {p k l : List α} (hpk : (compare p k).isLE)
    (hkl : (compare k l).isLE) (hpl : p <+: l) : p <+: k := by
  induction p generalizing k l with
  | nil => exact List.nil_prefix
  | cons a p ih =>
    obtain ⟨r, rfl⟩ := hpl
    cases k with
    | nil => simp at hpk
    | cons b k =>
      rw [List.cons_append, List.compare_cons_cons] at hkl
      rw [List.compare_cons_cons] at hpk
      have hab : (compare a b).isLE := by
        revert hpk; cases compare a b <;> simp
      have hba : (compare b a).isLE := by
        revert hkl; cases compare b a <;> simp
      have heq : compare a b = .eq := OrientedCmp.isLE_antisymm hab hba
      obtain rfl := LawfulEqCmp.compare_eq_iff_eq.mp heq
      simp only [ReflCmp.compare_self, Ordering.eq_then] at hpk hkl
      rw [List.cons_prefix_cons]
      exact ⟨rfl, ih hpk hkl (List.prefix_append p r)⟩

/-- Below the strings `p ++ [u]`, the strings from `p` on extend `p`. -/
theorem prefix_of_between {p k : List α} {u : α} (hpk : (compare p k).isLE)
    (hku : compare k (p ++ [u]) = .lt) : p <+: k :=
  prefix_of_isLE_of_isLE hpk (by simp [hku]) (List.prefix_append p [u])

end Lex

/-! ## Sorted lists -/

namespace SortedList

/-- Where an element satisfying `P` is preceded only by elements satisfying `P`, taking while `P`
is filtering by `P`. -/
theorem takeWhile_eq_filter {ε : Type*} {P : ε → Bool} {l : List ε}
    (h : l.Pairwise fun a b => P b → P a) : l.takeWhile P = l.filter P := by
  induction l with
  | nil => rfl
  | cons a l ih =>
    obtain ⟨ha, hl⟩ := List.pairwise_cons.mp h
    by_cases hP : P a
    · rw [List.takeWhile_cons_of_pos hP, List.filter_cons_of_pos hP, ih hl]
    · have hnone : l.filter P = [] := List.filter_eq_nil_iff.mpr fun b hb hb' => hP (ha b hb hb')
      rw [List.takeWhile_cons_of_neg hP, List.filter_cons_of_neg hP, hnone]

/-- Where the elements satisfying `P` come first, dropping while `P` is filtering by `¬ P`. -/
theorem dropWhile_eq_filter {ε : Type*} {P : ε → Bool} {l : List ε}
    (h : l.Pairwise fun a b => P b → P a) : l.dropWhile P = l.filter fun a => !P a := by
  induction l with
  | nil => rfl
  | cons a l ih =>
    obtain ⟨ha, hl⟩ := List.pairwise_cons.mp h
    by_cases hP : P a
    · rw [List.dropWhile_cons_of_pos hP, List.filter_cons_of_neg (by simp [hP]), ih hl]
    · have hall : l.filter (fun a => !P a) = l := by
        refine List.filter_eq_self.mpr fun b hb => ?_
        simpa using fun hb' => hP (ha b hb hb')
      rw [List.dropWhile_cons_of_neg hP, List.filter_cons_of_pos (by simp [hP]), hall]

variable {α β : Type*} [Ord α]

/-- Entries in strictly ascending key order. -/
def Sorted (S : Radix.Entries α β) : Prop := S.Pairwise fun a b => compare a.1 b.1 = .lt

theorem Sorted.filter {S : Radix.Entries α β} (h : Sorted S) (P : List α × β → Bool) :
    Sorted (S.filter P) :=
  List.Pairwise.filter P h

variable [LawfulEqOrd α]

theorem Sorted.nodup_keys {S : Radix.Entries α β} (h : Sorted S) : (S.map Prod.fst).Nodup := by
  rw [List.Nodup, List.pairwise_map]
  refine h.imp fun {a b} hab heq => ?_
  simp [heq] at hab

variable [TransOrd α]

/-- Sorted lists with the same entries are equal. -/
theorem Sorted.ext {S T : Radix.Entries α β} (hS : Sorted S) (hT : Sorted T)
    (h : ∀ e, e ∈ S ↔ e ∈ T) : S = T := by
  have : Irrefl fun a b : List α × β => compare a.1 b.1 = .lt := ⟨fun a => by simp⟩
  have : Antisymm fun a b : List α × β => compare a.1 b.1 = .lt :=
    ⟨fun a b hab hba => by
      rw [@OrientedCmp.eq_swap _ compare, hba] at hab
      cases hab⟩
  exact List.Pairwise.eq_of_mem_iff hS hT h

variable [DecidableEq α]

/-- The shared prefix of a sorted block is the common prefix of its first and its last key. -/
theorem sharedPrefix_eq_of_sorted {S : Radix.Entries α β} (h : Sorted S) (hne : S ≠ []) :
    Radix.sharedPrefix S = Radix.commonPrefix (S.head hne).1 (S.getLast hne).1 := by
  have hiff : ∀ p, p <+: Radix.sharedPrefix S ↔
      p <+: Radix.commonPrefix (S.head hne).1 (S.getLast hne).1 := by
    intro p
    rw [Radix.prefix_sharedPrefix_iff hne, Radix.prefix_commonPrefix_iff]
    refine ⟨fun hp => ⟨hp _ (S.head_mem hne), hp _ (S.getLast_mem hne)⟩, fun hp e he => ?_⟩
    -- the keys between the endpoints extend what both endpoints extend
    have hfirst : (compare (S.head hne).1 e.1).isLE := by
      rcases List.mem_iff_getElem.mp he with ⟨i, hi, rfl⟩
      rw [List.head_eq_getElem]
      rcases Nat.eq_zero_or_pos i with rfl | hpos
      · simp
      · simp [List.pairwise_iff_getElem.mp h 0 i _ hi hpos]
    have hlast : (compare e.1 (S.getLast hne).1).isLE := by
      rcases List.mem_iff_getElem.mp he with ⟨i, hi, rfl⟩
      rw [List.getLast_eq_getElem]
      rcases Nat.lt_or_ge i (S.length - 1) with hlt | hge
      · simp [List.pairwise_iff_getElem.mp h i (S.length - 1) hi (by omega) hlt]
      · obtain rfl : i = S.length - 1 := by omega
        simp
    exact Lex.prefix_of_isLE_of_isLE
      (TransCmp.isLE_trans (Lex.isLE_of_isPrefix hp.1) hfirst) hlast hp.2
  have h₁ := (hiff _).mp (List.prefix_refl _)
  have h₂ := (hiff _).mpr (List.prefix_refl _)
  exact h₁.eq_of_length (Nat.le_antisymm h₁.length_le h₂.length_le)

end SortedList

/-! ## Lookups after a change -/

section Lookup

variable {κ β : Type*} [Ord κ] [TransOrd κ] [LawfulEqOrd κ] [DecidableEq κ]

theorem getElem?_insert_eq (m : ExtTreeMap κ β) (k a : κ) (v : β) :
    (m.insert k v)[a]? = if k = a then some v else m[a]? := by
  rw [ExtTreeMap.getElem?_insert]
  exact if_congr Std.compare_eq_iff_eq rfl rfl

theorem getElem?_erase_eq (m : ExtTreeMap κ β) (k a : κ) :
    (m.erase k)[a]? = if k = a then none else m[a]? := by
  rw [ExtTreeMap.getElem?_erase]
  exact if_congr Std.compare_eq_iff_eq rfl rfl

end Lookup

/-! ## Re-keying -/

section MapKeys

variable {κ κ' β γ : Type*} [Ord κ] [Ord κ'] [TransOrd κ] [TransOrd κ'] [LawfulEqOrd κ]
  [LawfulEqOrd κ']

theorem getElem?_ofList_eq_none {l : List (κ × β)} {k : κ} (h : ∀ e ∈ l, e.1 ≠ k) :
    (ExtTreeMap.ofList l)[k]? = none := by
  classical
  refine ExtTreeMap.getElem?_ofList_of_contains_eq_false ?_
  rw [List.contains_eq_mem, decide_eq_false_iff_not, List.mem_map]
  rintro ⟨e, he, rfl⟩
  exact h e he rfl

/-- The entries of `m` under the keys `f k`. -/
def mapKeys (f : κ → κ') (m : ExtTreeMap κ β) : ExtTreeMap κ' β :=
  ExtTreeMap.ofList (m.toList.map fun e => (f e.1, e.2))

variable {f : κ → κ'}

/-- A re-keyed map has no other keys than the images. -/
theorem getElem?_mapKeys_eq_none {k' : κ'} (m : ExtTreeMap κ β) (h : ∀ k ∈ m, f k ≠ k') :
    (mapKeys f m)[k']? = none := by
  refine getElem?_ofList_eq_none fun e he => ?_
  obtain ⟨⟨k, v⟩, hmem, rfl⟩ := List.mem_map.mp he
  have hk := ExtTreeMap.mem_toList_iff_getElem?_eq_some.mp hmem
  exact h k (ExtTreeMap.mem_iff_isSome_getElem?.mpr (by simp [hk]))

theorem getElem?_mapKeys (hf : Function.Injective f) (m : ExtTreeMap κ β) (k : κ) :
    (mapKeys f m)[f k]? = m[k]? := by
  cases hk : m[k]? with
  | some v =>
    have hmem : (k, v) ∈ m.toList := ExtTreeMap.mem_toList_iff_getElem?_eq_some.mpr hk
    refine ExtTreeMap.getElem?_ofList_of_mem ReflCmp.compare_self ?_
      (List.mem_map.mpr ⟨_, hmem, rfl⟩)
    rw [List.pairwise_map]
    refine ExtTreeMap.distinct_keys_toList.imp fun {a b} hab heq => hab ?_
    rw [LawfulEqCmp.compare_eq_iff_eq] at heq ⊢
    exact hf heq
  | none =>
    refine getElem?_mapKeys_eq_none m fun l hl heq => ?_
    rw [hf heq, ExtTreeMap.mem_iff_isSome_getElem?, hk] at hl
    cases hl

/-- A key of a re-keyed map is the image of a key with the same value. -/
theorem getElem?_mapKeys_eq_some_iff (hf : Function.Injective f) {m : ExtTreeMap κ β} {k' : κ'}
    {v : β} : (mapKeys f m)[k']? = some v ↔ ∃ k, f k = k' ∧ m[k]? = some v := by
  constructor
  · intro h
    by_contra hnot
    push Not at hnot
    rw [getElem?_mapKeys_eq_none m] at h
    · cases h
    · intro k hk heq
      have hv := getElem?_mapKeys hf m k
      rw [heq, h] at hv
      exact hnot k heq hv.symm
  · rintro ⟨k, rfl, h⟩
    rw [getElem?_mapKeys hf, h]

theorem ext_mapKeys (hf : Function.Injective f) {m : ExtTreeMap κ β} {m' : ExtTreeMap κ' β}
    (h : ∀ k' v, m'[k']? = some v ↔ ∃ k, f k = k' ∧ m[k]? = some v) : m' = mapKeys f m := by
  refine ExtTreeMap.ext_getElem? fun k' => ?_
  refine Option.ext fun v => ?_
  rw [h, getElem?_mapKeys_eq_some_iff hf]

theorem mapKeys_insert (hf : Function.Injective f) (m : ExtTreeMap κ β) (k : κ) (v : β) :
    mapKeys f (m.insert k v) = (mapKeys f m).insert (f k) v := by
  refine (ext_mapKeys hf fun k' w => ?_).symm
  classical
  simp only [getElem?_insert_eq]
  by_cases hk : f k = k'
  · subst hk
    rw [if_pos rfl]
    constructor
    · intro h
      exact ⟨k, rfl, by rwa [if_pos rfl]⟩
    · rintro ⟨l, hl, h⟩
      rwa [if_pos (hf hl).symm] at h
  · rw [if_neg hk, getElem?_mapKeys_eq_some_iff hf]
    refine exists_congr fun l => and_congr_right fun hl => ?_
    have hkl : k ≠ l := fun hkl => hk (hkl.symm ▸ hl)
    rw [if_neg hkl]

theorem mapKeys_erase (hf : Function.Injective f) (m : ExtTreeMap κ β) (k : κ) :
    mapKeys f (m.erase k) = (mapKeys f m).erase (f k) := by
  refine (ext_mapKeys hf fun k' w => ?_).symm
  classical
  simp only [getElem?_erase_eq]
  by_cases hk : f k = k'
  · subst hk
    rw [if_pos rfl]
    constructor
    · intro h
      cases h
    · rintro ⟨l, hl, h⟩
      rw [if_pos (hf hl).symm] at h
      cases h
  · rw [if_neg hk, getElem?_mapKeys_eq_some_iff hf]
    refine exists_congr fun l => and_congr_right fun hl => ?_
    have hkl : k ≠ l := fun hkl => hk (hkl.symm ▸ hl)
    rw [if_neg hkl]

omit [TransOrd κ'] [LawfulEqOrd κ] [LawfulEqOrd κ'] in
@[simp] theorem mapKeys_empty : mapKeys f (∅ : ExtTreeMap κ β) = ∅ := rfl

omit [TransOrd κ'] [LawfulEqOrd κ'] in
/-- A map is made of its entries. -/
theorem ofList_toList (m : ExtTreeMap κ β) : ExtTreeMap.ofList m.toList = m := by
  refine ExtTreeMap.ext_getElem? fun k => ?_
  have hid := getElem?_mapKeys Function.injective_id m k
  rwa [mapKeys, show (fun e : κ × β => (id e.1, e.2)) = id from rfl, List.map_id] at hid

end MapKeys

/-! ## Maps with string keys -/

namespace StringMap

variable {α β : Type*} [Ord α] [TransOrd α]

open SortedList Radix

theorem sorted_toList (m : ExtTreeMap (List α) β) : Sorted m.toList :=
  ExtTreeMap.ordered_keys_toList

/-- The entries with keys from `lo` up to and excluding `hi`, in ascending key order. -/
def range (m : ExtTreeMap (List α) β) (lo hi : List α) : Entries α β :=
  m.toList.filter fun e => (compare lo e.1).isLE && (compare e.1 hi).isLT

/-- The entries from `p` on, in ascending key order, as long as their keys extend `p`. -/
def scanPrefix [DecidableEq α] (m : ExtTreeMap (List α) β) (p : List α) : Entries α β :=
  (m.toList.filter fun e => (compare p e.1).isLE).takeWhile fun e => p <+: e.1

variable [LawfulEqOrd α]

theorem mem_toList {m : ExtTreeMap (List α) β} {k : List α} {v : β} :
    (k, v) ∈ m.toList ↔ m[k]? = some v :=
  ExtTreeMap.mem_toList_iff_getElem?_eq_some

variable [DecidableEq α]

@[simp] theorem valueAt_toList (m : ExtTreeMap (List α) β) (k : List α) :
    valueAt m.toList k = m[k]? := by
  refine Option.ext fun v => ?_
  rw [valueAt_eq_some_iff (sorted_toList m).nodup_keys, mem_toList]

/-- The range up to a symbol above all others is the block under the prefix. -/
theorem range_eq_filter {m : ExtTreeMap (List α) β} {u : α}
    (hu : ∀ k ∈ m, ∀ x ∈ k, compare x u = .lt) (p : List α) :
    range m p (p ++ [u]) = m.toList.filter fun e => p <+: e.1 := by
  refine List.filter_congr fun e he => ?_
  have hmem : e.1 ∈ m := ExtTreeMap.mem_iff_isSome_getElem?.mpr (by simp [mem_toList.mp he])
  rw [Bool.eq_iff_iff, Bool.and_eq_true, decide_eq_true_iff, Ordering.isLT_iff_eq_lt]
  constructor
  · rintro ⟨hle, hlt⟩
    exact Lex.prefix_of_between hle hlt
  · intro h
    exact ⟨Lex.isLE_of_isPrefix h, Lex.lt_of_isPrefix h (hu e.1 hmem)⟩

/-- A prefix scan reads the block under the prefix. -/
theorem scanPrefix_eq_filter (m : ExtTreeMap (List α) β) (p : List α) :
    scanPrefix m p = m.toList.filter fun e => p <+: e.1 := by
  rw [scanPrefix, takeWhile_eq_filter, List.filter_filter]
  · refine List.filter_congr fun e _ => ?_
    by_cases h : p <+: e.1
    · simp [h, Lex.isLE_of_isPrefix h]
    · simp [h]
  · refine List.pairwise_filter.mpr ((sorted_toList m).imp fun {a b} hab ha _ hb => ?_)
    rw [decide_eq_true_iff] at hb ⊢
    exact Lex.prefix_of_isLE_of_isLE ha (by simp [hab]) hb

/-- Maps that agree on the extensions of `p` have the same block under `p`. -/
theorem below_congr {m m' : ExtTreeMap (List α) β} {p : List α}
    (h : ∀ k, p <+: k → m[k]? = m'[k]?) : below p m.toList = below p m'.toList := by
  have hfilter : (m.filter fun k _ => p <+: k) = m'.filter fun k _ => p <+: k := by
    refine ExtTreeMap.ext_getElem? fun k => ?_
    rw [ExtTreeMap.getElem?_filter', ExtTreeMap.getElem?_filter']
    by_cases hk : p <+: k
    · rw [h k hk]
    · simp [hk]
  rw [← below_filter_isPrefix, ← below_filter_isPrefix p m'.toList]
  have hlist := congrArg ExtTreeMap.toList hfilter
  rw [ExtTreeMap.toList_filter, ExtTreeMap.toList_filter] at hlist
  rw [hlist]

/-- Inserting a key leaves the blocks of its non-prefixes unchanged. -/
theorem below_insert {m : ExtTreeMap (List α) β} {p k : List α} (h : ¬ p <+: k) (v : β) :
    below p (m.insert k v).toList = below p m.toList := by
  refine below_congr fun l hl => ?_
  rw [getElem?_insert_eq, if_neg]
  rintro rfl
  exact h hl

/-- Erasing a key leaves the blocks of its non-prefixes unchanged. -/
theorem below_erase {m : ExtTreeMap (List α) β} {p k : List α} (h : ¬ p <+: k) :
    below p (m.erase k).toList = below p m.toList := by
  refine below_congr fun l hl => ?_
  rw [getElem?_erase_eq, if_neg]
  rintro rfl
  exact h hl

omit [DecidableEq α] in
/-- Re-keying along a strictly monotone function keeps the order of the entries. -/
theorem toList_mapKeys {f : List α → List α}
    (hf : ∀ k l, compare k l = .lt → compare (f k) (f l) = .lt) (m : ExtTreeMap (List α) β) :
    (mapKeys f m).toList = m.toList.map fun e => (f e.1, e.2) := by
  have hinj : Function.Injective f := by
    intro k l hkl
    rcases hc : compare k l with _ | _ | _
    · simpa [hkl] using hf k l hc
    · exact Std.compare_eq_iff_eq.mp hc
    · have hlk : compare l k = .lt := by rw [@OrientedCmp.eq_swap _ compare, hc]; rfl
      simpa [hkl] using hf l k hlk
  refine Sorted.ext (sorted_toList _) ?_ ?_
  · exact List.pairwise_map.mpr ((sorted_toList m).imp fun {a b} hab => hf _ _ hab)
  · rintro ⟨k', v⟩
    rw [mem_toList, getElem?_mapKeys_eq_some_iff hinj, List.mem_map]
    constructor
    · rintro ⟨k, rfl, h⟩
      exact ⟨(k, v), mem_toList.mpr h, rfl⟩
    · rintro ⟨⟨k, w⟩, hmem, h⟩
      obtain ⟨rfl, rfl⟩ := Prod.mk.inj h
      exact ⟨k, rfl, mem_toList.mp hmem⟩

end StringMap
