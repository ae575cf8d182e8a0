import Mathlib.Data.List.Sort

/-!
# Rankings

A ranking of a list has every value of the list once, the more frequent ones first and, of equally
frequent ones, the one that occurs first.

## Main definitions

* `List.RanksBefore occurrences a b`: `a` is ranked before `b`
* `List.Ranks occurrences ranking`: the ranking of a list

## Main results

* `List.insertionSort_eq_of_perm`: sorting does not depend on the order of the list
* `List.Ranks.unique`: a list has one ranking
-/

namespace List

section Sorting

variable {α : Type} {r : α → α → Prop} [DecidableRel r] [Std.Total r] [IsTrans α r]

/-- **Sorting does not depend on the order of the list**, when its members are told apart. -/
theorem insertionSort_eq_of_perm {l l' : List α} (h : l.Perm l')
    (hanti : ∀ a ∈ l, ∀ b ∈ l, r a b → r b a → a = b) :
    l.insertionSort r = l'.insertionSort r := by
  have hperm : (l.insertionSort r).Perm (l'.insertionSort r) :=
    ((perm_insertionSort r l).trans h).trans (perm_insertionSort r l').symm
  refine hperm.eq_of_pairwise (fun a b ha hb => ?_) (pairwise_insertionSort r l)
    (pairwise_insertionSort r l')
  exact hanti a ((mem_insertionSort r).mp ha) b (h.mem_iff.mpr ((mem_insertionSort r).mp hb))

end Sorting

variable {α : Type} [DecidableEq α]

/-- More frequent, or as frequent and seen first. -/
def RanksBefore (occurrences : List α) (a b : α) : Prop :=
  occurrences.count b < occurrences.count a ∨
    (occurrences.count a = occurrences.count b ∧ occurrences.idxOf a < occurrences.idxOf b)

/-- The ranking of a list. -/
structure Ranks (occurrences ranking : List α) : Prop where
  mem : ∀ a, a ∈ ranking ↔ a ∈ occurrences
  nodup : ranking.Nodup
  ordered : ranking.Pairwise (RanksBefore occurrences)

theorem RanksBefore.asymm {occurrences : List α} {a b : α} (h : RanksBefore occurrences a b) :
    ¬ RanksBefore occurrences b a := by
  unfold RanksBefore at *
  omega

/-- **A list has one ranking.** -/
theorem Ranks.unique {occurrences ranking ranking' : List α} (h : Ranks occurrences ranking)
    (h' : Ranks occurrences ranking') : ranking = ranking' := by
  have hperm : ranking.Perm ranking' :=
    (perm_ext_iff_of_nodup h.nodup h'.nodup).mpr fun a => (h.mem a).trans (h'.mem a).symm
  exact hperm.eq_of_pairwise (fun a b _ _ hab hba => absurd hba hab.asymm) h.ordered h'.ordered

end List
