import Mathlib.Data.List.Sort

/-!
# Intervals of a sorted list

A log whose entries are sorted by a key is cut into half-open intervals, which tile.

## Main definitions

* `List.between key a b l`: the elements with a key from `a` up to `b`
* `List.SortedBy key l`: the keys do not decrease

## Main results

* `List.between_append`: intervals that meet are one interval
* `List.SortedBy.takeWhile_dropWhile`: an interval is found by a search for its start
* `List.SortedBy.flatMap_between`: the intervals between increasing bounds tile
-/

namespace List

variable {α κ : Type*} [LinearOrder κ] (key : α → κ)

/-- The elements with a key from `a` up to `b`. -/
def between (a b : κ) (l : List α) : List α := l.filter fun x => a ≤ key x ∧ key x < b

/-- The keys do not decrease. -/
def SortedBy (l : List α) : Prop := l.Pairwise fun x y => key x ≤ key y

variable {key}

@[simp] theorem between_nil (a b : κ) : between key a b [] = [] := rfl

/-- An interval without a key. -/
theorem between_eq_nil {a b : κ} (h : b ≤ a) (l : List α) : between key a b l = [] := by
  refine filter_eq_nil_iff.mpr fun x _ => ?_
  simp only [decide_eq_true_eq, not_and, not_lt]
  exact fun ha => h.trans ha

namespace SortedBy

variable {l : List α}

theorem tail {x : α} (h : SortedBy key (x :: l)) : SortedBy key l := (pairwise_cons.mp h).2

/-- The key of the first element is the least. -/
theorem head_le {x y : α} (h : SortedBy key (x :: l)) (hy : y ∈ x :: l) : key x ≤ key y := by
  rcases mem_cons.mp hy with rfl | hy
  · exact le_rfl
  · exact (pairwise_cons.mp h).1 y hy

/-- Below a bound, an interval is an initial part. -/
theorem between_eq_takeWhile (h : SortedBy key l) {a b : κ} (hle : ∀ x ∈ l, a ≤ key x) :
    between key a b l = l.takeWhile fun x => key x < b := by
  induction l with
  | nil => rfl
  | cons x l ih =>
    have hrest := ih h.tail fun y hy => hle y (mem_cons_of_mem x hy)
    unfold between at hrest ⊢
    by_cases hx : key x < b
    · rw [filter_cons_of_pos (by simp [hle x mem_cons_self, hx]), takeWhile_cons_of_pos (by simp [hx]),
        hrest]
    · rw [takeWhile_cons_of_neg (by simp [hx])]
      refine filter_eq_nil_iff.mpr fun y hy => ?_
      simp only [decide_eq_true_eq, not_and, not_lt]
      exact fun _ => (not_lt.mp hx).trans (h.head_le hy)

/-- **An interval is found by a search for its start**, and ends at the first key that is not below
its end. -/
theorem takeWhile_dropWhile (h : SortedBy key l) (a b : κ) :
    ((l.dropWhile fun x => key x < a).takeWhile fun x => key x < b) = between key a b l := by
  induction l with
  | nil => rfl
  | cons x l ih =>
    by_cases hx : key x < a
    · rw [dropWhile_cons_of_pos (by simp [hx]), ih h.tail]
      unfold between
      rw [filter_cons_of_neg (by simp [hx])]
    · rw [dropWhile_cons_of_neg (by simp [hx])]
      exact (between_eq_takeWhile h fun y hy => (not_lt.mp hx).trans (h.head_le hy)).symm

/-- **Intervals that meet are one interval.** -/
theorem between_append (h : SortedBy key l) {a b c : κ} (hab : a ≤ b) (hbc : b ≤ c) :
    between key a b l ++ between key b c l = between key a c l := by
  induction l with
  | nil => rfl
  | cons x l ih =>
    have hrest := ih h.tail
    by_cases hx : key x < b
    · -- the element is in the first interval, if it is in any
      have hleft : between key b c (x :: l) = between key b c l :=
        filter_cons_of_neg (by simp [hx])
      have hc : key x < c := hx.trans_le hbc
      rw [hleft]
      unfold between at hrest ⊢
      by_cases ha : a ≤ key x
      · rw [filter_cons_of_pos (by simp [ha, hx]), filter_cons_of_pos (by simp [ha, hc]), cons_append,
          hrest]
      · rw [filter_cons_of_neg (by simp [ha]), filter_cons_of_neg (by simp [ha]), hrest]
    · -- the first interval has ended
      have hnone : between key a b (x :: l) = [] := by
        refine filter_eq_nil_iff.mpr fun y hy => ?_
        simp only [decide_eq_true_eq, not_and, not_lt]
        exact fun _ => (not_lt.mp hx).trans (h.head_le hy)
      rw [hnone, nil_append]
      refine filter_congr fun y hy => ?_
      have hby := (not_lt.mp hx).trans (h.head_le hy)
      simp [hby, hab.trans hby]

/-- **The intervals between bounds that do not decrease tile.** -/
theorem flatMap_between (h : SortedBy key l) {bound : ℕ → κ} {n : ℕ}
    (hmono : ∀ i, i < n → bound i ≤ bound (i + 1)) :
    ((range n).flatMap fun i => between key (bound i) (bound (i + 1)) l) =
      between key (bound 0) (bound n) l := by
  induction n with
  | zero => exact (between_eq_nil le_rfl l).symm
  | succ n ih =>
    have hle : ∀ i, i ≤ n → bound 0 ≤ bound i := by
      intro i hi
      induction i with
      | zero => exact le_rfl
      | succ i ih => exact (ih (by omega)).trans (hmono i (by omega))
    rw [range_succ, flatMap_append, ih fun i hi => hmono i (by omega), flatMap_singleton]
    exact h.between_append (hle n le_rfl) (hmono n (by omega))

end SortedBy

end List
