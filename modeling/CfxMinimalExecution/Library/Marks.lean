import Mathlib.Data.List.GetD

/-!
# Elements changed in place

## Main definitions

* `mark P f l`: the list `l` with `f` applied at the positions of which `P` holds

## Main results

* `mark_append`, `mark_middle`: marks of a part are marks of the whole, moved by its offset
* `mark_set`: one more position
-/

namespace List

variable {α ι : Type}

/-- The list with `f` applied at the positions of which `P` holds. -/
def mark (P : ℕ → Prop) [DecidablePred P] (f : α → α) (l : List α) : List α :=
  l.mapIdx fun i a => if P i then f a else a

variable {P Q : ℕ → Prop} [DecidablePred P] [DecidablePred Q] {f : α → α}

@[simp] theorem length_mark (l : List α) : (mark P f l).length = l.length := by simp [mark]

@[simp] theorem getElem?_mark (l : List α) (i : ℕ) :
    (mark P f l)[i]? = l[i]?.map fun a => if P i then f a else a := by simp [mark]

theorem mark_congr {l : List α} (h : ∀ i < l.length, P i ↔ Q i) : mark P f l = mark Q f l := by
  refine ext_getElem? fun i => ?_
  rw [getElem?_mark, getElem?_mark]
  by_cases hi : i < l.length
  · simp only [h i hi]
  · rw [getElem?_eq_none (Nat.not_lt.mp hi)]
    rfl

theorem mark_eq_self {l : List α} (h : ∀ i < l.length, ¬ P i) : mark P f l = l := by
  refine ext_getElem? fun i => ?_
  rw [getElem?_mark]
  by_cases hi : i < l.length
  · simp [getElem?_eq_getElem hi, h i hi]
  · rw [getElem?_eq_none (Nat.not_lt.mp hi)]
    rfl

/-- Marks of a part are marks of the whole, moved by its offset. -/
theorem mark_append (l l' : List α) :
    mark P f (l ++ l') = mark P f l ++ mark (fun i => P (l.length + i)) f l' := by
  simp [mark, mapIdx_append, Nat.add_comm]

theorem take_mark (n : ℕ) (l : List α) : (mark P f l).take n = mark P f (l.take n) := by
  refine ext_getElem? fun i => ?_
  rw [getElem?_mark, getElem?_take, getElem?_take, getElem?_mark]
  split <;> rfl

theorem drop_mark (n : ℕ) (l : List α) :
    (mark P f l).drop n = mark (fun i => P (n + i)) f (l.drop n) := by
  refine ext_getElem? fun i => ?_
  rw [getElem?_mark, getElem?_drop, getElem?_drop, getElem?_mark]

/-- A part in the middle. -/
theorem mark_middle (pre post : List α) {l : List α}
    (h : ∀ i, P i → pre.length ≤ i ∧ i < pre.length + l.length) :
    mark P f (pre ++ l ++ post) = pre ++ mark (fun i => P (pre.length + i)) f l ++ post := by
  rw [mark_append, mark_append]
  congr 1
  · congr 1
    exact mark_eq_self fun i hi hP => absurd (h i hP).1 (Nat.not_le.mpr hi)
  · refine mark_eq_self fun i hi hP => ?_
    have hlt := (h _ hP).2
    rw [length_append] at hlt
    omega

theorem mark_cons (a : α) (l : List α) :
    mark P f (a :: l) = (if P 0 then f a else a) :: mark (fun i => P (i + 1)) f l := by
  simp [mark, mapIdx_cons]

/-- One more position, for an `f` that makes no further change. -/
theorem mark_set {l : List α} {i : ℕ} {a : α} (hf : ∀ a, f (f a) = f a) (ha : (mark P f l)[i]? = some a) :
    (mark P f l).set i (f a) = mark (fun j => P j ∨ j = i) f l := by
  refine ext_getElem? fun j => ?_
  rw [getElem?_mark] at ha ⊢
  obtain ⟨b, hb, rfl⟩ := Option.map_eq_some_iff.mp ha
  have hi : i < l.length := (getElem?_eq_some_iff.mp hb).1
  rw [getElem?_set]
  split
  case isTrue h =>
    subst h
    simp only [length_mark, hi, hb, Option.map_some, or_true, if_true]
    split
    · rw [hf]
    · rfl
  case isFalse h => simp [Ne.symm h]

end List
