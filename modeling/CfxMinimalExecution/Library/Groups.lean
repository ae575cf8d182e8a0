import Mathlib.Data.List.Forall2

/-!
# Lists cut after marked elements

## Main definitions

* `groups marked l`: the runs of `l` that end at a marked element, each as its members before that
  element and the element, and what follows the last of them
* `Grouped marked gs`: runs that end at a marked element and have no other

## Main results

* `ungroup_groups`: the runs make up the list
* `groups_ungroup`: the runs of a list of runs
* `groups_rel`: lists with the same marks are cut alike
-/

namespace List

variable {α β : Type}

def groups (marked : α → Bool) : List α → List (List α × α) × List α
  | [] => ([], [])
  | a :: l =>
    if marked a then (([], a) :: (groups marked l).1, (groups marked l).2)
    else match (groups marked l).1 with
      | [] => ([], a :: (groups marked l).2)
      | (members, last) :: gs => ((a :: members, last) :: gs, (groups marked l).2)

/-- The elements of runs, in order. -/
def ungroup (gs : List (List α × α)) : List α := gs.flatMap fun g => g.1 ++ [g.2]

@[simp] theorem ungroup_nil : ungroup ([] : List (List α × α)) = [] := rfl

@[simp] theorem ungroup_cons (g : List α × α) (gs : List (List α × α)) :
    ungroup (g :: gs) = g.1 ++ g.2 :: ungroup gs := by
  simp [ungroup]

/-- Every run ends at its only marked element. -/
def Grouped (marked : α → Bool) (gs : List (List α × α)) : Prop :=
  ∀ g ∈ gs, marked g.2 ∧ ∀ a ∈ g.1, ¬ marked a

/-- The runs make up the list. -/
theorem ungroup_groups (marked : α → Bool) (l : List α) :
    ungroup (groups marked l).1 ++ (groups marked l).2 = l := by
  induction l with
  | nil => rfl
  | cons a l ih =>
    rw [groups]
    split
    case isTrue => simpa using ih
    case isFalse =>
      rcases hgs : (groups marked l).1 with _ | ⟨⟨members, last⟩, gs⟩
      · simpa [hgs] using ih
      · simpa [hgs] using ih

/-- A run before a list. -/
theorem groups_append_cons {marked : α → Bool} {members : List α} {last : α} (l : List α)
    (hlast : marked last) (hmembers : ∀ a ∈ members, ¬ marked a) :
    groups marked (members ++ last :: l) =
      ((members, last) :: (groups marked l).1, (groups marked l).2) := by
  induction members with
  | nil => simp [groups, hlast]
  | cons a members ih =>
    have ha := hmembers a mem_cons_self
    rw [cons_append, groups, ih fun b hb => hmembers b (mem_cons_of_mem _ hb)]
    simp [ha]

/-- **The runs of a list of runs.** -/
theorem groups_ungroup {marked : α → Bool} {gs : List (List α × α)} (h : Grouped marked gs) :
    groups marked (ungroup gs) = (gs, []) := by
  induction gs with
  | nil => rfl
  | cons g gs ih =>
    obtain ⟨hlast, hmembers⟩ := h g mem_cons_self
    rw [ungroup_cons, groups_append_cons _ hlast hmembers,
      ih fun g' hg' => h g' (mem_cons_of_mem _ hg')]

/-- Cutting commutes with a map that keeps the marks. -/
theorem groups_map {marked : α → Bool} {marked' : β → Bool} {f : α → β}
    (h : ∀ a, marked' (f a) = marked a) (l : List α) :
    groups marked' (l.map f) =
      ((groups marked l).1.map fun g => (g.1.map f, f g.2), (groups marked l).2.map f) := by
  induction l with
  | nil => rfl
  | cons a l ih =>
    rw [map_cons, groups, groups, ih, h]
    split
    case isTrue => rfl
    case isFalse => rcases hgs : (groups marked l).1 with _ | ⟨⟨members, last⟩, gs⟩ <;> simp

/-- Lists with the same marks are cut alike. -/
theorem groups_rel {R : α → β → Prop} {marked : α → Bool} {marked' : β → Bool}
    (hmarks : ∀ a b, R a b → marked a = marked' b) {l : List α} {m : List β} (h : Forall₂ R l m) :
    Forall₂ (fun g g' => Forall₂ R g.1 g'.1 ∧ R g.2 g'.2) (groups marked l).1 (groups marked' m).1 ∧
      Forall₂ R (groups marked l).2 (groups marked' m).2 := by
  induction h with
  | nil => exact ⟨.nil, .nil⟩
  | @cons a b l m hr _ ih =>
    obtain ⟨hgroups, hrest⟩ := ih
    rw [groups, groups, hmarks a b hr]
    split
    case isTrue => exact ⟨.cons ⟨.nil, hr⟩ hgroups, hrest⟩
    case isFalse =>
      rcases hgs : (groups marked l).1 with _ | ⟨⟨members, last⟩, gs⟩
      · rw [hgs, forall₂_nil_left_iff] at hgroups
        rw [hgroups]
        exact ⟨.nil, .cons hr hrest⟩
      · rw [hgs] at hgroups
        obtain ⟨⟨members', last'⟩, gs', ⟨hmembers, hlast⟩, hgs', heq⟩ :=
          forall₂_cons_left_iff.mp hgroups
        rw [heq]
        exact ⟨.cons ⟨.cons hr hmembers, hlast⟩ hgs', hrest⟩

end List
