import Mathlib.Data.List.Forall2

/-!
# Lists related member by member

## Main results

* `Forall₂.exists_right`, `Forall₂.exists_left`: the partner of a member
* `Forall₂.exists_concat`, `Forall₂.exists_append`: the partners of a last member and of a last part
* `Forall₂.map_eq_map`: members that are mapped to the same value
* `forall₂_iff_eq_map`: members that have one partner each
-/

namespace List

variable {α β γ : Type} {R : α → β → Prop} {l : List α} {m : List β}

theorem Forall₂.exists_right (h : Forall₂ R l m) {a : α} (ha : a ∈ l) : ∃ b ∈ m, R a b := by
  induction h with
  | nil => cases ha
  | cons hr _ ih =>
    rcases mem_cons.mp ha with rfl | ha
    · exact ⟨_, mem_cons_self, hr⟩
    · obtain ⟨b, hb, hab⟩ := ih ha
      exact ⟨b, mem_cons_of_mem _ hb, hab⟩

theorem Forall₂.exists_left (h : Forall₂ R l m) {b : β} (hb : b ∈ m) : ∃ a ∈ l, R a b :=
  h.flip.exists_right hb

theorem Forall₂.exists_concat {a : α} (h : Forall₂ R (l ++ [a]) m) :
    ∃ m' b, m = m' ++ [b] ∧ Forall₂ R l m' ∧ R a b := by
  induction l generalizing m with
  | nil =>
    obtain ⟨b, m', hr, hrest, rfl⟩ := forall₂_cons_left_iff.mp h
    obtain rfl := forall₂_nil_left_iff.mp hrest
    exact ⟨[], b, rfl, .nil, hr⟩
  | cons a' l ih =>
    obtain ⟨b', rest, hr, hrest, rfl⟩ := forall₂_cons_left_iff.mp h
    obtain ⟨m', b, rfl, hm', hb⟩ := ih hrest
    exact ⟨b' :: m', b, rfl, .cons hr hm', hb⟩

theorem Forall₂.exists_append {l' : List α} (h : Forall₂ R (l ++ l') m) :
    ∃ m₁ m₂, m = m₁ ++ m₂ ∧ Forall₂ R l m₁ ∧ Forall₂ R l' m₂ := by
  induction l generalizing m with
  | nil => exact ⟨[], m, rfl, .nil, h⟩
  | cons a l ih =>
    obtain ⟨b, rest, hr, hrest, rfl⟩ := forall₂_cons_left_iff.mp h
    obtain ⟨m₁, m₂, rfl, hm₁, hm₂⟩ := ih hrest
    exact ⟨b :: m₁, m₂, rfl, .cons hr hm₁, hm₂⟩

theorem Forall₂.map_eq_map {f : α → γ} {g : β → γ} (h : Forall₂ R l m)
    (hmap : ∀ a b, R a b → f a = g b) : l.map f = m.map g := by
  induction h with
  | nil => rfl
  | cons hr _ ih => rw [map_cons, map_cons, hmap _ _ hr, ih]

theorem forall₂_iff_eq_map {g : α → β} (h : ∀ a ∈ l, ∀ b, R a b ↔ b = g a) :
    Forall₂ R l m ↔ m = l.map g := by
  induction l generalizing m with
  | nil => simp
  | cons a l ih =>
    obtain ⟨hfirst, hrest⟩ := forall_mem_cons.mp h
    simp only [forall₂_cons_left_iff, hfirst, ih hrest, map_cons]
    constructor
    · rintro ⟨_, _, rfl, rfl, rfl⟩
      rfl
    · rintro rfl
      exact ⟨_, _, rfl, rfl, rfl⟩

end List
