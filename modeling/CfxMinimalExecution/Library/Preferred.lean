import Mathlib.Data.List.Basic
import Mathlib.Data.List.Induction

/-!
# The last preferred member of a list

What is kept by a loop that replaces what it has, unless that is preferred and the next one is not.

## Main definitions

* `List.lastPreferred`: the last preferred member, or the last one where none is preferred

## Main results

* `List.lastPreferred_concat`: one round of the loop
* `List.lastPreferred_eq_of_forall_eq`: the only candidate is kept, wherever it stands
-/

namespace List

variable {α : Type} {preferred : α → Bool}

/-- The last preferred member of a list, or its last where none is preferred. -/
def lastPreferred (preferred : α → Bool) (l : List α) : Option α :=
  (l.filter preferred).getLast?.or l.getLast?

@[simp] theorem lastPreferred_nil : lastPreferred preferred [] = none := rfl

/-- **What is kept.** -/
theorem lastPreferred_eq_some {l : List α} {a : α} (h : l.lastPreferred preferred = some a) :
    a ∈ l ∧ (preferred a ∨ ∀ b ∈ l, ¬ preferred b) := by
  unfold lastPreferred at h
  cases hlast : (l.filter preferred).getLast? with
  | some b =>
    rw [hlast, Option.some_or] at h
    obtain rfl := Option.some.inj h
    obtain ⟨hmem, hpreferred⟩ := mem_filter.mp (mem_of_getLast? hlast)
    exact ⟨hmem, .inl hpreferred⟩
  | none =>
    rw [hlast, Option.none_or] at h
    refine ⟨mem_of_getLast? h, .inr ?_⟩
    simpa using getLast?_eq_none_iff.mp hlast

theorem exists_lastPreferred {l : List α} (h : l ≠ []) : ∃ a, l.lastPreferred preferred = some a := by
  obtain ⟨b, hb⟩ := Option.isSome_iff_exists.mp (getLast?_isSome.mpr h)
  unfold lastPreferred
  cases (l.filter preferred).getLast? with
  | some a => exact ⟨a, rfl⟩
  | none => exact ⟨b, hb⟩

/-- **One round**: the next member replaces what is kept, unless only the latter is preferred. -/
theorem lastPreferred_concat (l : List α) (a : α) : (l ++ [a]).lastPreferred preferred =
    if preferred a ∨ ¬ (l.lastPreferred preferred).any preferred then some a
    else l.lastPreferred preferred := by
  cases ha : preferred a with
  | true => simp [lastPreferred, ha]
  | false =>
    have hfilter : (l ++ [a]).filter preferred = l.filter preferred := by simp [ha]
    unfold lastPreferred
    rw [hfilter, getLast?_concat]
    cases hlast : (l.filter preferred).getLast? with
    | some b =>
      have hb : preferred b := (mem_filter.mp (mem_of_getLast? hlast)).2
      simp [hb]
    | none =>
      -- Nothing is preferred, so that the last member of the list is not either.
      have hnone : ∀ b ∈ l, preferred b = false := by
        simpa using getLast?_eq_none_iff.mp hlast
      have hany : l.getLast?.any preferred = false := by
        cases hl : l.getLast? with
        | none => rfl
        | some b => exact hnone b (mem_of_getLast? hl)
      simp [hany]

/-- **The only candidate**: where all others are not preferred and it is, or where there is no
other, it is kept wherever it stands. -/
theorem lastPreferred_eq_of_forall_eq {l : List α} {a : α} (hmem : a ∈ l)
    (hother : ∀ b ∈ l, b ≠ a → preferred a ∧ ¬ preferred b) :
    l.lastPreferred preferred = some a := by
  obtain ⟨b, hb⟩ : ∃ b, l.lastPreferred preferred = some b :=
    exists_lastPreferred (ne_nil_of_mem hmem)
  obtain ⟨hbmem, hkept⟩ := lastPreferred_eq_some hb
  by_cases heq : b = a
  · rwa [heq] at hb
  · obtain ⟨ha, hnot⟩ := hother b hbmem heq
    rcases hkept with hb' | hnone
    · exact absurd hb' hnot
    · exact absurd ha (hnone a hmem)

/-- A member that comes last is kept, unless something else is preferred to it. -/
theorem lastPreferred_concat_self {l : List α} {a : α}
    (h : preferred a ∨ ∀ b ∈ l, ¬ preferred b) : (l ++ [a]).lastPreferred preferred = some a := by
  rw [lastPreferred_concat, if_pos]
  refine h.imp_right fun hnone hany => ?_
  obtain ⟨b, hb, hpreferred⟩ := (Option.any_eq_true _ _).mp hany
  exact hnone b (lastPreferred_eq_some hb).1 hpreferred

end List
