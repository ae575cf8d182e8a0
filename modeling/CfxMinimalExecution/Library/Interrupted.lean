import CfxMinimalExecution.Library.Fallible

/-!
# Methods that stop half-way

What a method has done when it fails, and what a loop has done when one of its rounds fails: the
rounds before it are done, and the rounds behind it are not.

## Main definitions

* `Fallible.Ends x s err P`: from `s`, the method fails as `err` says, and `P` holds of its last
  state
* `List.firstError`, `List.beforeError`: the first error of results, and the values before it
* `Fallible.zoom`: a method on a part of the state

## Main results

* `Ends.bind`, `Ends.foldlM`: the rules for sequences and for loops
-/

universe u

namespace Except

variable {ε α : Type u}

/-- The error of a result. -/
def failure : Except ε α → Option ε
  | .error e => some e
  | .ok _ => none

@[simp] theorem failure_ok (a : α) : (Except.ok a : Except ε α).failure = none := rfl

@[simp] theorem failure_error (e : ε) : (Except.error e : Except ε α).failure = some e := rfl

end Except

namespace List

variable {ε γ : Type u}

/-- The first error. -/
def firstError : List (Except ε γ) → Option ε
  | [] => none
  | .error e :: _ => some e
  | .ok _ :: results => firstError results

/-- The values before the first error. -/
def beforeError : List (Except ε γ) → List γ
  | [] => []
  | .error _ :: _ => []
  | .ok c :: results => c :: beforeError results

theorem firstError_append (results results' : List (Except ε γ)) :
    (results ++ results').firstError = results.firstError.or results'.firstError := by
  induction results with
  | nil => rfl
  | cons result results ih =>
    cases result with
    | error e => rfl
    | ok c => exact ih

theorem beforeError_append (results results' : List (Except ε γ)) :
    (results ++ results').beforeError =
      results.beforeError ++ if results.firstError = none then results'.beforeError else [] := by
  induction results with
  | nil => rfl
  | cons result results ih =>
    cases result with
    | error e => rfl
    | ok c => exact congrArg (c :: ·) ih

/-- Without an error, every value is one before it. -/
theorem mem_beforeError {results : List (Except ε γ)} {c : γ} (hnone : results.firstError = none)
    (h : .ok c ∈ results) : c ∈ results.beforeError := by
  induction results with
  | nil => cases h
  | cons result results ih =>
    cases result with
    | error e => cases hnone
    | ok c' =>
      rcases mem_cons.mp h with heq | hrest
      · rw [Except.ok.inj heq]
        exact mem_cons_self
      · exact mem_cons_of_mem _ (ih hnone hrest)

/-- A loop fails as its rounds do. -/
theorem failure_foldlM {β ι : Type u} {f : β → ι → Except ε β} {result : ι → Except ε γ}
    (h : ∀ b i, (f b i).failure = (result i).failure) (l : List ι) (b : β) :
    (l.foldlM f b).failure = (l.map result).firstError := by
  induction l generalizing b with
  | nil => rfl
  | cons i l ih =>
    rw [foldlM_cons, map_cons]
    have hround := h b i
    cases hresult : result i with
    | error e =>
      cases hf : f b i with
      | error e' =>
        rw [hresult, hf] at hround
        exact hround
      | ok b' =>
        rw [hresult, hf] at hround
        cases hround
    | ok c =>
      cases hf : f b i with
      | error e' =>
        rw [hresult, hf] at hround
        cases hround
      | ok b' => exact ih b'

end List

namespace Fallible

variable {ε σ τ α β γ ι : Type u}

/-- From `s`, the method fails as `err` says, and `P` holds of its last state. -/
def Ends (x : Fallible ε σ α) (s : σ) (err : Option ε) (P : σ → Prop) : Prop :=
  (exec x s).1.failure = err ∧ P (exec x s).2

namespace Ends

variable {s : σ} {err : Option ε} {P Q : σ → Prop}

theorem pure (a : α) (h : P s) : Ends (Pure.pure a : Fallible ε σ α) s none P := ⟨rfl, h⟩

theorem lift (r : Except ε α) (h : P s) : Ends (liftM r : Fallible ε σ α) s r.failure P := ⟨rfl, h⟩

theorem update {f : σ → σ} (h : P (f s)) : Ends (modify f : Fallible ε σ PUnit) s none P := ⟨rfl, h⟩

theorem read {f : σ → Fallible ε σ α} (h : Ends (f s) s err P) :
    Ends (getThe σ >>= f) s err P := by
  unfold Ends
  rw [exec_bind_ok (exec_get s)]
  exact h

/-- A method that has failed runs no further. -/
theorem bind_error {x : Fallible ε σ α} {f : α → Fallible ε σ β} {e : ε}
    (h : Ends x s (some e) P) : Ends (x >>= f) s (some e) P := by
  obtain ⟨hfail, hP⟩ := h
  rcases hx : exec x s with ⟨e' | a, s'⟩
  · rw [hx] at hfail hP
    obtain rfl := Option.some.inj hfail
    exact ⟨congrArg (Except.failure ·.1) (exec_bind_error hx), by rwa [exec_bind_error hx]⟩
  · rw [hx] at hfail
    cases hfail

theorem bind_ok {x : Fallible ε σ α} {f : α → Fallible ε σ β} (h : Ends x s none P)
    (hnext : ∀ a s', P s' → Ends (f a) s' err Q) : Ends (x >>= f) s err Q := by
  obtain ⟨hfail, hP⟩ := h
  rcases hx : exec x s with ⟨e' | a, s'⟩
  · rw [hx] at hfail
    cases hfail
  · rw [hx] at hP
    obtain ⟨hfail', hQ⟩ := hnext a s' hP
    exact ⟨by rwa [exec_bind_ok hx], by rwa [exec_bind_ok hx]⟩

/-- A value computed without the state. -/
theorem lift_bind {r : Except ε α} {f : α → Fallible ε σ β} {a : α} (hr : r = .ok a)
    (h : Ends (f a) s err P) : Ends ((liftM r : Fallible ε σ α) >>= f) s err P := by
  unfold Ends
  rw [hr, exec_bind_ok (exec_lift _ s)]
  exact h

/-- A computation without the state that fails. -/
theorem lift_bind_error {r : Except ε α} {f : α → Fallible ε σ β} {e : ε} (hr : r = .error e)
    (h : P s) : Ends ((liftM r : Fallible ε σ α) >>= f) s (some e) P := by
  refine bind_error ?_
  rw [hr]
  exact lift (.error e) h

theorem map {x : Fallible ε σ α} (f : α → β) (h : Ends x s err P) :
    Ends (x >>= fun a => Pure.pure (f a)) s err P := by
  cases err with
  | some e => exact bind_error h
  | none => exact bind_ok h fun a s' hP => pure (f a) hP

/-- **The loop rule**: of the rounds, the ones before the first error are done. -/
theorem foldlM {f : β → ι → Fallible ε σ β} {result : ι → Except ε γ} {I : List γ → σ → Prop}
    (hround : ∀ done i b s, I done s →
      Ends (f b i) s (result i).failure (I (done ++ (result i).toOption.toList)))
    (l : List ι) (done : List γ) (b : β) (h : I done s) :
    Ends (l.foldlM f b) s (l.map result).firstError (I (done ++ (l.map result).beforeError)) := by
  induction l generalizing done b s with
  | nil =>
    rw [List.map_nil]
    exact pure b (by rwa [List.beforeError, List.append_nil])
  | cons i l ih =>
    have hfirst := hround done i b s h
    rw [List.foldlM_cons, List.map_cons]
    cases hresult : result i with
    | error e =>
      rw [hresult] at hfirst
      exact bind_error hfirst
    | ok c =>
      rw [hresult] at hfirst
      refine hfirst.bind_ok fun b s h => ?_
      have hrest := ih (done ++ [c]) b h
      rwa [List.append_assoc] at hrest

end Ends

/-! ## A part of the state -/

/-- A method on a part of the state. -/
def zoom (view : σ → τ) (put : τ → σ → σ) (x : Fallible ε τ α) : Fallible ε σ α :=
  ExceptT.mk fun s => ((exec x (view s)).1, put (exec x (view s)).2 s)

@[simp] theorem exec_zoom (view : σ → τ) (put : τ → σ → σ) (x : Fallible ε τ α) (s : σ) :
    exec (zoom view put x) s = ((exec x (view s)).1, put (exec x (view s)).2 s) := rfl

end Fallible
