import CfxMinimalExecution.Library.Machine

/-!
# Fallible methods

A method on a mutable state returns a value or an error, and what it wrote before an error stays
written. Two methods on two states are compared by running them side by side from related states.

## Main definitions

* `Fallible ε σ α`: the methods; `Fallible.exec` runs one
* `Coupled R x s y t`: from `s` and `t` the methods return alike and end in related states
* `Keeps I x s`: from `s` the method ends in a state of which `I` holds
* `Ensures x s Q`: from `s` the method returns a value, and `Q` holds of it and of the last state

## Main results

* `exec_bind_eq_ok`, `foldlM_eq_ok`: what a sequence and a loop that have returned have computed
* `Coupled.bind`, `Coupled.foldlM`: sequences and loops of coupled methods are coupled
* `Keeps.bind`, `Keeps.foldlM`, `Ensures.bind`, `Ensures.foldlM`: the rules for sequences and for loops with an invariant
-/

universe u

/-- A method on a state `σ` that returns an `α` or fails with an `ε`. -/
abbrev Fallible (ε σ α : Type u) := ExceptT ε (StateM σ) α

namespace Except

variable {ε α β : Type u}

@[simp] theorem ok_bind (a : α) (f : α → Except ε β) : (Except.ok a >>= f) = f a := rfl

@[simp] theorem error_bind (e : ε) (f : α → Except ε β) :
    (Except.error e >>= f) = Except.error e := rfl

end Except

/-- A loop whose rounds all return a value. -/
theorem mapM_eq_ok {ε α β : Type u} {f : α → Except ε β} {g : α → β} {l : List α}
    (h : ∀ a ∈ l, f a = .ok (g a)) : l.mapM f = .ok (l.map g) := by
  induction l with
  | nil => rfl
  | cons a l ih =>
    rw [List.mapM_cons, h a List.mem_cons_self, ih fun b hb => h b (List.mem_cons_of_mem a hb)]
    rfl

namespace Fallible

variable {ε σ τ α β ι : Type u}

/-- The result and the last state of a method. -/
def exec (x : Fallible ε σ α) (s : σ) : Except ε α × σ := StateT.run (ExceptT.run x) s

@[simp] theorem exec_pure (a : α) (s : σ) : exec (pure a : Fallible ε σ α) s = (.ok a, s) := rfl

@[simp] theorem exec_get (s : σ) : exec (getThe σ : Fallible ε σ σ) s = (.ok s, s) := rfl

@[simp] theorem exec_modify (f : σ → σ) (s : σ) :
    exec (modify f : Fallible ε σ PUnit) s = (.ok ⟨⟩, f s) := rfl

@[simp] theorem exec_lift (r : Except ε α) (s : σ) :
    exec (liftM r : Fallible ε σ α) s = (r, s) := rfl

theorem exec_bind_ok {x : Fallible ε σ α} {f : α → Fallible ε σ β} {s s' : σ} {a : α}
    (h : exec x s = (.ok a, s')) : exec (x >>= f) s = exec (f a) s' := by
  unfold exec at h ⊢
  rw [ExceptT.run_bind, StateT.run_bind, h]
  rfl

theorem exec_bind_error {x : Fallible ε σ α} {f : α → Fallible ε σ β} {s s' : σ} {e : ε}
    (h : exec x s = (.error e, s')) : exec (x >>= f) s = (.error e, s') := by
  unfold exec at h ⊢
  rw [ExceptT.run_bind, StateT.run_bind, h]
  rfl

/-! ## Methods that have returned -/

theorem exec_bind_eq_ok {x : Fallible ε σ α} {f : α → Fallible ε σ β} {s s' : σ} {b : β}
    (h : exec (x >>= f) s = (.ok b, s')) :
    ∃ a s₁, exec x s = (.ok a, s₁) ∧ exec (f a) s₁ = (.ok b, s') := by
  rcases hx : exec x s with ⟨e | a, s₁⟩
  · rw [exec_bind_error hx] at h
    cases h
  · rw [exec_bind_ok hx] at h
    exact ⟨a, s₁, rfl, h⟩

theorem exec_lift_bind_eq_ok {r : Except ε α} {f : α → Fallible ε σ β} {s s' : σ} {b : β}
    (h : exec ((liftM r : Fallible ε σ α) >>= f) s = (.ok b, s')) :
    ∃ a, r = .ok a ∧ exec (f a) s = (.ok b, s') := by
  obtain ⟨a, s₁, hr, h⟩ := exec_bind_eq_ok h
  obtain ⟨rfl, rfl⟩ := Prod.mk.inj hr
  exact ⟨a, rfl, h⟩

/-- A loop that returns computes what a loop without the state computes, when its rounds do. -/
theorem foldlM_eq_ok {f : β → ι → Fallible ε σ β} {g : β → ι → Except ε β}
    (hround : ∀ b i s b' s', exec (f b i) s = (.ok b', s') → g b i = .ok b') {l : List ι}
    {b b' : β} {s s' : σ} (h : exec (l.foldlM f b) s = (.ok b', s')) : l.foldlM g b = .ok b' := by
  induction l generalizing b s with
  | nil => exact congrArg Prod.fst h
  | cons i l ih =>
    rw [List.foldlM_cons] at h ⊢
    obtain ⟨b₁, s₁, hfirst, hrest⟩ := exec_bind_eq_ok h
    rw [hround _ _ _ _ _ hfirst]
    exact ih hrest

/-! ## Two methods side by side -/

/-- From `s` and `t`, the methods return alike and end in related states. -/
def Coupled (R : σ → τ → Prop) (x : Fallible ε σ α) (s : σ) (y : Fallible ε τ α) (t : τ) : Prop :=
  (exec x s).1 = (exec y t).1 ∧ R (exec x s).2 (exec y t).2

namespace Coupled

variable {R : σ → τ → Prop} {s : σ} {t : τ}

theorem pure (a : α) (h : R s t) :
    Coupled R (Pure.pure a : Fallible ε σ α) s (Pure.pure a : Fallible ε τ α) t :=
  ⟨rfl, h⟩

/-- A value computed without the state is the same on both sides. -/
theorem lift (r : Except ε α) (h : R s t) :
    Coupled R (liftM r : Fallible ε σ α) s (liftM r : Fallible ε τ α) t :=
  ⟨rfl, h⟩

/-- Related updates. -/
theorem update {f : σ → σ} {g : τ → τ} (h : R (f s) (g t)) :
    Coupled R (modify f : Fallible ε σ PUnit) s (modify g : Fallible ε τ PUnit) t :=
  ⟨rfl, h⟩

/-- Methods that first read the state. -/
theorem read {f : σ → Fallible ε σ α} {g : τ → Fallible ε τ α}
    (h : Coupled R (f s) s (g t) t) : Coupled R (getThe σ >>= f) s (getThe τ >>= g) t := by
  unfold Coupled
  rw [exec_bind_ok (exec_get s), exec_bind_ok (exec_get t)]
  exact h

theorem bind {x : Fallible ε σ α} {y : Fallible ε τ α} {f : α → Fallible ε σ β}
    {g : α → Fallible ε τ β} (h : Coupled R x s y t)
    (hnext : ∀ a s' t', R s' t' → Coupled R (f a) s' (g a) t') :
    Coupled R (x >>= f) s (y >>= g) t := by
  obtain ⟨hreply, hrel⟩ := h
  rcases hx : exec x s with ⟨r, s'⟩
  rcases hy : exec y t with ⟨r', t'⟩
  rw [hx, hy] at hreply hrel
  obtain rfl : r = r' := hreply
  unfold Coupled
  cases r with
  | error e =>
    rw [exec_bind_error hx, exec_bind_error hy]
    exact ⟨rfl, hrel⟩
  | ok a =>
    rw [exec_bind_ok hx, exec_bind_ok hy]
    exact hnext a s' t' hrel

/-- Computing a value without the state keeps both states. -/
theorem lift_bind {r : Except ε α} {f : α → Fallible ε σ β} {g : α → Fallible ε τ β}
    (h : R s t) (hnext : ∀ a, r = .ok a → Coupled R (f a) s (g a) t) :
    Coupled R ((liftM r : Fallible ε σ α) >>= f) s ((liftM r : Fallible ε τ α) >>= g) t := by
  unfold Coupled
  cases r with
  | error e =>
    rw [exec_bind_error (exec_lift _ s), exec_bind_error (exec_lift _ t)]
    exact ⟨rfl, h⟩
  | ok a =>
    rw [exec_bind_ok (exec_lift _ s), exec_bind_ok (exec_lift _ t)]
    exact hnext a rfl

/-- A method that reads what is computed from the other state. -/
theorem query_bind {x : Fallible ε σ α} {query : τ → Except ε α} {f : α → Fallible ε σ β}
    {g : α → Fallible ε τ β} {s' : σ} (hx : exec x s = (query t, s')) (h : R s' t)
    (hnext : ∀ a, Coupled R (f a) s' (g a) t) :
    Coupled R (x >>= f) s (getThe τ >>= fun t => (liftM (query t) : Fallible ε τ α) >>= g) t := by
  unfold Coupled
  rw [exec_bind_ok (exec_get t)]
  cases hquery : query t with
  | error e =>
    rw [hquery] at hx
    rw [exec_bind_error hx, exec_bind_error (exec_lift _ t)]
    exact ⟨rfl, h⟩
  | ok a =>
    rw [hquery] at hx
    rw [exec_bind_ok hx, exec_bind_ok (exec_lift _ t)]
    exact hnext a

/-- **The loop rule.** -/
theorem foldlM {f : β → ι → Fallible ε σ β} {g : β → ι → Fallible ε τ β}
    (hround : ∀ b i s t, R s t → Coupled R (f b i) s (g b i) t) (l : List ι) (b : β)
    (h : R s t) : Coupled R (l.foldlM f b) s (l.foldlM g b) t := by
  induction l generalizing b s t with
  | nil => exact pure b h
  | cons i l ih =>
    rw [List.foldlM_cons, List.foldlM_cons]
    exact (hround b i s t h).bind fun b s t h => ih b h

end Coupled

/-! ## One method and an invariant -/

/-- From `s`, the method ends in a state of which `I` holds, with or without an error. -/
def Keeps (I : σ → Prop) (x : Fallible ε σ α) (s : σ) : Prop := I (exec x s).2

namespace Keeps

variable {I : σ → Prop} {s : σ}

theorem pure (a : α) (h : I s) : Keeps I (Pure.pure a : Fallible ε σ α) s := h

theorem update {f : σ → σ} (h : I (f s)) : Keeps I (modify f : Fallible ε σ PUnit) s := h

theorem bind {x : Fallible ε σ α} {f : α → Fallible ε σ β} (h : Keeps I x s)
    (hnext : ∀ a s', I s' → Keeps I (f a) s') : Keeps I (x >>= f) s := by
  unfold Keeps at h ⊢
  rcases hx : exec x s with ⟨e | a, s'⟩
  · rw [exec_bind_error hx]
    rwa [hx] at h
  · rw [exec_bind_ok hx]
    rw [hx] at h
    exact hnext a s' h

theorem read {f : σ → Fallible ε σ α} (h : Keeps I (f s) s) : Keeps I (getThe σ >>= f) s := by
  unfold Keeps
  rw [exec_bind_ok (exec_get s)]
  exact h

/-- Computing a value without the state keeps the state. -/
theorem lift_bind {r : Except ε α} {f : α → Fallible ε σ β} (h : I s)
    (hnext : ∀ a, r = .ok a → Keeps I (f a) s) :
    Keeps I ((liftM r : Fallible ε σ α) >>= f) s := by
  unfold Keeps
  cases r with
  | error e =>
    rw [exec_bind_error (exec_lift _ s)]
    exact h
  | ok a =>
    rw [exec_bind_ok (exec_lift _ s)]
    exact hnext a rfl

/-- **The loop rule.** -/
theorem foldlM {f : β → ι → Fallible ε σ β} {l : List ι}
    (hround : ∀ i ∈ l, ∀ b s, I s → Keeps I (f b i) s) (b : β) (h : I s) :
    Keeps I (l.foldlM f b) s := by
  induction l generalizing b s with
  | nil => exact pure b h
  | cons i l ih =>
    rw [List.foldlM_cons]
    refine (hround i List.mem_cons_self b s h).bind fun b s h => ?_
    exact ih (fun j hj => hround j (List.mem_cons_of_mem i hj)) b h

end Keeps

/-! ## One method and a postcondition -/

/-- From `s`, the method returns a value, and `Q` holds of the value and of the last state. -/
def Ensures (x : Fallible ε σ α) (s : σ) (Q : α → σ → Prop) : Prop :=
  ∃ a s', exec x s = (.ok a, s') ∧ Q a s'

namespace Ensures

variable {s : σ} {Q : α → σ → Prop}

theorem pure {a : α} (h : Q a s) : Ensures (Pure.pure a : Fallible ε σ α) s Q :=
  ⟨a, s, rfl, h⟩

theorem update {f : σ → σ} {Q : PUnit → σ → Prop} (h : Q ⟨⟩ (f s)) :
    Ensures (modify f : Fallible ε σ PUnit) s Q :=
  ⟨⟨⟩, f s, rfl, h⟩

theorem bind {x : Fallible ε σ α} {f : α → Fallible ε σ β} {Q' : β → σ → Prop}
    (h : Ensures x s Q) (hnext : ∀ a s', Q a s' → Ensures (f a) s' Q') :
    Ensures (x >>= f) s Q' := by
  obtain ⟨a, s', hx, hQ⟩ := h
  obtain ⟨b, s'', hf, hQ'⟩ := hnext a s' hQ
  exact ⟨b, s'', by rw [exec_bind_ok hx, hf], hQ'⟩

/-- A value computed without the state. -/
theorem lift_bind {r : Except ε α} {f : α → Fallible ε σ β} {a : α} {Q' : β → σ → Prop}
    (hr : r = .ok a) (h : Ensures (f a) s Q') :
    Ensures ((liftM r : Fallible ε σ α) >>= f) s Q' := by
  obtain ⟨b, s', hf, hQ'⟩ := h
  exact ⟨b, s', by rw [hr, exec_bind_ok (exec_lift _ s), hf], hQ'⟩

theorem read {f : σ → Fallible ε σ β} {Q' : β → σ → Prop} (h : Ensures (f s) s Q') :
    Ensures (getThe σ >>= f) s Q' := by
  obtain ⟨b, s', hf, hQ'⟩ := h
  exact ⟨b, s', by rw [exec_bind_ok (exec_get s), hf], hQ'⟩

/-- **The loop rule**, with an invariant of the elements already visited. -/
theorem foldlM {f : β → ι → Fallible ε σ β} (I : List ι → β → σ → Prop) (l : List ι)
    (hround : ∀ done i rest b s, l = done ++ i :: rest → I done b s →
      Ensures (f b i) s (I (done ++ [i])))
    (b : β) (h : I [] b s) : Ensures (l.foldlM f b) s (I l) := by
  suffices hrest : ∀ rest done b s, l = done ++ rest → I done b s →
      Ensures (rest.foldlM f b) s (I l) from hrest l [] b s rfl h
  intro rest
  induction rest with
  | nil =>
    intro done b s hl hI
    rw [List.append_nil] at hl
    exact pure (hl ▸ hI)
  | cons i rest ih =>
    intro done b s hl hI
    rw [List.foldlM_cons]
    refine (hround done i rest b s hl hI).bind fun b s hI => ?_
    exact ih (done ++ [i]) b s (by rw [hl, List.append_assoc]; rfl) hI

end Ensures

end Fallible
