import Mathlib.Init
import Mathlib.Data.List.Basic

/-!
# Machines

A machine answers an operation with a reply and a next state. Operations may be restricted to
allowed ones.

## Main definitions

* `Machine.run`, `Machine.replies`, `Machine.final`: runs over a list of operations
* `Machine.Reachable`: the states reached from the initial ones
* `Machine.Simulation`, `Machine.GuardedSimulation`: a relation under which two machines reply alike,
  in every run or in those whose operations are allowed where they happen

## Main results

* `Machine.Reachable.invariant`: what every operation preserves holds of the reachable states
* `Machine.Simulation.replies_eq`: related states have the same replies in every run
-/

namespace Machine

variable {σ τ ω ρ : Type*}

section Run

variable (step : σ → ω → ρ × σ)

/-- The replies and the last state of a run. -/
def run (s : σ) : List ω → List ρ × σ
  | [] => ([], s)
  | op :: ops =>
    let (reply, next) := step s op
    let (replies, last) := run next ops
    (reply :: replies, last)

/-- The replies of a run. -/
def replies (s : σ) (ops : List ω) : List ρ := (run step s ops).1

/-- The last state of a run. -/
def final (s : σ) (ops : List ω) : σ := (run step s ops).2

@[simp] theorem replies_nil (s : σ) : replies step s [] = [] := rfl

@[simp] theorem replies_cons (s : σ) (op : ω) (ops : List ω) :
    replies step s (op :: ops) = (step s op).1 :: replies step (step s op).2 ops := rfl

@[simp] theorem final_nil (s : σ) : final step s [] = s := rfl

@[simp] theorem final_cons (s : σ) (op : ω) (ops : List ω) :
    final step s (op :: ops) = final step (step s op).2 ops := rfl

theorem final_append (s : σ) (ops ops' : List ω) :
    final step s (ops ++ ops') = final step (final step s ops) ops' := by
  induction ops generalizing s with
  | nil => rfl
  | cons op ops ih => exact ih (step s op).2

/-- The states reached from an initial state by allowed operations. -/
inductive Reachable (init : σ → Prop) (allowed : ω → Prop) : σ → Prop
  | start {s : σ} : init s → Reachable init allowed s
  | next {s : σ} {op : ω} : Reachable init allowed s → allowed op →
      Reachable init allowed (step s op).2

variable {step}

/-- **The invariant rule.** -/
theorem Reachable.invariant {init : σ → Prop} {allowed : ω → Prop} {I : σ → Prop}
    (hinit : ∀ s, init s → I s) (hstep : ∀ s op, allowed op → I s → I (step s op).2) {s : σ}
    (h : Reachable step init allowed s) : I s := by
  induction h with
  | start h => exact hinit _ h
  | next _ hop ih => exact hstep _ _ hop ih

/-- The last state of a run of allowed operations is reachable. -/
theorem Reachable.final {init : σ → Prop} {allowed : ω → Prop} {s : σ}
    (h : Reachable step init allowed s) {ops : List ω} (hops : ∀ op ∈ ops, allowed op) :
    Reachable step init allowed (Machine.final step s ops) := by
  induction ops generalizing s with
  | nil => exact h
  | cons op ops ih =>
    exact ih (h.next (hops op List.mem_cons_self)) fun o ho => hops o (List.mem_cons_of_mem op ho)

end Run

/-- Every operation of a run is allowed in the state that it finds. -/
def Admits (step : σ → ω → ρ × σ) (allowed : σ → ω → Prop) : σ → List ω → Prop
  | _, [] => True
  | s, op :: ops => allowed s op ∧ Admits step allowed (step s op).2 ops

/-- A relation under which two machines give the same reply to every operation that the second one
allows in its state, and stay related. -/
structure GuardedSimulation (step : σ → ω → ρ × σ) (step' : τ → ω → ρ × τ)
    (allowed : τ → ω → Prop) (R : σ → τ → Prop) : Prop where
  reply : ∀ {s t op}, allowed t op → R s t → (step s op).1 = (step' t op).1
  next : ∀ {s t op}, allowed t op → R s t → R (step s op).2 (step' t op).2

namespace GuardedSimulation

variable {step : σ → ω → ρ × σ} {step' : τ → ω → ρ × τ} {allowed : τ → ω → Prop} {R : σ → τ → Prop}

/-- **The guarded simulation rule.** -/
theorem replies_eq (h : GuardedSimulation step step' allowed R) {s : σ} {t : τ} (hst : R s t)
    {ops : List ω} (hops : Admits step' allowed t ops) :
    replies step s ops = replies step' t ops := by
  induction ops generalizing s t with
  | nil => rfl
  | cons op ops ih =>
    rw [replies_cons, replies_cons, h.reply hops.1 hst, ih (h.next hops.1 hst) hops.2]

theorem final_rel (h : GuardedSimulation step step' allowed R) {s : σ} {t : τ} (hst : R s t)
    {ops : List ω} (hops : Admits step' allowed t ops) : R (final step s ops) (final step' t ops) := by
  induction ops generalizing s t with
  | nil => exact hst
  | cons op ops ih => exact ih (h.next hops.1 hst) hops.2

end GuardedSimulation

theorem admits_of_forall {step : σ → ω → ρ × σ} {allowed : ω → Prop} {s : σ} {ops : List ω}
    (hops : ∀ op ∈ ops, allowed op) : Admits step (fun _ op => allowed op) s ops := by
  induction ops generalizing s with
  | nil => trivial
  | cons op ops ih =>
    obtain ⟨hop, hops⟩ := List.forall_mem_cons.mp hops
    exact ⟨hop, ih hops⟩

/-- A relation under which two machines give the same reply to every allowed operation and stay
related. -/
structure Simulation (step : σ → ω → ρ × σ) (step' : τ → ω → ρ × τ) (allowed : ω → Prop)
    (R : σ → τ → Prop) : Prop where
  reply : ∀ {s t op}, allowed op → R s t → (step s op).1 = (step' t op).1
  next : ∀ {s t op}, allowed op → R s t → R (step s op).2 (step' t op).2

namespace Simulation

variable {step : σ → ω → ρ × σ} {step' : τ → ω → ρ × τ} {allowed : ω → Prop} {R : σ → τ → Prop}

theorem guarded (h : Simulation step step' allowed R) :
    GuardedSimulation step step' (fun _ op => allowed op) R where
  reply := h.reply
  next := h.next

/-- **The simulation rule.** -/
theorem replies_eq (h : Simulation step step' allowed R) {s : σ} {t : τ} (hst : R s t)
    {ops : List ω} (hops : ∀ op ∈ ops, allowed op) : replies step s ops = replies step' t ops :=
  h.guarded.replies_eq hst (admits_of_forall hops)

/-- Runs keep related states related. -/
theorem final_rel (h : Simulation step step' allowed R) {s : σ} {t : τ} (hst : R s t)
    {ops : List ω} (hops : ∀ op ∈ ops, allowed op) :
    R (final step s ops) (final step' t ops) :=
  h.guarded.final_rel hst (admits_of_forall hops)

end Simulation

end Machine
