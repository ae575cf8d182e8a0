import CfxMinimalExecution.Library.Fallible
import CfxMinimalExecution.Library.WorkerPool

/-!
# Pipelines

A pool of workers, and a reader of what they send. The reader takes the results in the order in
which they were sent, and hangs up on the first that it cannot take. Otherwise it closes, once the
workers have stopped and no result is left. The order of the steps is arbitrary.

## Main definitions

* `WorkerPool.Reader`: what the reader does; `WorkerPool.Reader.drain`: its result over all it takes
* `WorkerPool.Reader.ofMethods`: a reader whose methods write to a state
* `WorkerPool.Pipeline`: the states; `WorkerPool.Pipeline.advance`: the next step of a worker or of
  the reader

## Main results

* `WorkerPool.Pipeline.Sound.step`: the reader has read what was sent first
* `WorkerPool.Pipeline.exists_advance`, `WorkerPool.Pipeline.Sound.length_le`: a pipeline goes on
  until it has stopped, and it stops
* `WorkerPool.Reader.drain_ofMethods`: the reader as one program
-/

namespace WorkerPool

universe u v

variable {τ : Type v} {ρ ε σ α : Type u}

open Fallible (exec)

/-! ## Readers -/

/-- A result is taken, or ends the reader; without further results it closes. -/
structure Reader (τ : Type v) (ρ σ α : Type u) where
  consume : σ → τ × ρ → Except α σ
  close : σ → α

namespace Reader

/-- The result of a reader over all that it is sent. -/
def drain (reader : Reader τ ρ σ α) (s : σ) (sent : List (τ × ρ)) : α :=
  match sent.foldlM reader.consume s with
  | .ok s => reader.close s
  | .error a => a

section Methods

variable {β γ δ η : Type u} (receive : β → ρ → Fallible η δ β) (finish : β → Fallible η δ γ)

/-- A reader whose methods write to a state. -/
def ofMethods : Reader τ ρ (β × δ) (Except η γ × δ) where
  consume s o :=
    match exec (receive s.1 o.2) s.2 with
    | (.ok b, d) => .ok (b, d)
    | (.error e, d) => .error (.error e, d)
  close s := exec (finish s.1) s.2

theorem foldlM_ofMethods (s : β × δ) (sent : List (τ × ρ)) :
    sent.foldlM (ofMethods receive finish).consume s =
      match exec ((sent.map Prod.snd).foldlM receive s.1) s.2 with
      | (.ok b, d) => .ok (b, d)
      | (.error e, d) => .error (.error e, d) := by
  induction sent generalizing s with
  | nil => rfl
  | cons o sent ih =>
    rw [List.map_cons, List.foldlM_cons, List.foldlM_cons]
    rcases hfirst : exec (receive s.1 o.2) s.2 with ⟨e | b, d⟩
    · have hconsume : (ofMethods receive finish : Reader τ ρ _ _).consume s o =
          .error (.error e, d) := by
        simp only [ofMethods, hfirst]
      rw [hconsume, Fallible.exec_bind_error hfirst]
      rfl
    · have hconsume : (ofMethods receive finish : Reader τ ρ _ _).consume s o = .ok (b, d) := by
        simp only [ofMethods, hfirst]
      rw [hconsume, Fallible.exec_bind_ok hfirst, Except.ok_bind]
      exact ih (b, d)

/-- **The reader as one program**: a loop over what is sent, and what follows it. -/
theorem drain_ofMethods (s : β × δ) (sent : List (τ × ρ)) :
    (ofMethods receive finish).drain s sent =
      exec ((sent.map Prod.snd).foldlM receive s.1 >>= finish) s.2 := by
  unfold drain
  rw [foldlM_ofMethods]
  rcases hloop : exec ((sent.map Prod.snd).foldlM receive s.1) s.2 with ⟨e | b, d⟩
  · rw [Fallible.exec_bind_error hloop]
  · rw [Fallible.exec_bind_ok hloop]
    rfl

end Methods

end Reader

/-! ## Steps -/

/-- The thread of a reader. -/
inductive Thread (σ α : Type u)
  | reading (s : σ)
  | ended (a : α)

/-- A pool, how many of its results the reader has taken, and the reader. -/
structure Pipeline (τ : Type v) (ρ ε σ α : Type u) where
  pool : Pool τ ρ ε
  received : ℕ
  thread : Thread σ α

inductive Actor
  | worker (i : ℕ)
  | reader

namespace Pipeline

/-- Before the first step. -/
def start (tasks : List τ) (n : ℕ) (s : σ) : Pipeline τ ρ ε σ α :=
  ⟨WorkerPool.start tasks n, 0, .reading s⟩

/-- The next step of a worker or of the reader, unless it has ended or has to wait. -/
def advance (work : τ → Except ε ρ) (reader : Reader τ ρ σ α) (p : Pipeline τ ρ ε σ α) :
    Actor → Option (Pipeline τ ρ ε σ α)
  | .worker i => (WorkerPool.advance work p.pool i).map fun pool => { p with pool }
  | .reader =>
    match p.thread with
    | .ended _ => none
    | .reading s =>
      match p.pool.sent[p.received]? with
      | some o =>
        match reader.consume s o with
        | .ok s => some { p with received := p.received + 1, thread := .reading s }
        | .error a => some ⟨{ p.pool with hungUp := true }, p.received + 1, .ended a⟩
      | none =>
        if p.pool.workers.all Worker.hasStopped then some { p with thread := .ended (reader.close s) }
        else none

def run (work : τ → Except ε ρ) (reader : Reader τ ρ σ α) (p : Pipeline τ ρ ε σ α)
    (schedule : List Actor) : Option (Pipeline τ ρ ε σ α) :=
  schedule.foldlM (advance work reader) p

/-- The workers and the reader have ended. -/
def Stopped (p : Pipeline τ ρ ε σ α) : Prop := p.pool.Stopped ∧ ∃ a, p.thread = .ended a

variable {work : τ → Except ε ρ} {reader : Reader τ ρ σ α} {p p' : Pipeline τ ρ ε σ α}

/-- **The steps of a pipeline.** -/
theorem advance_cases {actor : Actor} (h : advance work reader p actor = some p') :
    (∃ i pool, WorkerPool.advance work p.pool i = some pool ∧ p' = { p with pool }) ∨
    (∃ s o s', p.thread = .reading s ∧ p.pool.sent[p.received]? = some o ∧
      reader.consume s o = .ok s' ∧
      p' = { p with received := p.received + 1, thread := .reading s' }) ∨
    (∃ s o a, p.thread = .reading s ∧ p.pool.sent[p.received]? = some o ∧
      reader.consume s o = .error a ∧
      p' = ⟨{ p.pool with hungUp := true }, p.received + 1, .ended a⟩) ∨
    (∃ s, p.thread = .reading s ∧ p.pool.sent[p.received]? = none ∧ p.pool.Stopped ∧
      p' = { p with thread := .ended (reader.close s) }) := by
  cases actor with
  | worker i =>
    obtain ⟨pool, hpool, rfl⟩ := Option.map_eq_some_iff.mp h
    exact .inl ⟨i, pool, hpool, rfl⟩
  | reader =>
    unfold advance at h
    dsimp only at h
    cases hthread : p.thread with
    | ended a => simp [hthread] at h
    | reading s =>
      rw [hthread] at h
      dsimp only at h
      cases hsent : p.pool.sent[p.received]? with
      | none =>
        rw [hsent] at h
        dsimp only at h
        split at h
        · next hall =>
          exact .inr (.inr (.inr ⟨s, rfl, rfl, List.all_eq_true.mp hall, (Option.some.inj h).symm⟩))
        · cases h
      | some o =>
        rw [hsent] at h
        dsimp only at h
        cases hconsume : reader.consume s o with
        | ok s' =>
          rw [hconsume] at h
          exact .inr (.inl ⟨s, o, s', rfl, rfl, hconsume, (Option.some.inj h).symm⟩)
        | error a =>
          rw [hconsume] at h
          exact .inr (.inr (.inl ⟨s, o, a, rfl, rfl, hconsume, (Option.some.inj h).symm⟩))

/-- **A pipeline that has not stopped can go on.** -/
theorem exists_advance (work : τ → Except ε ρ) (reader : Reader τ ρ σ α) (h : ¬ p.Stopped) :
    ∃ actor p', advance work reader p actor = some p' := by
  by_cases hpool : p.pool.Stopped
  · cases hthread : p.thread with
    | ended a => exact absurd ⟨hpool, a, hthread⟩ h
    | reading s =>
      refine ⟨.reader, ?_⟩
      unfold advance
      dsimp only
      rw [hthread]
      dsimp only
      cases p.pool.sent[p.received]? with
      | some o =>
        dsimp only
        cases reader.consume s o with
        | ok s' => exact ⟨_, rfl⟩
        | error a => exact ⟨_, rfl⟩
      | none => exact ⟨_, if_pos (List.all_eq_true.mpr hpool)⟩
  · obtain ⟨i, pool, hadvance⟩ := WorkerPool.exists_advance work hpool
    exact ⟨.worker i, { p with pool }, Option.map_eq_some_iff.mpr ⟨pool, hadvance, rfl⟩⟩

/-! ## What the reader has read -/

/-- The results that the reader has taken. -/
def taken (p : Pipeline τ ρ ε σ α) : List (τ × ρ) := p.pool.sent.take p.received

/-- **What the reader has read**: while it reads, the first results that were sent. When it has
ended, it has hung up, or all of them. -/
structure Sound (work : τ → Except ε ρ) (reader : Reader τ ρ σ α) (tasks : List τ) (n : ℕ) (s₀ : σ)
    (p : Pipeline τ ρ ε σ α) : Prop where
  reachable : Reachable work tasks n p.pool
  received : p.received ≤ p.pool.sent.length
  reading : ∀ s, p.thread = .reading s →
    p.pool.hungUp = false ∧ p.taken.foldlM reader.consume s₀ = .ok s
  ended : ∀ a, p.thread = .ended a → a = reader.drain s₀ p.taken ∧
    (p.taken.foldlM reader.consume s₀ = .error a ∨
      p.pool.hungUp = false ∧ p.pool.Stopped ∧ p.taken = p.pool.sent)

variable {tasks : List τ} {n : ℕ} {s₀ : σ}

theorem sound_start (work : τ → Except ε ρ) (reader : Reader τ ρ σ α) (tasks : List τ) (n : ℕ)
    (s₀ : σ) : Sound work reader tasks n s₀ (start tasks n s₀) where
  reachable := .refl
  received := Nat.zero_le _
  reading := by
    rintro s ⟨⟩
    exact ⟨rfl, rfl⟩
  ended := by
    rintro a ⟨⟩

/-- One more result is taken. -/
theorem take_succ_of_getElem? {β : Type*} {l : List β} {i : ℕ} {b : β} (h : l[i]? = some b) :
    l.take (i + 1) = l.take i ++ [b] := by
  rw [List.take_add_one, h]
  rfl

namespace Sound

/-- **A step keeps what was read.** -/
theorem step (h : Sound work reader tasks n s₀ p) {actor : Actor}
    (hadvance : advance work reader p actor = some p') : Sound work reader tasks n s₀ p' := by
  obtain ⟨i, pool, hpool, rfl⟩ | ⟨s, o, s', hthread, hsent, hconsume, rfl⟩ |
    ⟨s, o, a, hthread, hsent, hconsume, rfl⟩ | ⟨s, hthread, hsent, hstopped, rfl⟩ :=
      advance_cases hadvance
  -- a worker advances: what was sent before stays in front
  · obtain ⟨more, hmore⟩ := sent_prefix hpool
    have htaken : pool.sent.take p.received = p.taken := by
      rw [← hmore, List.take_append_of_le_length h.received]
      rfl
    refine ⟨h.reachable.tail (.advance hpool), ?_, fun s hthread => ?_, fun a hthread => ?_⟩
    · show p.received ≤ pool.sent.length
      rw [← hmore, List.length_append]
      exact Nat.le_add_right_of_le h.received
    · obtain ⟨hup, hfold⟩ := h.reading s hthread
      refine ⟨(advance_hungUp hpool).trans hup, ?_⟩
      unfold taken
      rwa [htaken]
    · obtain ⟨ha, hend⟩ := h.ended a hthread
      unfold taken
      rw [htaken]
      refine ⟨ha, hend.imp_right ?_⟩
      rintro ⟨-, hstopped, -⟩
      rw [hstopped.advance_eq_none] at hpool
      cases hpool
  -- a result is taken
  · obtain ⟨hup, hfold⟩ := h.reading s hthread
    have hlt := (List.getElem?_eq_some_iff.mp hsent).1
    refine ⟨h.reachable, hlt, fun s'' hthread' => ?_, fun a hthread' => nomatch hthread'⟩
    obtain rfl := Thread.reading.inj hthread'
    refine ⟨hup, ?_⟩
    unfold taken at hfold ⊢
    rw [take_succ_of_getElem? hsent, List.foldlM_append, hfold, Except.ok_bind, List.foldlM_cons,
      hconsume]
    rfl
  -- a result ends the reader
  · obtain ⟨-, hfold⟩ := h.reading s hthread
    have hlt := (List.getElem?_eq_some_iff.mp hsent).1
    refine ⟨h.reachable.tail .hangUp, hlt, fun s hthread' => (nomatch hthread'), fun a' hthread' => ?_⟩
    obtain rfl := Thread.ended.inj hthread'
    have hlast : (p.pool.sent.take (p.received + 1)).foldlM reader.consume s₀ = .error a := by
      unfold taken at hfold
      rw [take_succ_of_getElem? hsent, List.foldlM_append, hfold, Except.ok_bind, List.foldlM_cons,
        hconsume]
      rfl
    refine ⟨?_, .inl hlast⟩
    unfold Reader.drain taken
    rw [hlast]
  -- nothing is left
  · obtain ⟨hup, hfold⟩ := h.reading s hthread
    have hall : p.taken = p.pool.sent :=
      List.take_of_length_le (List.getElem?_eq_none_iff.mp hsent)
    refine ⟨h.reachable, h.received, fun s hthread' => (nomatch hthread'), fun a hthread' => ?_⟩
    obtain rfl := Thread.ended.inj hthread'
    refine ⟨?_, .inr ⟨hup, hstopped, hall⟩⟩
    show _ = reader.drain s₀ p.taken
    unfold Reader.drain
    rw [hfold]

theorem run (h : Sound work reader tasks n s₀ p) {schedule : List Actor}
    (hrun : Pipeline.run work reader p schedule = some p') : Sound work reader tasks n s₀ p' := by
  induction schedule generalizing p with
  | nil =>
    obtain rfl := Option.some.inj hrun
    exact h
  | cons actor schedule ih =>
    obtain ⟨p₁, hadvance, hrest⟩ := Option.bind_eq_some_iff.mp hrun
    exact ih (h.step hadvance) hrest

/-- What is taken are results of different tasks. -/
theorem taken_subperm (h : Sound work reader tasks n s₀ p) :
    (p.taken.map Prod.fst).Subperm tasks := by
  have hsent : (p.taken.map Prod.fst).Sublist (p.pool.sent.map Prod.fst ++ p.pool.held) :=
    ((List.take_sublist _ _).map Prod.fst).trans (List.sublist_append_left _ _)
  exact hsent.subperm.trans h.reachable.accounted.subperm

theorem work_of_mem_taken (h : Sound work reader tasks n s₀ p) {o : τ × ρ} (ho : o ∈ p.taken) :
    work o.1 = .ok o.2 :=
  h.reachable.accounted.sent o (List.mem_of_mem_take ho)

end Sound

/-! ## The end -/

/-- The steps that are left at most. -/
def weight (tasks : List τ) (p : Pipeline τ ρ ε σ α) : ℕ :=
  p.pool.weight + (tasks.length - p.received) +
    match p.thread with
    | .reading _ => 1
    | .ended _ => 0

/-- **Every step brings the pipeline closer to its end.** -/
theorem Sound.weight_lt (h : Sound work reader tasks n s₀ p) {actor : Actor}
    (hadvance : advance work reader p actor = some p') : p'.weight tasks < p.weight tasks := by
  have hlen : p.pool.sent.length ≤ tasks.length := by
    have hle := h.reachable.accounted.subperm.length_le
    rw [List.length_append, List.length_map] at hle
    exact (Nat.le_add_right _ _).trans hle
  unfold weight
  obtain ⟨i, pool, hpool, rfl⟩ | ⟨s, o, s', hthread, hsent, -, rfl⟩ |
    ⟨s, o, a, hthread, hsent, -, rfl⟩ | ⟨s, hthread, -, -, rfl⟩ := advance_cases hadvance
  · have hlt := WorkerPool.weight_lt hpool
    dsimp only
    omega
  · have hlt := (List.getElem?_eq_some_iff.mp hsent).1
    rw [hthread]
    dsimp only
    omega
  · have hlt := (List.getElem?_eq_some_iff.mp hsent).1
    have hpool : Pool.weight { p.pool with hungUp := true } = p.pool.weight := rfl
    rw [hthread, hpool]
    dsimp only
    omega
  · rw [hthread]
    exact Nat.lt_succ_self _

theorem Sound.length_le_weight (h : Sound work reader tasks n s₀ p) {schedule : List Actor}
    (hrun : Pipeline.run work reader p schedule = some p') : schedule.length ≤ p.weight tasks := by
  induction schedule generalizing p with
  | nil => exact Nat.zero_le _
  | cons actor schedule ih =>
    obtain ⟨p₁, hadvance, hrest⟩ := Option.bind_eq_some_iff.mp hrun
    have hlt := h.weight_lt hadvance
    have hle := ih (h.step hadvance) hrest
    rw [List.length_cons]
    omega

/-- **A pipeline stops** after a bounded number of steps. -/
theorem length_le {schedule : List Actor}
    (hrun : Pipeline.run work reader (start tasks n s₀) schedule = some p) :
    schedule.length ≤ 3 * tasks.length + n + 1 := by
  have hle := (sound_start work reader tasks n s₀).length_le_weight hrun
  have hweight : (start tasks n s₀ : Pipeline τ ρ ε σ α).weight tasks =
      2 * tasks.length + n + (tasks.length - 0) + 1 :=
    congrArg (· + (tasks.length - 0) + 1) (weight_start tasks n)
  omega

end Pipeline

end WorkerPool
