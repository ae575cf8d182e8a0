import Mathlib.Algebra.BigOperators.Group.Multiset.Basic
import Mathlib.Logic.Relation
import Mathlib.Tactic.Abel

/-!
# Worker pools

Workers take tasks from one queue until it is empty. A worker that fails stops, and the other ones
go on. A result is sent to a receiver; once that one has hung up, a worker that finds out stops
too. The order of the steps is arbitrary.

## Main definitions

* `WorkerPool.Worker`, `WorkerPool.Pool`: the states; `WorkerPool.start`: the pool over its tasks
* `WorkerPool.advance`: the next step of a worker
* `WorkerPool.Reachable`: the pools behind steps of workers and a receiver that hangs up
* `WorkerPool.collect`: the results in the order of the workers, or the first error

## Main results

* `WorkerPool.Accounted.step`: every task is in one place
* `WorkerPool.exists_advance`, `WorkerPool.weight_lt`: a pool that has not stopped can go on, and
  every step brings it closer to its end
* `WorkerPool.Accounted.collect_eq_ok`, `WorkerPool.Accounted.collect_eq_error`: what a pool that
  has stopped returns
* `WorkerPool.Accounted.card_failed`: how many workers fail
-/

namespace WorkerPool

universe u v

variable {τ : Type v} {ρ ε : Type u}

/-- A worker, with the results that it has sent. -/
inductive Worker (τ : Type v) (ρ ε : Type u)
  | idle (done : List ρ)
  | running (task : τ) (done : List ρ)
  | returned (done : List ρ)
  | failed (task : τ) (error : ε)

namespace Worker

/-- The task that a worker has, or has failed on. -/
def held : Worker τ ρ ε → List τ
  | running task _ | failed task _ => [task]
  | idle _ | returned _ => []

/-- The results that a worker returns, unless it fails. -/
def done : Worker τ ρ ε → List ρ
  | idle done | running _ done | returned done => done
  | failed _ _ => []

def hasFailed : Worker τ ρ ε → Bool
  | failed _ _ => true
  | _ => false

/-- The task that a worker has failed on. -/
def failedOn : Worker τ ρ ε → Option τ
  | failed task _ => some task
  | _ => none

def hasStopped : Worker τ ρ ε → Bool
  | returned _ | failed _ _ => true
  | _ => false

/-- The steps that are left to a worker with an empty queue. -/
def weight : Worker τ ρ ε → ℕ
  | running _ _ => 2
  | idle _ => 1
  | returned _ | failed _ _ => 0

end Worker

/-- The tasks to take, the workers in the order of their start, the results in the order in which
they were sent, and whether the receiver is gone. -/
structure Pool (τ : Type v) (ρ ε : Type u) where
  queue : List τ
  workers : List (Worker τ ρ ε)
  sent : List (τ × ρ)
  hungUp : Bool

/-- A pool of `n` workers over its tasks. -/
def start (tasks : List τ) (n : ℕ) : Pool τ ρ ε := ⟨tasks, List.replicate n (.idle []), [], false⟩

/-- The worker `i` in another state. -/
def Pool.put (p : Pool τ ρ ε) (i : ℕ) (worker : Worker τ ρ ε) : Pool τ ρ ε :=
  { p with workers := p.workers.set i worker }

/-- The next step of the worker `i`, unless it has stopped. -/
def advance (work : τ → Except ε ρ) (p : Pool τ ρ ε) (i : ℕ) : Option (Pool τ ρ ε) :=
  match p.workers[i]? with
  | some (.idle done) =>
    match p.queue with
    | [] => some (p.put i (.returned done))
    | task :: queue => some { p.put i (.running task done) with queue }
  | some (.running task done) =>
    match work task with
    | .error e => some (p.put i (.failed task e))
    | .ok r =>
      if p.hungUp then some (p.put i (.returned done))
      else some { p.put i (.idle (done ++ [r])) with sent := p.sent ++ [(task, r)] }
  | _ => none

/-- The workers advance in some order. -/
def run (work : τ → Except ε ρ) (p : Pool τ ρ ε) (schedule : List ℕ) : Option (Pool τ ρ ε) :=
  schedule.foldlM (advance work) p

/-- A worker advances, or the receiver hangs up. -/
inductive Step (work : τ → Except ε ρ) (p : Pool τ ρ ε) : Pool τ ρ ε → Prop
  | advance {i : ℕ} {p' : Pool τ ρ ε} : WorkerPool.advance work p i = some p' → Step work p p'
  | hangUp : Step work p { p with hungUp := true }

/-- The pools that are reached from the start. -/
def Reachable (work : τ → Except ε ρ) (tasks : List τ) (n : ℕ) : Pool τ ρ ε → Prop :=
  Relation.ReflTransGen (Step work) (start tasks n)

/-- No worker has a step left. -/
def Pool.Stopped (p : Pool τ ρ ε) : Prop := ∀ worker ∈ p.workers, worker.hasStopped

/-- A round of the loop that joins the workers: the results so far, and the first error. A severe
error ends the loop. -/
def join (severe : ε → Bool) (joined : List ρ × Option ε) :
    Worker τ ρ ε → Except ε (List ρ × Option ε)
  | .failed _ e => if severe e then .error e else .ok (joined.1, some (joined.2.getD e))
  | worker => .ok (joined.1 ++ worker.done, joined.2)

/-- The results in the order of the workers, unless one has failed. -/
def collect (severe : ε → Bool) (workers : List (Worker τ ρ ε)) : Except ε (List ρ) := do
  match ← workers.foldlM (join severe) ([], none) with
  | (_, some e) => .error e
  | (results, none) => .ok results

/-! ## What a step does -/

variable {work : τ → Except ε ρ} {p p' : Pool τ ρ ε} {i : ℕ}

/-- **The steps of a worker**, with the workers before it and behind it. -/
theorem advance_cases (h : advance work p i = some p') :
    ∃ before behind, before.length = i ∧
      ((∃ done, p.workers = before ++ .idle done :: behind ∧ p.queue = [] ∧
        p' = { p with workers := before ++ .returned done :: behind }) ∨
      (∃ done task queue, p.workers = before ++ .idle done :: behind ∧ p.queue = task :: queue ∧
        p' = { p with queue := queue, workers := before ++ .running task done :: behind }) ∨
      (∃ done task e, p.workers = before ++ .running task done :: behind ∧ work task = .error e ∧
        p' = { p with workers := before ++ .failed task e :: behind }) ∨
      (∃ done task r, p.workers = before ++ .running task done :: behind ∧ work task = .ok r ∧
        p.hungUp = true ∧ p' = { p with workers := before ++ .returned done :: behind }) ∨
      (∃ done task r, p.workers = before ++ .running task done :: behind ∧ work task = .ok r ∧
        p.hungUp = false ∧
        p' = { p with
          workers := before ++ .idle (done ++ [r]) :: behind, sent := p.sent ++ [(task, r)] })) := by
  unfold advance at h
  cases hworker : p.workers[i]? with
  | none => simp [hworker] at h
  | some worker =>
    obtain ⟨hi, hget⟩ := List.getElem?_eq_some_iff.mp hworker
    have hsplit : p.workers = p.workers.take i ++ worker :: p.workers.drop (i + 1) := by
      rw [← hget, List.getElem_cons_drop, List.take_append_drop]
    have hput : ∀ worker', p.put i worker' =
        { p with workers := p.workers.take i ++ worker' :: p.workers.drop (i + 1) } := by
      intro worker'
      unfold Pool.put
      rw [List.set_eq_take_append_cons_drop, if_pos hi]
    refine ⟨p.workers.take i, p.workers.drop (i + 1), List.length_take_of_le hi.le, ?_⟩
    rw [hworker] at h
    cases worker with
    | idle done =>
      dsimp only at h
      split at h
      · next hqueue =>
        rw [hput] at h
        exact .inl ⟨done, hsplit, hqueue, (Option.some.inj h).symm⟩
      · next task queue hqueue =>
        rw [hput] at h
        exact .inr (.inl ⟨done, task, queue, hsplit, hqueue, (Option.some.inj h).symm⟩)
    | running task done =>
      dsimp only at h
      split at h
      · next e hwork =>
        rw [hput] at h
        exact .inr (.inr (.inl ⟨done, task, e, hsplit, hwork, (Option.some.inj h).symm⟩))
      · next r hwork =>
        rw [hput, hput] at h
        split at h
        · next hup =>
          exact .inr (.inr (.inr (.inl ⟨done, task, r, hsplit, hwork, hup,
            (Option.some.inj h).symm⟩)))
        · next hup =>
          exact .inr (.inr (.inr (.inr ⟨done, task, r, hsplit, hwork, by simpa using hup,
            (Option.some.inj h).symm⟩)))
    | returned done => cases h
    | failed task e => cases h

/-! ## Progress -/

/-- The steps that are left at most. -/
def Pool.weight (p : Pool τ ρ ε) : ℕ := 2 * p.queue.length + (p.workers.map Worker.weight).sum

/-- **Every step of a worker brings the pool closer to its end.** -/
theorem weight_lt (h : advance work p i = some p') : p'.weight < p.weight := by
  obtain ⟨before, behind, -, ⟨done, hworkers, hqueue, rfl⟩ | ⟨done, task, queue, hworkers, hqueue, rfl⟩ |
    ⟨done, task, e, hworkers, -, rfl⟩ | ⟨done, task, r, hworkers, -, -, rfl⟩ |
    ⟨done, task, r, hworkers, -, -, rfl⟩⟩ := advance_cases h
  all_goals
    unfold Pool.weight
    rw [hworkers]
    simp [Worker.weight]
  rw [hqueue, List.length_cons]
  omega

/-- **A pool that has not stopped can go on.** -/
theorem exists_advance (work : τ → Except ε ρ) (h : ¬ p.Stopped) :
    ∃ i p', advance work p i = some p' := by
  unfold Pool.Stopped at h
  push Not at h
  obtain ⟨worker, hmem, hworker⟩ := h
  obtain ⟨i, hi, hget⟩ := List.getElem_of_mem hmem
  have hget? : p.workers[i]? = some worker := List.getElem?_eq_some_iff.mpr ⟨hi, hget⟩
  refine ⟨i, ?_⟩
  unfold advance
  rw [hget?]
  cases worker with
  | idle done => cases p.queue <;> exact ⟨_, rfl⟩
  | running task done =>
    dsimp only
    cases work task with
    | error e => exact ⟨_, rfl⟩
    | ok r =>
      dsimp only
      split
      · exact ⟨_, rfl⟩
      · exact ⟨_, rfl⟩
  | returned done => exact absurd rfl hworker
  | failed task e => exact absurd rfl hworker

/-- A run is no longer than the weight of its pool. -/
theorem length_le_weight {schedule : List ℕ} (h : run work p schedule = some p') :
    schedule.length ≤ p.weight := by
  induction schedule generalizing p with
  | nil => exact Nat.zero_le _
  | cons i schedule ih =>
    obtain ⟨p₁, hadvance, hrun⟩ := Option.bind_eq_some_iff.mp h
    have hlt := weight_lt hadvance
    have hle := ih hrun
    rw [List.length_cons]
    omega

/-! ## Where the tasks are -/

/-- The tasks that the workers have, or have failed on. -/
def Pool.held (p : Pool τ ρ ε) : List τ := p.workers.flatMap Worker.held

/-- **Every task is in one place**: it is waiting, a worker has it or has failed on it, its result
is sent, or it was lost to a receiver that is gone. -/
structure Accounted (work : τ → Except ε ρ) (tasks : List τ) (n : ℕ) (p : Pool τ ρ ε) : Prop where
  length : p.workers.length = n
  tasks : ∃ lost : Multiset τ,
    (p.queue : Multiset τ) + p.held + (p.sent.map Prod.fst) + lost = tasks ∧
      (p.hungUp = false → lost = 0)
  sent : ∀ o ∈ p.sent, work o.1 = .ok o.2
  failed : ∀ task e, .failed task e ∈ p.workers → work task = .error e
  returned : ∀ done, .returned done ∈ p.workers → p.queue = [] ∨ p.hungUp = true
  done : (∀ worker ∈ p.workers, worker.hasFailed = false) →
    ((p.workers.flatMap Worker.done : List ρ) : Multiset ρ) = p.sent.map Prod.snd

theorem accounted_start (work : τ → Except ε ρ) (tasks : List τ) (n : ℕ) :
    Accounted work tasks n (start tasks n) where
  length := List.length_replicate
  tasks := by
    have hheld : (start tasks n : Pool τ ρ ε).held = [] := by
      refine List.flatMap_eq_nil_iff.mpr fun worker hmem => ?_
      rw [List.eq_of_mem_replicate hmem]
      rfl
    exact ⟨0, by rw [hheld]; simp [start], fun _ => rfl⟩
  sent := by simp [start]
  failed := by simp [start]
  returned := by simp [start]
  done := by simp [start, Worker.done]

theorem forall_mem_replace {P : Worker τ ρ ε → Prop} {before behind : List (Worker τ ρ ε)}
    {worker worker' : Worker τ ρ ε} (hworker : P worker)
    (h : ∀ w ∈ before ++ worker' :: behind, P w) : ∀ w ∈ before ++ worker :: behind, P w := by
  intro w hw
  rcases List.mem_append.mp hw with hw | hw
  · exact h w (List.mem_append_left _ hw)
  · rcases List.mem_cons.mp hw with rfl | hw
    · exact hworker
    · exact h w (List.mem_append_right _ (List.mem_cons_of_mem _ hw))

/-- **A step moves a task from one place to the next.** -/
theorem Accounted.step {tasks : List τ} {n : ℕ} (h : Accounted work tasks n p)
    (hstep : Step work p p') : Accounted work tasks n p' := by
  obtain ⟨lost, htasks, hlost⟩ := h.tasks
  have hlength := h.length
  have hfailed := h.failed
  have hreturned := h.returned
  have hdone := h.done
  cases hstep with
  | hangUp =>
    exact { h with
      tasks := ⟨lost, htasks, fun hup => absurd hup (by simp)⟩
      returned := fun done hmem => .inr rfl }
  | advance hadvance =>
    unfold Pool.held at htasks
    obtain ⟨before, behind, -, ⟨done, hworkers, hqueue, rfl⟩ |
      ⟨done, task, queue, hworkers, hqueue, rfl⟩ | ⟨done, task, e, hworkers, hwork, rfl⟩ |
      ⟨done, task, r, hworkers, hwork, hup, rfl⟩ |
      ⟨done, task, r, hworkers, hwork, hup, rfl⟩⟩ := advance_cases hadvance
    all_goals
      rw [hworkers] at htasks hlength hfailed hreturned hdone
      simp only [List.flatMap_append, List.flatMap_cons, Worker.held, ← Multiset.coe_add,
        Multiset.coe_singleton, List.nil_append] at htasks
    -- a worker finds the queue empty
    · refine ⟨by simpa using hlength, ⟨lost, ?_, hlost⟩, h.sent, ?_, fun _ _ => .inl hqueue, ?_⟩
      · simpa [Pool.held, Worker.held] using htasks
      · intro task e hmem
        exact hfailed task e (by simpa using hmem)
      · intro hnone
        simpa [Worker.done] using hdone (forall_mem_replace rfl hnone)
    -- a worker takes a task
    · refine ⟨by simpa using hlength, ⟨lost, ?_, hlost⟩, h.sent, ?_, ?_, ?_⟩
      · rw [hqueue, ← Multiset.cons_coe, ← Multiset.singleton_add] at htasks
        rw [← htasks]
        simp only [Pool.held, List.flatMap_append, List.flatMap_cons, Worker.held,
          ← Multiset.coe_add, Multiset.coe_singleton]
        abel
      · intro task e hmem
        exact hfailed task e (by simpa using hmem)
      · intro done' hmem
        refine .inr ((hreturned done' (by simpa using hmem)).resolve_left ?_)
        rw [hqueue]
        exact List.cons_ne_nil _ _
      · intro hnone
        simpa [Worker.done] using hdone (forall_mem_replace rfl hnone)
    -- a worker fails
    · refine ⟨by simpa using hlength, ⟨lost, ?_, hlost⟩, h.sent, ?_, ?_, ?_⟩
      · simpa [Pool.held, Worker.held] using htasks
      · intro task' e' hmem
        rcases List.mem_append.mp hmem with hmem | hmem
        · exact hfailed task' e' (List.mem_append_left _ hmem)
        · rcases List.mem_cons.mp hmem with heq | hmem
          · obtain ⟨rfl, rfl⟩ := Worker.failed.inj heq
            exact hwork
          · exact hfailed task' e' (List.mem_append_right _ (List.mem_cons_of_mem _ hmem))
      · intro done' hmem
        exact hreturned done' (by simpa using hmem)
      · intro hnone
        exact absurd (hnone (.failed task e) (by simp)) (by simp [Worker.hasFailed])
    -- a worker finds the receiver gone, and its task is lost
    · refine ⟨by simpa using hlength, ⟨lost + {task}, ?_, fun hup' => ?_⟩, h.sent, ?_, ?_, ?_⟩
      · rw [← htasks]
        simp only [Pool.held, List.flatMap_append, List.flatMap_cons, Worker.held,
          ← Multiset.coe_add, List.nil_append]
        abel
      · exact absurd (hup.symm.trans hup') (by simp)
      · intro task e hmem
        exact hfailed task e (by simpa using hmem)
      · intro done' _
        exact .inr hup
      · intro hnone
        simpa [Worker.done] using hdone (forall_mem_replace rfl hnone)
    -- a worker sends a result
    · refine ⟨by simpa using hlength, ⟨lost, ?_, hlost⟩, ?_, ?_, ?_, ?_⟩
      · rw [← htasks]
        simp only [Pool.held, List.flatMap_append, List.flatMap_cons, Worker.held, List.map_append,
          List.map_cons, List.map_nil, ← Multiset.coe_add, Multiset.coe_singleton, List.nil_append]
        abel
      · intro o hmem
        rcases List.mem_append.mp hmem with hmem | hmem
        · exact h.sent o hmem
        · obtain rfl := List.mem_singleton.mp hmem
          exact hwork
      · intro task e hmem
        exact hfailed task e (by simpa using hmem)
      · intro done' hmem
        exact hreturned done' (by simpa using hmem)
      · intro hnone
        have hdone := hdone (forall_mem_replace rfl hnone)
        simp only [List.flatMap_append, List.flatMap_cons, Worker.done, ← Multiset.coe_add] at hdone
        simp only [List.flatMap_append, List.flatMap_cons, Worker.done, List.map_append,
          List.map_cons, List.map_nil, ← Multiset.coe_add]
        rw [← hdone]
        abel

theorem Reachable.accounted {tasks : List τ} {n : ℕ} (h : Reachable work tasks n p) :
    Accounted work tasks n p := by
  induction h with
  | refl => exact accounted_start work tasks n
  | tail _ hstep ih => exact ih.step hstep

/-! ## What is returned -/

variable {severe : ε → Bool} {workers : List (Worker τ ρ ε)}

theorem foldlM_join_of_none (hnone : ∀ w ∈ workers, w.hasFailed = false)
    (joined : List ρ × Option ε) :
    workers.foldlM (join severe) joined = .ok (joined.1 ++ workers.flatMap Worker.done, joined.2) := by
  induction workers generalizing joined with
  | nil =>
    rw [List.flatMap_nil, List.append_nil]
    rfl
  | cons worker workers ih =>
    obtain ⟨hworker, hnone⟩ := List.forall_mem_cons.mp hnone
    have hjoin : join severe joined worker = .ok (joined.1 ++ worker.done, joined.2) := by
      cases worker with
      | failed task e => cases hworker
      | _ => rfl
    rw [List.foldlM_cons, hjoin, List.flatMap_cons, ← List.append_assoc]
    exact ih hnone _

/-- Without a failure, the results are returned in the order of the workers. -/
theorem collect_of_none (severe : ε → Bool) (hnone : ∀ w ∈ workers, w.hasFailed = false) :
    collect severe workers = .ok (workers.flatMap Worker.done) := by
  unfold collect
  rw [foldlM_join_of_none hnone]
  rfl

/-- An error that is met or kept by the loop is that of a worker. -/
theorem error_of_foldlM_join {joined : List ρ × Option ε} :
    (∃ e, workers.foldlM (join severe) joined = .error e ∧ ∃ task, .failed task e ∈ workers) ∨
    (∃ results e, workers.foldlM (join severe) joined = .ok (results, some e) ∧
      (joined.2 = some e ∨ ∃ task, .failed task e ∈ workers)) ∨
    joined.2 = none ∧ ∀ w ∈ workers, w.hasFailed = false := by
  induction workers generalizing joined with
  | nil =>
    obtain ⟨results, error⟩ := joined
    cases error with
    | none => exact .inr (.inr ⟨rfl, by simp⟩)
    | some e => exact .inr (.inl ⟨results, e, rfl, .inl rfl⟩)
  | cons worker workers ih =>
    rw [List.foldlM_cons]
    by_cases hworker : worker.hasFailed = true
    · cases worker with
      | failed task e =>
        by_cases hsevere : severe e = true
        · have hjoin : join severe joined (.failed task e) = .error e := if_pos hsevere
          rw [hjoin]
          exact .inl ⟨e, rfl, task, List.mem_cons_self⟩
        · have hjoin : join severe joined (.failed task e) =
              .ok (joined.1, some (joined.2.getD e)) := if_neg hsevere
          rw [hjoin]
          -- the first error is kept
          rcases @ih (joined.1, some (joined.2.getD e)) with
            ⟨e', hrun, task', hmem⟩ | ⟨results, e', hrun, hkept | ⟨task', hmem⟩⟩ | ⟨hnone, -⟩
          · exact .inl ⟨e', hrun, task', List.mem_cons_of_mem _ hmem⟩
          · refine .inr (.inl ⟨results, e', hrun, ?_⟩)
            cases hfirst : joined.2 with
            | some e'' =>
              rw [hfirst] at hkept
              exact .inl hkept
            | none =>
              rw [hfirst] at hkept
              obtain rfl := Option.some.inj hkept
              exact .inr ⟨task, List.mem_cons_self⟩
          · exact .inr (.inl ⟨results, e', hrun, .inr ⟨task', List.mem_cons_of_mem _ hmem⟩⟩)
          · cases hnone
      | _ => cases hworker
    · have hjoin : join severe joined worker = .ok (joined.1 ++ worker.done, joined.2) := by
        cases worker with
        | failed task e => exact absurd rfl hworker
        | _ => rfl
      rw [hjoin]
      rcases @ih (joined.1 ++ worker.done, joined.2) with
        ⟨e', hrun, task', hmem⟩ | ⟨results, e', hrun, hkept⟩ | ⟨hnone, hall⟩
      · exact .inl ⟨e', hrun, task', List.mem_cons_of_mem _ hmem⟩
      · refine .inr (.inl ⟨results, e', hrun, hkept.imp_right ?_⟩)
        exact fun ⟨task', hmem⟩ => ⟨task', List.mem_cons_of_mem _ hmem⟩
      · exact .inr (.inr ⟨hnone, List.forall_mem_cons.mpr ⟨by simpa using hworker, hall⟩⟩)

/-- With a failure, the error of a worker that has failed is returned. -/
theorem collect_cases (severe : ε → Bool) (workers : List (Worker τ ρ ε)) :
    (∃ task e, .failed task e ∈ workers ∧ collect severe workers = .error e) ∨
      ∀ w ∈ workers, w.hasFailed = false := by
  unfold collect
  rcases @error_of_foldlM_join τ ρ ε severe workers ([], none) with
    ⟨e, hrun, task, hmem⟩ | ⟨results, e, hrun, hnone | ⟨task, hmem⟩⟩ | ⟨-, hall⟩
  · exact .inl ⟨task, e, hmem, by rw [hrun]; rfl⟩
  · cases hnone
  · exact .inl ⟨task, e, hmem, by rw [hrun]; rfl⟩
  · exact .inr hall

section Stopped

variable {tasks : List τ} {n : ℕ}

/-- A worker fails on one of the tasks. -/
theorem Accounted.failed_mem (h : Accounted work tasks n p) {task : τ} {e : ε}
    (hmem : .failed task e ∈ p.workers) : task ∈ tasks ∧ work task = .error e := by
  refine ⟨?_, h.failed task e hmem⟩
  obtain ⟨lost, htasks, -⟩ := h.tasks
  have hheld : task ∈ p.held := List.mem_flatMap.mpr ⟨_, hmem, List.mem_singleton_self task⟩
  rw [← Multiset.mem_coe, ← htasks]
  simp [hheld]

/-- A result is sent for one of the tasks. -/
theorem Accounted.sent_mem (h : Accounted work tasks n p) {o : τ × ρ} (hmem : o ∈ p.sent) :
    o.1 ∈ tasks := by
  obtain ⟨lost, htasks, -⟩ := h.tasks
  have hfirst : o.1 ∈ p.sent.map Prod.fst := List.mem_map_of_mem hmem
  rw [← Multiset.mem_coe, ← htasks]
  exact Multiset.mem_add.mpr (.inl (Multiset.mem_add.mpr (.inr hfirst)))

/-- A pool that returns an error has failed on a task with this error. -/
theorem Accounted.of_collect_eq_error (h : Accounted work tasks n p) {e : ε}
    (hcollect : collect severe p.workers = .error e) : ∃ task ∈ tasks, work task = .error e := by
  rcases collect_cases severe p.workers with ⟨task, e', hmem, herror⟩ | hnone
  · obtain rfl := Except.error.inj (herror.symm.trans hcollect)
    obtain ⟨htask, hwork⟩ := h.failed_mem hmem
    exact ⟨task, htask, hwork⟩
  · cases (collect_of_none severe hnone).symm.trans hcollect

/-- In a pool that has stopped, the tasks held are those that a worker has failed on. -/
theorem Pool.Stopped.exists_failed (h : p.Stopped) {task : τ} (hheld : task ∈ p.held) :
    ∃ e, .failed task e ∈ p.workers := by
  obtain ⟨worker, hmem, htask⟩ := List.mem_flatMap.mp hheld
  have hstopped := h worker hmem
  cases worker with
  | failed task' e =>
    obtain rfl := List.mem_singleton.mp htask
    exact ⟨e, hmem⟩
  | running task' done => cases hstopped
  | idle done => cases hstopped
  | returned done => cases htask

/-- A pool that has stopped with a worker that has not failed has taken every task. -/
theorem Accounted.queue_eq_nil (h : Accounted work tasks n p) (hstopped : p.Stopped)
    (hup : p.hungUp = false) {worker : Worker τ ρ ε} (hmem : worker ∈ p.workers)
    (hworker : worker.hasFailed = false) : p.queue = [] := by
  have hend := hstopped worker hmem
  cases worker with
  | returned done => exact (h.returned done hmem).resolve_right (by simp [hup])
  | failed task e => cases hworker
  | idle done => cases hend
  | running task done => cases hend

/-- **A pool that has stopped without a failure** has sent the result of every task, and returns
them all. -/
theorem Accounted.collect_eq_ok (severe : ε → Bool) (h : Accounted work tasks n p)
    (hstopped : p.Stopped) (hup : p.hungUp = false) (hn : tasks ≠ [] → 0 < n) {f : τ → ρ}
    (hwork : ∀ task ∈ tasks, work task = .ok (f task)) :
    ∃ results, collect severe p.workers = .ok results ∧
      p.sent.Perm (tasks.map fun task => (task, f task)) ∧ results.Perm (tasks.map f) := by
  have hnone : ∀ worker ∈ p.workers, worker.hasFailed = false := by
    intro worker hmem
    cases worker with
    | failed task e =>
      obtain ⟨htask, herror⟩ := h.failed_mem hmem
      cases (hwork task htask).symm.trans herror
    | _ => rfl
  have hheld : p.held = [] := by
    refine List.eq_nil_iff_forall_not_mem.mpr fun task htask => ?_
    obtain ⟨e, hmem⟩ := hstopped.exists_failed htask
    cases hnone _ hmem
  obtain ⟨lost, htasks, hlost⟩ := h.tasks
  have hqueue : p.queue = [] := by
    by_cases htasks' : tasks = []
    · subst htasks'
      have hzero : (p.queue : Multiset τ) = 0 := by
        refine Multiset.le_zero.mp ?_
        rw [← Multiset.coe_nil, ← htasks, add_assoc, add_assoc]
        exact Multiset.le_add_right _ _
      simpa using hzero
    · obtain ⟨worker, hmem⟩ := List.exists_mem_of_length_pos (h.length ▸ hn htasks')
      exact h.queue_eq_nil hstopped hup hmem (hnone worker hmem)
  rw [hqueue, hheld, hlost hup] at htasks
  have hfirst : (p.sent.map Prod.fst).Perm tasks := by simpa using htasks
  -- what is sent for a task is its result
  have hsent : p.sent = (p.sent.map Prod.fst).map fun task => (task, f task) := by
    rw [List.map_map]
    refine (List.map_id p.sent).symm.trans (List.map_congr_left fun o ho => ?_)
    have htask := hfirst.subset (List.mem_map_of_mem ho)
    exact Prod.ext rfl (Except.ok.inj ((h.sent o ho).symm.trans (hwork o.1 htask)))
  have hperm : p.sent.Perm (tasks.map fun task => (task, f task)) := by
    rw [hsent]
    exact hfirst.map _
  refine ⟨p.workers.flatMap Worker.done, collect_of_none severe hnone, hperm, ?_⟩
  have hresults := (Multiset.coe_eq_coe.mp (h.done hnone)).trans (hperm.map Prod.snd)
  rwa [List.map_map] at hresults

/-- **A pool that has stopped with a task that fails** returns the error of such a task. -/
theorem Accounted.collect_eq_error (severe : ε → Bool) (h : Accounted work tasks n p)
    (hstopped : p.Stopped) (hup : p.hungUp = false) (hn : tasks ≠ [] → 0 < n) {task : τ}
    (htask : task ∈ tasks) {e : ε}
    (hwork : work task = .error e) :
    ∃ task' ∈ tasks, ∃ e', work task' = .error e' ∧ collect severe p.workers = .error e' := by
  rcases collect_cases severe p.workers with ⟨task', e', hmem, hcollect⟩ | hnone
  · obtain ⟨htask', hwork'⟩ := h.failed_mem hmem
    exact ⟨task', htask', e', hwork', hcollect⟩
  · exfalso
    obtain ⟨worker, hmem⟩ := List.exists_mem_of_length_pos
      (h.length ▸ hn (List.ne_nil_of_mem htask))
    have hqueue := h.queue_eq_nil hstopped hup hmem (hnone worker hmem)
    obtain ⟨lost, htasks, hlost⟩ := h.tasks
    rw [hqueue, hlost hup] at htasks
    -- the task is neither held nor sent
    have hplace : task ∈ p.held ∨ task ∈ p.sent.map Prod.fst := by
      rw [← Multiset.mem_coe, ← htasks] at htask
      simpa using htask
    rcases hplace with hheld | hsent
    · obtain ⟨e', hmem'⟩ := hstopped.exists_failed hheld
      cases hnone _ hmem'
    · obtain ⟨o, ho, rfl⟩ := List.mem_map.mp hsent
      cases (h.sent o ho).symm.trans hwork

/-- The tasks that the workers have failed on are among those they hold. -/
theorem sublist_held (workers : List (Worker τ ρ ε)) :
    (workers.filterMap Worker.failedOn).Sublist (workers.flatMap Worker.held) := by
  induction workers with
  | nil => exact .slnil
  | cons worker workers ih =>
    rw [List.flatMap_cons]
    cases worker with
    | failed task e => exact ih.cons_cons task
    | running task done => exact ih.cons task
    | idle done => exact ih
    | returned done => exact ih

/-- What is sent and what is held are different tasks. -/
theorem Accounted.subperm (h : Accounted work tasks n p) :
    (p.sent.map Prod.fst ++ p.held).Subperm tasks := by
  obtain ⟨lost, htasks, -⟩ := h.tasks
  rw [← Multiset.coe_le, ← htasks, ← Multiset.coe_add, add_comm (p.sent.map Prod.fst : Multiset τ),
    add_assoc (p.queue : Multiset τ)]
  exact (Multiset.le_add_left _ _).trans (Multiset.le_add_right _ _)

/-- Whether a task fails. -/
def fails (work : τ → Except ε ρ) (task : τ) : Bool :=
  match work task with
  | .error _ => true
  | .ok _ => false

theorem countP_held {workers : List (Worker τ ρ ε)} (hstopped : ∀ w ∈ workers, w.hasStopped)
    (hfailed : ∀ task e, .failed task e ∈ workers → work task = .error e) :
    (workers.flatMap Worker.held).countP (fails work) = workers.countP Worker.hasFailed := by
  induction workers with
  | nil => rfl
  | cons worker workers ih =>
    obtain ⟨hstop, hstopped⟩ := List.forall_mem_cons.mp hstopped
    have ih := ih hstopped fun task e hmem => hfailed task e (List.mem_cons_of_mem _ hmem)
    rw [List.flatMap_cons, List.countP_append, ih, List.countP_cons]
    cases worker with
    | failed task e =>
      have hfails : fails work task = true := by
        unfold fails
        rw [hfailed task e List.mem_cons_self]
      simp [Worker.held, Worker.hasFailed, hfails, Nat.add_comm]
    | returned done => simp [Worker.held, Worker.hasFailed]
    | idle done => cases hstop
    | running task done => cases hstop

/-- **How many workers fail**: all of them, unless fewer tasks fail. -/
theorem Accounted.card_failed (h : Accounted work tasks n p) (hstopped : p.Stopped)
    (hup : p.hungUp = false) :
    p.workers.countP Worker.hasFailed = min n (tasks.countP (fails work)) := by
  obtain ⟨lost, htasks, hlost⟩ := h.tasks
  rw [hlost hup, add_zero, Multiset.coe_add, Multiset.coe_add] at htasks
  have hsent : (p.sent.map Prod.fst).countP (fails work) = 0 := by
    refine List.countP_eq_zero.mpr fun task hmem => ?_
    obtain ⟨o, ho, rfl⟩ := List.mem_map.mp hmem
    unfold fails
    rw [h.sent o ho]
    simp
  have hcount : tasks.countP (fails work) =
      p.queue.countP (fails work) + p.workers.countP Worker.hasFailed := by
    rw [← (Multiset.coe_eq_coe.mp htasks).countP_eq, List.countP_append, List.countP_append, hsent,
      Pool.held, countP_held hstopped h.failed, Nat.add_zero]
  have hle := List.countP_le_length (p := Worker.hasFailed) (l := p.workers)
  rw [h.length] at hle
  by_cases hall : ∀ worker ∈ p.workers, worker.hasFailed = true
  · -- every worker has failed
    have heq := List.countP_eq_length.mpr hall
    rw [h.length] at heq
    omega
  · -- some worker has found the queue empty
    push Not at hall
    obtain ⟨worker, hmem, hworker⟩ := hall
    rw [h.queue_eq_nil hstopped hup hmem (by simpa using hworker), List.countP_nil] at hcount
    omega

/-- Workers that are more than the tasks that fail send the results of all other tasks. -/
theorem Accounted.sent_perm_of_lt (h : Accounted work tasks n p) (hstopped : p.Stopped)
    (hup : p.hungUp = false) (hlt : tasks.countP (fails work) < n) :
    (p.sent.map Prod.fst).Perm (tasks.filter fun task => !fails work task) := by
  have hcard := h.card_failed hstopped hup
  obtain ⟨worker, hmem, hworker⟩ : ∃ worker ∈ p.workers, worker.hasFailed = false := by
    by_contra hnone
    push Not at hnone
    have heq := List.countP_eq_length.mpr fun w hw => Bool.eq_true_of_not_eq_false (hnone w hw)
    rw [h.length] at heq
    omega
  obtain ⟨lost, htasks, hlost⟩ := h.tasks
  rw [h.queue_eq_nil hstopped hup hmem hworker, hlost hup, add_zero, Multiset.coe_nil, zero_add,
    Multiset.coe_add] at htasks
  have hheld : p.held.filter (fun task => !fails work task) = [] := by
    refine List.filter_eq_nil_iff.mpr fun task hmem => ?_
    obtain ⟨e, hfailed⟩ := hstopped.exists_failed hmem
    unfold fails
    rw [h.failed task e hfailed]
    simp
  have hsent : (p.sent.map Prod.fst).filter (fun task => !fails work task) =
      p.sent.map Prod.fst := by
    refine List.filter_eq_self.mpr fun task hmem => ?_
    obtain ⟨o, ho, rfl⟩ := List.mem_map.mp hmem
    unfold fails
    rw [h.sent o ho]
    rfl
  have hperm := (Multiset.coe_eq_coe.mp htasks).filter fun task => !fails work task
  rwa [List.filter_append, hheld, hsent, List.nil_append] at hperm

end Stopped

/-! ## Runs -/

/-- Results are sent one after the other. -/
theorem sent_prefix (h : advance work p i = some p') : p.sent <+: p'.sent := by
  obtain ⟨before, behind, -, ⟨done, -, -, rfl⟩ | ⟨done, task, queue, -, -, rfl⟩ |
    ⟨done, task, e, -, -, rfl⟩ | ⟨done, task, r, -, -, -, rfl⟩ |
    ⟨done, task, r, -, -, -, rfl⟩⟩ := advance_cases h
  · exact List.prefix_rfl
  · exact List.prefix_rfl
  · exact List.prefix_rfl
  · exact List.prefix_rfl
  · exact List.prefix_append _ _

/-- A pool that has stopped does not go on. -/
theorem Pool.Stopped.advance_eq_none (work : τ → Except ε ρ) (h : p.Stopped) (i : ℕ) :
    advance work p i = none := by
  unfold advance
  cases hworker : p.workers[i]? with
  | none => rfl
  | some worker =>
    have hstopped := h worker (List.mem_of_getElem? hworker)
    cases worker with
    | returned done => rfl
    | failed task e => rfl
    | idle done => cases hstopped
    | running task done => cases hstopped

theorem advance_hungUp (h : advance work p i = some p') : p'.hungUp = p.hungUp := by
  obtain ⟨before, behind, -, ⟨done, -, -, rfl⟩ | ⟨done, task, queue, -, -, rfl⟩ |
    ⟨done, task, e, -, -, rfl⟩ | ⟨done, task, r, -, -, -, rfl⟩ |
    ⟨done, task, r, -, -, -, rfl⟩⟩ := advance_cases h
  all_goals rfl

/-- Workers that only advance reach what they reach with the receiver listening. -/
theorem reachable_of_run {tasks : List τ} {n : ℕ} {schedule : List ℕ}
    (h : run work (start tasks n) schedule = some p) :
    Reachable work tasks n p ∧ p.hungUp = false := by
  induction schedule using List.reverseRecOn generalizing p with
  | nil =>
    obtain rfl := Option.some.inj h
    exact ⟨.refl, rfl⟩
  | append_singleton schedule i ih =>
    unfold run at h ih
    rw [List.foldlM_append] at h
    obtain ⟨p₁, hrun, hlast⟩ := Option.bind_eq_some_iff.mp h
    obtain ⟨hreachable, hup⟩ := ih hrun
    obtain ⟨p₂, hadvance, hp⟩ := Option.bind_eq_some_iff.mp hlast
    obtain rfl := Option.some.inj hp
    exact ⟨.tail hreachable (.advance hadvance), (advance_hungUp hadvance).trans hup⟩

theorem weight_start (tasks : List τ) (n : ℕ) :
    (start tasks n : Pool τ ρ ε).weight = 2 * tasks.length + n := by
  simp [start, Pool.weight, Worker.weight]

/-- **Every run ends**: it is bounded, and goes on until all workers have stopped. -/
theorem ends_of_run {tasks : List τ} {n : ℕ} {schedule : List ℕ}
    (h : run work (start tasks n) schedule = some p) :
    schedule.length ≤ 2 * tasks.length + n ∧ (p.Stopped ∨ ∃ i p', advance work p i = some p') := by
  have hle := length_le_weight h
  rw [weight_start] at hle
  refine ⟨hle, ?_⟩
  by_cases hstopped : p.Stopped
  · exact .inl hstopped
  · exact .inr (exists_advance work hstopped)

end WorkerPool
