import CfxMinimalExecution.Library.Cursor

/-!
# Programs that return

A program is graceful when it returns a value or an error: it does not panic, and in a build with
overflow checks no word operation overflows. When a sequence is graceful is read off step by step,
every step under the condition that the ones before it return.

## Main definitions

* `Graceful r`: the program returned a value or an error

## Main results

* `graceful_bind`: a sequence of two programs
* `graceful_slice`, `graceful_usize`, `graceful_addU64`: the steps that are not always graceful
* `graceful_mapM_run`, `graceful_mapM`, `graceful_foldlM`: loops
-/

variable {α β σ : Type}

/-- A value or an error that the program returns. -/
def Graceful (r : Result α) : Prop := r ≠ .error .panic ∧ r ≠ .error .overflow

/-! ## Steps -/

@[simp] theorem graceful_ok (a : α) : Graceful (.ok a : Result α) := ⟨nofun, nofun⟩

@[simp] theorem graceful_pure (a : α) : Graceful (pure a : Result α) := ⟨nofun, nofun⟩

@[simp] theorem graceful_error (message : String) :
    Graceful (.error (.error message) : Result α) := by
  constructor <;> exact fun h => by cases h

@[simp] theorem not_graceful_panic : ¬ Graceful (.error .panic : Result α) := fun h => h.1 rfl

@[simp] theorem not_graceful_overflow : ¬ Graceful (.error .overflow : Result α) := fun h => h.2 rfl

instance Graceful.instDecidable : (r : Result α) → Decidable (Graceful r)
  | .ok a => isTrue (graceful_ok a)
  | .error (.error message) => isTrue (graceful_error message)
  | .error .panic => isFalse not_graceful_panic
  | .error .overflow => isFalse not_graceful_overflow

/-- **A sequence is graceful** when its first part is, and so is the rest after every value. -/
theorem graceful_bind {x : Result α} {f : α → Result β} :
    Graceful (x >>= f) ↔ Graceful x ∧ ∀ a, x = .ok a → Graceful (f a) := by
  cases x with
  | ok a => simp
  | error e =>
    have hsame : Graceful (.error e : Result β) ↔ Graceful (.error e : Result α) := by
      simp [Graceful]
    simpa using hsame

/-- A first part that always returns. -/
theorem graceful_step {x : Result α} {f : α → Result β} (hx : Graceful x) :
    Graceful (x >>= f) ↔ ∀ a, x = .ok a → Graceful (f a) :=
  graceful_bind.trans (and_iff_right hx)

@[simp] theorem graceful_map {x : Result α} {f : α → β} : Graceful (f <$> x) ↔ Graceful x := by
  cases x <;> simp [Graceful]

@[simp] theorem graceful_ensure (p : Prop) [Decidable p] (message : String) :
    Graceful (ensure p message) := by
  unfold ensure
  split
  · exact graceful_ok ()
  · exact graceful_error message

@[simp] theorem graceful_okOr (message : String) (o : Option α) : Graceful (okOr message o) := by
  cases o with
  | none => exact graceful_error message
  | some a => exact graceful_ok a

@[simp] theorem graceful_context {message : String} {r : Result α} :
    Graceful (context message r) ↔ Graceful r := by
  rcases r with (_ | _ | _) | a <;> simp [context]

@[simp] theorem graceful_slice {data : List α} {i j : ℕ} :
    Graceful (slice data i j) ↔ i ≤ j ∧ j ≤ data.length := by
  unfold slice
  split
  case isTrue h => simp [h]
  case isFalse h => simp [h]

@[simp] theorem graceful_indexAt {data : List α} {i : ℕ} :
    Graceful (indexAt data i) ↔ i < data.length := by
  unfold indexAt
  split
  case h_1 a h => simpa using (List.getElem?_eq_some_iff.mp h).1
  case h_2 h => simpa using List.getElem?_eq_none_iff.mp h

/-! ## Word arithmetic -/

section Checked

variable {profile : Profile} (hchecked : profile.overflowChecks = true)

include hchecked

theorem graceful_usize {n : ℕ} : Graceful (profile.usize n) ↔ n < UInt64.size := by
  unfold Profile.usize
  split
  case isTrue h => simp [h]
  case isFalse h => simp [h]

theorem graceful_addU64 {a b : UInt64} :
    Graceful (profile.addU64 a b) ↔ a.toNat + b.toNat < UInt64.size := by
  unfold Profile.addU64
  split
  case isTrue h => simpa using h.2
  case isFalse h => simpa [hchecked] using h

theorem graceful_addU32 {a b : UInt32} :
    Graceful (profile.addU32 a b) ↔ a.toNat + b.toNat < UInt32.size := by
  unfold Profile.addU32
  split
  case isTrue h => simpa using h.2
  case isFalse h => simpa [hchecked] using h

theorem graceful_addU32_bind {a b : UInt32} {f : UInt32 → Result β} :
    Graceful (profile.addU32 a b >>= f) ↔
      a.toNat + b.toNat < UInt32.size ∧ Graceful (f (a + b)) := by
  rw [graceful_bind, graceful_addU32 hchecked]
  refine and_congr_right fun h => ?_
  simp only [Profile.addU32_of_lt h, Except.ok.injEq, forall_eq']

/-- The value of a checked operation is exact. -/
theorem graceful_usize_bind {n : ℕ} {f : ℕ → Result β} :
    Graceful (profile.usize n >>= f) ↔ n < UInt64.size ∧ Graceful (f n) := by
  rw [graceful_bind, graceful_usize hchecked]
  refine and_congr_right fun h => ?_
  simp only [Profile.usize_of_lt h, Except.ok.injEq, forall_eq']

theorem graceful_addUsize_bind {a b : ℕ} {f : ℕ → Result β} :
    Graceful (profile.addUsize a b >>= f) ↔ a + b < UInt64.size ∧ Graceful (f (a + b)) :=
  graceful_usize_bind hchecked

theorem graceful_mulUsize_bind {a b : ℕ} {f : ℕ → Result β} :
    Graceful (profile.mulUsize a b >>= f) ↔ a * b < UInt64.size ∧ Graceful (f (a * b)) :=
  graceful_usize_bind hchecked

theorem graceful_addU64_bind {a b : UInt64} {f : UInt64 → Result β} :
    Graceful (profile.addU64 a b >>= f) ↔
      a.toNat + b.toNat < UInt64.size ∧ Graceful (f (a + b)) := by
  rw [graceful_bind, graceful_addU64 hchecked]
  refine and_congr_right fun h => ?_
  simp only [Profile.addU64_of_lt h, Except.ok.injEq, forall_eq']

end Checked

/-! ## Readers -/

theorem graceful_run_bind {x : StateT σ Result α} {f : α → StateT σ Result β} {s : σ} :
    Graceful ((x >>= f).run s) ↔
      Graceful (x.run s) ∧ ∀ a s', x.run s = .ok (a, s') → Graceful ((f a).run s') := by
  rw [StateT.run_bind, graceful_bind, Prod.forall]

/-- A reader that always returns before another one. -/
theorem graceful_run_step {x : StateT σ Result α} {f : α → StateT σ Result β} {s : σ}
    (hx : Graceful (x.run s)) :
    Graceful ((x >>= f).run s) ↔ ∀ a s', x.run s = .ok (a, s') → Graceful ((f a).run s') :=
  graceful_run_bind.trans (and_iff_right hx)

/-- A step that does not look at the state. -/
theorem graceful_run_liftM_bind {r : Result α} {f : α → StateT σ Result β} {s : σ} :
    Graceful ((liftM r >>= f : StateT σ Result β).run s) ↔
      Graceful (r >>= fun a => (f a).run s) := by
  cases r with
  | ok a => rfl
  | error e => exact Iff.rfl

theorem graceful_run_liftM {r : Result α} {s : σ} :
    Graceful ((liftM r : StateT σ Result α).run s) ↔ Graceful r := by
  cases r with
  | ok a => exact iff_of_true (graceful_ok (a, s)) (graceful_ok a)
  | error e =>
    show Graceful (.error e : Result (α × σ)) ↔ Graceful (.error e : Result α)
    simp [Graceful]

/-- A reader that looks where it stands. -/
theorem graceful_run_get_bind {f : σ → StateT σ Result β} {s : σ} :
    Graceful ((get >>= f : StateT σ Result β).run s) ↔ Graceful ((f s).run s) := Iff.rfl

/-- What the reader returns from the offset, and where it stops, have the property. -/
def Cursor.Then (r : Cursor α) (offset : ℕ) (P : α → ℕ → Prop) : Prop :=
  ∀ a stop, r.run offset = .ok (a, stop) → P a stop

namespace Cursor

theorem then_pure {a : α} {offset : ℕ} {P : α → ℕ → Prop} :
    (pure a : Cursor α).Then offset P ↔ P a offset :=
  ⟨fun h => h a offset rfl, fun h a' stop hrun => by
    obtain ⟨rfl, rfl⟩ := Prod.mk.inj (Except.ok.inj hrun)
    exact h⟩

/-- What a reader returns after another one. -/
theorem then_bind {r : Cursor α} {f : α → Cursor β} {offset : ℕ} {P : β → ℕ → Prop} :
    (r >>= f).Then offset P ↔ r.Then offset fun a middle => (f a).Then middle P := by
  unfold Cursor.Then
  simp only [StateT.run_bind, Except.bind_eq_ok, Prod.exists]
  constructor
  · intro h a middle ha b stop hb
    exact h b stop ⟨a, middle, ha, hb⟩
  · rintro h b stop ⟨a, middle, ha, hb⟩
    exact h a middle ha b stop hb

theorem then_congr {r : Cursor α} {offset : ℕ} {P Q : α → ℕ → Prop} (h : ∀ a stop, P a stop ↔ Q a stop) :
    r.Then offset P ↔ r.Then offset Q := forall₃_congr fun a stop _ => h a stop

/-- A reader three times over. -/
theorem then_times_three {r : Cursor α} {offset : ℕ} {P : Unit → ℕ → Prop} :
    (Cursor.times r 3).Then offset P ↔
      r.Then offset fun _ offset => r.Then offset fun _ offset => r.Then offset (fun _ => P ()) := by
  simp only [Cursor.times, then_bind, then_pure]

end Cursor

/-- A reader that is graceful from every position. -/
def Cursor.IsGraceful (r : Cursor α) : Prop := ∀ offset, Graceful (r.run offset)

namespace Cursor.IsGraceful

theorem pure (a : α) : IsGraceful (Pure.pure a : Cursor α) := fun offset => graceful_ok (a, offset)

theorem bind {r : Cursor α} {f : α → Cursor β} (hr : IsGraceful r) (hf : ∀ a, IsGraceful (f a)) :
    IsGraceful (r >>= f) :=
  fun offset => graceful_run_bind.mpr ⟨hr offset, fun a stop _ => hf a stop⟩

theorem lift {r : Result α} (h : Graceful r) : IsGraceful (liftM r : Cursor α) :=
  fun _ => graceful_run_liftM.mpr h

theorem get_bind {f : ℕ → Cursor β} (hf : ∀ offset, Graceful ((f offset).run offset)) :
    IsGraceful (get >>= f) := fun offset => graceful_run_get_bind.mpr (hf offset)

theorem set_bind (offset : ℕ) {r : Cursor β} (hr : IsGraceful r) :
    IsGraceful (set offset >>= fun _ => r) := bind (fun _ => graceful_ok _) fun _ => hr

/-- The rest of a reader, after a part that always returns. -/
theorem run_bind_iff {r : Cursor α} {f : α → Cursor β} {offset : ℕ} (hr : IsGraceful r) :
    Graceful ((r >>= f).run offset) ↔ r.Then offset fun a stop => Graceful ((f a).run stop) :=
  graceful_run_step (hr offset)

theorem times {r : Cursor α} (h : IsGraceful r) (n : ℕ) : IsGraceful (Cursor.times r n) := by
  induction n with
  | zero => exact pure ()
  | succ n ih => exact bind h fun _ => ih

end Cursor.IsGraceful

/-! ## Loops -/

/-- **A loop is graceful** when every round that is reached is. -/
theorem graceful_mapM_run {f : α → StateT σ Result β} {l : List α} {s : σ} :
    Graceful ((l.mapM f).run s) ↔ ∀ done a rest bs s', l = done ++ a :: rest →
      Rounds f s done bs s' → Graceful ((f a).run s') := by
  unfold Graceful
  simp only [ne_eq, mapM_run_eq_error, not_exists, not_and]
  constructor
  · intro h done a rest bs s' hl hdone
    exact ⟨h.1 done a rest bs s' hl hdone, h.2 done a rest bs s' hl hdone⟩
  · intro h
    exact ⟨fun done a rest bs s' hl hdone => (h done a rest bs s' hl hdone).1,
      fun done a rest bs s' hl hdone => (h done a rest bs s' hl hdone).2⟩

/-- A loop without a state. -/
theorem graceful_mapM {f : α → Result β} {l : List α} :
    Graceful (l.mapM f) ↔ ∀ done a rest bs, l = done ++ a :: rest → done.mapM f = .ok bs →
      Graceful (f a) := by
  induction l with
  | nil => simp
  | cons first l ih =>
    rw [List.mapM_cons, graceful_bind]
    constructor
    · rintro ⟨hfirst, hrest⟩ done a rest bs hl hdone
      rcases done with _ | ⟨_, done⟩
      · obtain ⟨rfl, rfl⟩ := List.cons.inj hl
        exact hfirst
      · obtain ⟨rfl, hl'⟩ := List.cons.inj hl
        rw [List.mapM_cons, Except.bind_eq_ok] at hdone
        obtain ⟨b, hb, hdone⟩ := hdone
        obtain ⟨bs', hbs', -⟩ := Except.bind_eq_ok.mp hdone
        exact ih.mp (graceful_bind.mp (hrest b hb)).1 done a rest bs' hl' hbs'
    · intro h
      refine ⟨h [] first l [] rfl rfl, fun b hb => graceful_bind.mpr ⟨ih.mpr ?_, fun _ _ => by simp⟩⟩
      intro done a rest bs hl hdone
      refine h (first :: done) a rest (b :: bs) (by rw [hl, List.cons_append]) ?_
      rw [List.mapM_cons, hb, hdone]
      rfl

theorem graceful_foldlM {f : β → α → Result β} {l : List α} {b : β} :
    Graceful (l.foldlM f b) ↔ ∀ done a rest b', l = done ++ a :: rest → done.foldlM f b = .ok b' →
      Graceful (f b' a) := by
  induction l generalizing b with
  | nil => simp
  | cons first l ih =>
    rw [List.foldlM_cons, graceful_bind]
    constructor
    · rintro ⟨hfirst, hrest⟩ done a rest b' hl hdone
      rcases done with _ | ⟨_, done⟩
      · obtain ⟨rfl, rfl⟩ := List.cons.inj hl
        obtain rfl := Except.ok.inj hdone
        exact hfirst
      · obtain ⟨rfl, hl'⟩ := List.cons.inj hl
        rw [List.foldlM_cons, Except.bind_eq_ok] at hdone
        obtain ⟨b₁, hb₁, hdone⟩ := hdone
        exact ih.mp (hrest b₁ hb₁) done a rest b' hl' hdone
    · intro h
      refine ⟨h [] first l b rfl rfl, fun b₁ hb₁ => ih.mpr fun done a rest b' hl hdone => ?_⟩
      refine h (first :: done) a rest b' (by rw [hl, List.cons_append]) ?_
      rw [List.foldlM_cons, hb₁, Except.ok_bind, hdone]

/-! ## Loops over positions -/

/-- The rounds before a round of a loop over positions. -/
theorem range_eq_append_cons {n i : ℕ} {done rest : List ℕ} :
    List.range n = done ++ i :: rest ↔
      i < n ∧ done = List.range i ∧ rest = List.range' (i + 1) (n - i - 1) := by
  simp only [List.range_eq_range', List.range'_eq_append_iff, eq_comm (a := i :: rest),
    List.range'_eq_cons_iff, Nat.zero_add, Nat.mul_one]
  constructor
  · rintro ⟨_, hk, rfl, rfl, hpos, rfl⟩
    exact ⟨by omega, rfl, rfl⟩
  · rintro ⟨hi, rfl, rfl⟩
    exact ⟨i, by omega, rfl, rfl, by omega, rfl⟩

theorem graceful_mapM_range {f : ℕ → Result β} {n : ℕ} :
    Graceful ((List.range n).mapM f) ↔
      ∀ i < n, ∀ bs, (List.range i).mapM f = .ok bs → Graceful (f i) := by
  rw [graceful_mapM]
  constructor
  · intro h i hi bs hdone
    exact h _ i _ bs (range_eq_append_cons.mpr ⟨hi, rfl, rfl⟩) hdone
  · intro h done i rest bs hl hdone
    obtain ⟨hi, rfl, -⟩ := range_eq_append_cons.mp hl
    exact h i hi bs hdone

theorem graceful_mapM_range_run {f : ℕ → StateT σ Result β} {s : σ} {n : ℕ} :
    Graceful (((List.range n).mapM f).run s) ↔
      ∀ i < n, ∀ bs s', Rounds f s (List.range i) bs s' → Graceful ((f i).run s') := by
  rw [graceful_mapM_run]
  constructor
  · intro h i hi bs s' hdone
    exact h _ i _ bs s' (range_eq_append_cons.mpr ⟨hi, rfl, rfl⟩) hdone
  · intro h done i rest bs s' hl hdone
    obtain ⟨hi, rfl, -⟩ := range_eq_append_cons.mp hl
    exact h i hi bs s' hdone
