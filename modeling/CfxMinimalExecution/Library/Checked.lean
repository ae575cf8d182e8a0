import CfxMinimalExecution.Library.Fallible
import Mathlib.Data.List.Forall2

/-!
# Checked programs

A program returns a value or an error. It can also panic, at an index or a slice out of range, and
an addition or a multiplication that does not fit its word fails when the program is built with
overflow checks and wraps around when it is not.

## Main definitions

* `Failure`, `Result`: the ways a program ends
* `ensure`, `okOr`, `context`: errors
* `slice`, `indexAt`: reads that panic out of range
* `addUsize`, `mulUsize`, `addU64`, `subU64`, `mulU64`, `addU32`: word arithmetic under a build profile
* `Rounds f s l bs s'`: the loop over `l` with the body `f` runs from `s` to `s'`

## Main results

* `mapM_run_eq_ok`, `mapM_eq_ok`, `mapM_range_eq_ok_iff`, `mapM_run_eq_error`: what a loop does is
  what its rounds do
-/

/-- The ways a program ends without a value. -/
inductive Failure where
  /-- An error that the program returns. -/
  | error (message : String)
  /-- An index or a slice out of range. -/
  | panic
  /-- A word operation out of range, in a build with overflow checks. -/
  | overflow
deriving DecidableEq

abbrev Result (α : Type) : Type := Except Failure α

instance Except.instDecidableEq {ε α : Type} [DecidableEq ε] [DecidableEq α] :
    DecidableEq (Except ε α)
  | .ok a, .ok b => decidable_of_iff (a = b) (by simp)
  | .error e, .error e' => decidable_of_iff (e = e') (by simp)
  | .ok _, .error _ => isFalse nofun
  | .error _, .ok _ => isFalse nofun

namespace Except

variable {ε : Type} {α β : Type}

@[simp] theorem pure_def (a : α) : (pure a : Except ε α) = .ok a := rfl

@[simp] theorem throw_def (e : ε) : (throw e : Except ε α) = .error e := rfl

theorem bind_eq_ok {x : Except ε α} {f : α → Except ε β} {b : β} :
    (x >>= f) = .ok b ↔ ∃ a, x = .ok a ∧ f a = .ok b := by
  cases x <;> simp

theorem map_eq_ok {x : Except ε α} {f : α → β} {b : β} :
    f <$> x = .ok b ↔ ∃ a, x = .ok a ∧ f a = b := by
  cases x <;> simp

theorem bind_eq_error {x : Except ε α} {f : α → Except ε β} {e : ε} :
    (x >>= f) = .error e ↔ x = .error e ∨ ∃ a, x = .ok a ∧ f a = .error e := by
  cases x <;> simp

end Except

/-! ## Errors and panics -/

def ensure (p : Prop) [Decidable p] (message : String) : Result Unit :=
  if p then .ok () else .error (.error message)

def okOr {α : Type} (message : String) : Option α → Result α
  | some a => .ok a
  | none => .error (.error message)

/-- An error is reported under a message of the caller. -/
def context {α : Type} (message : String) : Result α → Result α
  | .error (.error _) => .error (.error message)
  | r => r

/-- The elements from `i` up to `j`. -/
def slice {α : Type} (data : List α) (i j : ℕ) : Result (List α) :=
  if i ≤ j ∧ j ≤ data.length then .ok ((data.take j).drop i) else .error .panic

def indexAt {α : Type} (data : List α) (i : ℕ) : Result α :=
  match data[i]? with
  | some a => .ok a
  | none => .error .panic

@[simp] theorem ensure_eq_ok {p : Prop} [Decidable p] {message : String} {u : Unit} :
    ensure p message = .ok u ↔ p := by
  unfold ensure
  split <;> simp_all

theorem ensure_of {p : Prop} [Decidable p] {message : String} (h : p) :
    ensure p message = .ok () := if_pos h

theorem ensure_eq_error {p : Prop} [Decidable p] {message : String} {e : Failure} :
    ensure p message = .error e ↔ ¬ p ∧ e = .error message := by
  unfold ensure
  split <;> simp_all [eq_comm]

@[simp] theorem okOr_eq_ok {α : Type} {message : String} {o : Option α} {a : α} :
    okOr message o = .ok a ↔ o = some a := by
  cases o <;> simp [okOr]

@[simp] theorem context_eq_ok {α : Type} {message : String} {r : Result α} {a : α} :
    context message r = .ok a ↔ r = .ok a := by
  unfold context
  split <;> simp_all

@[simp] theorem slice_eq_ok {α : Type} {data x : List α} {i j : ℕ} :
    slice data i j = .ok x ↔ (i ≤ j ∧ j ≤ data.length) ∧ (data.take j).drop i = x := by
  unfold slice
  split
  case isTrue h => simp [h]
  case isFalse h => simp only [reduceCtorEq, false_iff]; exact fun hx => h hx.1

/-- The slice of a middle part. -/
theorem slice_append {α : Type} {data pre x post : List α} (h : data = pre ++ x ++ post) :
    slice data pre.length (pre.length + x.length) = .ok x := by
  subst h
  rw [slice_eq_ok]
  refine ⟨⟨by omega, by simp⟩, ?_⟩
  rw [← List.length_append, List.take_left, List.drop_left]

@[simp] theorem indexAt_eq_ok {α : Type} {data : List α} {i : ℕ} {a : α} :
    indexAt data i = .ok a ↔ data[i]? = some a := by
  unfold indexAt
  split <;> simp_all

/-! ## Word arithmetic -/

/-- How the program is built. -/
structure Profile where
  overflowChecks : Bool

namespace Profile

variable (profile : Profile)

/-- A position or a length, computed as `n`. -/
def usize (n : ℕ) : Result ℕ :=
  if n < UInt64.size then .ok n
  else if profile.overflowChecks then .error .overflow else .ok (n % UInt64.size)

def addUsize (a b : ℕ) : Result ℕ := profile.usize (a + b)

def mulUsize (a b : ℕ) : Result ℕ := profile.usize (a * b)

def addU64 (a b : UInt64) : Result UInt64 :=
  if profile.overflowChecks ∧ UInt64.size ≤ a.toNat + b.toNat then .error .overflow else .ok (a + b)

def subU64 (a b : UInt64) : Result UInt64 :=
  if profile.overflowChecks ∧ a.toNat < b.toNat then .error .overflow else .ok (a - b)

def mulU64 (a b : UInt64) : Result UInt64 :=
  if profile.overflowChecks ∧ UInt64.size ≤ a.toNat * b.toNat then .error .overflow else .ok (a * b)

def addU32 (a b : UInt32) : Result UInt32 :=
  if profile.overflowChecks ∧ UInt32.size ≤ a.toNat + b.toNat then .error .overflow else .ok (a + b)

variable {profile}

theorem usize_of_lt {n : ℕ} (h : n < UInt64.size) : profile.usize n = .ok n := if_pos h

/-- An addition that wraps around is no larger than the sum. -/
theorem addUsize_le {a b c : ℕ} (h : profile.addUsize a b = .ok c) : c ≤ a + b := by
  unfold addUsize usize at h
  split at h
  · exact Nat.le_of_eq (Except.ok.inj h).symm
  split at h
  · cases h
  · exact (Except.ok.inj h) ▸ Nat.mod_le _ _

theorem addUsize_of_lt {a b : ℕ} (h : a + b < UInt64.size) : profile.addUsize a b = .ok (a + b) :=
  usize_of_lt h

theorem mulUsize_of_lt {a b : ℕ} (h : a * b < UInt64.size) : profile.mulUsize a b = .ok (a * b) :=
  usize_of_lt h

theorem usize_eq_error {n : ℕ} {e : Failure} :
    profile.usize n = .error e ↔ profile.overflowChecks ∧ UInt64.size ≤ n ∧ e = .overflow := by
  unfold usize
  split
  case isTrue h => simp [Nat.not_le.mpr h]
  case isFalse h => split <;> simp [*, Nat.not_lt.mp h, eq_comm]

theorem addU64_of_lt {a b : UInt64} (h : a.toNat + b.toNat < UInt64.size) :
    profile.addU64 a b = .ok (a + b) := if_neg fun hc => Nat.not_le.mpr h hc.2

theorem addU64_eq_ok {a b c : UInt64} (h : profile.addU64 a b = .ok c) : c = a + b := by
  unfold addU64 at h
  split at h
  · cases h
  · exact (Except.ok.inj h).symm

theorem addU64_eq_error {a b : UInt64} {e : Failure} :
    profile.addU64 a b = .error e ↔
      (profile.overflowChecks ∧ UInt64.size ≤ a.toNat + b.toNat) ∧ e = .overflow := by
  unfold addU64
  split
  case isTrue h => simp only [Except.error.injEq, eq_comm, h, true_and]
  case isFalse h => simp only [reduceCtorEq, h, false_and]

theorem subU64_of_le {a b : UInt64} (h : b ≤ a) : profile.subU64 a b = .ok (a - b) :=
  if_neg fun hc => Nat.not_lt.mpr (UInt64.le_iff_toNat_le.mp h) hc.2

theorem mulU64_of_lt {a b : UInt64} (h : a.toNat * b.toNat < UInt64.size) :
    profile.mulU64 a b = .ok (a * b) := if_neg fun hc => Nat.not_le.mpr h hc.2

theorem addU32_of_lt {a b : UInt32} (h : a.toNat + b.toNat < UInt32.size) :
    profile.addU32 a b = .ok (a + b) := if_neg fun hc => Nat.not_le.mpr h hc.2

theorem addU32_eq_ok {a b c : UInt32} (h : profile.addU32 a b = .ok c) : c = a + b := by
  unfold addU32 at h
  split at h
  · cases h
  · exact (Except.ok.inj h).symm

end Profile

/-! ## Loops -/

section Loops

variable {ε σ α β : Type}

/-- A value computed without the state. -/
theorem run_liftM_eq_ok {r : Except ε α} {s s' : σ} {a : α} :
    (liftM r : StateT σ (Except ε) α).run s = .ok (a, s') ↔ r = .ok a ∧ s = s' := by
  cases r with
  | error e => simp
  | ok b =>
    show Except.ok (b, s) = Except.ok (a, s') ↔ _
    simp

/-- The rounds of a loop over a list: one value for each element, the state passed on. -/
inductive Rounds (f : α → StateT σ (Except ε) β) : σ → List α → List β → σ → Prop
  | nil (s : σ) : Rounds f s [] [] s
  | cons {s s' s'' : σ} {a : α} {b : β} {l : List α} {bs : List β} :
    (f a).run s = .ok (b, s') → Rounds f s' l bs s'' → Rounds f s (a :: l) (b :: bs) s''

namespace Rounds

variable {f : α → StateT σ (Except ε) β} {s s' : σ} {l : List α} {bs : List β}

theorem length_eq (h : Rounds f s l bs s') : bs.length = l.length := by
  induction h with
  | nil => rfl
  | cons _ _ ih => simp [ih]

/-- The rounds before and after a round. -/
theorem exists_split (h : Rounds f s l bs s') {i : ℕ} {b : β} (hb : bs[i]? = some b) :
    ∃ a t t', l[i]? = some a ∧ Rounds f s (l.take i) (bs.take i) t ∧ (f a).run t = .ok (b, t') ∧
      Rounds f t' (l.drop (i + 1)) (bs.drop (i + 1)) s' := by
  induction h generalizing i with
  | nil => simp at hb
  | cons hf hrest ih =>
    cases i with
    | zero =>
      obtain rfl : _ = b := by simpa using hb
      exact ⟨_, _, _, rfl, .nil _, hf, hrest⟩
    | succ i =>
      obtain ⟨a, t, t', ha, hbefore, hround, hafter⟩ := ih (by simpa using hb)
      exact ⟨a, t, t', ha, .cons hf hbefore, hround, hafter⟩

/-- The round of a value. -/
theorem exists_round (h : Rounds f s l bs s') {i : ℕ} {b : β} (hb : bs[i]? = some b) :
    ∃ a t t', l[i]? = some a ∧ (f a).run t = .ok (b, t') := by
  obtain ⟨a, t, t', ha, -, hround, -⟩ := h.exists_split hb
  exact ⟨a, t, t', ha, hround⟩

/-- Rounds given by their position, with the states in between. -/
theorem of_getElem {st : ℕ → σ} (hlen : bs.length = l.length)
    (h : ∀ i a b, l[i]? = some a → bs[i]? = some b → (f a).run (st i) = .ok (b, st (i + 1))) :
    Rounds f (st 0) l bs (st l.length) := by
  induction l generalizing bs st with
  | nil =>
    obtain rfl : bs = [] := List.eq_nil_of_length_eq_zero hlen
    exact .nil _
  | cons a l ih =>
    cases bs with
    | nil => simp at hlen
    | cons b bs =>
      refine .cons (h 0 a b rfl rfl) ?_
      exact @ih bs (fun i => st (i + 1)) (by simpa using hlen) fun i a' b' ha hb =>
        h (i + 1) a' b' (by simpa using ha) (by simpa using hb)

/-- **A loop that appends to its state.** Every round runs from what the earlier ones appended. -/
theorem iff_of_appends {γ : Type} {f : α → StateT (List γ) (Except ε) β} {g : β → γ}
    (hround : ∀ a s b s', (f a).run s = .ok (b, s') → s' = s ++ [g b]) {s s' : List γ} {l : List α}
    {bs : List β} :
    Rounds f s l bs s' ↔ bs.length = l.length ∧ s' = s ++ bs.map g ∧
      ∀ i a b, l[i]? = some a → bs[i]? = some b →
        (f a).run (s ++ (bs.take i).map g) = .ok (b, s ++ (bs.take (i + 1)).map g) := by
  constructor
  · intro h
    induction h with
    | nil s => simp
    | @cons s t s' a b l bs hf _ ih =>
      obtain rfl := hround a s b t hf
      obtain ⟨hlen, rfl, hall⟩ := ih
      refine ⟨by simp [hlen], by simp, fun i a' b' ha' hb' => ?_⟩
      cases i with
      | zero =>
        obtain rfl : a = a' := by simpa using ha'
        obtain rfl : b = b' := by simpa using hb'
        simpa using hf
      | succ i => simpa using hall i a' b' (by simpa using ha') (by simpa using hb')
  · rintro ⟨hlen, rfl, hall⟩
    have hrounds := @of_getElem _ _ _ _ f l bs (fun i => s ++ (bs.take i).map g) hlen hall
    simpa [← hlen] using hrounds

/-- A loop that does in every round what another one does to the state. -/
theorem of_rounds {γ δ : Type} {g : γ → StateT σ (Except ε) δ} (h : Rounds f s l bs s') {m : List γ}
    {ds : List δ} (hm : m.length = l.length) (hd : ds.length = l.length)
    (hround : ∀ (i : ℕ) a b c d t t', l[i]? = some a → bs[i]? = some b → m[i]? = some c →
      ds[i]? = some d → (f a).run t = .ok (b, t') → (g c).run t = .ok (d, t')) :
    Rounds g s m ds s' := by
  induction h generalizing m ds with
  | nil =>
    obtain rfl := List.eq_nil_of_length_eq_zero hm
    obtain rfl := List.eq_nil_of_length_eq_zero hd
    exact .nil _
  | cons hf _ ih =>
    rcases m with _ | ⟨c, m⟩
    · simp at hm
    · rcases ds with _ | ⟨d, ds⟩
      · simp at hd
      · refine .cons (hround 0 _ _ c d _ _ rfl rfl rfl rfl hf) ?_
        refine ih (by simpa using hm) (by simpa using hd) fun i a b c d t t' ha hb hc hd => ?_
        exact hround (i + 1) a b c d t t' (by simpa using ha) (by simpa using hb) (by simpa using hc)
          (by simpa using hd)

end Rounds

/-- **A loop with a state is the sequence of its rounds.** -/
theorem mapM_run_eq_ok {f : α → StateT σ (Except ε) β} {s s' : σ} {l : List α} {bs : List β} :
    (l.mapM f).run s = .ok (bs, s') ↔ Rounds f s l bs s' := by
  constructor
  · intro h
    induction l generalizing s bs with
    | nil =>
      obtain ⟨rfl, rfl⟩ : [] = bs ∧ s = s' := by simpa [List.mapM_nil] using h
      exact .nil s
    | cons a l ih =>
      simp only [List.mapM_cons, StateT.run_bind, Except.bind_eq_ok, StateT.run_pure,
        Except.pure_def] at h
      obtain ⟨⟨b, t⟩, hf, ⟨bs', t'⟩, hl, hb⟩ := h
      obtain ⟨rfl, rfl⟩ : b :: bs' = bs ∧ t' = s' := by simpa using hb
      exact .cons hf (ih hl)
  · intro h
    induction h with
    | nil s => rfl
    | cons hf _ ih => simp [List.mapM_cons, hf, ih]

/-- The first round that fails ends the loop. -/
theorem mapM_run_eq_error {f : α → StateT σ (Except ε) β} {s : σ} {l : List α} {e : ε} :
    (l.mapM f).run s = .error e ↔ ∃ done a rest bs s', l = done ++ a :: rest ∧
      Rounds f s done bs s' ∧ (f a).run s' = .error e := by
  constructor
  · intro h
    induction l generalizing s with
    | nil => simp [List.mapM_nil] at h
    | cons a l ih =>
      simp only [List.mapM_cons, StateT.run_bind, Except.bind_eq_error, StateT.run_pure,
        Except.pure_def, reduceCtorEq, and_false, exists_false, or_false] at h
      rcases h with h | ⟨⟨b, t⟩, hf, h⟩
      · exact ⟨[], a, l, [], s, rfl, .nil s, h⟩
      · obtain ⟨done, a', rest, bs, s', rfl, hdone, he⟩ := ih h
        exact ⟨a :: done, a', rest, b :: bs, s', rfl, .cons hf hdone, he⟩
  · rintro ⟨done, a, rest, bs, s', rfl, hdone, he⟩
    induction hdone with
    | nil s => simp [List.mapM_cons, he]
    | cons hf _ ih =>
      rw [List.cons_append, List.mapM_cons, StateT.run_bind, hf, Except.ok_bind, StateT.run_bind,
        ih he, Except.error_bind]

/-- A loop without a state. -/
theorem mapM_eq_ok_iff {f : α → Except ε β} {l : List α} {bs : List β} :
    l.mapM f = .ok bs ↔ List.Forall₂ (fun a b => f a = .ok b) l bs := by
  induction l generalizing bs with
  | nil => simp [List.mapM_nil, eq_comm]
  | cons a l ih =>
    simp only [List.mapM_cons, Except.bind_eq_ok, Except.pure_def, Except.ok.injEq,
      List.forall₂_cons_left_iff, ih]
    constructor
    · rintro ⟨b, hb, bs', hbs, rfl⟩
      exact ⟨b, bs', hb, hbs, rfl⟩
    · rintro ⟨b, bs', hb, hbs, rfl⟩
      exact ⟨b, hb, bs', hbs, rfl⟩

/-- Every value of a loop is that of an input. -/
theorem exists_of_mem_mapM {f : α → Except ε β} {l : List α} {bs : List β} (h : l.mapM f = .ok bs)
    {b : β} (hb : b ∈ bs) : ∃ a ∈ l, f a = .ok b := by
  have hall := mapM_eq_ok_iff.mp h
  clear h
  induction hall with
  | nil => cases hb
  | cons hround _ ih =>
    rcases List.mem_cons.mp hb with rfl | hb
    · exact ⟨_, List.mem_cons_self, hround⟩
    · obtain ⟨a, ha, hvalue⟩ := ih hb
      exact ⟨a, List.mem_cons_of_mem _ ha, hvalue⟩

/-- Every input of a loop has a value. -/
theorem exists_of_mapM_eq_ok {f : α → Except ε β} {l : List α} {bs : List β} (h : l.mapM f = .ok bs)
    {a : α} (ha : a ∈ l) : ∃ b, f a = .ok b := by
  have hall := mapM_eq_ok_iff.mp h
  clear h
  induction hall with
  | nil => cases ha
  | cons hround _ ih =>
    rcases List.mem_cons.mp ha with rfl | ha
    · exact ⟨_, hround⟩
    · exact ih ha

/-- A loop over the positions of a list. -/
theorem mapM_range_eq_ok_iff {f : ℕ → Except ε β} {l : List α} {R : α → β → Prop}
    (h : ∀ i a b, l[i]? = some a → (f i = .ok b ↔ R a b)) {bs : List β} :
    (List.range l.length).mapM f = .ok bs ↔ List.Forall₂ R l bs := by
  rw [mapM_eq_ok_iff, List.forall₂_iff_get, List.forall₂_iff_get]
  refine and_congr (by rw [List.length_range]) ⟨fun hall i hi hi' => ?_, fun hall i hi hi' => ?_⟩
  · have hround := hall i (by simpa using hi) hi'
    rw [List.get_eq_getElem, List.getElem_range] at hround
    exact (h i _ _ (List.getElem?_eq_getElem hi)).mp hround
  · have hi : i < l.length := by simpa using hi
    rw [List.get_eq_getElem, List.getElem_range]
    exact (h i _ _ (List.getElem?_eq_getElem hi)).mpr (hall i hi hi')

/-- An error of a loop is an error of one of its rounds. -/
theorem exists_of_mapM_eq_error {f : α → Except ε β} {l : List α} {e : ε}
    (h : l.mapM f = .error e) : ∃ a ∈ l, f a = .error e := by
  induction l with
  | nil => simp [List.mapM_nil] at h
  | cons a l ih =>
    simp only [List.mapM_cons, Except.bind_eq_error, Except.pure_def, reduceCtorEq, and_false,
      exists_false, or_false] at h
    rcases h with ha | ⟨_, -, hl⟩
    · exact ⟨a, List.mem_cons_self, ha⟩
    · obtain ⟨a', hmem, ha'⟩ := ih hl
      exact ⟨a', List.mem_cons_of_mem a hmem, ha'⟩

end Loops
