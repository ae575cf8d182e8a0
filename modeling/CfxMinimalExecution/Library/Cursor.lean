import CfxMinimalExecution.Library.Checked

/-!
# Readers

A reader walks over its data from a position and may fail. What a reader makes of an encoding does
not depend on what stands before and after it.

## Main definitions

* `Cursor α`: the readers that return an `α`
* `Reads data r x a`: wherever `x` stands in `data`, the reader `r` returns `a` and stops after it
* `Follows data r x s`: wherever `x` stands in `data`, the reader `r` goes on after it as `s`
* `Returns r P`: every value that the reader `r` returns has the property `P`
* `Extends r`: what the reader `r` returns does not depend on what comes after the data

## Main results

* `Reads.bind`, `Reads.mapM_const`: encodings one after the other are read one after the other
* `Follows.bind`: a reader goes on after what its first part reads
* `Returns.bind`: what is returned after another reader
-/

/-- A reader: it moves a position. -/
abbrev Cursor (α : Type) := StateT ℕ Result α

/-- A reader, over and over. -/
def Cursor.times {α : Type} (r : Cursor α) : ℕ → Cursor Unit
  | 0 => pure ()
  | n + 1 => do
    let _ ← r
    Cursor.times r n

/-- Wherever `x` stands in the data, the reader returns `a` and stops after `x`. -/
def Reads {δ α : Type} (data : List δ) (r : Cursor α) (x : List δ) (a : α) : Prop :=
  ∀ offset rest, data.drop offset = x ++ rest → r.run offset = .ok (a, offset + x.length)

theorem drop_add_of_drop_eq {δ : Type} {data x rest : List δ} {offset : ℕ}
    (h : data.drop offset = x ++ rest) : data.drop (offset + x.length) = rest := by
  rw [← List.drop_drop, h, List.drop_left]

/-- What stands at a position lies within the data. -/
theorem add_length_le_of_drop_eq {δ : Type} {data x rest : List δ} {offset : ℕ}
    (h : data.drop offset = x ++ rest) (hx : x ≠ []) : offset + x.length ≤ data.length := by
  have hlen := congrArg List.length h
  have hpos := List.length_pos_of_ne_nil hx
  simp only [List.length_drop, List.length_append] at hlen
  omega

theorem getElem?_of_drop_eq {δ : Type} {data rest : List δ} {a : δ} {offset : ℕ}
    (h : data.drop offset = a :: rest) : offset < data.length ∧ data[offset]? = some a := by
  have hget : data[offset]? = some a := by
    rw [← Nat.add_zero offset, ← List.getElem?_drop, h]
    rfl
  exact ⟨(List.getElem?_eq_some_iff.mp hget).1, hget⟩

/-- The slice after a position. -/
theorem slice_of_drop_eq {δ : Type} {data x rest : List δ} {offset n : ℕ}
    (h : data.drop offset = x ++ rest) (hn : x.length = n) (hpos : 0 < n) :
    slice data offset (offset + n) = .ok x := by
  subst hn
  have hle := add_length_le_of_drop_eq h (List.ne_nil_of_length_pos hpos)
  rw [slice_eq_ok]
  refine ⟨⟨by omega, hle⟩, ?_⟩
  rw [List.drop_take, h, Nat.add_sub_cancel_left, List.take_left]

namespace Reads

variable {δ α β : Type} {data : List δ}

theorem pure (a : α) : Reads data (Pure.pure a) [] a := fun _ _ _ => rfl

theorem lift {r : Result α} {a : α} (h : r = .ok a) : Reads data (liftM r) [] a := by
  intro offset rest _
  rw [h]
  rfl

theorem bind {r : Cursor α} {f : α → Cursor β} {x y : List δ} {a : α} {b : β}
    (hr : Reads data r x a) (hf : Reads data (f a) y b) : Reads data (r >>= f) (x ++ y) b := by
  intro offset rest hdrop
  rw [List.append_assoc] at hdrop
  rw [StateT.run_bind, hr offset _ hdrop, Except.ok_bind,
    hf _ _ (drop_add_of_drop_eq hdrop), List.length_append, Nat.add_assoc]

/-- A value computed without reading. -/
theorem lift_bind {r : Result α} {f : α → Cursor β} {y : List δ} {a : α} {b : β}
    (hr : r = .ok a) (hf : Reads data (f a) y b) : Reads data (liftM r >>= f) y b :=
  (lift hr).bind hf

/-- The loop that reads one item in every round. -/
theorem mapM_const {ι κ : Type} {r : Cursor β} {l : List ι} {items : List κ} {x : κ → List δ}
    {b : κ → β} (hlen : l.length = items.length) (h : ∀ k ∈ items, Reads data r (x k) (b k)) :
    Reads data (l.mapM fun _ => r) (items.flatMap x) (items.map b) := by
  induction items generalizing l with
  | nil =>
    obtain rfl : l = [] := List.eq_nil_of_length_eq_zero hlen
    exact pure []
  | cons k items ih =>
    cases l with
    | nil => simp at hlen
    | cons i l =>
      have hlen : l.length = items.length := by simpa using hlen
      rw [List.mapM_cons, List.flatMap_cons, List.map_cons]
      refine (h k List.mem_cons_self).bind ?_
      rw [← List.append_nil (items.flatMap x)]
      exact (ih hlen fun k' hk' => h k' (List.mem_cons_of_mem k hk')).bind (pure _)

end Reads

/-! ## What follows -/

/-- Wherever `x` stands in the data, the reader goes on after `x` as the reader `s`. -/
def Follows {δ α : Type} (data : List δ) (r : Cursor α) (x : List δ) (s : Cursor α) : Prop :=
  ∀ offset rest, data.drop offset = x ++ rest → r.run offset = s.run (offset + x.length)

namespace Follows

variable {δ α β : Type} {data : List δ}

theorem refl (r : Cursor α) : Follows data r [] r := fun _ _ _ => rfl

theorem bind {r : Cursor α} {f : α → Cursor β} {x y : List δ} {a : α} {s : Cursor β}
    (hr : Reads data r x a) (hf : Follows data (f a) y s) : Follows data (r >>= f) (x ++ y) s := by
  intro offset rest hdrop
  rw [List.append_assoc] at hdrop
  rw [StateT.run_bind, hr offset _ hdrop, Except.ok_bind,
    hf _ _ (drop_add_of_drop_eq hdrop), List.length_append, Nat.add_assoc]

/-- A value computed without reading. -/
theorem lift_bind {r : Result α} {f : α → Cursor β} {y : List δ} {a : α} {s : Cursor β}
    (hr : r = .ok a) (hf : Follows data (f a) y s) : Follows data (liftM r >>= f) y s :=
  bind (.lift hr) hf

end Follows

/-! ## What is returned -/

/-- Every value that the reader returns, from wherever it starts, has the property. -/
def Returns {α : Type} (r : Cursor α) (P : α → Prop) : Prop :=
  ∀ offset a stop, r.run offset = .ok (a, stop) → P a

namespace Returns

variable {α β : Type} {P : β → Prop}

theorem pure {b : β} (h : P b) : Returns (Pure.pure b) P := by
  intro offset a stop hrun
  obtain ⟨rfl, -⟩ := Prod.mk.inj (Except.ok.inj hrun)
  exact h

theorem bind {r : Cursor α} {f : α → Cursor β} (h : ∀ a, Returns (f a) P) :
    Returns (r >>= f) P := by
  intro offset b stop hrun
  rw [StateT.run_bind, Except.bind_eq_ok] at hrun
  obtain ⟨⟨a, middle⟩, -, hb⟩ := hrun
  exact h a middle b stop hb

end Returns

/-! ## More data -/

/-- What the reader returns does not depend on what comes after the data. -/
def Extends {δ α : Type} (r : List δ → Cursor α) : Prop :=
  ∀ data more offset a stop, (r data).run offset = .ok (a, stop) →
    (r (data ++ more)).run offset = .ok (a, stop)

namespace Extends

variable {δ α β : Type} {r : List δ → Cursor α}

/-- A reader that does not look at the data. -/
theorem const (c : Cursor α) : Extends fun _ : List δ => c := fun _ _ _ _ _ h => h

/-- A value computed from the data. -/
theorem lift {f : List δ → Result α} (h : ∀ data more a, f data = .ok a → f (data ++ more) = .ok a) :
    Extends fun data => (liftM (f data) : Cursor α) := by
  intro data more offset a stop hrun
  obtain ⟨ha, rfl⟩ := run_liftM_eq_ok.mp hrun
  exact run_liftM_eq_ok.mpr ⟨h data more a ha, rfl⟩

theorem bind {f : List δ → α → Cursor β} (hr : Extends r) (hf : ∀ a, Extends fun data => f data a) :
    Extends fun data => r data >>= f data := by
  intro data more offset b stop h
  rw [StateT.run_bind, Except.bind_eq_ok] at h ⊢
  obtain ⟨⟨a, middle⟩, ha, hb⟩ := h
  exact ⟨(a, middle), hr data more offset a middle ha, hf a data more middle b stop hb⟩

theorem times (hr : Extends r) (n : ℕ) : Extends fun data => Cursor.times (r data) n := by
  induction n with
  | zero => exact const (Pure.pure ())
  | succ n ih => exact hr.bind fun _ => ih

end Extends
