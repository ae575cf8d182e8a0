import CfxMinimalExecution.Library.Cursor

/-!
# Data in sections

Data that is a head and sections one after the other. A section starts where the earlier ones end.

## Main definitions

* `sectionOffset base sections i`: the offset of a section after a head of `base` elements
* `Tiles start spans stop`: spans, each an offset and a length, stand one after the other

## Main results

* `drop_sectionOffset`, `slice_sectionOffset`: what stands at the offset of a section
* `Tiles.pairwise`, `Tiles.covers`: spans one after the other are disjoint and leave no gap
-/

variable {δ : Type}

/-- The offset of section `i` after a head of `base` elements. -/
def sectionOffset (base : ℕ) (sections : List (List δ)) (i : ℕ) : ℕ :=
  base + (sections.take i).flatten.length

@[simp] theorem sectionOffset_zero (base : ℕ) (sections : List (List δ)) :
    sectionOffset base sections 0 = base := by simp [sectionOffset]

theorem take_flatten_append (sections : List (List δ)) (i : ℕ) :
    (sections.take i).flatten ++ (sections.drop i).flatten = sections.flatten := by
  rw [← List.flatten_append, List.take_append_drop]

/-- Offsets depend on lengths only. -/
theorem sectionOffset_congr (base : ℕ) {sections sections' : List (List δ)}
    (h : sections.map List.length = sections'.map List.length) (i : ℕ) :
    sectionOffset base sections i = sectionOffset base sections' i := by
  unfold sectionOffset
  rw [List.length_flatten, List.length_flatten, List.map_take, List.map_take, h]

theorem sectionOffset_succ {base : ℕ} {sections : List (List δ)} {i : ℕ}
    (hi : i < sections.length) :
    sectionOffset base sections (i + 1) = sectionOffset base sections i + sections[i].length := by
  unfold sectionOffset
  rw [← List.take_append_getElem hi, List.flatten_append, List.length_append,
    List.flatten_singleton, Nat.add_assoc]

theorem sectionOffset_succ_of_getElem? {base : ℕ} {sections : List (List δ)} {i : ℕ} {x : List δ}
    (hx : sections[i]? = some x) :
    sectionOffset base sections (i + 1) = sectionOffset base sections i + x.length := by
  obtain ⟨hi, rfl⟩ := List.getElem?_eq_some_iff.mp hx
  exact sectionOffset_succ hi

theorem sectionOffset_mono {base : ℕ} {sections : List (List δ)} {i j : ℕ} (h : i ≤ j) :
    sectionOffset base sections i ≤ sectionOffset base sections j := by
  obtain ⟨k, rfl⟩ := Nat.exists_eq_add_of_le h
  unfold sectionOffset
  rw [List.take_add, List.flatten_append, List.length_append]
  omega

theorem sectionOffset_le_length {data head : List δ} {sections : List (List δ)}
    (h : data = head ++ sections.flatten) (i : ℕ) :
    sectionOffset head.length sections i ≤ data.length := by
  rw [h, ← take_flatten_append sections i, sectionOffset]
  simp only [List.length_append]
  omega

/-- The section and the ones after it stand at its offset. -/
theorem drop_sectionOffset {data head : List δ} {sections : List (List δ)}
    (h : data = head ++ sections.flatten) (i : ℕ) :
    data.drop (sectionOffset head.length sections i) = (sections.drop i).flatten := by
  rw [h, ← take_flatten_append sections i, ← List.append_assoc, sectionOffset,
    ← List.length_append, List.drop_left]

/-- The slice between two offsets is the section. -/
theorem slice_sectionOffset {data head x : List δ} {sections : List (List δ)}
    (h : data = head ++ sections.flatten) {i : ℕ} (hx : sections[i]? = some x) :
    slice data (sectionOffset head.length sections i) (sectionOffset head.length sections (i + 1)) =
      .ok x := by
  obtain ⟨hi, rfl⟩ := List.getElem?_eq_some_iff.mp hx
  rw [slice_eq_ok, List.drop_take, drop_sectionOffset h, sectionOffset_succ hi,
    List.drop_eq_getElem_cons hi]
  refine ⟨⟨by omega, ?_⟩, ?_⟩
  · rw [← sectionOffset_succ hi]
    exact sectionOffset_le_length h _
  · rw [List.flatten_cons, Nat.add_sub_cancel_left, List.take_left]

/-! ## Sections of one length -/

section Chunks

variable {ι : Type} {f : ι → List δ} {n : ℕ}

theorem length_flatMap_of_length (h : ∀ i, (f i).length = n) (l : List ι) :
    (l.flatMap f).length = l.length * n := by
  induction l with
  | nil => simp
  | cons a l ih =>
    rw [List.flatMap_cons, List.length_append, h, ih, List.length_cons, Nat.succ_mul, Nat.add_comm]

theorem drop_flatMap_of_length (h : ∀ i, (f i).length = n) (l : List ι) (k : ℕ) :
    (l.flatMap f).drop (k * n) = (l.drop k).flatMap f := by
  induction k generalizing l with
  | zero => simp
  | succ k ih =>
    cases l with
    | nil => simp
    | cons a l =>
      rw [List.flatMap_cons, Nat.succ_mul, Nat.add_comm, ← List.drop_drop, ← h a, List.drop_left,
        h a, ih, List.drop_succ_cons]

end Chunks

/-! ## Spans -/

/-- The spans, each an offset and a length, stand one after the other from `start` to `stop`. -/
def Tiles : ℕ → List (ℕ × ℕ) → ℕ → Prop
  | start, [], stop => start = stop
  | start, span :: spans, stop => span.1 = start ∧ Tiles (start + span.2) spans stop

namespace Tiles

variable {start stop : ℕ} {spans : List (ℕ × ℕ)}

theorem le (h : Tiles start spans stop) : start ≤ stop := by
  induction spans generalizing start with
  | nil => exact Nat.le_of_eq h
  | cons span spans ih => exact Nat.le_trans (Nat.le_add_right _ _) (ih h.2)

theorem start_le (h : Tiles start spans stop) : ∀ span ∈ spans, start ≤ span.1 := by
  induction spans generalizing start with
  | nil => simp
  | cons span spans ih =>
    obtain ⟨hspan, hrest⟩ := h
    rintro other (_ | ⟨_, hother⟩)
    · exact Nat.le_of_eq hspan.symm
    · have hle := ih hrest other hother
      omega

theorem le_stop (h : Tiles start spans stop) : ∀ span ∈ spans, span.1 + span.2 ≤ stop := by
  induction spans generalizing start with
  | nil => simp
  | cons span spans ih =>
    obtain ⟨rfl, hrest⟩ := h
    rintro other (_ | ⟨_, hother⟩)
    · exact hrest.le
    · exact ih hrest other hother

/-- Spans that all end by `n` do not go further. -/
theorem stop_le_of_forall (h : Tiles start spans stop) (hne : spans ≠ []) {n : ℕ}
    (hspans : ∀ span ∈ spans, span.1 + span.2 ≤ n) : stop ≤ n := by
  induction spans generalizing start with
  | nil => exact absurd rfl hne
  | cons span spans ih =>
    obtain ⟨rfl, hrest⟩ := h
    cases spans with
    | nil => exact hrest ▸ hspans span List.mem_cons_self
    | cons span' spans =>
      exact ih hrest (List.cons_ne_nil _ _) fun other hother =>
        hspans other (List.mem_cons_of_mem _ hother)

theorem of_append {spans' : List (ℕ × ℕ)} (h : Tiles start (spans ++ spans') stop) :
    ∃ mid, Tiles start spans mid ∧ Tiles mid spans' stop := by
  induction spans generalizing start with
  | nil => exact ⟨start, rfl, h⟩
  | cons span spans ih =>
    obtain ⟨hspan, hrest⟩ := h
    obtain ⟨mid, hspans, hspans'⟩ := ih hrest
    exact ⟨mid, ⟨hspan, hspans⟩, hspans'⟩

/-- Spans one after the other are disjoint. -/
theorem pairwise (h : Tiles start spans stop) :
    spans.Pairwise fun span span' => span.1 + span.2 ≤ span'.1 := by
  induction spans generalizing start with
  | nil => exact .nil
  | cons span spans ih =>
    obtain ⟨rfl, hrest⟩ := h
    exact .cons hrest.start_le (ih hrest)

/-- Spans one after the other leave no gap. -/
theorem covers (h : Tiles start spans stop) {pos : ℕ} (hstart : start ≤ pos) (hstop : pos < stop) :
    ∃ span ∈ spans, span.1 ≤ pos ∧ pos < span.1 + span.2 := by
  induction spans generalizing start with
  | nil =>
    obtain rfl : start = stop := h
    omega
  | cons span spans ih =>
    obtain ⟨rfl, hrest⟩ := h
    by_cases hpos : pos < span.1 + span.2
    · exact ⟨span, List.mem_cons_self, hstart, hpos⟩
    · obtain ⟨other, hmem, hother⟩ := ih hrest (Nat.not_lt.mp hpos)
      exact ⟨other, List.mem_cons_of_mem _ hmem, hother⟩

end Tiles
