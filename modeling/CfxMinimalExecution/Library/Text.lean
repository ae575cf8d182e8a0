import Mathlib.Data.List.Infix
import Mathlib.Data.List.TakeWhile

/-!
# Reading text

A text is split into lines, blanks around a line are dropped, and what follows the first occurrence
of a pattern is taken up to a closing mark. Whatever is found in the beginning of a text is found in
the text. A text can also be seen as the pieces between its quotes, where a quoted word is found
piece by piece.

## Main definitions

* `Text.lines`, `Text.unlines`, `Text.trim`: lines, and what is around them
* `Text.after pattern text`: what stands behind the first occurrence of a pattern
* `Text.upTo mark text`: what stands before a mark
* `Text.firstQuoted mark text`: the first word, without blanks and marks before it
* `Text.quotedBy mark pieces`: pieces with a mark before each

## Main results

* `Text.lines_unlines_append`: the lines that were written, and what is left of the next one
* `Text.after_append`, `Text.firstQuoted_append`: what is found is found in a longer text
* `Text.after_quotedBy`: a quoted word is found piece by piece
-/

namespace Text

/-! ## Lines -/

/-- The rest of the text, behind the beginning of a line. A carriage return before the line feed
does not belong to the line. -/
def linesFrom (line : List Char) : List Char → List (List Char)
  | [] => if line.isEmpty then [] else [line]
  | c :: text =>
    if c = '\n' then
      (if line.getLast? = some '\r' then line.dropLast else line) :: linesFrom [] text
    else linesFrom (line ++ [c]) text

/-- The lines of a text. -/
def lines (text : List Char) : List (List Char) := linesFrom [] text

/-- Lines, each of them ended by a line feed. -/
def unlines (ls : List (List Char)) : List Char := ls.flatMap (· ++ ['\n'])

@[simp] theorem unlines_nil : unlines [] = [] := rfl

@[simp] theorem unlines_cons (l : List Char) (ls : List (List Char)) :
    unlines (l :: ls) = l ++ '\n' :: unlines ls := by
  simp [unlines]

theorem unlines_append (ls ls' : List (List Char)) :
    unlines (ls ++ ls') = unlines ls ++ unlines ls' :=
  List.flatMap_append

/-- A line that is read character by character. -/
theorem linesFrom_append {l : List Char} (hl : '\n' ∉ l) (line text : List Char) :
    linesFrom line (l ++ text) = linesFrom (line ++ l) text := by
  induction l generalizing line with
  | nil => rw [List.nil_append, List.append_nil]
  | cons c l ih =>
    obtain ⟨hc, hl⟩ := not_or.mp (mt List.mem_cons.mpr hl)
    rw [List.cons_append, linesFrom, if_neg (Ne.symm hc), ih hl, List.append_assoc]
    rfl

/-- A line that can be written and read. -/
def IsLine (l : List Char) : Prop := '\n' ∉ l ∧ '\r' ∉ l

/-- **The lines that were written are read**, and what is left of the next one. -/
theorem lines_unlines_append {ls : List (List Char)} (hls : ∀ l ∈ ls, IsLine l) {rest : List Char}
    (hrest : '\n' ∉ rest) :
    lines (unlines ls ++ rest) = ls ++ if rest.isEmpty then [] else [rest] := by
  unfold lines
  induction ls with
  | nil =>
    have h := linesFrom_append hrest [] []
    rw [List.append_nil, List.nil_append] at h
    rw [unlines_nil, List.nil_append, h, List.nil_append, linesFrom]
  | cons l ls ih =>
    obtain ⟨⟨hfeed, hreturn⟩, hls⟩ := List.forall_mem_cons.mp hls
    have hlast : ¬ l.getLast? = some '\r' := fun hlast =>
      hreturn (List.mem_of_mem_getLast? (Option.mem_def.mpr hlast))
    rw [unlines_cons, List.append_assoc, linesFrom_append hfeed, List.nil_append, List.cons_append,
      linesFrom, if_pos rfl, if_neg hlast, ih hls, List.cons_append]

theorem prefix_append_cases {α : Type} {text a b : List α} (h : text <+: a ++ b) :
    text <+: a ∨ ∃ more, text = a ++ more ∧ more <+: b := by
  obtain ⟨rest, hrest⟩ := h
  rcases List.append_eq_append_iff.mp hrest with ⟨c, rfl, -⟩ | ⟨c, rfl, rfl⟩
  · exact Or.inl (List.prefix_append _ _)
  · exact Or.inr ⟨c, rfl, List.prefix_append _ _⟩

/-- **The beginning of some lines** is made of whole lines and of the beginning of one more. -/
theorem prefix_unlines {ls : List (List Char)} {text : List Char} (h : text <+: unlines ls) :
    ∃ n part, n ≤ ls.length ∧ text = unlines (ls.take n) ++ part ∧
      (part = [] ∨ ∃ l ∈ ls[n]?, part <+: l) := by
  induction ls generalizing text with
  | nil =>
    refine ⟨0, [], le_rfl, ?_, Or.inl rfl⟩
    rw [List.prefix_nil.mp h]
    rfl
  | cons l ls ih =>
    rw [unlines_cons] at h
    rcases prefix_append_cases h with hpart | ⟨more, rfl, hmore⟩
    · exact ⟨0, text, Nat.zero_le _, rfl, Or.inr ⟨l, rfl, hpart⟩⟩
    · rcases List.prefix_cons_iff.mp hmore with rfl | ⟨rest, rfl, hrest⟩
      · exact ⟨0, l, Nat.zero_le _, by simp, Or.inr ⟨l, rfl, List.prefix_rfl⟩⟩
      · obtain ⟨n, part, hn, rfl, hpart⟩ := ih hrest
        refine ⟨n + 1, part, Nat.succ_le_succ hn, by simp, hpart⟩

/-! ## Blanks -/

/-- The white space of Unicode. -/
def isBlank (c : Char) : Bool :=
  let n := c.toNat
  decide (9 ≤ n ∧ n ≤ 13) || n == 0x20 || n == 0x85 || n == 0xa0 || n == 0x1680 ||
    decide (0x2000 ≤ n ∧ n ≤ 0x200a) || n == 0x2028 || n == 0x2029 || n == 0x202f || n == 0x205f ||
    n == 0x3000

def trimStart (text : List Char) : List Char := text.dropWhile isBlank

/-- A text without the blanks around it. -/
def trim (text : List Char) : List Char := ((trimStart text).reverse.dropWhile isBlank).reverse

/-- What `trim` drops at the end is blank. -/
theorem exists_trimStart (text : List Char) :
    ∃ back, trimStart text = trim text ++ back ∧ ∀ c ∈ back, isBlank c := by
  refine ⟨((trimStart text).reverse.takeWhile isBlank).reverse, ?_, fun c hc => ?_⟩
  · rw [trim, ← List.reverse_append, List.takeWhile_append_dropWhile, List.reverse_reverse]
  · exact List.mem_takeWhile_imp (List.mem_reverse.mp hc)

/-- What `trim` drops is blank. -/
theorem exists_trim (text : List Char) :
    ∃ front back, text = front ++ (trim text ++ back) ∧
      (∀ c ∈ front, isBlank c) ∧ ∀ c ∈ back, isBlank c := by
  obtain ⟨back, hback, hblank⟩ := exists_trimStart text
  refine ⟨text.takeWhile isBlank, back, ?_, fun c hc => List.mem_takeWhile_imp hc, hblank⟩
  rw [← hback, trimStart, List.takeWhile_append_dropWhile]

theorem trimStart_append_of_blank {front : List Char} (hfront : ∀ c ∈ front, isBlank c)
    (text : List Char) : trimStart (front ++ text) = trimStart text :=
  List.dropWhile_append_of_pos hfront

/-- Blanks behind a text do not matter. -/
theorem trim_append_of_blank {back : List Char} (hback : ∀ c ∈ back, isBlank c)
    (text : List Char) : trim (text ++ back) = trim text := by
  have hreverse : ∀ c ∈ back.reverse, isBlank c := fun c hc => hback c (List.mem_reverse.mp hc)
  unfold trim trimStart
  rw [List.dropWhile_append]
  split
  case isTrue hempty =>
    have hall : back.dropWhile isBlank = [] := List.dropWhile_eq_nil_iff.mpr hback
    rw [hall, List.isEmpty_iff.mp hempty]
  case isFalse =>
    rw [List.reverse_append, List.dropWhile_append_of_pos hreverse]

/-! ## Search -/

section Search

variable {α : Type} [DecidableEq α]

/-- What stands behind the first occurrence of a pattern. -/
def after (pattern : List α) : List α → Option (List α)
  | [] => if pattern = [] then some [] else none
  | c :: text =>
    if pattern <+: c :: text then some ((c :: text).drop pattern.length) else after pattern text

def contains (pattern text : List α) : Bool := (after pattern text).isSome

/-- What stands before a mark. -/
def upTo (mark : α) (text : List α) : Option (List α) :=
  if mark ∈ text then some (text.takeWhile (· ≠ mark)) else none

theorem after_of_isPrefix {pattern text : List α} (h : pattern <+: text) :
    after pattern text = some (text.drop pattern.length) := by
  rcases text with _ | ⟨c, text⟩
  · rw [List.prefix_nil.mp h]
    rfl
  · rw [after, if_pos h]

theorem after_of_not_isPrefix {pattern text : List α} {c : α} (h : ¬ pattern <+: c :: text) :
    after pattern (c :: text) = after pattern text := by
  rw [after, if_neg h]

/-- **What is found**, in its place. -/
theorem exists_of_after {pattern text rest : List α} (h : after pattern text = some rest) :
    ∃ front, text = front ++ (pattern ++ rest) := by
  induction text with
  | nil =>
    by_cases hempty : pattern = []
    · rw [after, if_pos hempty] at h
      exact ⟨[], by rw [hempty, ← Option.some.inj h]; rfl⟩
    · rw [after, if_neg hempty] at h
      cases h
  | cons c text ih =>
    by_cases hfirst : pattern <+: c :: text
    · obtain ⟨more, hmore⟩ := hfirst
      rw [after_of_isPrefix ⟨more, hmore⟩, ← hmore, List.drop_left] at h
      exact ⟨[], by rw [List.nil_append, ← hmore, Option.some.inj h]⟩
    · rw [after_of_not_isPrefix hfirst] at h
      obtain ⟨front, rfl⟩ := ih h
      exact ⟨c :: front, rfl⟩

/-- **What is found is found in a longer text.** -/
theorem after_append {pattern text rest : List α} (h : after pattern text = some rest)
    (more : List α) : after pattern (text ++ more) = some (rest ++ more) := by
  induction text with
  | nil =>
    obtain ⟨front, hfront⟩ := exists_of_after h
    obtain ⟨-, hfound⟩ := List.append_eq_nil_iff.mp hfront.symm
    obtain ⟨rfl, rfl⟩ := List.append_eq_nil_iff.mp hfound
    exact after_of_isPrefix List.nil_prefix
  | cons c text ih =>
    by_cases hfirst : pattern <+: c :: text
    · rw [after_of_isPrefix hfirst] at h
      rw [after_of_isPrefix (hfirst.trans (List.prefix_append _ _)),
        List.drop_append_of_le_length hfirst.length_le, Option.some.inj h]
    · rw [after_of_not_isPrefix hfirst] at h
      -- an occurrence that begins earlier would end earlier as well
      have hlonger : ¬ pattern <+: c :: (text ++ more) := by
        obtain ⟨front, rfl⟩ := exists_of_after h
        intro hlonger
        apply hfirst
        apply (List.isPrefix_append_of_length _).mp (List.cons_append ▸ hlonger)
        simp only [List.length_cons, List.length_append]
        omega
      rw [List.cons_append, after_of_not_isPrefix hlonger, ih h]

/-- What comes before the first character of a pattern is skipped. -/
theorem after_skip {c : α} {front : List α} (hfront : c ∉ front) (pattern text : List α) :
    after (c :: pattern) (front ++ text) = after (c :: pattern) text := by
  induction front with
  | nil => rfl
  | cons d front ih =>
    obtain ⟨hd, hfront⟩ := not_or.mp (mt List.mem_cons.mpr hfront)
    rw [List.cons_append, after_of_not_isPrefix, ih hfront]
    intro hfirst
    exact hd (List.cons_prefix_cons.mp hfirst).1

theorem after_eq_none {c : α} {text : List α} (h : c ∉ text) (pattern : List α) :
    after (c :: pattern) text = none := by
  have hskip := after_skip h pattern []
  rw [List.append_nil] at hskip
  rw [hskip]
  rfl

/-- What has nothing in common with a pattern can be left out behind the text. -/
theorem after_append_disjoint {c : α} {pattern back : List α} (hback : ∀ d ∈ c :: pattern, d ∉ back)
    (text : List α) : after (c :: pattern) (text ++ back) =
      (after (c :: pattern) text).map (· ++ back) := by
  cases hfound : after (c :: pattern) text with
  | some rest => exact after_append hfound back
  | none =>
    induction text with
    | nil => exact after_eq_none (hback c List.mem_cons_self) pattern
    | cons d text ih =>
      have hfirst : ¬ c :: pattern <+: d :: text := by
        intro hfirst
        rw [after_of_isPrefix hfirst] at hfound
        cases hfound
      rw [after_of_not_isPrefix hfirst] at hfound
      rw [List.cons_append, after_of_not_isPrefix, ih hfound]
      intro hlonger
      rw [← List.cons_append] at hlonger
      rcases prefix_append_cases hlonger with h | ⟨more, hmore, hmem⟩
      · exact hfirst h
      · rcases more with _ | ⟨e, more⟩
        · exact hfirst (by rw [hmore, List.append_nil])
        · refine hback e ?_ (hmem.subset List.mem_cons_self)
          rw [hmore]
          exact List.mem_append_right _ List.mem_cons_self

/-- A pattern without blanks is found between the blanks around a text. -/
theorem after_trim {c : Char} {pattern : List Char} (hpattern : ∀ d ∈ c :: pattern, ¬ isBlank d)
    (text : List Char) : ∃ back, (∀ d ∈ back, isBlank d) ∧
      after (c :: pattern) text = (after (c :: pattern) (trim text)).map (· ++ back) := by
  obtain ⟨front, back, htext, hfront, hback⟩ := exists_trim text
  have hskip : c ∉ front := fun hmem => hpattern c List.mem_cons_self (hfront c hmem)
  have hdisjoint : ∀ d ∈ c :: pattern, d ∉ back := fun d hd hmem => hpattern d hd (hback d hmem)
  refine ⟨back, hback, ?_⟩
  conv_lhs => rw [htext]
  rw [after_skip hskip, after_append_disjoint hdisjoint]

theorem contains_trim {c : Char} {pattern : List Char} (hpattern : ∀ d ∈ c :: pattern, ¬ isBlank d)
    (text : List Char) : contains (c :: pattern) (trim text) = contains (c :: pattern) text := by
  obtain ⟨back, -, h⟩ := after_trim hpattern text
  rw [contains, contains, h, Option.isSome_map]

theorem contains_append {pattern text : List α} (h : contains pattern text) (more : List α) :
    contains pattern (text ++ more) := by
  obtain ⟨rest, hrest⟩ := Option.isSome_iff_exists.mp h
  rw [contains, after_append hrest]
  rfl

theorem upTo_eq_some {mark : α} {text word : List α} :
    upTo mark text = some word ↔ ∃ rest, text = word ++ mark :: rest ∧ mark ∉ word := by
  unfold upTo
  constructor
  · intro h
    split at h
    case isTrue hmem =>
      obtain ⟨front, rest, rfl, hfront⟩ := List.eq_append_cons_of_mem hmem
      rw [List.takeWhile_append_of_pos fun c hc => by simpa using ne_of_mem_of_not_mem hc hfront,
        List.takeWhile_cons_of_neg (by simp), List.append_nil] at h
      obtain rfl := Option.some.inj h
      exact ⟨rest, rfl, hfront⟩
    case isFalse => cases h
  · rintro ⟨rest, rfl, hword⟩
    rw [if_pos (List.mem_append_right _ List.mem_cons_self),
      List.takeWhile_append_of_pos fun c hc => by simpa using ne_of_mem_of_not_mem hc hword]
    simp

theorem upTo_append {mark : α} {text word : List α} (h : upTo mark text = some word)
    (more : List α) : upTo mark (text ++ more) = some word := by
  obtain ⟨rest, rfl, hword⟩ := upTo_eq_some.mp h
  apply upTo_eq_some.mpr
  exact ⟨rest ++ more, by rw [List.append_assoc, List.cons_append], hword⟩

theorem upTo_append_of_not_mem {mark : α} {back : List α} (hback : mark ∉ back) (text : List α) :
    upTo mark (text ++ back) = upTo mark text := by
  cases h : upTo mark text with
  | some word => exact upTo_append h back
  | none =>
    have htext : mark ∉ text := by
      intro hmem
      rw [upTo, if_pos hmem] at h
      cases h
    rw [upTo, if_neg fun hmem => (List.mem_append.mp hmem).elim htext hback]

end Search

/-! ## The first word -/

/-- The first word behind blanks and marks, up to the next mark. -/
def firstQuoted (mark : Char) (text : List Char) : Option (List Char) :=
  upTo mark ((trim text).dropWhile (· = mark))

section FirstQuoted

variable {mark : Char}

theorem firstQuoted_append_of_blank {back : List Char} (hback : ∀ c ∈ back, isBlank c)
    (text : List Char) : firstQuoted mark (text ++ back) = firstQuoted mark text := by
  rw [firstQuoted, trim_append_of_blank hback, firstQuoted]

variable (hmark : ¬ isBlank mark)
include hmark

/-- Blanks behind the text do not matter. -/
theorem firstQuoted_eq (text : List Char) :
    firstQuoted mark text = upTo mark ((trimStart text).dropWhile (· = mark)) := by
  obtain ⟨back, hback, hblank⟩ := exists_trimStart text
  have hnot : mark ∉ back := fun hmem => hmark (hblank mark hmem)
  rw [firstQuoted, hback, List.dropWhile_append]
  split
  case isTrue hempty =>
    have hrest : mark ∉ back.dropWhile (· = mark) := fun hmem =>
      hnot ((List.dropWhile_sublist _).subset hmem)
    rw [List.isEmpty_iff.mp hempty, ← upTo_append_of_not_mem hrest, List.nil_append]
  case isFalse => rw [upTo_append_of_not_mem hnot]

/-- **The first word of a text is that of a longer text.** -/
theorem firstQuoted_append {text word : List Char} (h : firstQuoted mark text = some word)
    (more : List Char) : firstQuoted mark (text ++ more) = some word := by
  rw [firstQuoted_eq hmark] at h ⊢
  have hmarks : ((trimStart text).dropWhile (· = mark)) ≠ [] := by
    intro hnil
    rw [hnil] at h
    cases h
  have hblanks : text.dropWhile isBlank ≠ [] := by
    intro hnil
    rw [trimStart, hnil] at hmarks
    exact hmarks rfl
  have htrim : trimStart (text ++ more) = trimStart text ++ more := by
    rw [trimStart, List.dropWhile_append, if_neg (by rwa [List.isEmpty_iff]), trimStart]
  rw [htrim, List.dropWhile_append, if_neg (by rwa [List.isEmpty_iff])]
  exact upTo_append h more

/-- A quoted word behind blanks. -/
theorem firstQuoted_word {blanks word : List Char} (hblanks : ∀ c ∈ blanks, isBlank c)
    (hne : word ≠ []) (hword : mark ∉ word) (rest : List Char) :
    firstQuoted mark (blanks ++ mark :: (word ++ mark :: rest)) = some word := by
  rw [firstQuoted_eq hmark, trimStart_append_of_blank hblanks, trimStart,
    List.dropWhile_cons_of_neg hmark, List.dropWhile_cons_of_pos (by simp)]
  rcases word with _ | ⟨c, word⟩
  · exact absurd rfl hne
  · have hc : c ≠ mark := fun hc => hword (hc ▸ List.mem_cons_self)
    rw [List.cons_append, List.dropWhile_cons_of_neg (by simpa using hc)]
    exact upTo_eq_some.mpr ⟨rest, rfl, hword⟩

end FirstQuoted

/-! ## Pieces -/

section Pieces

variable {α : Type}

/-- Pieces of a text, with a mark before each of them. -/
def quotedBy (mark : α) (pieces : List (List α)) : List α := pieces.flatMap (mark :: ·)

@[simp] theorem quotedBy_nil (mark : α) : quotedBy mark [] = [] := rfl

@[simp] theorem quotedBy_cons (mark : α) (piece : List α) (pieces : List (List α)) :
    quotedBy mark (piece :: pieces) = mark :: (piece ++ quotedBy mark pieces) := rfl

theorem append_cons_prefix_iff {mark : α} {a b x y : List α} (ha : mark ∉ a) (hb : mark ∉ b) :
    a ++ mark :: x <+: b ++ mark :: y ↔ a = b ∧ x <+: y := by
  induction a generalizing b with
  | nil =>
    rcases b with _ | ⟨d, b⟩
    · simp
    · have hd := (not_or.mp (mt List.mem_cons.mpr hb)).1
      simp [List.cons_prefix_cons, hd]
  | cons c a ih =>
    obtain ⟨hc, ha⟩ := not_or.mp (mt List.mem_cons.mpr ha)
    rcases b with _ | ⟨d, b⟩
    · simp [List.cons_prefix_cons, Ne.symm hc]
    · have hb := (not_or.mp (mt List.mem_cons.mpr hb)).2
      rw [List.cons_append, List.cons_append, List.cons_prefix_cons, ih ha hb, List.cons_eq_cons,
        and_assoc]

variable [DecidableEq α]

/-- What stands behind a word between two marks and behind `more`. -/
def afterPieces (mark : α) (word more : List α) : List (List α) → Option (List α)
  | piece :: next :: pieces =>
    if piece = word ∧ more <+: next ++ quotedBy mark pieces then
      some ((next ++ quotedBy mark pieces).drop more.length)
    else afterPieces mark word more (next :: pieces)
  | _ => none

/-- **A quoted word is found piece by piece.** -/
theorem after_quotedBy {mark : α} {word : List α} (hword : mark ∉ word) (more : List α)
    {pieces : List (List α)} (hpieces : ∀ piece ∈ pieces, mark ∉ piece) :
    after (mark :: (word ++ mark :: more)) (quotedBy mark pieces) =
      afterPieces mark word more pieces := by
  induction pieces with
  | nil => rfl
  | cons piece pieces ih =>
    obtain ⟨hpiece, hpieces⟩ := List.forall_mem_cons.mp hpieces
    rw [quotedBy_cons]
    rcases pieces with _ | ⟨next, pieces⟩
    · rw [quotedBy_nil, List.append_nil, after_of_not_isPrefix, after_eq_none hpiece]
      · rfl
      · intro hfirst
        have h := (List.cons_prefix_cons.mp hfirst).2
        exact hpiece (h.subset (List.mem_append_right _ List.mem_cons_self))
    · have hiff : mark :: (word ++ mark :: more) <+:
          mark :: (piece ++ quotedBy mark (next :: pieces)) ↔
            piece = word ∧ more <+: next ++ quotedBy mark pieces := by
        rw [List.cons_prefix_cons, and_iff_right rfl, quotedBy_cons,
          append_cons_prefix_iff hword hpiece, @eq_comm _ word]
      rw [afterPieces]
      split
      case isTrue hfound =>
        obtain ⟨rfl, hmore⟩ := hfound
        have hsplit : ∀ x : List α, mark :: (piece ++ mark :: x) =
            mark :: (piece ++ [mark]) ++ x := by simp
        rw [after_of_isPrefix (hiff.mpr ⟨rfl, hmore⟩), quotedBy_cons, hsplit more,
          hsplit (next ++ _), List.length_append, List.drop_length_add_append]
      case isFalse hfound =>
        rw [after_of_not_isPrefix (mt hiff.mp hfound), after_skip hpiece, ih hpieces]

/-- Pieces that are not the word are skipped. -/
theorem afterPieces_append {mark : α} {word : List α} {before pieces : List (List α)}
    (hbefore : word ∉ before) (hne : pieces ≠ []) (more : List α) :
    afterPieces mark word more (before ++ pieces) = afterPieces mark word more pieces := by
  induction before with
  | nil => rfl
  | cons piece before ih =>
    obtain ⟨hpiece, hbefore⟩ := not_or.mp (mt List.mem_cons.mpr hbefore)
    obtain ⟨next, rest, hrest⟩ := List.exists_cons_of_ne_nil
      (List.append_ne_nil_of_right_ne_nil before hne)
    rw [← ih hbefore, List.cons_append, hrest, afterPieces, if_neg fun h => hpiece h.1.symm]

/-- Any word counts that is not the last piece. -/
theorem isSome_afterPieces_nil {mark : α} {word : List α} {pieces : List (List α)} :
    (afterPieces mark word [] pieces).isSome ↔ word ∈ pieces.dropLast := by
  induction pieces with
  | nil => simp [afterPieces]
  | cons piece pieces ih =>
    rcases pieces with _ | ⟨next, pieces⟩
    · simp [afterPieces]
    · rw [afterPieces, List.dropLast_cons_cons, List.mem_cons, ← ih]
      split
      case isTrue h => simp [h.1]
      case isFalse h =>
        have hpiece : word ≠ piece := fun hpiece => h ⟨hpiece.symm, List.nil_prefix⟩
        rw [or_iff_right hpiece]

end Pieces

end Text
