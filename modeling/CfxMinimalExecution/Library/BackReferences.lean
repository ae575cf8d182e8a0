import Mathlib.Data.List.Forall2
import Mathlib.Data.List.Induction

/-!
# References to earlier values

Blocks of values in which a value may stand as a reference to a position of an earlier block.

## Main definitions

* `List.atPosition blocks p`: what stands at a position, a block and a place there
* `Written α`: a value in full, or the position of an earlier one
* `Resolves read ws vs`: the blocks `vs` are what `ws` stands for

## Main results

* `Resolves.agrees_iff`: the values agree with others exactly when the values in full do and every
  reference has a value that agrees
* `exists_resolves`: references that point backwards stand for something
-/

variable {α β γ δ : Type}

/-! ## Positions -/

/-- What stands at a position: a block, and a place there. -/
def List.atPosition (blocks : List (List α)) (p : ℕ × ℕ) : Option α := blocks[p.1]?.bind (·[p.2]?)

namespace List

theorem atPosition_eq_some {blocks : List (List α)} {p : ℕ × ℕ} {a : α} :
    blocks.atPosition p = some a ↔ ∃ block, blocks[p.1]? = some block ∧ block[p.2]? = some a :=
  Option.bind_eq_some_iff

theorem atPosition_take {blocks : List (List α)} {i : ℕ} {p : ℕ × ℕ} {a : α} :
    (blocks.take i).atPosition p = some a ↔ p.1 < i ∧ blocks.atPosition p = some a := by
  rw [atPosition_eq_some, atPosition_eq_some, List.getElem?_take]
  split
  case isTrue h => simp [h]
  case isFalse h => simp [h]

theorem atPosition_append_left {blocks : List (List α)} (block : List α) {p : ℕ × ℕ}
    (hp : p.1 < blocks.length) : (blocks ++ [block]).atPosition p = blocks.atPosition p := by
  rw [atPosition, atPosition, List.getElem?_append_left hp]

theorem atPosition_append_right (blocks : List (List α)) (block : List α) (j : ℕ) :
    (blocks ++ [block]).atPosition (blocks.length, j) = block[j]? := by
  simp [atPosition]

theorem atPosition_map (blocks : List (List α)) (φ : α → β) (p : ℕ × ℕ) :
    (blocks.map (·.map φ)).atPosition p = (blocks.atPosition p).map φ := by
  unfold atPosition
  rw [List.getElem?_map]
  cases blocks[p.1]? with
  | none => rfl
  | some block => exact List.getElem?_map

theorem lt_length_of_atPosition {blocks : List (List α)} {p : ℕ × ℕ} {a : α}
    (h : blocks.atPosition p = some a) : p.1 < blocks.length := by
  obtain ⟨block, hblock, -⟩ := atPosition_eq_some.mp h
  exact (List.getElem?_eq_some_iff.mp hblock).1

/-- As many blocks, of the same lengths. -/
def SameShape (blocks : List (List α)) (blocks' : List (List β)) : Prop :=
  Forall₂ (fun block block' => block.length = block'.length) blocks blocks'

namespace SameShape

variable {as : List (List α)} {bs : List (List β)} {cs : List (List γ)}

theorem symm (h : SameShape as bs) : SameShape bs as := by
  induction h with
  | nil => exact .nil
  | cons hlen _ ih => exact .cons hlen.symm ih

theorem trans (h : SameShape as bs) (h' : SameShape bs cs) : SameShape as cs := by
  induction h generalizing cs with
  | nil =>
    cases h'
    exact .nil
  | cons hlen _ ih =>
    obtain ⟨_, _, hlen', hrest, rfl⟩ := forall₂_cons_left_iff.mp h'
    exact .cons (hlen.trans hlen') (ih hrest)

theorem exists_atPosition (h : SameShape as bs) {p : ℕ × ℕ} {a : α}
    (ha : as.atPosition p = some a) : ∃ b, bs.atPosition p = some b := by
  obtain ⟨block, hblock, hget⟩ := atPosition_eq_some.mp ha
  obtain ⟨hi, rfl⟩ := List.getElem?_eq_some_iff.mp hblock
  obtain ⟨hlen, hall⟩ := forall₂_iff_get.mp h
  have hi' : p.1 < bs.length := hlen ▸ hi
  have hsame := hall p.1 hi hi'
  rw [get_eq_getElem, get_eq_getElem] at hsame
  have hj := (List.getElem?_eq_some_iff.mp hget).1
  refine ⟨bs[p.1][p.2], atPosition_eq_some.mpr ⟨_, List.getElem?_eq_getElem hi', ?_⟩⟩
  exact List.getElem?_eq_getElem (hsame ▸ hj)

/-- Blocks of the same shape are mapped to the same exactly when their values are. -/
theorem map_map_eq_iff (h : SameShape as bs) {φ : α → γ} {ψ : β → γ} :
    as.map (·.map φ) = bs.map (·.map ψ) ↔
      ∀ p a b, as.atPosition p = some a → bs.atPosition p = some b → φ a = ψ b := by
  constructor
  · intro heq p a b ha hb
    have hsame := congrArg (·.atPosition p) heq
    simp only [atPosition_map, ha, hb, Option.map_some] at hsame
    exact Option.some.inj hsame
  · intro hall
    obtain ⟨hlen, hblocks⟩ := forall₂_iff_get.mp h
    refine ext_getElem (by simpa using hlen) fun i hi hi' => ?_
    rw [length_map] at hi hi'
    have hsame := hblocks i hi hi'
    rw [get_eq_getElem, get_eq_getElem] at hsame
    rw [getElem_map, getElem_map]
    refine ext_getElem (by simpa using hsame) fun j hj hj' => ?_
    rw [length_map] at hj hj'
    rw [getElem_map, getElem_map]
    refine hall (i, j) _ _ (atPosition_eq_some.mpr ⟨_, getElem?_eq_getElem hi, ?_⟩)
      (atPosition_eq_some.mpr ⟨_, getElem?_eq_getElem hi', ?_⟩)
    · exact getElem?_eq_getElem hj
    · exact getElem?_eq_getElem hj'

end SameShape

end List

/-! ## References -/

/-- A value in full, or the position of an earlier one. -/
inductive Written (α : Type) where
  | value (a : α)
  | reference (position : ℕ × ℕ)

namespace Written

/-- What is read: a value in full by itself, a reference from the earlier blocks. -/
def resolve (read : α → Option β) (earlier : List (List β)) : Written α → Option β
  | value a => read a
  | reference p => earlier.atPosition p

/-- The position of a reference. -/
def position? : Written α → Option (ℕ × ℕ)
  | value _ => none
  | reference p => some p

end Written

/-- The blocks `vs` are what `ws` stands for, each read after the ones before it. -/
structure Resolves (read : α → Option β) (ws : List (List (Written α))) (vs : List (List β)) :
    Prop where
  length_eq : vs.length = ws.length
  block : ∀ i w v, ws[i]? = some w → vs[i]? = some v →
    List.Forall₂ (fun (e : Written α) b => e.resolve read (vs.take i) = some b) w v

namespace Resolves

variable {read : α → Option β} {ws : List (List (Written α))} {vs : List (List β)}

theorem nil : Resolves read [] [] := ⟨rfl, fun i w v hw => by simp at hw⟩

/-- One more block. -/
theorem snoc (h : Resolves read ws vs) {w : List (Written α)} {v : List β}
    (hv : List.Forall₂ (fun (e : Written α) b => e.resolve read vs = some b) w v) :
    Resolves read (ws ++ [w]) (vs ++ [v]) := by
  have hlen := h.length_eq
  refine ⟨by simp [hlen], fun i w' v' hw' hv' => ?_⟩
  rcases Nat.lt_or_ge i ws.length with hi | hi
  · rw [List.getElem?_append_left hi] at hw'
    rw [List.getElem?_append_left (hlen ▸ hi)] at hv'
    rw [List.take_append_of_le_length (hlen ▸ Nat.le_of_lt hi)]
    exact h.block i w' v' hw' hv'
  · have hi' : i = ws.length := by
      have hlt := (List.getElem?_eq_some_iff.mp hw').1
      rw [List.length_append, List.length_singleton] at hlt
      omega
    subst hi'
    obtain rfl : w = w' := by simpa using hw'
    obtain rfl : v = v' := by simpa [← hlen] using hv'
    rwa [← hlen, List.take_left]

theorem sameShape (h : Resolves read ws vs) : List.SameShape ws vs := by
  refine List.forall₂_iff_get.mpr ⟨h.length_eq.symm, fun i hi hi' => ?_⟩
  exact (h.block i _ _ (List.getElem?_eq_getElem hi) (List.getElem?_eq_getElem hi')).length_eq

/-- What stands at a position is read after the blocks before it. -/
theorem atPosition (h : Resolves read ws vs) {p : ℕ × ℕ} {e : Written α} {b : β}
    (he : ws.atPosition p = some e) (hb : vs.atPosition p = some b) :
    e.resolve read (vs.take p.1) = some b := by
  obtain ⟨w, hw, he⟩ := List.atPosition_eq_some.mp he
  obtain ⟨v, hv, hb⟩ := List.atPosition_eq_some.mp hb
  have hblock := (List.forall₂_iff_get.mp (h.block p.1 w v hw hv)).2
  obtain ⟨hj, rfl⟩ := List.getElem?_eq_some_iff.mp he
  obtain ⟨hj', rfl⟩ := List.getElem?_eq_some_iff.mp hb
  exact hblock p.2 hj hj'

/-- **Agreement is local.** The values agree with those of other blocks exactly when every value in
full does, and what a reference stands for would agree at its target. -/
theorem agrees_iff (h : Resolves read ws vs) {ts : List (List γ)} (hshape : List.SameShape ws ts)
    {φ : β → δ} {ψ : γ → δ} :
    (∀ p b t, vs.atPosition p = some b → ts.atPosition p = some t → φ b = ψ t) ↔
      (∀ p a b t, ws.atPosition p = some (.value a) → read a = some b →
        ts.atPosition p = some t → φ b = ψ t) ∧
      ∀ p r t t', ws.atPosition p = some (.reference r) → ts.atPosition p = some t →
        ts.atPosition r = some t' → ψ t' = ψ t := by
  constructor
  -- where the values agree, a reference and its target have the same image
  · intro hagrees
    refine ⟨fun p a b t he hread ht => ?_, fun p r t t' he ht ht' => ?_⟩
    · obtain ⟨b', hb'⟩ := h.sameShape.exists_atPosition he
      have hresolve : read a = some b' := h.atPosition he hb'
      obtain rfl := Option.some.inj (hread.symm.trans hresolve)
      exact hagrees p b t hb' ht
    · obtain ⟨b, hb⟩ := h.sameShape.exists_atPosition he
      have htarget := (List.atPosition_take.mp (h.atPosition he hb)).2
      rw [← hagrees r b t' htarget ht', hagrees p b t hb ht]
  · rintro ⟨hvalue, hreference⟩ p
    -- by induction on the block: a reference leads to an earlier one
    induction hi : p.1 using Nat.strongRecOn generalizing p with
    | _ i ih =>
      subst hi
      intro b t hb ht
      obtain ⟨e, he⟩ := hshape.symm.exists_atPosition ht
      cases e with
      | value a => exact hvalue p a b t he (h.atPosition he hb) ht
      | reference r =>
        obtain ⟨hlt, htarget⟩ := List.atPosition_take.mp (h.atPosition he hb)
        obtain ⟨t', ht'⟩ := (h.sameShape.symm.trans hshape).exists_atPosition htarget
        rw [ih r.1 hlt r rfl b t' htarget ht', hreference p r t t' he ht ht']

end Resolves

/-- References lead to earlier blocks. -/
def PointBackwards (ws : List (List (Written α))) : Prop :=
  ∀ p r, ws.atPosition p = some (.reference r) → r.1 < p.1 ∧ ∃ e, ws.atPosition r = some e

/-- **References that point backwards stand for something**, when every value in full can be read. -/
theorem exists_resolves {read : α → Option β} {ws : List (List (Written α))}
    (hback : PointBackwards ws)
    (hread : ∀ p a, ws.atPosition p = some (.value a) → ∃ b, read a = some b) :
    ∃ vs, Resolves read ws vs := by
  induction ws using List.reverseRecOn with
  | nil => exact ⟨[], .nil⟩
  -- the blocks before the last resolve, by induction
  | append_singleton ws w ih =>
    have hleft : ∀ p e, ws.atPosition p = some e → (ws ++ [w]).atPosition p = some e := by
      intro p e he
      rw [List.atPosition_append_left w (List.lt_length_of_atPosition he), he]
    obtain ⟨vs, hvs⟩ : ∃ vs, Resolves read ws vs := by
      refine ih (fun p r he => ?_) fun p a he => hread p a (hleft p _ he)
      obtain ⟨hlt, e, htarget⟩ := hback p r (hleft p _ he)
      have hp := List.lt_length_of_atPosition he
      rw [List.atPosition_append_left w (Nat.lt_trans hlt hp)] at htarget
      exact ⟨hlt, e, htarget⟩
    -- and an element of the last one is a value or leads to one of them
    have hlast : ∀ e ∈ w, ∃ b, e.resolve read vs = some b := by
      intro e he
      obtain ⟨j, hj, rfl⟩ := List.getElem_of_mem he
      have hget : (ws ++ [w]).atPosition (ws.length, j) = some w[j] := by
        rw [List.atPosition_append_right, List.getElem?_eq_getElem hj]
      cases hw : w[j] with
      | value a => exact hread _ a (hget.trans (congrArg some hw))
      | reference r =>
        obtain ⟨hlt, e, htarget⟩ := hback _ r (hget.trans (congrArg some hw))
        rw [List.atPosition_append_left w hlt] at htarget
        exact hvs.sameShape.exists_atPosition htarget
    obtain ⟨v, hv⟩ : ∃ v, List.Forall₂ (fun (e : Written α) b => e.resolve read vs = some b) w v := by
      clear ih hleft hvs hback hread
      induction w with
      | nil => exact ⟨[], .nil⟩
      | cons e w ih =>
        obtain ⟨b, hb⟩ := hlast e List.mem_cons_self
        obtain ⟨v, hv⟩ := ih fun e he => hlast e (List.mem_cons_of_mem _ he)
        exact ⟨b :: v, .cons hb hv⟩
    exact ⟨vs ++ [v], hvs.snoc hv⟩
