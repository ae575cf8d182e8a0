import CfxMinimalExecution.Library.Hash
import Mathlib.Tactic.Ring

/-!
# Numbers in groups of seven bits

A number is spelled in bytes, the lowest seven bits first. Every byte but the last one has the bit
above the seven set.

## Main definitions

* `Leb128.sevenBits b`: the seven bits of a byte
* `Leb128.exactNat bytes`: the number of a string of bytes, however long it is
* `Leb128.Spelled bytes`: the bytes spell a number

## Main results

* `Leb128.exactNat_lt`, `Leb128.exactNat_append`: a string of `n` bytes is a number below `128 ^ n`
* `Leb128.spelled_or_continued`: a string starts with a spelled number, or all of it goes on
-/

namespace Leb128

/-- The bits of a byte that count. -/
def sevenBits (b : UInt8) : ℕ := (b &&& 0x7f).toNat

/-- Whether another byte follows. -/
def Continues (b : UInt8) : Prop := b &&& 0x80 ≠ 0

instance (b : UInt8) : Decidable (Continues b) := inferInstanceAs (Decidable (_ ≠ _))

/-- The exact number of the groups. -/
def exactNat : Bytes → ℕ
  | [] => 0
  | b :: bs => sevenBits b + 128 * exactNat bs

/-- All bytes but the last one continue. -/
inductive Spelled : Bytes → Prop
  | last {b : UInt8} : ¬ Continues b → Spelled [b]
  | more {b : UInt8} {bs : Bytes} : Continues b → Spelled bs → Spelled (b :: bs)

theorem sevenBits_lt (b : UInt8) : sevenBits b < 128 := by
  have hle : (b &&& 0x7f).toNat ≤ (0x7f : UInt8).toNat := by
    rw [UInt8.toNat_and]
    exact Nat.and_le_right
  exact Nat.lt_succ_of_le hle

theorem exactNat_lt (bs : Bytes) : exactNat bs < 128 ^ bs.length := by
  induction bs with
  | nil => exact Nat.one_pos
  | cons b bs ih =>
    have hb := sevenBits_lt b
    rw [exactNat, List.length_cons, pow_succ]
    omega

theorem exactNat_append (bs bs' : Bytes) :
    exactNat (bs ++ bs') = exactNat bs + 128 ^ bs.length * exactNat bs' := by
  induction bs with
  | nil => simp [exactNat]
  | cons b bs ih =>
    rw [List.cons_append, exactNat, exactNat, ih, List.length_cons, pow_succ]
    ring

/-- A string starts with a spelled number, or all of its bytes continue. -/
theorem spelled_or_continued (bs : Bytes) :
    (∃ number rest, bs = number ++ rest ∧ Spelled number) ∨ ∀ b ∈ bs, Continues b := by
  induction bs with
  | nil => exact .inr (by simp)
  | cons b bs ih =>
    by_cases hb : Continues b
    · rcases ih with ⟨number, rest, rfl, hspelled⟩ | hall
      · exact .inl ⟨b :: number, rest, rfl, .more hb hspelled⟩
      · exact .inr (List.forall_mem_cons.mpr ⟨hb, hall⟩)
    · exact .inl ⟨[b], bs, rfl, .last hb⟩

namespace Spelled

variable {bs bs' rest rest' : Bytes}

theorem length_pos (h : Spelled bs) : 0 < bs.length := by
  cases h <;> simp

/-- Every byte before the last one continues, and the last one does not. -/
theorem exists_snoc (h : Spelled bs) :
    ∃ init last, bs = init ++ [last] ∧ (∀ b ∈ init, Continues b) ∧ ¬ Continues last := by
  induction h with
  | @last b hb => exact ⟨[], b, rfl, by simp, hb⟩
  | @more b bs hb _ ih =>
    obtain ⟨init, last, rfl, hinit, hlast⟩ := ih
    exact ⟨b :: init, last, rfl, List.forall_mem_cons.mpr ⟨hb, hinit⟩, hlast⟩

theorem of_snoc {init : Bytes} {last : UInt8} (hinit : ∀ b ∈ init, Continues b)
    (hlast : ¬ Continues last) : Spelled (init ++ [last]) := by
  induction init with
  | nil => exact .last hlast
  | cons b init ih =>
    obtain ⟨hb, hinit⟩ := List.forall_mem_cons.mp hinit
    exact .more hb (ih hinit)

end Spelled

end Leb128
