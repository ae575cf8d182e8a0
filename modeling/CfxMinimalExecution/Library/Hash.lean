import Mathlib.Data.List.GetD
import Mathlib.Logic.Function.Basic

/-!
# Byte strings and 32-byte hashes

## Main definitions

* `Bytes`, `H256`: byte strings and 32-byte values
* `H256.asBytes`, `H256.fromSlice`: the bytes of a 32-byte value, and back
* `Collision hash strings`: two distinct strings of a set with one hash

## Main results

* `H256.asBytes_injective`: a 32-byte value is its bytes
* `flatMap_asBytes_inj`: concatenated hashes can be told apart
-/

/-- A byte string. -/
abbrev Bytes := List UInt8

/-- A 32-byte value. -/
structure H256 where
  bytes : Vector UInt8 32
deriving DecidableEq

namespace H256

/-- The bytes of a 32-byte value. -/
def asBytes (h : H256) : Bytes := h.bytes.toList

/-- The 32-byte value with the bytes of a slice of 32 bytes. -/
def fromSlice (b : Bytes) : H256 := ⟨Vector.ofFn fun i => b.getD i 0⟩

@[simp] theorem length_asBytes (h : H256) : h.asBytes.length = 32 := by simp [asBytes]

theorem asBytes_injective : Function.Injective asBytes := by
  rintro ⟨v⟩ ⟨w⟩ h
  exact congrArg H256.mk (Vector.toList_inj.mp h)

@[simp] theorem asBytes_inj {h h' : H256} : h.asBytes = h'.asBytes ↔ h = h' :=
  asBytes_injective.eq_iff

@[simp] theorem fromSlice_asBytes (h : H256) : fromSlice h.asBytes = h := by
  obtain ⟨v⟩ := h
  refine congrArg H256.mk (Vector.ext fun i hi => ?_)
  simp [asBytes]

@[simp] theorem asBytes_fromSlice {b : Bytes} (hb : b.length = 32) : (fromSlice b).asBytes = b := by
  refine List.ext_getElem (by simp [hb]) fun i h₁ h₂ => ?_
  simp [asBytes, fromSlice, h₂]

end H256

/-- Concatenations of equally many hashes agree only if the hashes do. -/
theorem flatMap_asBytes_inj {l l' : List H256} (hlen : l.length = l'.length)
    (h : l.flatMap H256.asBytes = l'.flatMap H256.asBytes) : l = l' := by
  induction l generalizing l' with
  | nil => exact (List.length_eq_zero_iff.mp hlen.symm).symm
  | cons a l ih =>
    cases l' with
    | nil => simp at hlen
    | cons a' l' =>
      simp only [List.flatMap_cons] at h
      obtain ⟨ha, hl⟩ := List.append_inj h (by simp)
      rw [H256.asBytes_injective ha, ih (by simpa using hlen) hl]

/-- Two distinct strings among `strings` have one hash. -/
def Collision {η : Type*} (hash : Bytes → η) (strings : Bytes → Prop) : Prop :=
  ∃ s t, strings s ∧ strings t ∧ s ≠ t ∧ hash s = hash t

/-- Without a collision, strings with one hash are equal. -/
theorem eq_of_not_collision {η : Type*} {hash : Bytes → η} {P : Bytes → Prop}
    (h : ¬ Collision hash P) {s t : Bytes} (hs : P s) (ht : P t) (heq : hash s = hash t) : s = t := by
  by_contra hne
  exact h ⟨s, t, hs, ht, hne, heq⟩
