import CfxMinimalExecution.Library.Hash
import Mathlib.Tactic.Ring

/-!
# Numbers as digits to base 256

## Main definitions

* `leBytes len n`, `beBytes len n`: the `len` low digits of `n`, lowest first and highest first
* `leNat`, `beNat`: the number of a string of digits

## Main results

* `leNat_leBytes`, `beNat_beBytes`: the round trips
* `beNat_replicate_append`, `beNat_dropWhile`: leading zeros do not count
* `lt_iff_beNat_lt`: strings of digits are ordered as their numbers
-/

def leBytes : ℕ → ℕ → Bytes
  | 0, _ => []
  | len + 1, n => UInt8.ofNat n :: leBytes len (n / 256)

def leNat : Bytes → ℕ
  | [] => 0
  | b :: bs => b.toNat + 256 * leNat bs

def beBytes (len n : ℕ) : Bytes := (leBytes len n).reverse

def beNat (b : Bytes) : ℕ := leNat b.reverse

@[simp] theorem length_leBytes (len n : ℕ) : (leBytes len n).length = len := by
  induction len generalizing n with
  | zero => rfl
  | succ len ih => simp [leBytes, ih]

@[simp] theorem length_beBytes (len n : ℕ) : (beBytes len n).length = len := by simp [beBytes]

theorem leNat_leBytes {len n : ℕ} (h : n < 256 ^ len) : leNat (leBytes len n) = n := by
  induction len generalizing n with
  | zero => exact (Nat.lt_one_iff.mp h).symm
  | succ len ih =>
    have hdiv : n / 256 < 256 ^ len := by
      rw [pow_succ] at h
      omega
    rw [leBytes, leNat, ih hdiv, UInt8.toNat_ofNat']
    omega

@[simp] theorem leNat_leBytes_uint16 (value : UInt16) : leNat (leBytes 2 value.toNat) = value.toNat :=
  leNat_leBytes (value.toNat_lt.trans_eq (by norm_num))

@[simp] theorem leNat_leBytes_uint32 (value : UInt32) : leNat (leBytes 4 value.toNat) = value.toNat :=
  leNat_leBytes (value.toNat_lt.trans_eq (by norm_num))

@[simp] theorem leNat_leBytes_uint64 (value : UInt64) : leNat (leBytes 8 value.toNat) = value.toNat :=
  leNat_leBytes (value.toNat_lt.trans_eq (by norm_num))

theorem leNat_lt (b : Bytes) : leNat b < 256 ^ b.length := by
  induction b with
  | nil => exact Nat.one_pos
  | cons a b ih =>
    have ha := a.toNat_lt
    rw [leNat, List.length_cons, pow_succ]
    omega

theorem beNat_beBytes {len n : ℕ} (h : n < 256 ^ len) : beNat (beBytes len n) = n := by
  rw [beNat, beBytes, List.reverse_reverse, leNat_leBytes h]

theorem beNat_lt (b : Bytes) : beNat b < 256 ^ b.length := by
  rw [← List.length_reverse]
  exact leNat_lt _

theorem leNat_append (a b : Bytes) : leNat (a ++ b) = leNat a + 256 ^ a.length * leNat b := by
  induction a with
  | nil => simp [leNat]
  | cons x a ih =>
    rw [List.cons_append, leNat, leNat, ih, List.length_cons, pow_succ]
    ring

theorem beNat_append (a b : Bytes) : beNat (a ++ b) = beNat b + 256 ^ b.length * beNat a := by
  simp [beNat, leNat_append]

@[simp] theorem beNat_replicate_zero (k : ℕ) : beNat (List.replicate k 0) = 0 := by
  rw [beNat, List.reverse_replicate]
  induction k with
  | zero => rfl
  | succ k ih => simp [List.replicate_succ, leNat, ih]

theorem beNat_replicate_append (k : ℕ) (b : Bytes) : beNat (List.replicate k 0 ++ b) = beNat b := by
  simp [beNat_append]

theorem beNat_cons (a : UInt8) (b : Bytes) :
    beNat (a :: b) = beNat b + 256 ^ b.length * a.toNat := by
  have h := beNat_append [a] b
  simpa [beNat, leNat] using h

/-- Leading zeros do not count. -/
theorem beNat_dropWhile (b : Bytes) : beNat (b.dropWhile (· = 0)) = beNat b := by
  induction b with
  | nil => rfl
  | cons a b ih =>
    rw [List.dropWhile_cons]
    split
    case isTrue ha =>
      have ha : a = 0 := by simpa using ha
      rw [ih, beNat_cons, ha]
      simp
    case isFalse => rfl

/-- Strings of equally many digits are ordered as their numbers. -/
theorem lt_iff_beNat_lt {a b : Bytes} (h : a.length = b.length) : a < b ↔ beNat a < beNat b := by
  induction a generalizing b with
  | nil =>
    obtain rfl : b = [] := List.eq_nil_of_length_eq_zero h.symm
    simp
  | cons x a ih =>
    cases b with
    | nil => simp at h
    | cons y b =>
      have hlen : a.length = b.length := by simpa using h
      have ha := beNat_lt a
      have hb := beNat_lt b
      rw [List.cons_lt_cons_iff, ih hlen, beNat_cons, beNat_cons, hlen, UInt8.lt_iff_toNat_lt,
        ← UInt8.toNat_inj]
      rw [hlen] at ha
      -- the first digits differ and outweigh the rest, or are equal
      constructor
      · rintro (hlt | ⟨heq, hlt⟩)
        · have hmul : 256 ^ b.length * (x.toNat + 1) ≤ 256 ^ b.length * y.toNat :=
            Nat.mul_le_mul_left _ hlt
          rw [Nat.mul_succ] at hmul
          omega
        · rw [heq]
          omega
      · intro hlt
        rcases Nat.lt_trichotomy x.toNat y.toNat with hxy | hxy | hxy
        · exact .inl hxy
        · rw [hxy] at hlt
          exact .inr ⟨hxy, by omega⟩
        · have hmul : 256 ^ b.length * (y.toNat + 1) ≤ 256 ^ b.length * x.toNat :=
            Nat.mul_le_mul_left _ hxy
          rw [Nat.mul_succ] at hmul
          omega

/-- What follows does not count in a comparison with a string that is no longer. -/
theorem append_lt_iff {a b c : Bytes} (h : a.length = c.length) : a ++ b < c ↔ a < c := by
  induction a generalizing c with
  | nil =>
    obtain rfl : c = [] := List.eq_nil_of_length_eq_zero h.symm
    simp
  | cons x a ih =>
    cases c with
    | nil => simp at h
    | cons y c =>
      rw [List.cons_append, List.cons_lt_cons_iff, List.cons_lt_cons_iff, ih (by simpa using h)]
