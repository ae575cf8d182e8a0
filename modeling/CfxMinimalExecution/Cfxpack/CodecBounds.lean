import CfxMinimalExecution.Cfxpack.Codec
import CfxMinimalExecution.Library.Leb128

/-!
# What the primitive encodings hold

## Main definitions

* `ReadsExactly data offset`: no number is misread at an offset
* `ReadsBack read out out' P`: what was put after `out` is read back

## Main results

* `readUleb128_eq_ok`: what is read of a string of groups
* `readsExactly_iff`: numbers are read exactly unless the tenth byte does not fit
* `exists_putModes_iff`: a number is put exactly when a mode has room for it
* `codec_roundtrip`: what is put is read back, and the numbers that are put
-/

namespace Cfxpack

/-! ## Groups of seven bits -/

/-- A group above the bits read so far, in a word. -/
theorem toNat_or_shiftLeft {acc x : UInt64} {s : ℕ} (hs : s < 64) (hacc : acc.toNat < 2 ^ s) :
    (acc ||| x <<< UInt64.ofNat s).toNat = (acc.toNat + 2 ^ s * x.toNat) % UInt64.size := by
  have hsize : UInt64.size = 2 ^ s * 2 ^ (64 - s) := by
    calc UInt64.size = 2 ^ 64 := rfl
      _ = 2 ^ s * 2 ^ (64 - s) := by rw [← pow_add, Nat.add_sub_cancel' hs.le]
  have hshift : (x <<< UInt64.ofNat s).toNat = 2 ^ s * (x.toNat % 2 ^ (64 - s)) := by
    rw [UInt64.toNat_shiftLeft, UInt64.toNat_ofNat', Nat.mod_eq_of_lt (by omega : s < 2 ^ 64),
      Nat.mod_eq_of_lt hs, Nat.shiftLeft_eq, Nat.mul_comm]
    calc 2 ^ s * x.toNat % UInt64.size = 2 ^ s * x.toNat % (2 ^ s * 2 ^ (64 - s)) := by rw [hsize]
      _ = 2 ^ s * (x.toNat % 2 ^ (64 - s)) := Nat.mul_mod_mul_left _ _ _
  have hlow : x.toNat % 2 ^ (64 - s) < 2 ^ (64 - s) := Nat.mod_lt _ (Nat.two_pow_pos _)
  -- what is shifted out is a multiple of the size of the word
  have hmod : acc.toNat + 2 ^ s * x.toNat = acc.toNat + 2 ^ s * (x.toNat % 2 ^ (64 - s)) +
      UInt64.size * (x.toNat / 2 ^ (64 - s)) := by
    have hdiv := Nat.mod_add_div x.toNat (2 ^ (64 - s))
    calc acc.toNat + 2 ^ s * x.toNat
        = acc.toNat + 2 ^ s * (x.toNat % 2 ^ (64 - s) + 2 ^ (64 - s) * (x.toNat / 2 ^ (64 - s))) := by
          rw [hdiv]
      _ = _ := by
          rw [hsize]
          ring
  have hfit : acc.toNat + 2 ^ s * (x.toNat % 2 ^ (64 - s)) < UInt64.size := by
    calc acc.toNat + 2 ^ s * (x.toNat % 2 ^ (64 - s))
        < 2 ^ s + 2 ^ s * (x.toNat % 2 ^ (64 - s)) := by omega
      _ = 2 ^ s * (x.toNat % 2 ^ (64 - s) + 1) := by ring
      _ ≤ 2 ^ s * 2 ^ (64 - s) := Nat.mul_le_mul_left _ (by omega)
      _ = UInt64.size := hsize.symm
  rw [UInt64.toNat_or, hshift, Nat.or_comm, ← Nat.two_pow_add_eq_or_of_lt hacc, hmod,
    Nat.add_mul_mod_self_left, Nat.mod_eq_of_lt hfit, Nat.add_comm]

section Groups

open Leb128

variable {data bs rest : Bytes} {offset : ℕ}

theorem shift_succ (k : ℕ) : UInt64.ofNat (7 * k) + 7 = UInt64.ofNat (7 * (k + 1)) := by
  rw [Nat.mul_succ, UInt64.ofNat_add]
  rfl

theorem toNat_sevenBits (b : UInt8) : (b &&& 0x7f).toUInt64.toNat = sevenBits b := by
  rw [UInt8.toNat_toUInt64, sevenBits]

/-- **What the rounds read of a number** with as many bytes as there are rounds, in a word. -/
theorem run_readUleb128Groups_spelled (h : Spelled bs) {groups k : ℕ} {acc : UInt64}
    (hgroups : groups + k = 10) (hlen : bs.length ≤ groups) (hacc : acc.toNat < 2 ^ (7 * k))
    (hdrop : data.drop offset = bs ++ rest) :
    ∃ value, (readUleb128Groups data groups (UInt64.ofNat (7 * k)) acc).run offset =
        .ok (value, offset + bs.length) ∧
      value.toNat = (acc.toNat + 2 ^ (7 * k) * exactNat bs) % UInt64.size := by
  induction h generalizing groups k acc offset with
  -- the last byte adds its seven bits, of which those above the word are lost
  | @last b hb =>
    obtain ⟨groups, rfl⟩ : ∃ n, groups = n + 1 := ⟨groups - 1, by
      rw [List.length_singleton] at hlen
      omega⟩
    refine ⟨acc ||| (b &&& 0x7f).toUInt64 <<< UInt64.ofNat (7 * k), ?_, ?_⟩
    · rw [run_readUleb128Groups _ _ _ hdrop, if_pos (not_not.mp hb)]
      rfl
    · rw [toNat_or_shiftLeft (by omega) hacc, toNat_sevenBits, exactNat, exactNat]
      rfl
  -- a byte with another one after it adds seven bits that fit, as at most nine came before
  | @more b bs hb hrest ih =>
    obtain ⟨groups, rfl⟩ : ∃ n, groups = n + 1 := ⟨groups - 1, by
      rw [List.length_cons] at hlen
      omega⟩
    rw [List.length_cons] at hlen
    have hb' := sevenBits_lt b
    have hpos := hrest.length_pos
    have hpow : 2 ^ (7 * (k + 1)) = 2 ^ (7 * k) * 128 := by rw [Nat.mul_succ, pow_add]; rfl
    have hsum : acc.toNat + 2 ^ (7 * k) * sevenBits b < 2 ^ (7 * (k + 1)) := by
      calc acc.toNat + 2 ^ (7 * k) * sevenBits b
          < 2 ^ (7 * k) + 2 ^ (7 * k) * sevenBits b := by omega
        _ = 2 ^ (7 * k) * (sevenBits b + 1) := by ring
        _ ≤ 2 ^ (7 * (k + 1)) := hpow ▸ Nat.mul_le_mul_left _ (by omega)
    have hword : (acc ||| (b &&& 0x7f).toUInt64 <<< UInt64.ofNat (7 * k)).toNat =
        acc.toNat + 2 ^ (7 * k) * sevenBits b := by
      rw [toNat_or_shiftLeft (by omega) hacc, toNat_sevenBits, Nat.mod_eq_of_lt]
      calc acc.toNat + 2 ^ (7 * k) * sevenBits b < 2 ^ (7 * (k + 1)) := hsum
        _ ≤ 2 ^ 64 := Nat.pow_le_pow_right (by omega) (by omega)
    obtain ⟨value, hrun, hvalue⟩ := @ih (offset + 1) groups (k + 1) _ (by omega) (by omega)
      (hword.trans_lt hsum) (drop_add_of_drop_eq (x := [b]) hdrop)
    refine ⟨value, ?_, ?_⟩
    · rw [run_readUleb128Groups _ _ _ hdrop, if_neg hb, shift_succ, hrun]
      rw [List.length_cons, Nat.add_assoc, Nat.add_comm 1]
    · rw [hvalue, hword, exactNat, hpow]
      congr 1
      ring

/-- A number is refused when none of the bytes that are read ends it. -/
theorem run_readUleb128Groups_continued {groups : ℕ}
    (h : ∀ i < groups, ∀ b, data[offset + i]? = some b → Continues b) (shift acc : UInt64) :
    ∃ message, (readUleb128Groups data groups shift acc).run offset = .error (.error message) := by
  induction groups generalizing offset shift acc with
  | zero => exact ⟨_, rfl⟩
  | succ groups ih =>
    rcases hdrop : data.drop offset with _ | ⟨b, rest⟩
    · -- the data ends here
      have hle := List.drop_eq_nil_iff.mp hdrop
      refine ⟨"uleb128 read out of bounds", ?_⟩
      simp [readUleb128Groups, ensure, Nat.not_lt.mpr hle]
    · have hb : Continues b := h 0 (Nat.succ_pos _) b (getElem?_of_drop_eq hdrop).2
      rw [run_readUleb128Groups _ _ _ hdrop, if_neg hb]
      refine ih (fun i hi b' hb' => h (i + 1) (Nat.succ_lt_succ hi) b' ?_) _ _
      rw [← hb', Nat.add_right_comm, Nat.add_assoc]

/-- A number of at most ten bytes is read in a word. -/
theorem run_readUleb128_spelled (h : Spelled bs) (hlen : bs.length ≤ 10)
    (hdrop : data.drop offset = bs ++ rest) :
    ∃ value, (readUleb128 data).run offset = .ok (value, offset + bs.length) ∧
      value.toNat = exactNat bs % UInt64.size := by
  obtain ⟨value, hrun, hvalue⟩ := @run_readUleb128Groups_spelled data bs rest offset h 10 0 0 rfl hlen
    Nat.one_pos hdrop
  refine ⟨value, hrun, ?_⟩
  rw [hvalue, UInt64.toNat_zero, Nat.zero_add, Nat.mul_zero, pow_zero, Nat.one_mul]

/-- A number of more bytes, and one that the data does not end, is refused. -/
theorem run_readUleb128_continued
    (h : ∀ b ∈ (data.drop offset).take 10, Continues b) :
    ∃ message, (readUleb128 data).run offset = .error (.error message) := by
  refine run_readUleb128Groups_continued (fun i hi b hb => h b ?_) _ _
  apply List.mem_of_getElem? (i := i)
  rw [List.getElem?_take_of_lt hi, List.getElem?_drop, hb]

theorem run_readUleb128_long (h : Spelled bs) (hlen : 10 < bs.length)
    (hdrop : data.drop offset = bs ++ rest) :
    ∃ message, (readUleb128 data).run offset = .error (.error message) := by
  apply run_readUleb128_continued
  obtain ⟨init, last, rfl, hinit, -⟩ := h.exists_snoc
  rw [List.length_append, List.length_singleton] at hlen
  intro b hb
  rw [hdrop, List.append_assoc, List.take_append_of_le_length (by omega)] at hb
  exact hinit b (List.mem_of_mem_take hb)

/-- **What is read** is a number of at most ten bytes, in a word. -/
theorem readUleb128_eq_ok {value : UInt64} {stop : ℕ} :
    (readUleb128 data).run offset = .ok (value, stop) ↔
      ∃ bs rest, data.drop offset = bs ++ rest ∧ Spelled bs ∧ bs.length ≤ 10 ∧
        stop = offset + bs.length ∧ value.toNat = exactNat bs % UInt64.size := by
  constructor
  · intro hrun
    rcases spelled_or_continued (data.drop offset) with ⟨bs, rest, hdrop, hspelled⟩ | hall
    · by_cases hlen : bs.length ≤ 10
      · obtain ⟨value', hrun', hvalue⟩ := run_readUleb128_spelled hspelled hlen hdrop
        obtain ⟨rfl, rfl⟩ := Prod.mk.inj (Except.ok.inj (hrun.symm.trans hrun'))
        exact ⟨bs, rest, hdrop, hspelled, hlen, rfl, hvalue⟩
      · obtain ⟨_, herror⟩ := run_readUleb128_long hspelled (Nat.not_le.mp hlen) hdrop
        cases hrun.symm.trans herror
    · obtain ⟨_, herror⟩ := run_readUleb128_continued fun b hb => hall b (List.mem_of_mem_take hb)
      cases hrun.symm.trans herror
  · rintro ⟨bs, rest, hdrop, hspelled, hlen, rfl, hvalue⟩
    obtain ⟨value', hrun, hvalue'⟩ := run_readUleb128_spelled hspelled hlen hdrop
    rw [hrun, UInt64.toNat_inj.mp (hvalue'.trans hvalue.symm)]

/-- A number of at most ten bytes fits a word, unless its tenth byte has a bit above the lowest. -/
theorem exactNat_lt_iff {init : Bytes} {last : UInt8} (hlen : init.length ≤ 9) :
    exactNat (init ++ [last]) < UInt64.size ↔ (init.length = 9 → sevenBits last < 2) := by
  have hsize : UInt64.size = 2 * 128 ^ 9 := rfl
  have hinit := exactNat_lt init
  have hlast := sevenBits_lt last
  have hsum : exactNat (init ++ [last]) = exactNat init + 128 ^ init.length * sevenBits last := by
    rw [exactNat_append, exactNat, exactNat]
    rfl
  rw [hsum, hsize]
  by_cases heq : init.length = 9
  · rw [heq] at hinit ⊢
    omega
  · have hpow : 128 ^ init.length ≤ 128 ^ 8 := Nat.pow_le_pow_right (by omega) (by omega)
    have hmul : 128 ^ init.length * sevenBits last ≤ 128 ^ 8 * 127 :=
      Nat.mul_le_mul hpow (by omega)
    simp only [heq, false_implies, iff_true]
    omega

/-! ## Exact numbers -/

/-- What is read is the exact number of the bytes consumed, and a number that does not fit a word or
that the data does not end is refused. -/
structure ReadsExactly (data : Bytes) (offset : ℕ) : Prop where
  exact : ∀ value stop, (readUleb128 data).run offset = .ok (value, stop) →
    Spelled ((data.take stop).drop offset) ∧
      value.toNat = exactNat ((data.take stop).drop offset)
  overflow : ∀ bs rest, data.drop offset = bs ++ rest → Spelled bs → UInt64.size ≤ exactNat bs →
    ∃ message, (readUleb128 data).run offset = .error (.error message)
  outOfBounds : (∀ b ∈ data.drop offset, Continues b) →
    ∃ message, (readUleb128 data).run offset = .error (.error message)

/-- A tenth byte that ends a number has no bit above the lowest. -/
def TenthByteFits (data : Bytes) (offset : ℕ) : Prop :=
  ∀ init last rest, data.drop offset = init ++ last :: rest → init.length = 9 →
    (∀ b ∈ init, Continues b) → ¬ Continues last → sevenBits last < 2

/-- **Numbers are read exactly** unless the tenth byte has a bit that is shifted out of the word. -/
theorem readsExactly_iff (data : Bytes) (offset : ℕ) :
    ReadsExactly data offset ↔ TenthByteFits data offset := by
  constructor
  -- a tenth byte that does not fit is read without an error
  · intro h init last rest hdrop hlen hinit hlast
    have hspelled : Spelled (init ++ [last]) := .of_snoc hinit hlast
    have hdrop : data.drop offset = (init ++ [last]) ++ rest := by
      rw [hdrop, List.append_assoc]
      rfl
    by_contra hge
    have hover := mt (exactNat_lt_iff hlen.le).mp fun himp => hge (himp hlen)
    obtain ⟨value, hrun, -⟩ := run_readUleb128_spelled hspelled (by simp [hlen]) hdrop
    obtain ⟨_, herror⟩ := h.overflow _ rest hdrop hspelled (Nat.not_lt.mp hover)
    cases hrun.symm.trans herror
  -- conversely the bytes of every spelling that is read stand for a number below 2^64
  · intro h
    have hfits : ∀ bs rest, data.drop offset = bs ++ rest → Spelled bs → bs.length ≤ 10 →
        exactNat bs < UInt64.size := by
      intro bs rest hdrop hspelled hlen
      obtain ⟨init, last, rfl, hinit, hlast⟩ := hspelled.exists_snoc
      rw [List.append_assoc] at hdrop
      rw [List.length_append, List.length_singleton] at hlen
      exact (exactNat_lt_iff (by omega)).mpr fun heq => h init last rest hdrop heq hinit hlast
    refine ⟨fun value stop hrun => ?_, fun bs rest hdrop hspelled hge => ?_, fun hall => ?_⟩
    · obtain ⟨bs, rest, hdrop, hspelled, hlen, rfl, hvalue⟩ := readUleb128_eq_ok.mp hrun
      have hconsumed : (data.take (offset + bs.length)).drop offset = bs := by
        rw [List.drop_take, Nat.add_sub_cancel_left, hdrop, List.take_left]
      rw [hconsumed, hvalue, Nat.mod_eq_of_lt (hfits bs rest hdrop hspelled hlen)]
      exact ⟨hspelled, rfl⟩
    -- a spelling of more than ten bytes is refused, whatever number it stands for
    · by_cases hlen : bs.length ≤ 10
      · exact absurd (hfits bs rest hdrop hspelled hlen) (Nat.not_lt.mpr hge)
      · exact run_readUleb128_long hspelled (Nat.not_le.mp hlen) hdrop
    · exact run_readUleb128_continued fun b hb => hall b (List.mem_of_mem_take hb)

/-- Nine empty groups and a tenth byte of two: the number 2 ^ 64 is read as zero. -/
theorem not_readsExactly : ¬ ReadsExactly (List.replicate 9 0x80 ++ [0x02]) 0 := by
  intro h
  obtain ⟨-, hvalue⟩ := h.exact 0 10 (by decide +kernel)
  revert hvalue
  decide +kernel

end Groups

/-! ## Lengths -/

theorem uleb128LenFrom_eq {groups : ℕ} {value : UInt64} (hpos : 0 < groups)
    (h : value.toNat < 128 ^ groups) :
    uleb128LenFrom groups value = (uleb128Groups groups value).length := by
  induction groups generalizing value with
  | zero => omega
  | succ groups ih =>
    have hbig : value ≥ 0x80 ↔ value >>> 7 ≠ 0 := by
      rw [ge_iff_le, UInt64.le_iff_toNat_le, ne_eq, lt_of_high_eq_zero, Nat.not_lt]
      rfl
    by_cases hhigh : value >>> 7 = 0
    · rw [uleb128LenFrom, if_neg (by simpa [hhigh] using hbig), uleb128Groups_last hhigh]
      rfl
    · have hdiv : (value >>> 7).toNat < 128 ^ groups := by
        rw [toNat_high, Nat.div_lt_iff_lt_mul (by omega), ← pow_succ]
        exact h
      have hgroups : 0 < groups := by
        rcases Nat.eq_zero_or_pos groups with rfl | hpos
        · exact absurd (lt_of_high_eq_zero.mpr (by simpa using h)) hhigh
        · exact hpos
      rw [uleb128LenFrom, if_pos (hbig.mpr hhigh), uleb128Groups_next hhigh, List.length_cons,
        ih hgroups hdiv]

theorem uleb128Len_eq (value : UInt64) : uleb128Len value = (uleb128 value).length := by
  refine uleb128LenFrom_eq (by omega) (value.toNat_lt.trans_le ?_)
  calc 2 ^ 64 ≤ 2 ^ (7 * 10) := Nat.pow_le_pow_right (by omega) (by omega)
    _ = 128 ^ 10 := by rw [pow_mul]; rfl

/-! ## Signed offsets -/

theorem zigzag_bits_inv (v : BitVec 64) :
    (v >>> 1 ^^^ -(v &&& 1#64)) <<< 1 ^^^ (v >>> 1 ^^^ -(v &&& 1#64)).sshiftRight 63 = v := by
  rw [neg_lowest, sshiftRight_63]
  have hmsb : (v >>> 1 ^^^ if v.getLsbD 0 then BitVec.allOnes 64 else 0#64).msb = v.getLsbD 0 := by
    rw [BitVec.msb_eq_getLsbD_last]
    cases hv : v.getLsbD 0 <;> simp
  rw [hmsb]
  ext i hi
  rw [BitVec.getElem_xor, BitVec.getElem_shiftLeft, ← BitVec.getLsbD_eq_getElem]
  rcases i with _ | i
  · cases hv : v.getLsbD 0 <;> simp [hv, ← BitVec.getLsbD_eq_getElem, -BitVec.reduceAllOnes]
  · have hlt : i < 64 := by omega
    cases hv : v.getLsbD 0 <;>
      simp_all [-BitVec.reduceAllOnes, BitVec.getElem_allOnes, Nat.add_comm 1 i]

theorem zigzagEncode_decode (value : UInt64) : zigzagEncode (zigzagDecode value) = value := by
  unfold zigzagDecode zigzagEncode
  apply UInt64.toBitVec_inj.mp
  simpa using zigzag_bits_inv value.toBitVec

/-! ## Compact numbers -/

theorem log2_bounds {byte : UInt8} (h : byte ≠ 0) :
    2 ^ (8 - leadingZeros byte) ≤ 2 * byte.toNat ∧ byte.toNat < 2 ^ (8 - leadingZeros byte) := by
  have hall : ∀ b : Fin 256, UInt8.ofNat b ≠ 0 →
      2 ^ (8 - leadingZeros (UInt8.ofNat b)) ≤ 2 * (UInt8.ofNat b).toNat ∧
        (UInt8.ofNat b).toNat < 2 ^ (8 - leadingZeros (UInt8.ofNat b)) := by
    decide +kernel
  simpa using hall ⟨byte.toNat, byte.toNat_lt⟩ (by simpa using h)

/-- The bit length of a number without leading zeros. -/
theorem bitLen_le_iff {bytes : Bytes} (hhead : bytes.head? ≠ some 0) {n : ℕ} :
    bitLen bytes ≤ n ↔ beNat bytes < 2 ^ n := by
  cases bytes with
  | nil => simp [bitLen, beNat, leNat]
  | cons first rest =>
    obtain ⟨hlow, hhigh⟩ := log2_bounds (show first ≠ 0 by simpa using hhead)
    have hrest := beNat_lt rest
    have hlt := leadingZeros_lt (show first ≠ 0 by simpa using hhead)
    have hpow : 2 ^ bitLen (first :: rest) = 256 ^ rest.length * 2 ^ (8 - leadingZeros first) := by
      rw [bitLen, pow_add, Nat.mul_comm rest.length, pow_mul]
      rfl
    -- a number is below the power of its bit length, and at least half of it
    have hbelow : beNat (first :: rest) < 2 ^ bitLen (first :: rest) := by
      calc beNat (first :: rest) < 256 ^ rest.length * (first.toNat + 1) := by
            rw [beNat_cons, Nat.mul_succ]
            omega
        _ ≤ 256 ^ rest.length * 2 ^ (8 - leadingZeros first) := Nat.mul_le_mul_left _ hhigh
        _ = 2 ^ bitLen (first :: rest) := hpow.symm
    have habove : 2 ^ bitLen (first :: rest) ≤ 2 * beNat (first :: rest) := by
      calc 2 ^ bitLen (first :: rest)
          = 256 ^ rest.length * 2 ^ (8 - leadingZeros first) := hpow
        _ ≤ 256 ^ rest.length * (2 * first.toNat) := Nat.mul_le_mul_left _ hlow
        _ = 2 * (256 ^ rest.length * first.toNat) := Nat.mul_left_comm _ _ _
        _ ≤ 2 * beNat (first :: rest) := by
          rw [beNat_cons]
          omega
    constructor
    · intro hle
      exact hbelow.trans_le (Nat.pow_le_pow_right (by omega) hle)
    · intro hfit
      by_contra hgt
      have hdouble : 2 ^ (n + 1) ≤ 2 ^ bitLen (first :: rest) :=
        Nat.pow_le_pow_right (by omega) (Nat.not_le.mp hgt)
      rw [pow_succ] at hdouble
      omega

theorem bitLen_compactBytes_le_iff {value : U256} {n : ℕ} :
    bitLen (compactBytes value) ≤ n ↔ value.toNat < 2 ^ n := by
  rw [bitLen_le_iff (head?_compactBytes value), beNat_compactBytes]

/-- A byte below 64 has no mode bits. -/
theorem and_mode_eq_zero {byte : UInt8} (h : byte.toNat < 64) : byte &&& 0xc0 = 0 := by
  have hall : ∀ b : Fin 64, UInt8.ofNat b &&& 0xc0 = 0 := by decide +kernel
  simpa using hall ⟨byte.toNat, h⟩

/-- A mode with room for a number leaves the mode bits free. -/
theorem first_and_mode {compact : Bytes} {totalLen maxBits : ℕ} (hpos : 0 < totalLen)
    (hfit : maxBits + 2 = 8 * totalLen) (hlen : compact.length ≤ totalLen)
    (hnat : beNat compact < 2 ^ maxBits) :
    ∃ first, indexAt (List.replicate (totalLen - compact.length) 0 ++ compact) 0 = .ok first ∧
      first &&& 0xc0 = 0 := by
  have htotal : (List.replicate (totalLen - compact.length) 0 ++ compact).length = totalLen := by
    rw [List.length_append, List.length_replicate]
    omega
  have hsame : beNat (List.replicate (totalLen - compact.length) 0 ++ compact) = beNat compact :=
    beNat_replicate_append _ _
  generalize List.replicate (totalLen - compact.length) 0 ++ compact = payload at *
  rcases payload with _ | ⟨first, rest⟩
  · rw [List.length_nil] at htotal
    omega
  · refine ⟨first, rfl, and_mode_eq_zero ?_⟩
    rw [List.length_cons] at htotal
    have hpow : 2 ^ maxBits = 256 ^ rest.length * 64 := by
      have hbits : maxBits = 8 * rest.length + 6 := by omega
      rw [hbits, pow_add, pow_mul]
      rfl
    have hle : 256 ^ rest.length * first.toNat ≤ beNat (first :: rest) := by
      rw [beNat_cons]
      omega
    exact Nat.lt_of_mul_lt_mul_left ((hle.trans_eq hsame).trans_lt (hnat.trans_eq hpow))

/-- **A number is put exactly** when a mode has room for it. -/
theorem exists_putModes_iff {bits exceeds : String} {value : U256} {modes : List (UInt8 × ℕ × ℕ)}
    (hmodes : ModesFit modes) :
    (∃ x, putModes bits exceeds (compactBytes value) modes = .ok x) ↔
      ∃ m ∈ modes, value.toNat < 2 ^ m.2.2 := by
  induction modes with
  | nil => simp [putModes]
  | cons m modes ih =>
    obtain ⟨mode, totalLen, maxBits⟩ := m
    obtain ⟨⟨-, hpos, hfit⟩, hrest⟩ := List.forall_mem_cons.mp hmodes
    have hpos : 0 < totalLen := hpos
    have hfit : maxBits + 2 = 8 * totalLen := hfit
    rw [putModes, List.exists_mem_cons_iff]
    split
    -- the first mode with room for the bit length is taken, and the two high bits are free in it
    case isTrue hbits =>
      have hlt := bitLen_compactBytes_le_iff.mp hbits
      have hlen : (compactBytes value).length ≤ totalLen :=
        length_mul_lt_of_bitLen_le (head?_compactBytes value) (hbits.trans (by omega))
      obtain ⟨first, hfirst, hfree⟩ := first_and_mode hpos hfit hlen
        ((beNat_compactBytes value).trans_lt hlt)
      simp only [hfirst, ensure_of hfree, Except.ok_bind, Except.pure_def]
      exact ⟨fun _ => .inl hlt, fun _ => ⟨_, rfl⟩⟩
    case isFalse hbits =>
      rw [ih hrest]
      exact ⟨.inr, fun h => h.resolve_left (mt bitLen_compactBytes_le_iff.mpr hbits)⟩

theorem putQc8_iff {out : Bytes} {value : U256} :
    (∃ out', putQc8 out value = .ok out') ↔ value.toNat < 2 ^ 86 := by
  have hmodes : (∃ m ∈ [((0 : UInt8), 8, 62), (1, 9, 70), (2, 10, 78), (3, 11, 86)],
      value.toNat < 2 ^ m.2.2) ↔ value.toNat < 2 ^ 86 := by
    simp only [List.mem_cons, List.not_mem_nil, or_false, exists_eq_or_imp, exists_eq_left]
    omega
  rw [← hmodes, ← exists_putModes_iff (by simp [ModesFit])]
  simp only [putQc8, Except.bind_eq_ok, Except.pure_def, Except.ok.injEq]
  constructor
  · rintro ⟨_, x, hx, -⟩
    exact ⟨x, hx⟩
  · rintro ⟨x, hx⟩
    exact ⟨_, x, hx, rfl⟩

theorem putQc5e_none_iff {out : Bytes} {value : U256} :
    (∃ out', putQc5e out value none = .ok out') ↔ value.toNat < 2 ^ 54 := by
  have hmodes : (∃ m ∈ [((1 : UInt8), 5, 38), (2, 6, 46), (3, 7, 54)],
      value.toNat < 2 ^ m.2.2) ↔ value.toNat < 2 ^ 54 := by
    simp only [List.mem_cons, List.not_mem_nil, or_false, exists_eq_or_imp, exists_eq_left]
    omega
  rw [← hmodes, ← exists_putModes_iff (by simp [ModesFit])]
  simp only [putQc5e, Except.bind_eq_ok, Except.pure_def, Except.ok.injEq]
  constructor
  · rintro ⟨_, x, hx, -⟩
    exact ⟨x, hx⟩
  · rintro ⟨x, hx⟩
    exact ⟨_, x, hx, rfl⟩

/-- A number with an enum value is small, and so is the enum value. -/
def EnumFits (value : U256) (enumValue : Option UInt8) : Prop :=
  ∀ v ∈ enumValue, v < 64 ∧ value.toNat < 2 ^ 54

theorem enumFits_gasLimit (value : U256) : EnumFits value (qc5eGasLimitEnum value) := by
  unfold EnumFits qc5eGasLimitEnum
  split_ifs <;> simp_all

theorem enumFits_basePrice (value : U256) (espace : Bool) :
    EnumFits value (qc5eBasePriceEnum value espace) := by
  unfold EnumFits qc5eBasePriceEnum
  cases espace <;> simp only <;> split_ifs <;> simp_all

theorem putQc5e_iff {out : Bytes} {value : U256} {enumValue : Option UInt8}
    (h : EnumFits value enumValue) :
    (∃ out', putQc5e out value enumValue = .ok out') ↔ value.toNat < 2 ^ 54 := by
  cases enumValue with
  | none => exact putQc5e_none_iff
  | some v =>
    obtain ⟨hv, hvalue⟩ := h v rfl
    simp only [putQc5e, ensure_of hv, Except.ok_bind, Except.pure_def, hvalue, iff_true]
    exact ⟨_, rfl⟩

/-! ## Reading back -/

/-- What was put after `out` is read back, whatever follows, and nothing else is read. -/
def ReadsBack {α : Type} (read : Bytes → Cursor α) (out out' : Bytes) (P : α → Prop) : Prop :=
  out <+: out' ∧ ∀ rest, ∃ a, (read (out' ++ rest)).run out.length = .ok (a, out'.length) ∧ P a

theorem readsBack_append {α : Type} {read : Bytes → Cursor α} {x : Bytes} {P : α → Prop}
    (h : ∀ data, ∃ a, Reads data (read data) x a ∧ P a) (out : Bytes) :
    ReadsBack read out (out ++ x) P := by
  refine ⟨List.prefix_append _ _, fun rest => ?_⟩
  obtain ⟨a, hreads, ha⟩ := h (out ++ x ++ rest)
  refine ⟨a, ?_, ha⟩
  rw [List.length_append]
  exact hreads out.length rest (by rw [List.append_assoc, List.drop_left])

/-- **The primitive encodings round trip in context**, and hold exactly the numbers that fit. -/
theorem codec_roundtrip :
    (∀ (out : Bytes) (value : UInt64),
      ReadsBack readUleb128 out (putUleb128 out value) (· = value) ∧
        (putUleb128 out value).length = out.length + uleb128Len value) ∧
    (∀ value : Int64, zigzagDecode (zigzagEncode value) = value) ∧
    (∀ value : UInt64, zigzagEncode (zigzagDecode value) = value) ∧
    (∀ (out : Bytes) (value : U256),
      ((∃ out', putQc8 out value = .ok out') ↔ value.toNat < 2 ^ 86) ∧
        ∀ out', putQc8 out value = .ok out' → ReadsBack readQc8 out out' (· = value)) ∧
    (∀ (out : Bytes) (value : U256),
      ((∃ out', putQc5e out value (qc5eGasLimitEnum value) = .ok out') ↔ value.toNat < 2 ^ 54) ∧
        ∀ out', putQc5e out value (qc5eGasLimitEnum value) = .ok out' →
          ReadsBack readQc5e out out' (·.gasLimit = value)) ∧
    ∀ (out : Bytes) (value : U256) (espace : Bool),
      ((∃ out', putQc5e out value (qc5eBasePriceEnum value espace) = .ok out') ↔
        value.toNat < 2 ^ 54) ∧
        ∀ out', putQc5e out value (qc5eBasePriceEnum value espace) = .ok out' →
          ReadsBack readQc5e out out' (·.basePrice espace = value) := by
  refine ⟨fun out value => ⟨?_, ?_⟩, zigzagDecode_encode, zigzagEncode_decode,
    fun out value => ⟨putQc8_iff, fun out' h => ?_⟩,
    fun out value => ⟨putQc5e_iff (enumFits_gasLimit value), fun out' h => ?_⟩,
    fun out value espace => ⟨putQc5e_iff (enumFits_basePrice value espace), fun out' h => ?_⟩⟩
  · have hvalue : ∀ data, ∃ a, Reads data (readUleb128 data) (uleb128 value) a ∧ a = value :=
      fun data => ⟨value, reads_uleb128 data value, rfl⟩
    exact readsBack_append hvalue out
  · rw [putUleb128, List.length_append, uleb128Len_eq]
  · obtain ⟨x, rfl, hreads⟩ := putQc8_eq_ok h
    have hvalue : ∀ data, ∃ a, Reads data (readQc8 data) x a ∧ a = value :=
      fun data => ⟨value, hreads data, rfl⟩
    exact readsBack_append hvalue out
  · obtain ⟨x, rfl, hreads⟩ := reads_gasLimit h
    exact readsBack_append hreads out
  · obtain ⟨x, rfl, hreads⟩ := reads_basePrice h
    exact readsBack_append hreads out

end Cfxpack
