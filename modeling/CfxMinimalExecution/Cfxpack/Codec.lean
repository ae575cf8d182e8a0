import CfxMinimalExecution.Library.Cursor
import CfxMinimalExecution.Library.Digits

/-!
# The primitive encodings of a packet

## Main definitions

* `putUleb128`, `readUleb128`: numbers in groups of seven bits
* `putQc8`, `readQc8`, `putQc5e`, `readQc5e`: numbers whose first two bits give the length
* `zigzagEncode`, `zigzagDecode`: signed numbers as unsigned ones
* `alignTo`: zero padding

## Main results

* `reads_uleb128`, `reads_gasLimit`, `reads_basePrice`: what is put is read back
* `zigzagDecode_encode`: the sign survives
-/

namespace Cfxpack

/-- A 256-bit word. -/
abbrev U256 := BitVec 256

def u256ToBe (value : U256) : Bytes := beBytes 32 value.toNat

def U256.fromBigEndian (bytes : Bytes) : U256 := BitVec.ofNat 256 (beNat bytes)

/-! ## Words -/

def putU32Le (out : Bytes) (value : UInt32) : Bytes := out ++ leBytes 4 value.toNat

def readU32Le (data : Bytes) (offset : ℕ) : Result UInt32 := do
  ensure (offset + 4 ≤ data.length) "u32 read out of bounds"
  let bytes ← slice data offset (offset + 4)
  pure (UInt32.ofNat (leNat bytes))

def readU64Le (data : Bytes) (offset : ℕ) : Result UInt64 := do
  ensure (offset + 8 ≤ data.length) "u64 read out of bounds"
  let bytes ← slice data offset (offset + 8)
  pure (UInt64.ofNat (leNat bytes))

/-! ## Groups of seven bits -/

/-- The rounds of `put_uleb128`. Ten groups hold 64 bits. -/
def uleb128Groups : ℕ → UInt64 → Bytes
  | 0, _ => []
  | groups + 1, value =>
    let byte := (value &&& 0x7f).toUInt8
    if value >>> 7 = 0 then [byte] else (byte ||| 0x80) :: uleb128Groups groups (value >>> 7)

def uleb128 (value : UInt64) : Bytes := uleb128Groups 10 value

def putUleb128 (out : Bytes) (value : UInt64) : Bytes := out ++ uleb128 value

/-- The rounds of `read_uleb128`: the shift stays below 64 for ten of them. -/
def readUleb128Groups (data : Bytes) : ℕ → UInt64 → UInt64 → Cursor UInt64
  | 0, _, _ => throw (.error "uleb128 overflow")
  | groups + 1, shift, value => do
    let offset ← get
    ensure (offset < data.length) "uleb128 read out of bounds"
    let byte ← indexAt data offset
    set (offset + 1)
    let value := value ||| (byte &&& 0x7f).toUInt64 <<< shift
    if byte &&& 0x80 = 0 then pure value
    else readUleb128Groups data groups (shift + 7) value

def readUleb128 (data : Bytes) : Cursor UInt64 := readUleb128Groups data 10 0 0

def uleb128LenFrom : ℕ → UInt64 → ℕ
  | 0, _ => 1
  | groups + 1, value => if value ≥ 0x80 then uleb128LenFrom groups (value >>> 7) + 1 else 1

def uleb128Len (value : UInt64) : ℕ := uleb128LenFrom 10 value

/-! ## Signed offsets -/

def zigzagEncode (value : Int64) : UInt64 := ((value <<< 1) ^^^ (value >>> 63)).toUInt64

def zigzagDecode (value : UInt64) : Int64 := (value >>> 1).toInt64 ^^^ -(value &&& 1).toInt64

/-! ## Compact numbers -/

def leadingZeros (byte : UInt8) : ℕ := if byte = 0 then 8 else 7 - byte.toNat.log2

def bitLen : Bytes → ℕ
  | [] => 0
  | first :: rest => rest.length * 8 + (8 - leadingZeros first)

/-- The bytes of a number from the first one that is not zero. -/
def compactBytes (value : U256) : Bytes := (u256ToBe value).dropWhile (· = 0)

/-- The loop of `put_qc8` and `put_qc5e` over the modes, each with its length and its payload bits.
The first mode that has room for the number is taken. -/
def putModes (bits exceeds : String) (compact : Bytes) : List (UInt8 × ℕ × ℕ) → Result Bytes
  | [] => throw (.error exceeds)
  | (mode, totalLen, maxBits) :: modes =>
    if bitLen compact ≤ maxBits then do
      let payload := List.replicate (totalLen - compact.length) 0 ++ compact
      let first ← indexAt payload 0
      ensure (first &&& 0xc0 = 0) bits
      pure (payload.modify 0 (· ||| mode <<< 6))
    else putModes bits exceeds compact modes

def putQc8 (out : Bytes) (value : U256) : Result Bytes := do
  let payload ← putModes "qc8 value exceeds payload bits"
    s!"qc8 value exceeds 86 bits: {value.toNat}" (compactBytes value)
    [(0, 8, 62), (1, 9, 70), (2, 10, 78), (3, 11, 86)]
  pure (out ++ payload)

def readQc8 (data : Bytes) : Cursor U256 := do
  let offset ← get
  ensure (offset < data.length) "qc8 read out of bounds"
  let mode := (← indexAt data offset) >>> 6
  let len := if mode = 0 then 8 else if mode = 1 then 9 else if mode = 2 then 10 else 11
  ensure (offset + len ≤ data.length) "qc8 exceeds buffer"
  let bytes ← slice data offset (offset + len)
  set (offset + len)
  pure (U256.fromBigEndian (bytes.modify 0 (· &&& 0x3f)))

inductive Qc5eValue where
  | enum (value : UInt8)
  | integer (value : U256)

namespace Qc5eValue

def gasLimit : Qc5eValue → U256
  | enum value => if value = 1 then 30000000 else if value = 2 then 60000000 else 0
  | integer value => value

def basePrice (espace : Bool) : Qc5eValue → U256
  | enum value =>
    if value = 0 then 0
    else if value = 1 then (if espace then 20000000000 else 1000000000)
    else 0
  | integer value => value

end Qc5eValue

def qc5eGasLimitEnum (value : U256) : Option UInt8 :=
  if value = 30000000 then some 1
  else if value = 60000000 then some 2
  else if value = 0 then some 0
  else none

def qc5eBasePriceEnum (value : U256) (espace : Bool) : Option UInt8 :=
  let default : U256 := if espace then 20000000000 else 1000000000
  if value = 0 then some 0 else if value = default then some 1 else none

def putQc5e (out : Bytes) (value : U256) (enumValue : Option UInt8) : Result Bytes :=
  match enumValue with
  | some v => do
    ensure (v < 64) "qc5e enum value out of range"
    pure (out ++ [v])
  | none => do
    let payload ← putModes "qc5e value exceeds payload bits"
      s!"qc5e value exceeds 54 bits: {value.toNat}" (compactBytes value)
      [(1, 5, 38), (2, 6, 46), (3, 7, 54)]
    pure (out ++ payload)

def readQc5e (data : Bytes) : Cursor Qc5eValue := do
  let offset ← get
  ensure (offset < data.length) "qc5e read out of bounds"
  let first ← indexAt data offset
  let mode := first >>> 6
  if mode = 0 then do
    set (offset + 1)
    pure (.enum (first &&& 0x3f))
  else do
    let len := if mode = 1 then 5 else if mode = 2 then 6 else 7
    ensure (offset + len ≤ data.length) "qc5e exceeds buffer"
    let bytes ← slice data offset (offset + len)
    set (offset + len)
    pure (.integer (U256.fromBigEndian (bytes.modify 0 (· &&& 0x3f))))

def alignTo (out : Bytes) (align : ℕ) : Bytes :=
  out ++ List.replicate ((align - out.length % align) % align) 0

/-! ## Reading back -/

theorem readU32Le_of_drop {data rest : Bytes} {offset : ℕ} {value : UInt32}
    (h : data.drop offset = leBytes 4 value.toNat ++ rest) :
    readU32Le data offset = .ok value := by
  have hlen : (leBytes 4 value.toNat).length = 4 := length_leBytes _ _
  have hle := add_length_le_of_drop_eq h (List.ne_nil_of_length_pos (by omega))
  rw [hlen] at hle
  simp [readU32Le, ensure_of hle, slice_of_drop_eq h hlen (by omega)]

theorem readU64Le_of_drop {data rest : Bytes} {offset : ℕ} {value : UInt64}
    (h : data.drop offset = leBytes 8 value.toNat ++ rest) :
    readU64Le data offset = .ok value := by
  have hlen : (leBytes 8 value.toNat).length = 8 := length_leBytes _ _
  have hle := add_length_le_of_drop_eq h (List.ne_nil_of_length_pos (by omega))
  rw [hlen] at hle
  simp [readU64Le, ensure_of hle, slice_of_drop_eq h hlen (by omega)]

theorem run_readUleb128Groups {data rest : Bytes} {byte : UInt8} {offset : ℕ} (groups : ℕ)
    (shift value : UInt64) (h : data.drop offset = byte :: rest) :
    (readUleb128Groups data (groups + 1) shift value).run offset =
      if byte &&& 0x80 = 0 then
        .ok (value ||| (byte &&& 0x7f).toUInt64 <<< shift, offset + 1)
      else
        (readUleb128Groups data groups (shift + 7)
          (value ||| (byte &&& 0x7f).toUInt64 <<< shift)).run (offset + 1) := by
  obtain ⟨hlt, hget⟩ := getElem?_of_drop_eq h
  have hbyte : indexAt data offset = .ok byte := indexAt_eq_ok.mpr hget
  simp [readUleb128Groups, ensure_of hlt, hbyte]
  split <;> rfl

theorem toNat_low (value : UInt64) : (value &&& 0x7f).toUInt8.toNat = value.toNat % 128 := by
  rw [UInt64.toNat_toUInt8, UInt64.toNat_and, show (0x7f : UInt64).toNat = 2 ^ 7 - 1 from rfl,
    Nat.and_two_pow_sub_one_eq_mod]
  omega

theorem toNat_high (value : UInt64) : (value >>> 7).toNat = value.toNat / 128 := by
  rw [UInt64.toNat_shiftRight]
  simp [Nat.shiftRight_eq_div_pow]

/-- The bits of a group do not meet the continuation bit. -/
theorem group_bits (byte : UInt8) (h : byte.toNat < 128) :
    byte &&& 0x80 = 0 ∧ byte &&& 0x7f = byte ∧
      (byte ||| 0x80) &&& 0x80 ≠ 0 ∧ (byte ||| 0x80) &&& 0x7f = byte := by
  have hall : ∀ b : Fin 128, UInt8.ofNat b &&& 0x80 = 0 ∧ UInt8.ofNat b &&& 0x7f = UInt8.ofNat b ∧
      (UInt8.ofNat b ||| 0x80) &&& 0x80 ≠ 0 ∧
      (UInt8.ofNat b ||| 0x80) &&& 0x7f = UInt8.ofNat b := by decide +kernel
  simpa using hall ⟨byte.toNat, h⟩

theorem shiftLeft_groups {value : UInt64} {k : ℕ} (hfit : value.toNat * 2 ^ (7 * k) < 2 ^ 64)
    (hk : 7 * k + 7 < 64) :
    (value &&& 0x7f).toUInt8.toUInt64 <<< UInt64.ofNat (7 * k) |||
      (value >>> 7) <<< UInt64.ofNat (7 * (k + 1)) = value <<< UInt64.ofNat (7 * k) := by
  apply UInt64.toNat_inj.mp
  have hlow : (value &&& 0x7f).toUInt8.toUInt64.toNat = value.toNat % 128 := by
    rw [UInt8.toNat_toUInt64, toNat_low]
  have hs : (UInt64.ofNat (7 * k)).toNat % 64 = 7 * k := by
    rw [UInt64.toNat_ofNat']
    omega
  have hs' : (UInt64.ofNat (7 * (k + 1))).toNat % 64 = 7 * k + 7 := by
    rw [UInt64.toNat_ofNat']
    omega
  have hvalue := Nat.div_add_mod value.toNat 128
  have hsplit : value.toNat * 2 ^ (7 * k) =
      2 ^ (7 * k + 7) * (value.toNat / 128) + value.toNat % 128 * 2 ^ (7 * k) := by
    calc value.toNat * 2 ^ (7 * k)
        = (128 * (value.toNat / 128) + value.toNat % 128) * 2 ^ (7 * k) := by rw [hvalue]
      _ = 2 ^ (7 * k + 7) * (value.toNat / 128) + value.toNat % 128 * 2 ^ (7 * k) := by
        rw [pow_add]
        ring
  have hlt : value.toNat % 128 * 2 ^ (7 * k) < 2 ^ (7 * k + 7) := by
    rw [pow_add, mul_comm]
    exact Nat.mul_lt_mul_of_pos_left (Nat.mod_lt _ (by omega)) (Nat.two_pow_pos _)
  rw [UInt64.toNat_or, UInt64.toNat_shiftLeft, UInt64.toNat_shiftLeft, UInt64.toNat_shiftLeft,
    hs, hs', hlow, toNat_high, Nat.shiftLeft_eq, Nat.shiftLeft_eq, Nat.shiftLeft_eq,
    Nat.mod_eq_of_lt hfit, mul_comm (value.toNat / 128), Nat.mod_eq_of_lt (by omega),
    Nat.mod_eq_of_lt (by omega : 2 ^ (7 * k + 7) * (value.toNat / 128) < 2 ^ 64),
    Nat.or_comm, ← Nat.two_pow_add_eq_or_of_lt hlt, hsplit]

theorem uleb128Groups_last {value : UInt64} (h : value >>> 7 = 0) (groups : ℕ) :
    uleb128Groups (groups + 1) value = [(value &&& 0x7f).toUInt8] := by
  rw [uleb128Groups, if_pos h]

theorem uleb128Groups_next {value : UInt64} (h : value >>> 7 ≠ 0) (groups : ℕ) :
    uleb128Groups (groups + 1) value =
      ((value &&& 0x7f).toUInt8 ||| 0x80) :: uleb128Groups groups (value >>> 7) := by
  rw [uleb128Groups, if_neg h]

theorem lt_of_high_eq_zero {value : UInt64} : value >>> 7 = 0 ↔ value.toNat < 128 := by
  rw [← UInt64.toNat_inj, toNat_high]
  simp

/-- The last group. -/
theorem reads_last (data : Bytes) (groups : ℕ) {value : UInt64} (shift acc : UInt64)
    (h : value >>> 7 = 0) :
    Reads data (readUleb128Groups data (groups + 1) shift acc) (uleb128Groups (groups + 1) value)
      (acc ||| value <<< shift) := by
  intro offset rest hdrop
  rw [uleb128Groups_last h] at hdrop ⊢
  have hlow := group_bits (value &&& 0x7f).toUInt8
    (by rw [toNat_low]; exact Nat.mod_lt _ (by omega))
  have hvalue : (value &&& 0x7f).toUInt8.toUInt64 = value := by
    apply UInt64.toNat_inj.mp
    rw [UInt8.toNat_toUInt64, toNat_low, Nat.mod_eq_of_lt (lt_of_high_eq_zero.mp h)]
  rw [run_readUleb128Groups _ _ _ hdrop, if_pos hlow.1, hlow.2.1, hvalue]
  rfl

theorem reads_uleb128Groups (data : Bytes) (groups k : ℕ) (value acc : UInt64)
    (hgroups : groups + k = 9) (hfit : value.toNat * 2 ^ (7 * k) < 2 ^ 64) :
    Reads data (readUleb128Groups data (groups + 1) (UInt64.ofNat (7 * k)) acc)
      (uleb128Groups (groups + 1) value) (acc ||| value <<< UInt64.ofNat (7 * k)) := by
  -- induction on the groups left, the value shifted by those written
  induction groups generalizing k value acc with
  -- nine groups are written: one bit is left
  | zero =>
    have hhigh : value >>> 7 = 0 := by
      rw [lt_of_high_eq_zero]
      obtain rfl : k = 9 := by omega
      omega
    exact reads_last data 0 _ acc hhigh
  | succ groups ih =>
    by_cases hhigh : value >>> 7 = 0
    · exact reads_last data _ _ acc hhigh
    -- the group has its continuation bit set, and seven bits of the value are left to read
    · intro offset rest hdrop
      rw [uleb128Groups_next hhigh] at hdrop ⊢
      have hlow := group_bits (value &&& 0x7f).toUInt8
        (by rw [toNat_low]; exact Nat.mod_lt _ (by omega))
      have hbig : 128 ≤ value.toNat := Nat.not_lt.mp (mt lt_of_high_eq_zero.mpr hhigh)
      have hk : 7 * k + 7 < 64 := by
        have hmul : 2 ^ (7 * k + 7) ≤ value.toNat * 2 ^ (7 * k) := by
          rw [pow_add, mul_comm]
          exact Nat.mul_le_mul_right _ hbig
        exact (Nat.pow_lt_pow_iff_right (by omega)).mp (hmul.trans_lt hfit)
      have hfit' : (value >>> 7).toNat * 2 ^ (7 * (k + 1)) < 2 ^ 64 := by
        refine lt_of_le_of_lt ?_ hfit
        rw [toNat_high, show 7 * (k + 1) = 7 + 7 * k by ring, pow_add, ← mul_assoc]
        exact Nat.mul_le_mul_right _ (Nat.div_mul_le_self _ _)
      have hshift : UInt64.ofNat (7 * k) + 7 = UInt64.ofNat (7 * (k + 1)) := by
        rw [show 7 * (k + 1) = 7 * k + 7 by ring, UInt64.ofNat_add]
        rfl
      have hrest := ih (k + 1) (value >>> 7)
        (acc ||| (value &&& 0x7f).toUInt8.toUInt64 <<< UInt64.ofNat (7 * k)) (by omega) hfit'
        (offset + 1) rest (drop_add_of_drop_eq (x := [_]) hdrop)
      rw [run_readUleb128Groups _ _ _ hdrop, if_neg hlow.2.2.1, hlow.2.2.2, hshift, hrest,
        UInt64.or_assoc, shiftLeft_groups hfit hk, List.length_cons, Nat.add_right_comm,
        Nat.add_assoc]

theorem reads_uleb128 (data : Bytes) (value : UInt64) :
    Reads data (readUleb128 data) (uleb128 value) value := by
  unfold readUleb128 uleb128
  simpa using reads_uleb128Groups data 9 0 value 0 rfl (by simpa using value.toNat_lt)

theorem uleb128_ne_nil (value : UInt64) : uleb128 value ≠ [] := by
  unfold uleb128 uleb128Groups
  split <;> simp

/-- An arithmetic shift by 63 repeats the sign. -/
theorem sshiftRight_63 (v : BitVec 64) :
    v.sshiftRight 63 = if v.msb then BitVec.allOnes 64 else 0#64 := by
  ext i hi
  rw [BitVec.getElem_sshiftRight, BitVec.msb_eq_getLsbD_last]
  split
  case isTrue h =>
    obtain rfl : i = 0 := by omega
    cases hv : v.getLsbD 63 <;> simp [hv, ← BitVec.getLsbD_eq_getElem, -BitVec.reduceAllOnes]
  case isFalse h =>
    cases hv : v.getLsbD 63 <;> simp [-BitVec.reduceAllOnes, BitVec.getElem_allOnes]

theorem neg_lowest (e : BitVec 64) :
    -(e &&& 1#64) = if e.getLsbD 0 then BitVec.allOnes 64 else 0#64 := by
  have h : e &&& 1#64 = if e.getLsbD 0 then 1#64 else 0#64 := by
    ext i hi
    rw [BitVec.getElem_and]
    cases hv : e.getLsbD 0 <;> by_cases hi0 : i = 0 <;> simp_all [BitVec.getElem_one]
  rw [h]
  split <;> rfl

theorem zigzag_bits (v : BitVec 64) :
    (v <<< 1 ^^^ v.sshiftRight 63) >>> 1 ^^^ -((v <<< 1 ^^^ v.sshiftRight 63) &&& 1#64) = v := by
  rw [neg_lowest]
  ext i hi
  rw [BitVec.getElem_xor, BitVec.getElem_ushiftRight, BitVec.getLsbD_xor, BitVec.getLsbD_xor,
    sshiftRight_63, BitVec.msb_eq_getLsbD_last]
  by_cases h63 : i = 63
  · subst h63
    cases hv : v.getLsbD 63 <;> simp_all
  · have : 1 + i < 64 := by omega
    cases hv : v.getLsbD 63 <;> simp_all [-BitVec.reduceAllOnes, BitVec.getElem_allOnes]

theorem zigzagDecode_encode (value : Int64) : zigzagDecode (zigzagEncode value) = value := by
  unfold zigzagDecode zigzagEncode
  apply Int64.toBitVec_inj.mp
  simpa using zigzag_bits value.toBitVec

theorem beNat_compactBytes (value : U256) : beNat (compactBytes value) = value.toNat := by
  rw [compactBytes, beNat_dropWhile, u256ToBe, beNat_beBytes]
  exact value.isLt.trans_le (by norm_num)

theorem fromBigEndian_of_beNat {bytes : Bytes} {value : U256} (h : beNat bytes = value.toNat) :
    U256.fromBigEndian bytes = value := by
  rw [U256.fromBigEndian, h, BitVec.ofNat_toNat, BitVec.setWidth_eq]

theorem leadingZeros_lt {byte : UInt8} (h : byte ≠ 0) : leadingZeros byte < 8 := by
  rw [leadingZeros, if_neg h]
  omega

theorem length_mul_lt_of_bitLen_le {bytes : Bytes} {n : ℕ} (hhead : bytes.head? ≠ some 0)
    (h : bitLen bytes ≤ 8 * n) : bytes.length ≤ n := by
  cases bytes with
  | nil => simp
  | cons first rest =>
    have hlt := leadingZeros_lt (show first ≠ 0 by simpa using hhead)
    simp only [bitLen, List.length_cons] at h ⊢
    omega

theorem head?_compactBytes (value : U256) : (compactBytes value).head? ≠ some 0 := by
  intro h
  have := List.head?_dropWhile_not (· = (0 : UInt8)) (u256ToBe value)
  rw [← compactBytes, h] at this
  simp at this

/-- The modes in use leave two bits for the mode. -/
def ModesFit (modes : List (UInt8 × ℕ × ℕ)) : Prop :=
  ∀ m ∈ modes, m.1.toNat < 4 ∧ 0 < m.2.1 ∧ m.2.2 + 2 = 8 * m.2.1

theorem putModes_eq_ok {bits exceeds : String} {compact x : Bytes} {modes : List (UInt8 × ℕ × ℕ)}
    (hmodes : ModesFit modes) (hhead : compact.head? ≠ some 0)
    (h : putModes bits exceeds compact modes = .ok x) :
    ∃ mode totalLen maxBits payload, (mode, totalLen, maxBits) ∈ modes ∧
      payload.length = totalLen ∧ beNat payload = beNat compact ∧
      ∃ first rest, payload = first :: rest ∧ first &&& 0xc0 = 0 ∧
        x = (first ||| mode <<< 6) :: rest := by
  induction modes with
  | nil => simp [putModes] at h
  | cons m modes ih =>
    obtain ⟨mode, totalLen, maxBits⟩ := m
    rw [putModes] at h
    split at h
    -- the first mode with room is taken: zeros, then the bytes, then the mode in the two free bits
    case isTrue hbits =>
      obtain ⟨-, hpos, hmax⟩ := hmodes _ List.mem_cons_self
      have hlen : compact.length ≤ totalLen :=
        length_mul_lt_of_bitLen_le hhead (by simp only at hmax; omega)
      have htotal : (List.replicate (totalLen - compact.length) 0 ++ compact).length = totalLen := by
        simp only [List.length_append, List.length_replicate]
        omega
      simp only [Except.bind_eq_ok, indexAt_eq_ok, ensure_eq_ok, Except.pure_def] at h
      obtain ⟨first, hfirst, -, hzero, hx⟩ := h
      refine ⟨mode, totalLen, maxBits, _, List.mem_cons_self, htotal,
        beNat_replicate_append _ _, ?_⟩
      rcases hp : List.replicate (totalLen - compact.length) 0 ++ compact with _ | ⟨f, rest⟩
      · rw [hp] at hfirst
        simp at hfirst
      · rw [hp] at hfirst hx
        obtain rfl : f = first := by simpa using hfirst
        exact ⟨f, rest, rfl, hzero, by simpa using hx.symm⟩
    case isFalse =>
      obtain ⟨mode', totalLen', maxBits', payload, hmem, hrest⟩ :=
        ih (fun m hm => hmodes m (List.mem_cons_of_mem _ hm)) h
      exact ⟨mode', totalLen', maxBits', payload, List.mem_cons_of_mem _ hmem, hrest⟩

/-- The first byte holds the mode above six bits of payload. -/
theorem mode_payload {first mode : UInt8} (hfirst : first &&& 0xc0 = 0) (hmode : mode.toNat < 4) :
    (first ||| mode <<< 6) >>> 6 = mode ∧ (first ||| mode <<< 6) &&& 0x3f = first := by
  have hall : ∀ (f : Fin 256) (m : Fin 4), UInt8.ofNat f &&& 0xc0 = 0 →
      (UInt8.ofNat f ||| UInt8.ofNat m <<< 6) >>> 6 = UInt8.ofNat m ∧
        (UInt8.ofNat f ||| UInt8.ofNat m <<< 6) &&& 0x3f = UInt8.ofNat f := by decide +kernel
  simpa using hall ⟨first.toNat, first.toNat_lt⟩ ⟨mode.toNat, hmode⟩ (by simpa using hfirst)

/-- What is put: a mode of the list, its length, and the number under the mode bits. -/
theorem putModes_spec {bits exceeds : String} {value : U256} {x : Bytes}
    {modes : List (UInt8 × ℕ × ℕ)} (hmodes : ModesFit modes)
    (h : putModes bits exceeds (compactBytes value) modes = .ok x) :
    ∃ m ∈ modes, 0 < m.2.1 ∧ x.length = m.2.1 ∧ ∃ first rest, x = first :: rest ∧
      first >>> 6 = m.1 ∧ U256.fromBigEndian ((first &&& 0x3f) :: rest) = value := by
  obtain ⟨mode, totalLen, maxBits, payload, hmem, hlen, hnat, first, rest, rfl, hzero, rfl⟩ :=
    putModes_eq_ok hmodes (head?_compactBytes value) h
  obtain ⟨hmode, hpos, -⟩ := hmodes _ hmem
  obtain ⟨hhigh, hlow⟩ := mode_payload hzero hmode
  refine ⟨_, hmem, hpos, hlen, _, rest, rfl, hhigh, ?_⟩
  rw [hlow]
  exact fromBigEndian_of_beNat (hnat.trans (beNat_compactBytes value))

theorem putQc8_eq_ok {out out' : Bytes} {value : U256} (h : putQc8 out value = .ok out') :
    ∃ x, out' = out ++ x ∧ ∀ data, Reads data (readQc8 data) x value := by
  simp only [putQc8, Except.bind_eq_ok, Except.pure_def, Except.ok.injEq] at h
  obtain ⟨x, hx, rfl⟩ := h
  refine ⟨x, rfl, fun data offset rest hdrop => ?_⟩
  obtain ⟨⟨mode, totalLen, maxBits⟩, hmem, hpos, hlen, first, tail, rfl, hmode, hvalue⟩ :=
    putModes_spec (by simp [ModesFit]) hx
  obtain ⟨hlt, hget⟩ := getElem?_of_drop_eq hdrop
  have hslice := slice_of_drop_eq hdrop hlen hpos
  have hle := add_length_le_of_drop_eq hdrop (List.cons_ne_nil _ _)
  have htotal : (if mode = 0 then 8 else if mode = 1 then 9 else if mode = 2 then 10 else 11) =
      totalLen := by
    simp only [List.mem_cons, Prod.mk.injEq, List.not_mem_nil, or_false] at hmem
    rcases hmem with ⟨rfl, rfl, -⟩ | ⟨rfl, rfl, -⟩ | ⟨rfl, rfl, -⟩ | ⟨rfl, rfl, -⟩ <;> rfl
  rw [hlen] at hle ⊢
  simp [readQc8, ensure_of hlt, indexAt_eq_ok.mpr hget, hmode, htotal, ensure_of hle, hslice, hvalue]

/-- A number that has no enum value. -/
theorem putQc5e_none {out out' : Bytes} {value : U256} (h : putQc5e out value none = .ok out') :
    ∃ x, out' = out ++ x ∧ ∀ data, Reads data (readQc5e data) x (.integer value) := by
  simp only [putQc5e, Except.bind_eq_ok, Except.pure_def, Except.ok.injEq] at h
  obtain ⟨x, hx, rfl⟩ := h
  refine ⟨x, rfl, fun data offset rest hdrop => ?_⟩
  obtain ⟨⟨mode, totalLen, maxBits⟩, hmem, hpos, hlen, first, tail, rfl, hmode, hvalue⟩ :=
    putModes_spec (by simp [ModesFit]) hx
  obtain ⟨hlt, hget⟩ := getElem?_of_drop_eq hdrop
  have hslice := slice_of_drop_eq hdrop hlen hpos
  have hle := add_length_le_of_drop_eq hdrop (List.cons_ne_nil _ _)
  have htotal : mode ≠ 0 ∧ (if mode = 1 then 5 else if mode = 2 then 6 else 7) = totalLen := by
    simp only [List.mem_cons, Prod.mk.injEq, List.not_mem_nil, or_false] at hmem
    rcases hmem with ⟨rfl, rfl, -⟩ | ⟨rfl, rfl, -⟩ | ⟨rfl, rfl, -⟩ <;> decide
  rw [hlen] at hle ⊢
  simp [readQc5e, ensure_of hlt, indexAt_eq_ok.mpr hget, hmode, htotal, ensure_of hle, hslice, hvalue]

theorem putQc5e_some {out out' : Bytes} {value : U256} {v : UInt8}
    (h : putQc5e out value (some v) = .ok out') :
    ∃ x, out' = out ++ x ∧ ∀ data, Reads data (readQc5e data) x (.enum v) := by
  simp only [putQc5e, Except.bind_eq_ok, ensure_eq_ok, Except.pure_def, Except.ok.injEq] at h
  obtain ⟨-, hv, rfl⟩ := h
  refine ⟨[v], rfl, fun data offset rest hdrop => ?_⟩
  obtain ⟨hlt, hget⟩ := getElem?_of_drop_eq hdrop
  have hbits : v >>> 6 = 0 ∧ v &&& 0x3f = v := by
    have hall : ∀ b : Fin 64, UInt8.ofNat b >>> 6 = 0 ∧ UInt8.ofNat b &&& 0x3f = UInt8.ofNat b := by
      decide +kernel
    simpa using hall ⟨v.toNat, hv⟩
  simp [readQc5e, ensure_of hlt, indexAt_eq_ok.mpr hget, hbits]

/-- **The gas limit is read back**, by its number or by its enum value. -/
theorem reads_gasLimit {out out' : Bytes} {value : U256}
    (h : putQc5e out value (qc5eGasLimitEnum value) = .ok out') :
    ∃ x, out' = out ++ x ∧ ∀ data, ∃ q, Reads data (readQc5e data) x q ∧ q.gasLimit = value := by
  cases he : qc5eGasLimitEnum value with
  | none =>
    rw [he] at h
    obtain ⟨x, hx, hreads⟩ := putQc5e_none h
    exact ⟨x, hx, fun data => ⟨_, hreads data, rfl⟩⟩
  | some v =>
    rw [he] at h
    obtain ⟨x, hx, hreads⟩ := putQc5e_some h
    refine ⟨x, hx, fun data => ⟨_, hreads data, ?_⟩⟩
    unfold qc5eGasLimitEnum at he
    split_ifs at he <;> simp_all [Qc5eValue.gasLimit, ← Option.some.inj he]

/-- **The base price is read back** in its space. -/
theorem reads_basePrice {out out' : Bytes} {value : U256} {espace : Bool}
    (h : putQc5e out value (qc5eBasePriceEnum value espace) = .ok out') :
    ∃ x, out' = out ++ x ∧
      ∀ data, ∃ q, Reads data (readQc5e data) x q ∧ q.basePrice espace = value := by
  cases he : qc5eBasePriceEnum value espace with
  | none =>
    rw [he] at h
    obtain ⟨x, hx, hreads⟩ := putQc5e_none h
    exact ⟨x, hx, fun data => ⟨_, hreads data, rfl⟩⟩
  | some v =>
    rw [he] at h
    obtain ⟨x, hx, hreads⟩ := putQc5e_some h
    refine ⟨x, hx, fun data => ⟨_, hreads data, ?_⟩⟩
    unfold qc5eBasePriceEnum at he
    simp only at he
    split_ifs at he <;> simp_all [Qc5eValue.basePrice, ← Option.some.inj he]

end Cfxpack
