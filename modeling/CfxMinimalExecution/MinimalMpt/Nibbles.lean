import CfxMinimalExecution.MinimalMpt.Trie

/-!
# Nibbles

The expansion of byte keys into nibbles keeps order and prefixes, so the nibble-keyed image of a
map has the same entries in the same order. `nibblesToBytes` (`nibbles_to_bytes` of
`incremental.rs`) inverts it.

## Main results

* `compare_bytesToNibbles`, `bytesToNibbles_isPrefix_iff`: order and prefixes are kept
* `nibblesToBytes_bytesToNibbles`: the inverse
* `toList_nibbleMap`: the entries of the nibble-keyed image
-/

open Std (ExtTreeMap)

namespace MinimalMpt

theorem bytesToNibbles_cons (b : UInt8) (bytes : Bytes) :
    bytesToNibbles (b :: bytes) = (b >>> 4) :: (b &&& 0x0f) :: bytesToNibbles bytes := rfl

@[simp] theorem length_bytesToNibbles (bytes : Bytes) :
    (bytesToNibbles bytes).length = 2 * bytes.length := by
  induction bytes with
  | nil => rfl
  | cons b bytes ih =>
    rw [bytesToNibbles_cons, List.length_cons, List.length_cons, ih, List.length_cons]
    omega

theorem bytesToNibbles_append (k l : Bytes) :
    bytesToNibbles (k ++ l) = bytesToNibbles k ++ bytesToNibbles l :=
  List.flatMap_append

theorem toNat_high (b : UInt8) : (b >>> 4).toNat = b.toNat / 16 := by
  rw [UInt8.toNat_shiftRight]
  simp [Nat.shiftRight_eq_div_pow]

theorem toNat_low (b : UInt8) : (b &&& 0x0f).toNat = b.toNat % 16 := by
  rw [UInt8.toNat_and]
  exact Nat.and_two_pow_sub_one_eq_mod b.toNat 4

/-- Both halves of a byte are nibbles. -/
theorem bytesToNibbles_lt (bytes : Bytes) : ∀ x ∈ bytesToNibbles bytes, x < 16 := by
  induction bytes with
  | nil => simp [bytesToNibbles]
  | cons b bytes ih =>
    have hb := b.toNat_lt
    rw [bytesToNibbles_cons]
    intro x hx
    rcases List.mem_cons.mp hx with rfl | hx
    · rw [UInt8.lt_iff_toNat_lt, toNat_high]
      exact Nat.div_lt_of_lt_mul hb
    · rcases List.mem_cons.mp hx with rfl | hx
      · rw [UInt8.lt_iff_toNat_lt, toNat_low]
        exact Nat.mod_lt _ (by decide)
      · exact ih x hx

/-! ## Order and prefixes -/

theorem compare_eq_toNat (a b : UInt8) : compare a b = compare a.toNat b.toNat := by
  rw [Nat.compare_eq_ite_lt]
  simp only [compare, compareOfLessAndEq, UInt8.lt_iff_toNat_lt, ← UInt8.toNat_inj]
  split
  · rfl
  · split <;> split <;> first | rfl | omega

/-- Bytes are ordered by their high halves first. -/
theorem compare_halves (a b : UInt8) :
    compare a b = (compare (a >>> 4) (b >>> 4)).then (compare (a &&& 0x0f) (b &&& 0x0f)) := by
  simp only [compare_eq_toNat, toNat_high, toNat_low]
  rcases Nat.lt_trichotomy (a.toNat / 16) (b.toNat / 16) with h | h | h
  · rw [Nat.compare_eq_lt.mpr h, Ordering.lt_then, Nat.compare_eq_lt]
    omega
  · rw [Nat.compare_eq_eq.mpr h, Ordering.eq_then]
    rcases Nat.lt_trichotomy a.toNat b.toNat with hlt | heq | hgt
    · rw [Nat.compare_eq_lt.mpr hlt, eq_comm, Nat.compare_eq_lt]
      omega
    · rw [heq]
      simp
    · rw [Nat.compare_eq_gt.mpr hgt, eq_comm, Nat.compare_eq_gt]
      omega
  · rw [Nat.compare_eq_gt.mpr h, Ordering.gt_then, Nat.compare_eq_gt]
    omega

/-- The nibble expansion keeps the lexicographic order. -/
theorem compare_bytesToNibbles (k l : Bytes) :
    compare (bytesToNibbles k) (bytesToNibbles l) = compare k l := by
  induction k generalizing l with
  | nil =>
    cases l with
    | nil => rfl
    | cons b l => rfl
  | cons a k ih =>
    cases l with
    | nil => rfl
    | cons b l =>
      simp only [bytesToNibbles_cons, List.compare_cons_cons, ih]
      rw [compare_halves a b, Ordering.then_assoc]

theorem bytesToNibbles_injective : Function.Injective bytesToNibbles := by
  intro k l h
  rw [← Std.compare_eq_iff_eq (a := k), ← compare_bytesToNibbles, h]
  exact Std.ReflCmp.compare_self

/-- The nibble expansion keeps and reflects prefixes. -/
theorem bytesToNibbles_isPrefix_iff {p k : Bytes} :
    bytesToNibbles p <+: bytesToNibbles k ↔ p <+: k := by
  constructor
  · intro h
    have hlen := h.length_le
    rw [length_bytesToNibbles, length_bytesToNibbles, Nat.mul_le_mul_left_iff (by decide)] at hlen
    have htake : bytesToNibbles (k.take p.length) <+: bytesToNibbles k :=
      ⟨bytesToNibbles (k.drop p.length), by rw [← bytesToNibbles_append, List.take_append_drop]⟩
    have heq := (List.prefix_of_prefix_length_le h htake (by simp [hlen])).eq_of_length
      (by simp [hlen])
    rw [bytesToNibbles_injective heq]
    exact List.take_prefix _ _
  · rintro ⟨r, rfl⟩
    rw [bytesToNibbles_append]
    exact List.prefix_append _ _

/-! ## The inverse -/

/-- `nibbles_to_bytes`: pairs of nibbles as bytes, an odd last nibble dropped. -/
def nibblesToBytes : Bytes → Bytes
  | hi :: lo :: rest => (hi <<< 4 ||| lo) :: nibblesToBytes rest
  | _ => []

/-- Two nibbles packed into a byte. -/
theorem toNat_pack {hi lo : UInt8} (hhi : hi < 16) (hlo : lo < 16) :
    (hi <<< 4 ||| lo).toNat = 16 * hi.toNat + lo.toNat := by
  have hhi : hi.toNat < 16 := UInt8.lt_iff_toNat_lt.mp hhi
  have hlo : lo.toNat < 2 ^ 4 := UInt8.lt_iff_toNat_lt.mp hlo
  have hshift : (hi <<< 4).toNat = hi.toNat <<< 4 := by
    rw [UInt8.toNat_shiftLeft, Nat.shiftLeft_eq, Nat.shiftLeft_eq]
    change hi.toNat * 16 % 256 = hi.toNat * 16
    omega
  rw [UInt8.toNat_or, hshift, ← Nat.shiftLeft_add_eq_or_of_lt hlo, Nat.shiftLeft_eq, Nat.mul_comm]

theorem pack_halves (b : UInt8) : (b >>> 4) <<< 4 ||| (b &&& 0x0f) = b := by
  have hlt := bytesToNibbles_lt [b]
  have hhi := toNat_high b
  have hlo := toNat_low b
  refine UInt8.toNat_inj.mp ?_
  rw [toNat_pack (hlt _ (by simp [bytesToNibbles])) (hlt _ (by simp [bytesToNibbles])), hhi, hlo]
  omega

@[simp] theorem nibblesToBytes_bytesToNibbles (bytes : Bytes) :
    nibblesToBytes (bytesToNibbles bytes) = bytes := by
  induction bytes with
  | nil => rfl
  | cons b bytes ih => rw [bytesToNibbles_cons, nibblesToBytes, ih, pack_halves]

/-! ## The nibble-keyed image of a map -/

section NibbleMap

variable {β : Type*}

/-- A byte-keyed map under nibble keys. -/
def nibbleMap (kv : ExtTreeMap Bytes β) : ExtTreeMap Bytes β := mapKeys bytesToNibbles kv

theorem toList_nibbleMap (kv : ExtTreeMap Bytes β) :
    (nibbleMap kv).toList = kv.toList.map fun e => (bytesToNibbles e.1, e.2) :=
  StringMap.toList_mapKeys (fun k l h => by rwa [compare_bytesToNibbles]) kv

theorem getElem?_nibbleMap (kv : ExtTreeMap Bytes β) (k : Bytes) :
    (nibbleMap kv)[bytesToNibbles k]? = kv[k]? :=
  getElem?_mapKeys bytesToNibbles_injective kv k

@[simp] theorem isEmpty_nibbleMap (kv : ExtTreeMap Bytes β) :
    (nibbleMap kv).isEmpty = kv.isEmpty := by
  rw [← ExtTreeMap.isEmpty_toList, ← ExtTreeMap.isEmpty_toList, toList_nibbleMap, List.isEmpty_map]

/-- The keys of the image are nibbles. -/
theorem nibbleMap_lt (kv : ExtTreeMap Bytes β) : ∀ k ∈ nibbleMap kv, ∀ x ∈ k, x < 16 := by
  intro k hk
  obtain ⟨v, hv⟩ := Option.isSome_iff_exists.mp (ExtTreeMap.mem_iff_isSome_getElem?.mp hk)
  obtain ⟨l, rfl, -⟩ := (getElem?_mapKeys_eq_some_iff bytesToNibbles_injective).mp hv
  exact bytesToNibbles_lt l

end NibbleMap

end MinimalMpt
