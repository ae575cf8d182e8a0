import CfxMinimalExecution.Library.Hash

/-!
# Keccak-256

The sponge of Keccak with rate 1088, capacity 512 and the original padding. The state of 25
lanes of 64 bits is one number of 1600 bits; lane `(x, y)` stands at bit `64 (x + 5 y)`, so that
a row of five lanes is a block of 320 bits and the steps act on whole rows.

## Main definitions

* `keccakF`: the permutation of the state
* `keccak256`: the hash
-/

namespace Keccak

/-- The number with the `n` low bits set. -/
def ones (n : ℕ) : ℕ := (1 <<< n) - 1

/-- Bit 0 of every row of the state. -/
def rowUnits : ℕ := ones 1600 / ones 320

/-- Bit 0 of every lane of a row. -/
def laneUnits : ℕ := ones 320 / ones 64

/-- The 64-bit rotation by `n`. -/
def rotl64 (x n : ℕ) : ℕ := ((x <<< n) ||| (x >>> (64 - n))) &&& ones 64

/-- The step θ: every lane receives the parities of two columns. -/
def theta (s : ℕ) : ℕ :=
  let c := (s ^^^ (s >>> 320) ^^^ (s >>> 640) ^^^ (s >>> 960) ^^^ (s >>> 1280)) &&& ones 320
  let left := ((c <<< 64) ||| (c >>> 256)) &&& ones 320
  let right := ((c >>> 64) ||| (c <<< 256)) &&& ones 320
  let rotated := ((right <<< 1) &&& (ones 320 - laneUnits)) ||| ((right >>> 63) &&& laneUnits)
  s ^^^ ((left ^^^ rotated) * rowUnits)

/-- The steps ρ and π: for every lane in order, the lane it comes from and its rotation. -/
def schedule : List (ℕ × ℕ) :=
  [(0, 0), (6, 44), (12, 43), (18, 21), (24, 14),
   (3, 28), (9, 20), (10, 3), (16, 45), (22, 61),
   (1, 1), (7, 6), (13, 25), (19, 8), (20, 18),
   (4, 27), (5, 36), (11, 10), (17, 15), (23, 56),
   (2, 62), (8, 55), (14, 39), (15, 41), (21, 2)]

def rhoPi (s : ℕ) : List (ℕ × ℕ) → ℕ
  | [] => 0
  | (lane, rotation) :: rest =>
    rotl64 ((s >>> (64 * lane)) &&& ones 64) rotation ||| (rhoPi s rest <<< 64)

/-- The step χ: every lane is combined with the next two of its row. -/
def chi (s : ℕ) : ℕ :=
  let next := ((s >>> 64) &&& (ones 256 * rowUnits)) ||| ((s &&& (ones 64 * rowUnits)) <<< 256)
  let next₂ := ((s >>> 128) &&& (ones 192 * rowUnits)) ||| ((s &&& (ones 128 * rowUnits)) <<< 192)
  s ^^^ ((next ^^^ ones 1600) &&& next₂)

/-- The constants of the step ι. -/
def roundConstants : List ℕ :=
  [0x0000000000000001, 0x0000000000008082, 0x800000000000808a, 0x8000000080008000,
   0x000000000000808b, 0x0000000080000001, 0x8000000080008081, 0x8000000000008009,
   0x000000000000008a, 0x0000000000000088, 0x0000000080008009, 0x000000008000000a,
   0x000000008000808b, 0x800000000000008b, 0x8000000000008089, 0x8000000000008003,
   0x8000000000008002, 0x8000000000000080, 0x000000000000800a, 0x800000008000000a,
   0x8000000080008081, 0x8000000000008080, 0x0000000080000001, 0x8000000080008008]

/-- The permutation: 24 rounds. -/
def keccakF (s : ℕ) : ℕ :=
  roundConstants.foldl (fun s constant => chi (rhoPi (theta s) schedule) ^^^ constant) s

/-- The number with the given bytes, the least significant first. -/
def ofBytesLE : Bytes → ℕ
  | [] => 0
  | b :: rest => b.toNat + 256 * ofBytesLE rest

/-- The input padded to a multiple of 136 bytes. -/
def pad (s : Bytes) : Bytes :=
  let missing := 136 - s.length % 136
  if missing = 1 then s ++ [0x81] else s ++ 0x01 :: List.replicate (missing - 2) 0 ++ [0x80]

/-- The state after absorbing `n` blocks. -/
def absorb : ℕ → ℕ → Bytes → ℕ
  | 0, s, _ => s
  | n + 1, s, input => absorb n (keccakF (s ^^^ ofBytesLE (input.take 136))) (input.drop 136)

end Keccak

open Keccak in
/-- Keccak-256. -/
def keccak256 (input : Bytes) : H256 :=
  let s := absorb ((pad input).length / 136) 0 (pad input)
  ⟨Vector.ofFn fun i => UInt8.ofNat ((s >>> (8 * i.val)) % 256)⟩
