import CfxMinimalExecution.Cfxpack.Types

/-!
# The container

A file holds the packets of several groups of epochs: a header, a directory with an entry for each
group, and the packets.

## Main definitions

* `dirEntryBytes`: an entry of the directory
* `parseDirectory`: the reader of the directory
* `validateContiguity`: the check of a group against the one before it

## Main results

* `reads_dirEntry`: an entry is read back
-/

namespace Cfxpack

def magic : Bytes := [0x43, 0x46, 0x58, 0x50, 0x41, 0x43, 0x4b, 0x31]

def formatVersion : UInt32 := 1

/-- Magic, version, group count, shard epochs and four reserved bytes. -/
def containerHeaderLen : ℕ := 24

/-- Start epoch, epoch count, offset and length. -/
def dirEntryLen : ℕ := 32

/-- `u32::from_le_bytes` of a slice. -/
def u32FromLe (data : Bytes) (pos : ℕ) : Result UInt32 := do
  let bytes ← slice data pos (pos + 4)
  pure (UInt32.ofNat (leNat bytes))

/-- `u64::from_le_bytes` of a slice. -/
def u64FromLe (data : Bytes) (pos : ℕ) : Result UInt64 := do
  let bytes ← slice data pos (pos + 8)
  pure (UInt64.ofNat (leNat bytes))

/-- A start epoch, an epoch count, and the offset and the length of a payload. -/
abbrev Directory := List (UInt64 × UInt64 × ℕ × ℕ)

/-- One round of the loop over the directory. -/
def readDirEntry (profile : Profile) (data : Bytes) : Cursor (UInt64 × UInt64 × ℕ × ℕ) := do
  let pos ← get
  ensure (pos + dirEntryLen ≤ data.length) "truncated directory"
  let startEpoch ← u64FromLe data pos
  let epochCount ← u64FromLe data (pos + 8)
  let offset := (← u64FromLe data (pos + 16)).toNat
  let length := (← u64FromLe data (pos + 24)).toNat
  let stop ← profile.addUsize offset length
  ensure (stop ≤ data.length) "payload out of bounds"
  set (pos + dirEntryLen)
  pure (startEpoch, epochCount, offset, length)

def parseDirectory (profile : Profile) (data : Bytes) : Result Directory := do
  ensure (containerHeaderLen ≤ data.length ∧ data.take 8 = magic) "not a cfxpack container"
  let groupCount ← u32FromLe data 12
  ((List.range groupCount.toNat).mapM fun _ => readDirEntry profile data).run' containerHeaderLen

/-- Groups follow one another, and the first pending one the height of the checkpoint. -/
def validateContiguity (profile : Profile) (startEpoch : UInt64) (nextExpected : Option UInt64)
    (resumeHeight : UInt64) : Result Unit :=
  match nextExpected with
  | some expected => ensure (startEpoch = expected) s!"non-contiguous groups: expected start epoch {
      expected.toNat}, got {startEpoch.toNat}"
  | none =>
    if resumeHeight = 0 then pure ()
    else do
      let next ← profile.addU64 resumeHeight 1
      ensure (startEpoch = next) s!"resume gap: checkpoint height {
        resumeHeight.toNat}, first pending group starts at epoch {startEpoch.toNat}"

/-! ## Reading back -/

theorem u32FromLe_of_drop {data rest : Bytes} {pos : ℕ} {value : UInt32}
    (h : data.drop pos = leBytes 4 value.toNat ++ rest) : u32FromLe data pos = .ok value := by
  rw [u32FromLe, slice_of_drop_eq h (length_leBytes _ _) (by omega)]
  simp

theorem u64FromLe_of_drop {data rest : Bytes} {pos : ℕ} {value : UInt64}
    (h : data.drop pos = leBytes 8 value.toNat ++ rest) : u64FromLe data pos = .ok value := by
  rw [u64FromLe, slice_of_drop_eq h (length_leBytes _ _) (by omega)]
  simp

/-- The bytes of an entry. -/
def dirEntryBytes (entry : UInt64 × UInt64 × ℕ × ℕ) : Bytes :=
  leBytes 8 entry.1.toNat ++ leBytes 8 entry.2.1.toNat ++ leBytes 8 entry.2.2.1 ++
    leBytes 8 entry.2.2.2

@[simp] theorem length_dirEntryBytes (entry : UInt64 × UInt64 × ℕ × ℕ) :
    (dirEntryBytes entry).length = dirEntryLen := by simp [dirEntryBytes, dirEntryLen]

/-- The four fields of an entry in the data. -/
theorem fields_of_drop {data rest : Bytes} {entry : UInt64 × UInt64 × ℕ × ℕ} {pos : ℕ}
    (h : data.drop pos = dirEntryBytes entry ++ rest) (hoffset : entry.2.2.1 < UInt64.size)
    (hlength : entry.2.2.2 < UInt64.size) :
    u64FromLe data pos = .ok entry.1 ∧ u64FromLe data (pos + 8) = .ok entry.2.1 ∧
      u64FromLe data (pos + 16) = .ok (UInt64.ofNat entry.2.2.1) ∧
      u64FromLe data (pos + 24) = .ok (UInt64.ofNat entry.2.2.2) := by
  have hword : ∀ {n : ℕ}, n < UInt64.size → (UInt64.ofNat n).toNat = n :=
    UInt64.toNat_ofNat_of_lt'
  rw [dirEntryBytes, List.append_assoc, List.append_assoc, List.append_assoc] at h
  have h8 := drop_add_of_drop_eq h
  have h16 := drop_add_of_drop_eq h8
  have h24 := drop_add_of_drop_eq h16
  rw [length_leBytes] at h8 h16 h24
  rw [length_leBytes, Nat.add_assoc] at h16 h24
  rw [length_leBytes, Nat.add_assoc] at h24
  refine ⟨u64FromLe_of_drop h, u64FromLe_of_drop h8, ?_, ?_⟩
  · exact u64FromLe_of_drop (h16.trans (by rw [hword hoffset]))
  · exact u64FromLe_of_drop (h24.trans (by rw [hword hlength]))

/-- **An entry is read back**, when its payload lies within the data. -/
theorem reads_dirEntry {profile : Profile} {data : Bytes} {entry : UInt64 × UInt64 × ℕ × ℕ}
    (hle : entry.2.2.1 + entry.2.2.2 ≤ data.length) (hsize : data.length < UInt64.size) :
    Reads data (readDirEntry profile data) (dirEntryBytes entry) entry := by
  intro pos rest hdrop
  have hpos := add_length_le_of_drop_eq hdrop (by simp [dirEntryBytes, leBytes])
  rw [length_dirEntryBytes] at hpos ⊢
  have hoffset : entry.2.2.1 < UInt64.size := by omega
  have hlength : entry.2.2.2 < UInt64.size := by omega
  obtain ⟨hstart, hcount, hoff, hlen⟩ := fields_of_drop hdrop hoffset hlength
  have hstop : profile.addUsize entry.2.2.1 entry.2.2.2 = .ok (entry.2.2.1 + entry.2.2.2) :=
    Profile.addUsize_of_lt (by omega)
  simp [readDirEntry, ensure_of hpos, hstart, hcount, hoff, hlen, UInt64.toNat_ofNat_of_lt' hoffset,
    UInt64.toNat_ofNat_of_lt' hlength, hstop, ensure_of hle]

end Cfxpack
