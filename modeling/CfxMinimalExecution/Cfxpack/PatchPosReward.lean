import CfxMinimalExecution.Cfxpack.Container
import CfxMinimalExecution.Cfxpack.Decode
import CfxMinimalExecution.Cfxpack.Encode

/-!
# The injection of a reward

A container is rewritten with one more reward at the pivot of an epoch: every packet is decoded and
encoded again, and the directory is overwritten with the new offsets and lengths.

## Main definitions

* `injectReward`: the reward is appended at the first pivot of the epoch
* `injectGroup`: a packet is rewritten, with its entry of the directory
* `inject`: the file that is written, and the outcome of the checks after it
-/

namespace Cfxpack

variable {T : PrimitiveTypes} (crates : Crates T) (rewardEntry : PosRewardEntry) (toEpoch : UInt64)

/-- The height from which on blocks have PoS views. -/
def posRefHeight : UInt64 := 37400000

/-- `copy_from_slice` into the bytes from `pos` on. -/
def copyFromSlice (out : Bytes) (pos : ℕ) (bytes : Bytes) : Result Bytes :=
  if pos + bytes.length ≤ out.length then
    .ok (out.take pos ++ bytes ++ out.drop (pos + bytes.length))
  else .error .panic

/-- The pivot of the epoch. -/
def Block.isPivotOf (block : Block T) : Bool := block.epoch = toEpoch && block.has flagPivot

/-- A block with one more reward, under its own hash. -/
def Block.withReward (block : Block T) : Block T :=
  { block with
    posRewards := block.posRewards ++ [{ rewardEntry with executionEpochHash := block.hash }] }

/-- The first pivot of the epoch gets the reward. -/
def injectReward (packet : Packet T) : Packet T × Bool :=
  match packet.blocks.findIdx? (·.isPivotOf toEpoch) with
  | some i => ({ packet with blocks := packet.blocks.modify i (·.withReward rewardEntry) }, true)
  | none => (packet, false)

/-- One round of the loop over the directory: the file so far, and whether it was modified. -/
def injectGroup (data : Bytes) (state : Bytes × Bool)
    (group : (UInt64 × UInt64 × ℕ × ℕ) × ℕ) : Result (Bytes × Bool) := do
  let (out, modified) := state
  let ((start, _, offset, length), i) := group
  let packetData ← slice data offset (← crates.addUsize offset length)
  let packet ← context s!"decode group starting at epoch {start.toNat}"
    (decodePacketExt crates packetData posRefHeight)
  let (packet, injected) := injectReward rewardEntry toEpoch packet
  let newPacketData ← context s!"re-encode group starting at epoch {start.toNat}"
    (encodePacket crates packet)
  let newOffset := out.length
  let newLength := newPacketData.length
  let dirEntryOffset := 24 + i * 32
  let out ← copyFromSlice (out ++ newPacketData) (dirEntryOffset + 16) (leBytes 8 newOffset)
  let out ← copyFromSlice out (dirEntryOffset + 24) (leBytes 8 newLength)
  pure (out, modified || injected)

/-- The file that is written, if any. -/
def patchedContainer (data : Bytes) : Result (Option Bytes) := do
  let entries ← parseDirectory crates.toProfile data
  let headerAndDirLen := (entries.head?.map (·.2.2.1)).getD data.length
  let out ← slice data 0 headerAndDirLen
  let (out, modified) ←
    entries.zipIdx.foldlM (injectGroup crates rewardEntry toEpoch data) (out, false)
  pure (if modified then some out else none)

/-- The file that was written is parsed, and its packets are decoded. -/
def verifyPatched (data : Bytes) : Result Unit := do
  let entries ← parseDirectory crates.toProfile data
  let _ ← entries.mapM fun entry => do
    let packetData ← slice data entry.2.2.1 (← crates.addUsize entry.2.2.1 entry.2.2.2)
    context s!"verify group starting at epoch {entry.1.toNat}"
      (decodePacketExt crates packetData posRefHeight)
  pure ()

/-- The file that is written, and the outcome. -/
def inject (data : Bytes) : Option Bytes × Result Unit :=
  match patchedContainer crates rewardEntry toEpoch data with
  | .error e => (none, .error e)
  | .ok none => (none, .ok ())
  | .ok (some out) => (some out, verifyPatched crates out)

end Cfxpack
