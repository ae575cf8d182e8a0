import CfxMinimalExecution.Cfxpack.Container
import Mathlib.Data.List.AList

/-!
# The packer

The epochs are cut into groups, workers encode the packet of each group, and the writer collects
the packets, in whatever order they arrive, into container files. Sizes of data in memory and in
files are numbers.

## Main definitions

* `buildPackTasks`: the groups of epochs
* `ContainerBuilder`, `ContainerBuilder.push`, `flushContainer`: one container file
* `writeContainers`: the writer
-/

namespace Extractor

open Cfxpack

/-! ## Tasks -/

structure PackTask where
  groupIndex : UInt64
  startEpoch : UInt64
  epochCount : UInt64
deriving DecidableEq

/-- The division that rounds up; its quotient stays below the dividend when it is not exact. -/
def divCeil (a b : UInt64) : Result UInt64 :=
  if b = 0 then throw .panic else pure (if 0 < a % b then a / b + 1 else a / b)

def packTask (profile : Profile) (startEpoch epochCount shardEpochs groupIndex : UInt64) :
    Result PackTask := do
  let start ← profile.addU64 startEpoch (← profile.mulU64 groupIndex shardEpochs)
  let remaining ← profile.subU64 epochCount (← profile.mulU64 groupIndex shardEpochs)
  pure
    { groupIndex
      startEpoch := start
      epochCount := if remaining ≤ shardEpochs then remaining else shardEpochs }

def buildPackTasks (profile : Profile) (startEpoch epochCount shardEpochs : UInt64) :
    Result (List PackTask) := do
  let groupCount ← divCeil epochCount shardEpochs
  (List.range groupCount.toNat).mapM fun groupIndex =>
    packTask profile startEpoch epochCount shardEpochs (UInt64.ofNat groupIndex)

/-! ## Containers -/

structure PacketOut where
  groupIndex : UInt64
  startEpoch : UInt64
  epochCount : UInt64
  blockCount : ℕ
  transactionCount : ℕ
  bytes : Bytes

/-- What a worker sends for a task, when the packet is extracted: its bytes, and its numbers of
blocks and transactions. -/
def workerOut (encoded : PackTask → Bytes × ℕ × ℕ) (task : PackTask) : PacketOut :=
  let (bytes, blockCount, transactionCount) := encoded task
  { groupIndex := task.groupIndex, startEpoch := task.startEpoch, epochCount := task.epochCount,
    blockCount, transactionCount, bytes }

structure DirEntry where
  startEpoch : UInt64
  epochCount : UInt64
  length : ℕ

structure ContainerBuilder where
  startEpoch : Option UInt64
  endEpoch : UInt64
  entries : List DirEntry
  payloads : List Bytes
  payloadBytes : ℕ
  epochCount : UInt64
  blockCount : ℕ
  transactionCount : ℕ

namespace ContainerBuilder

def default : ContainerBuilder := ⟨none, 0, [], [], 0, 0, 0, 0⟩

def isEmpty (builder : ContainerBuilder) : Bool := builder.entries.isEmpty

def push (profile : Profile) (builder : ContainerBuilder) (packet : PacketOut) :
    Result ContainerBuilder := do
  let stop ← profile.addU64 packet.startEpoch packet.epochCount
  let endEpoch ← profile.subU64 stop 1
  let epochCount ← profile.addU64 builder.epochCount packet.epochCount
  pure
    { startEpoch := some (builder.startEpoch.getD packet.startEpoch)
      endEpoch
      entries := builder.entries ++ [⟨packet.startEpoch, packet.epochCount, packet.bytes.length⟩]
      payloads := builder.payloads ++ [packet.bytes]
      payloadBytes := builder.payloadBytes + packet.bytes.length
      epochCount
      blockCount := builder.blockCount + packet.blockCount
      transactionCount := builder.transactionCount + packet.transactionCount }

end ContainerBuilder

structure PackSummary where
  fileCount : ℕ
  groupCount : ℕ
  epochCount : UInt64
  blockCount : ℕ
  transactionCount : ℕ
  totalBytes : ℕ
  files : List String

namespace PackSummary

def default : PackSummary := ⟨0, 0, 0, 0, 0, 0, []⟩

end PackSummary

/-- The path of a container in the output directory. -/
def containerPath (namePrefix : String) (startEpoch endEpoch : UInt64) : String :=
  s!"{namePrefix}_{startEpoch.toNat}_{endEpoch.toNat}.cfxpack"

/-- One round of the loop over the directory: what has been written, and the next offset. -/
def writeDirEntry (written : Bytes × ℕ) (entry : DirEntry) : Bytes × ℕ :=
  (written.1 ++ leBytes 8 entry.startEpoch.toNat ++ leBytes 8 entry.epochCount.toNat ++
    leBytes 8 written.2 ++ leBytes 8 entry.length, written.2 + entry.length)

/-- The offset of the first payload. The group count is a word of 32 bits. -/
def payloadBase (builder : ContainerBuilder) : ℕ :=
  containerHeaderLen + dirEntryLen * (UInt32.ofNat builder.entries.length).toNat

/-- What is written to a container file. -/
def containerBytes (shardEpochs : UInt64) (builder : ContainerBuilder) : Bytes :=
  let header := magic ++ leBytes 4 formatVersion.toNat ++
    leBytes 4 (UInt32.ofNat builder.entries.length).toNat ++
    leBytes 4 shardEpochs.toUInt32.toNat ++ leBytes 4 0
  (builder.entries.foldl writeDirEntry (header, payloadBase builder)).1 ++ builder.payloads.flatten

/-- A file, by its path. -/
abbrev File := String × Bytes

/-- The builder, the summary, and the files written so far. -/
structure Writer where
  builder : ContainerBuilder
  summary : PackSummary
  written : List File

def Writer.default : Writer := ⟨.default, .default, []⟩

section Writer

variable (profile : Profile) (namePrefix : String) (shardEpochs targetBytes : UInt64)

def flushContainer (writer : Writer) : Result Writer := do
  let { builder, summary, written } := writer
  match builder.startEpoch with
  | none => throw .panic
  | some startEpoch => do
    let path := containerPath namePrefix startEpoch builder.endEpoch
    let epochCount ← profile.addU64 summary.epochCount builder.epochCount
    pure
      { builder := .default
        summary :=
          { fileCount := summary.fileCount + 1
            groupCount := summary.groupCount + builder.entries.length
            epochCount
            blockCount := summary.blockCount + builder.blockCount
            transactionCount := summary.transactionCount + builder.transactionCount
            totalBytes := summary.totalBytes + (payloadBase builder + builder.payloadBytes)
            files := summary.files ++ [path] }
        written := written ++ [(path, containerBytes shardEpochs builder)] }

/-- The next packet in group order: it is pushed, and a full container is flushed. -/
def emit (writer : Writer) (packet : PacketOut) : Result Writer := do
  let builder ← writer.builder.push profile packet
  let writer := { writer with builder }
  if targetBytes.toNat ≤ builder.payloadBytes then
    flushContainer profile namePrefix shardEpochs writer
  else pure writer

/-- The packets that have arrived and wait for an earlier group. -/
abbrev Pending := AList fun _ : UInt64 => PacketOut

/-- The drain of the pending packets, from the next group on. Every round takes one out. -/
def drain : ℕ → Pending × UInt64 × Writer → Result (Pending × UInt64 × Writer)
  | 0, state => pure state
  | rounds + 1, (pending, nextGroup, writer) =>
    match pending.lookup nextGroup with
    | none => pure (pending, nextGroup, writer)
    | some packet => do
      let writer ← emit profile namePrefix shardEpochs targetBytes writer packet
      let next ← profile.addU64 nextGroup 1
      drain rounds (pending.erase nextGroup, next, writer)

/-- A packet arrives. -/
def receive (state : Pending × UInt64 × Writer) (packet : PacketOut) :
    Result (Pending × UInt64 × Writer) :=
  let pending := state.1.insert packet.groupIndex packet
  drain profile namePrefix shardEpochs targetBytes pending.keys.length
    (pending, state.2.1, state.2.2)

/-- The last container, when it is not empty. -/
def finish (writer : Writer) : Result Writer :=
  if writer.builder.isEmpty then pure writer
  else flushContainer profile namePrefix shardEpochs writer

/-- The writer over the packets in the order of their arrival: the summary and the files. -/
def writeContainers (packets : List PacketOut) : Result (PackSummary × List File) := do
  let (_, _, writer) ←
    packets.foldlM (receive profile namePrefix shardEpochs targetBytes) (∅, 0, .default)
  let writer ← finish profile namePrefix shardEpochs writer
  pure (writer.summary, writer.written)

end Writer

end Extractor
