import CfxMinimalExecution.Extractor.PackOrder
import CfxMinimalExecution.Extractor.Shards
import CfxMinimalExecution.Library.Pipeline

/-!
# The run of the packer

Workers extract the groups and send the packets to a writer, which collects them into containers.
Any group may fail to be extracted, and any container to be written; the writer then hangs up, and
the workers stop. The order of the steps depends on the run.

## Main definitions

* `createFile`: a file that is written, as far as that goes
* `receiveTo`, `finishTo`: the rounds of the writer and its end, over the files
* `packGroup`: what a worker does with a group
* `runPacked`, `packResult`, `packFiles`: the run, what it returns, and the files behind it

## Main results

* `receiveTo_eq`, `finishTo_eq`: the writer creates the files of the plain writer, one by one
* `runPacked_spec`: every order of the steps returns what the plain loop returns, or fails
* `runPacked_failed`: what a run that fails reports
* `runPacked_files`: the files at any point of a run
-/

namespace Extractor

open Cfxpack
open Fallible (exec)
open WorkerPool (Pipeline Reader Worker)

/-! ## The writer over files -/

/-- The error of a container that fails. -/
def Fate.error (path : String) : Fate → Option Failure
  | .written => none
  | .uncreated => some (.error s!"create {path}")
  | .unwritten _ e => some (.error e)
  | .unflushed _ => some (.error s!"flush {path}")

section Writer

variable (fate : String → Fate)

/-- What is left of a file. -/
def leftFile (file : File) : List File :=
  (((fate file.1).left file.2).map fun bytes => (file.1, bytes)).toList

def createFile (file : File) : Fallible Failure (List File) PUnit := do
  modify fun files => files ++ leftFile fate file
  match (fate file.1).error file.1 with
  | some e => throw e
  | none => pure ⟨⟩

variable (profile : Profile) (namePrefix : String) (shardEpochs targetBytes : UInt64)

/-- The file comes first, and then the summary. -/
def flushTo (writer : Writer) : Fallible Failure (List File) Writer := do
  match writer.builder.startEpoch with
  | none => throw .panic
  | some startEpoch =>
    createFile fate (containerPath namePrefix startEpoch writer.builder.endEpoch,
      containerBytes shardEpochs writer.builder)
    flushContainer profile namePrefix shardEpochs writer

def emitTo (writer : Writer) (packet : PacketOut) : Fallible Failure (List File) Writer := do
  let builder ← writer.builder.push profile packet
  let writer := { writer with builder }
  if targetBytes.toNat ≤ builder.payloadBytes then
    flushTo fate profile namePrefix shardEpochs writer
  else pure writer

def drainTo : ℕ → Pending × UInt64 × Writer →
    Fallible Failure (List File) (Pending × UInt64 × Writer)
  | 0, state => pure state
  | rounds + 1, (pending, nextGroup, writer) =>
    match pending.lookup nextGroup with
    | none => pure (pending, nextGroup, writer)
    | some packet => do
      let writer ← emitTo fate profile namePrefix shardEpochs targetBytes writer packet
      let next ← profile.addU64 nextGroup 1
      drainTo rounds (pending.erase nextGroup, next, writer)

def receiveTo (state : Pending × UInt64 × Writer) (packet : PacketOut) :
    Fallible Failure (List File) (Pending × UInt64 × Writer) :=
  let pending := state.1.insert packet.groupIndex packet
  drainTo fate profile namePrefix shardEpochs targetBytes pending.keys.length
    (pending, state.2.1, state.2.2)

def finishTo (state : Pending × UInt64 × Writer) : Fallible Failure (List File) PackSummary := do
  let writer := state.2.2
  if writer.builder.isEmpty then pure writer.summary
  else do
    let writer ← flushTo fate profile namePrefix shardEpochs writer
    pure writer.summary

end Writer

/-! ## The run -/

section Run

variable {T : PrimitiveTypes} (crates : Crates T) (decoders : Decoders T) (pow : PowDb) (pos : PosDb)
  (config : ExtractConfig)

/-- The message of a group that fails is made only then. -/
def packGroup (task : PackTask) : Result PacketOut :=
  match Databases.encoded crates decoders pow pos
    (config.withRange task.startEpoch task.epochCount) with
  | .ok (packet, report) => pure
    { groupIndex := task.groupIndex
      startEpoch := task.startEpoch
      epochCount := task.epochCount
      blockCount := report.blockCount
      transactionCount := report.transactionCount
      bytes := packet }
  | .error (.error _) => do
    let endEpoch ← endEpochOf crates.toProfile task.startEpoch task.epochCount
    throw (.error s!"extract group {task.startEpoch.toNat}..={endEpoch.toNat}")
  | .error e => throw e

/-- The workers, and the writer with its files. -/
abbrev PackRun :=
  Pipeline PackTask PacketOut Failure ((Pending × UInt64 × Writer) × List File)
    (Result PackSummary × List File)

/-- The writer as the reader of a pipeline. -/
def packWriter (fate : String → Fate) (namePrefix : String) (shardEpochs targetBytes : UInt64) :
    Reader PackTask PacketOut ((Pending × UInt64 × Writer) × List File)
      (Result PackSummary × List File) :=
  .ofMethods (receiveTo fate crates.toProfile namePrefix shardEpochs targetBytes)
    (finishTo fate crates.toProfile namePrefix shardEpochs)

def runPacked (tasks : List PackTask) (jobs : ℕ) : PackRun :=
  .start tasks (min jobs tasks.length) ((∅, 0, .default), [])

/-- The error of a worker comes before that of the writer, unless the writer has panicked. -/
def packResult (p : PackRun) : Option (Result PackSummary) :=
  match p.thread with
  | .reading _ => none
  | .ended (summary, _) => some <|
    match WorkerPool.collect panicked p.pool.workers, summary with
    | .ok _, summary => summary
    | .error e, .ok _ => .error e
    | .error e, .error e' => .error (if panicked e' && !panicked e then e' else e)

/-- The files that were created so far. -/
def packFiles (p : PackRun) : List File :=
  match p.thread with
  | .reading (_, files) => files
  | .ended (_, files) => files

section Results

variable {p : PackRun} {files : List File}

theorem packFiles_reading {state : Pending × UInt64 × Writer}
    (h : p.thread = .reading (state, files)) : packFiles p = files := by
  unfold packFiles
  rw [h]

theorem packFiles_ended {summary : Result PackSummary} (h : p.thread = .ended (summary, files)) :
    packFiles p = files := by
  unfold packFiles
  rw [h]

/-- A run returns a summary when neither a worker nor the writer has failed. -/
theorem packResult_eq_ok {summary : PackSummary} : packResult p = some (.ok summary) ↔
    (∃ results, WorkerPool.collect panicked p.pool.workers = .ok results) ∧
      ∃ files, p.thread = .ended (.ok summary, files) := by
  unfold packResult
  rcases hthread : p.thread with state | ⟨summary' | summary', files⟩ <;>
    cases hcollect : WorkerPool.collect panicked p.pool.workers <;> simp

/-- The error of a run is that of the workers or that of the writer. -/
theorem packResult_eq_error {e : Failure} (h : packResult p = some (.error e)) :
    WorkerPool.collect panicked p.pool.workers = .error e ∨
      ∃ files, p.thread = .ended (.error e, files) := by
  unfold packResult at h
  cases hthread : p.thread with
  | reading state =>
    rw [hthread] at h
    cases h
  | ended last =>
    obtain ⟨summary, files⟩ := last
    rw [hthread] at h
    cases hcollect : WorkerPool.collect panicked p.pool.workers with
    | ok results =>
      rw [hcollect] at h
      obtain rfl := Option.some.inj h
      exact .inr ⟨files, rfl⟩
    | error e₁ =>
      rw [hcollect] at h
      cases summary with
      | ok summary =>
        obtain rfl := Except.error.inj (Option.some.inj h)
        exact .inl rfl
      | error e₂ =>
        obtain rfl := Except.error.inj (Option.some.inj h)
        split
        · exact .inr ⟨files, rfl⟩
        · exact .inl rfl

end Results

end Run

/-! ## The writer creates the files of the plain writer -/

section Writer

variable {fate : String → Fate}

variable (fate) in
/-- Files are created one by one. -/
def createFiles (files : List File) : Fallible Failure (List File) PUnit :=
  forM files (createFile fate)

theorem createFiles_append (files files' : List File) :
    createFiles fate (files ++ files') =
      (createFiles fate files >>= fun _ => createFiles fate files') := List.forM_append

theorem exec_createFile (file : File) (done : List File) :
    exec (createFile fate file) done =
      (match (fate file.1).error file.1 with
        | some e => .error e
        | none => .ok ⟨⟩, done ++ leftFile fate file) := by
  unfold createFile
  rw [Fallible.exec_bind_ok (Fallible.exec_modify _ _)]
  cases (fate file.1).error file.1 <;> rfl

theorem error_eq_none_iff {f : Fate} {path : String} : f.error path = none ↔ f.isWritten := by
  cases f <;> simp [Fate.error, Fate.isWritten]

/-- **Files are created up to the first that fails.** -/
theorem exec_createFiles (files done : List File) :
    (∀ file ∈ files, (fate file.1).isWritten) ∧
        exec (createFiles fate files) done = (.ok ⟨⟩, done ++ files) ∨
      ∃ before file after e, files = before ++ file :: after ∧
        (fate file.1).error file.1 = some e ∧
        exec (createFiles fate files) done = (.error e, done ++ before ++ leftFile fate file) := by
  unfold createFiles
  induction files generalizing done with
  | nil => exact .inl ⟨by simp, by rw [List.append_nil]; rfl⟩
  | cons file files ih =>
    rw [List.forM_cons]
    have hfirst := @exec_createFile fate file done
    cases herror : (fate file.1).error file.1 with
    | some e =>
      rw [herror] at hfirst
      exact .inr ⟨[], file, files, e, rfl, herror, by
        rw [Fallible.exec_bind_error hfirst, List.append_nil]⟩
    | none =>
      have hwritten := error_eq_none_iff.mp herror
      have hleft : leftFile fate file = [file] := by
        unfold leftFile
        cases hfate : fate file.1 with
        | written => rfl
        | _ => rw [hfate] at hwritten; cases hwritten
      rw [herror, hleft] at hfirst
      rw [Fallible.exec_bind_ok hfirst]
      rcases ih (done ++ [file]) with ⟨hall, hrun⟩ | ⟨before, file', after, e, rfl, herror', hrun⟩
      · refine .inl ⟨List.forall_mem_cons.mpr ⟨hwritten, hall⟩, ?_⟩
        rw [hrun, List.append_assoc]
        rfl
      · refine .inr ⟨file :: before, file', after, e, rfl, herror', ?_⟩
        rw [hrun, List.append_assoc done [file]]
        rfl

variable {profile : Profile} {namePrefix : String} {shardEpochs targetBytes : UInt64}

theorem flushTo_eq {writer writer' : Writer}
    (h : flushContainer profile namePrefix shardEpochs writer = .ok writer') :
    ∃ files, writer'.written = writer.written ++ files ∧
      flushTo fate profile namePrefix shardEpochs writer =
        (createFiles fate files >>= fun _ => pure writer') := by
  obtain ⟨builder, summary, written⟩ := writer
  cases hstart : builder.startEpoch with
  | none => simp [flushContainer, hstart] at h
  | some startEpoch =>
    refine ⟨[(containerPath namePrefix startEpoch builder.endEpoch,
      containerBytes shardEpochs builder)], ?_, ?_⟩
    · simp only [flushContainer, hstart, Except.bind_eq_ok, Except.pure_def, Except.ok.injEq] at h
      obtain ⟨_, -, rfl⟩ := h
      rfl
    · unfold flushTo createFiles
      dsimp only
      rw [hstart, h, List.forM_cons, List.forM_nil, bind_assoc]
      simp only [pure_bind]
      rfl

theorem emitTo_eq {writer writer' : Writer} {packet : PacketOut}
    (h : emit profile namePrefix shardEpochs targetBytes writer packet = .ok writer') :
    ∃ files, writer'.written = writer.written ++ files ∧
      emitTo fate profile namePrefix shardEpochs targetBytes writer packet =
        (createFiles fate files >>= fun _ => pure writer') := by
  unfold emit at h
  obtain ⟨builder, hpush, h⟩ := Except.bind_eq_ok.mp h
  have hemitTo : emitTo fate profile namePrefix shardEpochs targetBytes writer packet =
      if targetBytes.toNat ≤ builder.payloadBytes then
        flushTo fate profile namePrefix shardEpochs { writer with builder }
      else pure { writer with builder } := by
    unfold emitTo
    rw [hpush]
    rfl
  rw [hemitTo]
  split at h
  · next hfull =>
    rw [if_pos hfull]
    exact flushTo_eq h
  · next hfull =>
    obtain rfl := Except.ok.inj h
    rw [if_neg hfull]
    exact ⟨[], (List.append_nil _).symm, rfl⟩

theorem drainTo_eq {rounds : ℕ} {state state' : Pending × UInt64 × Writer}
    (h : drain profile namePrefix shardEpochs targetBytes rounds state = .ok state') :
    ∃ files, state'.2.2.written = state.2.2.written ++ files ∧
      drainTo fate profile namePrefix shardEpochs targetBytes rounds state =
        (createFiles fate files >>= fun _ => pure state') := by
  induction rounds generalizing state with
  | zero =>
    obtain rfl := Except.ok.inj h
    exact ⟨[], (List.append_nil _).symm, rfl⟩
  | succ rounds ih =>
    obtain ⟨pending, nextGroup, writer⟩ := state
    unfold drain at h
    unfold drainTo
    cases hlookup : pending.lookup nextGroup with
    | none =>
      rw [hlookup] at h
      obtain rfl := Except.ok.inj h
      exact ⟨[], (List.append_nil _).symm, rfl⟩
    | some packet =>
      rw [hlookup] at h
      obtain ⟨writer₁, hemit, h⟩ := Except.bind_eq_ok.mp h
      obtain ⟨next, hnext, h⟩ := Except.bind_eq_ok.mp h
      obtain ⟨files₁, hwritten₁, hemitTo⟩ := @emitTo_eq fate _ _ _ _ _ _ _ hemit
      obtain ⟨files₂, hwritten₂, hdrainTo⟩ := ih h
      refine ⟨files₁ ++ files₂, ?_, ?_⟩
      · rw [hwritten₂, hwritten₁, List.append_assoc]
      · dsimp only
        rw [hemitTo, hnext, createFiles_append, bind_assoc, bind_assoc]
        simp only [pure_bind]
        exact congrArg _ (funext fun _ => hdrainTo)

/-- **A round of the writer** creates the files that the plain writer adds. -/
theorem receiveTo_eq {state state' : Pending × UInt64 × Writer} {packet : PacketOut}
    (h : receive profile namePrefix shardEpochs targetBytes state packet = .ok state') :
    ∃ files, state'.2.2.written = state.2.2.written ++ files ∧
      receiveTo fate profile namePrefix shardEpochs targetBytes state packet =
        (createFiles fate files >>= fun _ => pure state') :=
  drainTo_eq h

theorem foldlM_receiveTo_eq {state state' : Pending × UInt64 × Writer} {packets : List PacketOut}
    (h : packets.foldlM (receive profile namePrefix shardEpochs targetBytes) state = .ok state') :
    ∃ files, state'.2.2.written = state.2.2.written ++ files ∧
      packets.foldlM (receiveTo fate profile namePrefix shardEpochs targetBytes) state =
        (createFiles fate files >>= fun _ => pure state') := by
  induction packets generalizing state with
  | nil =>
    obtain rfl := Except.ok.inj h
    exact ⟨[], (List.append_nil _).symm, rfl⟩
  | cons packet packets ih =>
    rw [List.foldlM_cons] at h ⊢
    obtain ⟨state₁, hreceive, h⟩ := Except.bind_eq_ok.mp h
    obtain ⟨files₁, hwritten₁, hreceiveTo⟩ := @receiveTo_eq fate _ _ _ _ _ _ _ hreceive
    obtain ⟨files₂, hwritten₂, hloop⟩ := ih h
    refine ⟨files₁ ++ files₂, ?_, ?_⟩
    · rw [hwritten₂, hwritten₁, List.append_assoc]
    · rw [hreceiveTo, createFiles_append, bind_assoc, bind_assoc]
      simp only [pure_bind]
      exact congrArg _ (funext fun _ => hloop)

/-- **The end of the writer** creates the last file. -/
theorem finishTo_eq {state : Pending × UInt64 × Writer} {writer : Writer}
    (h : finish profile namePrefix shardEpochs state.2.2 = .ok writer) :
    ∃ files, writer.written = state.2.2.written ++ files ∧
      finishTo fate profile namePrefix shardEpochs state =
        (createFiles fate files >>= fun _ => pure writer.summary) := by
  unfold finish at h
  unfold finishTo
  split at h
  · next hempty =>
    obtain rfl := Except.ok.inj h
    rw [if_pos hempty]
    exact ⟨[], (List.append_nil _).symm, rfl⟩
  · next hempty =>
    rw [if_neg hempty]
    obtain ⟨files, hwritten, hflushTo⟩ := @flushTo_eq fate _ _ _ _ _ h
    refine ⟨files, hwritten, ?_⟩
    rw [hflushTo, bind_assoc]
    rfl

end Writer

/-! ## The groups that a run has taken -/

section Taken

variable {fate : String → Fate} {profile : Profile} {namePrefix : String}
  {startEpoch epochCount shardEpochs targetBytes : UInt64} {count : ℕ}

/-- What the plain writer does with the first groups. -/
structure InOrder (profile : Profile) (namePrefix : String) (shardEpochs targetBytes : UInt64)
    (groups : List PacketOut) (writer writer' : Writer) (chunks chunks' : List (List PacketOut)) :
    Prop where
  emitted : groups.foldlM (emit profile namePrefix shardEpochs targetBytes) .default = .ok writer
  written : writer.written = chunks.map (fileOf namePrefix shardEpochs)
  nonempty : ∀ chunk ∈ chunks, chunk ≠ []
  flatten_prefix : chunks.flatten <+: groups
  finished : finish profile namePrefix shardEpochs writer = .ok writer'
  written' : writer'.written = chunks'.map (fileOf namePrefix shardEpochs)
  nonempty' : ∀ chunk ∈ chunks', chunk ≠ []
  flatten' : chunks'.flatten = groups

variable (profile namePrefix targetBytes) in
theorem exists_inOrder (encoded : PackTask → Bytes × ℕ × ℕ) (hshard : 0 < shardEpochs)
    (hsum : startEpoch.toNat + epochCount.toNat < UInt64.size)
    (hcount : ∀ i, i < count ↔ i * shardEpochs.toNat < epochCount.toNat) {n : ℕ} (hn : n ≤ count) :
    ∃ writer writer' chunks chunks', InOrder profile namePrefix shardEpochs targetBytes
      (firstGroups (packetAt encoded startEpoch epochCount shardEpochs) n) writer writer' chunks
      chunks' := by
  obtain ⟨-, hgroups, hepochs⟩ := packetAt_spec encoded hshard hsum hcount
  obtain ⟨k, rfl⟩ := Nat.exists_eq_add_of_le hn
  have hle : epochsOf (firstGroups (packetAt encoded startEpoch epochCount shardEpochs) n) ≤
      epochsOf (firstGroups (packetAt encoded startEpoch epochCount shardEpochs) (n + k)) := by
    unfold firstGroups
    rw [List.range_add, List.map_append, epochsOf_append]
    exact Nat.le_add_right _ _
  obtain ⟨writer, hrun, hemitted⟩ := emitted_foldlM profile namePrefix shardEpochs targetBytes
    (inRange_firstGroups fun i hi => (hgroups i (hi.trans_le hn)).1) (by omega)
  obtain ⟨writer', chunks', hfinish, hflatten', hne', hwritten'⟩ :=
    hemitted.finish profile (by omega)
  obtain ⟨chunks, current, hflatten, hemittedAs⟩ := hemitted
  exact ⟨writer, writer', chunks, chunks', hrun, hemittedAs.written, hemittedAs.nonempty,
    ⟨current, hflatten⟩, hfinish, hwritten', hne', hflatten'⟩

/-- The container behind some others, with the groups of all. -/
theorem InOrder.split_written {groups : List PacketOut} {writer writer' : Writer}
    {chunks chunks' : List (List PacketOut)} {before after : List File} {file : File}
    (h : InOrder profile namePrefix shardEpochs targetBytes groups writer writer' chunks chunks')
    (hsplit : writer'.written = before ++ file :: after) :
    ∃ (whole : List (List PacketOut)) (chunk : List PacketOut),
      before = whole.map (fileOf namePrefix shardEpochs) ∧
      file = fileOf namePrefix shardEpochs chunk ∧ (∀ chunk' ∈ whole, chunk' ≠ []) ∧ chunk ≠ [] ∧
      whole.flatten ++ chunk <+: groups := by
  obtain ⟨whole, rest, rfl, rfl, hrest⟩ :=
    List.map_eq_append_iff.mp (h.written'.symm.trans hsplit)
  obtain ⟨chunk, tail, rfl, rfl, -⟩ := List.map_eq_cons_iff.mp hrest
  obtain ⟨hwhole, hne⟩ := List.forall_mem_append.mp h.nonempty'
  refine ⟨whole, chunk, rfl, rfl, hwhole, hne chunk List.mem_cons_self, ?_⟩
  rw [← h.flatten', List.flatten_append, List.flatten_cons, ← List.append_assoc]
  exact List.prefix_append _ _

/-- What the plain writer has written stays in front. -/
theorem prefix_written {groups : List PacketOut} {writer writer' : Writer}
    (h : groups.foldlM (emit profile namePrefix shardEpochs targetBytes) writer = .ok writer') :
    writer.written <+: writer'.written := by
  induction groups generalizing writer with
  | nil =>
    obtain rfl := Except.ok.inj h
    exact List.prefix_rfl
  | cons packet groups ih =>
    rw [List.foldlM_cons] at h
    obtain ⟨writer₁, hemit, h⟩ := Except.bind_eq_ok.mp h
    obtain ⟨files, hwritten, -⟩ := @emitTo_eq (fun _ => .written) _ _ _ _ _ _ _ hemit
    exact (hwritten ▸ List.prefix_append _ _).trans (ih h)

/-- The files of the first groups are among those of all groups. -/
theorem InOrder.written_subset {encoded : PackTask → Bytes × ℕ × ℕ} {n : ℕ} (hn : n ≤ count)
    {writer writer' last last' : Writer} {chunks chunks' all all' : List (List PacketOut)}
    (h : InOrder profile namePrefix shardEpochs targetBytes
      (firstGroups (packetAt encoded startEpoch epochCount shardEpochs) n) writer writer' chunks
      chunks')
    (hall : InOrder profile namePrefix shardEpochs targetBytes
      (firstGroups (packetAt encoded startEpoch epochCount shardEpochs) count) last last' all all') :
    writer.written ⊆ last'.written := by
  obtain ⟨k, rfl⟩ := Nat.exists_eq_add_of_le hn
  have hrest := hall.emitted
  unfold firstGroups at hrest
  rw [List.range_add, List.map_append, List.foldlM_append, ← firstGroups, h.emitted,
    Except.ok_bind] at hrest
  obtain ⟨files, hwritten, -⟩ :=
    @finishTo_eq (fun _ => .written) _ _ _ (∅, 0, last) _ hall.finished
  exact ((prefix_written hrest).trans (hwritten ▸ List.prefix_append _ _)).subset

end Taken

section Spec

variable {T : PrimitiveTypes} {crates : Crates T} {decoders : Decoders T} {pow : PowDb} {pos : PosDb}
  {config : ExtractConfig} {fate : String → Fate} {namePrefix : String}
  {shardEpochs targetBytes : UInt64} {count : ℕ}

variable (crates decoders pow pos config) in
/-- The packet of a group and its numbers, if there is one. -/
def packEncoded (task : PackTask) : Bytes × ℕ × ℕ :=
  match Databases.encoded crates decoders pow pos
    (config.withRange task.startEpoch task.epochCount) with
  | .ok (packet, report) => (packet, report.blockCount, report.transactionCount)
  | .error _ => ([], 0, 0)

theorem packGroup_eq_ok {task : PackTask} {out : PacketOut}
    (h : packGroup crates decoders pow pos config task = .ok out) :
    out = workerOut (packEncoded crates decoders pow pos config) task := by
  unfold packGroup at h
  unfold workerOut packEncoded
  split at h
  · next packet report hencoded =>
    rw [hencoded]
    exact (Except.ok.inj h).symm
  · simp only [Except.bind_eq_ok] at h
    obtain ⟨_, -, h⟩ := h
    cases h
  · cases h

/-- The indices of the groups tell the tasks apart. -/
theorem nodup_tasks {startEpoch epochCount : UInt64} (hsize : count < UInt64.size) :
    ((List.range count).map (taskAt startEpoch epochCount shardEpochs)).Nodup := by
  refine List.Nodup.map_on (fun i hi j hj heq => ?_) List.nodup_range
  have hindex := congrArg PackTask.groupIndex heq
  exact (ofNat_inj ((List.mem_range.mp hi).trans hsize)
    ((List.mem_range.mp hj).trans hsize)).mp hindex

/-- **What a run has taken**: the first groups were extracted and are written in order. -/
theorem exists_taken (hshard : 0 < shardEpochs)
    (hsum : config.startEpoch.toNat + config.epochCount.toNat < UInt64.size)
    (hcount : ∀ i, i < count ↔ i * shardEpochs.toNat < config.epochCount.toNat) {p : PackRun} {n : ℕ}
    (h : p.Sound (packGroup crates decoders pow pos config)
      (packWriter crates fate namePrefix shardEpochs targetBytes)
      ((List.range count).map (taskAt config.startEpoch config.epochCount shardEpochs)) n
      ((∅, 0, .default), [])) :
    ∃ m ≤ count, ∃ state,
      (∀ i < m, packGroup crates decoders pow pos config
          (taskAt config.startEpoch config.epochCount shardEpochs i) =
        .ok (packetAt (packEncoded crates decoders pow pos config) config.startEpoch
          config.epochCount shardEpochs i)) ∧
      (p.taken.map Prod.snd).foldlM
        (receive crates.toProfile namePrefix shardEpochs targetBytes) (∅, 0, .default) =
          .ok state ∧
      (firstGroups (packetAt (packEncoded crates decoders pow pos config) config.startEpoch
        config.epochCount shardEpochs) m).foldlM
          (emit crates.toProfile namePrefix shardEpochs targetBytes) .default = .ok state.2.2 ∧
      ((∀ i < count, taskAt config.startEpoch config.epochCount shardEpochs i ∈
        p.taken.map Prod.fst) → m = count) := by
  obtain ⟨hsize, hgroups, -⟩ :=
    packetAt_spec (packEncoded crates decoders pow pos config) hshard hsum hcount
  obtain ⟨arrived, hperm, hsublist⟩ := h.taken_subperm
  have hnodup : (p.taken.map Prod.fst).Nodup :=
    hperm.nodup_iff.mp ((nodup_tasks hsize).sublist hsublist)
  have hsub : p.taken.map Prod.fst ⊆
      (List.range count).map (taskAt config.startEpoch config.epochCount shardEpochs) :=
    fun task htask => hsublist.subset (hperm.symm.subset htask)
  obtain ⟨indices, harrived, hlt, hmem⟩ := arrived_eq hsize hsub
  -- a result that was taken is that of its task
  have hpackets : p.taken.map Prod.snd = indices.map (packetAt
      (packEncoded crates decoders pow pos config) config.startEpoch config.epochCount
      shardEpochs) := by
    have hindices := congrArg (List.map (workerOut (packEncoded crates decoders pow pos config)))
      harrived
    rw [List.map_map, List.map_map] at hindices
    refine .trans (List.map_congr_left fun o ho => ?_) hindices
    exact packGroup_eq_ok (h.work_of_mem_taken ho)
  have hcan : CanEmit (emit crates.toProfile namePrefix shardEpochs targetBytes) (packetAt
      (packEncoded crates decoders pow pos config) config.startEpoch config.epochCount shardEpochs)
      count := by
    intro m hm
    obtain ⟨writer, _, _, _, hinOrder⟩ := exists_inOrder crates.toProfile namePrefix targetBytes
      (packEncoded crates decoders pow pos config) hshard hsum hcount hm
    exact ⟨writer, hinOrder.emitted⟩
  obtain ⟨m, state, hrun, hwaiting, hmissing⟩ := waiting_foldlM hcan hsize hlt
    (harrived ▸ hnodup).of_map fun i hi => (hgroups i hi).2
  refine ⟨m, hwaiting.le, state, fun i hi => ?_, hpackets ▸ hrun, hwaiting.writer, fun hall => ?_⟩
  · have hin := (hmem i (hi.trans_le hwaiting.le)).mpr (hwaiting.taken i hi)
    obtain ⟨o, ho, htask⟩ := List.mem_map.mp hin
    have hwork := h.work_of_mem_taken ho
    rw [htask] at hwork
    rw [hwork, packGroup_eq_ok hwork]
    rfl
  · by_contra hne
    have hless : m < count := lt_of_le_of_ne hwaiting.le hne
    exact hmissing ((hmem m hless).mp (hall m hless))

/-- The writer over all that it takes, as one program. -/
theorem program_eq {profile : Profile} {packets : List PacketOut} {state : Pending × UInt64 × Writer}
    {writer : Writer}
    (hreceived : packets.foldlM (receive profile namePrefix shardEpochs targetBytes)
      (∅, 0, .default) = .ok state)
    (hfinish : finish profile namePrefix shardEpochs state.2.2 = .ok writer) :
    packets.foldlM (receiveTo fate profile namePrefix shardEpochs targetBytes) (∅, 0, .default) >>=
        finishTo fate profile namePrefix shardEpochs =
      (createFiles fate writer.written >>= fun _ => pure writer.summary) := by
  obtain ⟨files, hwritten, hloop⟩ := @foldlM_receiveTo_eq fate _ _ _ _ _ _ _ hreceived
  obtain ⟨files', hwritten', hfinishTo⟩ := @finishTo_eq fate _ _ _ _ _ hfinish
  have hfiles : writer.written = files ++ files' := by
    rw [hwritten', hwritten]
    rfl
  rw [hloop, hfiles, createFiles_append, bind_assoc, bind_assoc]
  simp only [pure_bind]
  exact congrArg _ (funext fun _ => hfinishTo)

/-- **Where a run is**: the writer reads and its files are written; or it has closed behind the last
group; or a file has failed. -/
theorem exists_place (hshard : 0 < shardEpochs)
    (hsum : config.startEpoch.toNat + config.epochCount.toNat < UInt64.size)
    (hcount : ∀ i, i < count ↔ i * shardEpochs.toNat < config.epochCount.toNat) {p : PackRun} {n : ℕ}
    (h : p.Sound (packGroup crates decoders pow pos config)
      (packWriter crates fate namePrefix shardEpochs targetBytes)
      ((List.range count).map (taskAt config.startEpoch config.epochCount shardEpochs)) n
      ((∅, 0, .default), [])) :
    ∃ m ≤ count, ∃ writer writer' chunks chunks',
      (∀ i < m, packGroup crates decoders pow pos config
          (taskAt config.startEpoch config.epochCount shardEpochs i) =
        .ok (packetAt (packEncoded crates decoders pow pos config) config.startEpoch
          config.epochCount shardEpochs i)) ∧
      InOrder crates.toProfile namePrefix shardEpochs targetBytes
        (firstGroups (packetAt (packEncoded crates decoders pow pos config) config.startEpoch
          config.epochCount shardEpochs) m) writer writer' chunks chunks' ∧
      ((∀ i < count, taskAt config.startEpoch config.epochCount shardEpochs i ∈
        p.taken.map Prod.fst) → m = count) ∧
      ((∃ state, p.thread = .reading (state, writer.written)) ∨
        (p.pool.hungUp = false ∧ p.pool.Stopped ∧ p.taken = p.pool.sent ∧
          (∀ file ∈ writer'.written, (fate file.1).isWritten) ∧
          p.thread = .ended (.ok writer'.summary, writer'.written)) ∨
        ∃ before file after e, writer'.written = before ++ file :: after ∧
          (fate file.1).error file.1 = some e ∧
          p.thread = .ended (.error e, before ++ leftFile fate file) ∧
          (file ∈ writer.written ∨
            p.pool.hungUp = false ∧ p.pool.Stopped ∧ p.taken = p.pool.sent)) := by
  obtain ⟨m, hm, state, hwork, hreceived, hemitted, hall⟩ :=
    exists_taken hshard hsum hcount h
  obtain ⟨writer, writer', chunks, chunks', hinOrder⟩ := exists_inOrder crates.toProfile namePrefix
    targetBytes (packEncoded crates decoders pow pos config) hshard hsum hcount hm
  obtain rfl : state.2.2 = writer := Except.ok.inj (hemitted.symm.trans hinOrder.emitted)
  refine ⟨m, hm, state.2.2, writer', chunks, chunks', hwork, hinOrder, hall, ?_⟩
  -- what the writer has done is to create files one by one
  obtain ⟨files, hwritten, hloop⟩ := @foldlM_receiveTo_eq fate _ _ _ _ _ _ _ hreceived
  obtain rfl : state.2.2.written = files := hwritten
  have hfold := Reader.foldlM_ofMethods
    (receiveTo fate crates.toProfile namePrefix shardEpochs targetBytes)
    (finishTo fate crates.toProfile namePrefix shardEpochs) ((∅, 0, .default), []) p.taken
  rw [hloop] at hfold
  cases hthread : p.thread with
  | reading s =>
    left
    obtain ⟨-, hreading⟩ := h.reading s hthread
    have hok := hfold.symm.trans hreading
    rcases @exec_createFiles fate state.2.2.written [] with
      ⟨-, hrun⟩ | ⟨before, file, after, e, -, -, hrun⟩
    · rw [Fallible.exec_bind_ok hrun] at hok
      obtain rfl := Except.ok.inj hok
      exact ⟨state, rfl⟩
    · rw [Fallible.exec_bind_error hrun] at hok
      cases hok
  | ended a =>
    right
    obtain ⟨hdrain, hend⟩ := h.ended a hthread
    rcases hend with herror | ⟨hup, hstopped, htaken⟩
    -- a file has failed in the loop
    · right
      have hfailed := hfold.symm.trans herror
      obtain ⟨more, hmore⟩ : state.2.2.written <+: writer'.written := by
        obtain ⟨files, hwritten', -⟩ := @finishTo_eq fate _ _ _ _ _ hinOrder.finished
        exact ⟨files, hwritten'.symm⟩
      rcases @exec_createFiles fate state.2.2.written [] with
        ⟨-, hrun⟩ | ⟨before, file, after, e, hsplit, hfile, hrun⟩
      · rw [Fallible.exec_bind_ok hrun] at hfailed
        cases hfailed
      · rw [Fallible.exec_bind_error hrun] at hfailed
        obtain rfl := Except.error.inj hfailed
        refine ⟨before, file, after ++ more, e, ?_, hfile, rfl, .inl ?_⟩
        · rw [← hmore, hsplit, List.append_assoc, List.cons_append]
        · rw [hsplit]
          exact List.mem_append_right _ List.mem_cons_self
    -- the loop has ended
    · have hprogram := Reader.drain_ofMethods
        (receiveTo fate crates.toProfile namePrefix shardEpochs targetBytes)
        (finishTo fate crates.toProfile namePrefix shardEpochs) ((∅, 0, .default), []) p.taken
      rw [program_eq hreceived hinOrder.finished] at hprogram
      have ha := hdrain.trans hprogram
      rcases @exec_createFiles fate writer'.written [] with
        ⟨hfiles, hrun⟩ | ⟨before, file, after, e, hsplit, hfile, hrun⟩
      · rw [Fallible.exec_bind_ok hrun] at ha
        exact .inl ⟨hup, hstopped, htaken, hfiles, congrArg _ ha⟩
      · rw [Fallible.exec_bind_error hrun] at ha
        exact .inr ⟨before, file, after, e, hsplit, hfile, congrArg _ ha,
          .inr ⟨hup, hstopped, htaken⟩⟩

/-- The plain writer over the groups in order. -/
theorem writeContainers_eq {profile : Profile} {encoded : PackTask → Bytes × ℕ × ℕ}
    {startEpoch epochCount : UInt64} (hshard : 0 < shardEpochs)
    (hsum : startEpoch.toNat + epochCount.toNat < UInt64.size)
    (hcount : ∀ i, i < count ↔ i * shardEpochs.toNat < epochCount.toNat) {writer writer' : Writer}
    {chunks chunks' : List (List PacketOut)}
    (h : InOrder profile namePrefix shardEpochs targetBytes
      (firstGroups (packetAt encoded startEpoch epochCount shardEpochs) count) writer writer' chunks
      chunks') :
    writeContainers profile namePrefix shardEpochs targetBytes
      (firstGroups (packetAt encoded startEpoch epochCount shardEpochs) count) =
        .ok (writer'.summary, writer'.written) := by
  obtain ⟨hsize, -, -⟩ := packetAt_spec encoded hshard hsum hcount
  obtain ⟨n, -, htake, hwrite⟩ := exists_takeWhile profile namePrefix targetBytes encoded hshard
    hsum hcount (nodup_tasks hsize) (List.Subset.refl _)
  rw [List.takeWhile_eq_self_iff.mpr fun task htask => decide_eq_true htask] at htake
  obtain rfl : count = n := by simpa using congrArg List.length htake
  rw [List.map_map] at hwrite
  refine hwrite.trans ?_
  rw [h.emitted, Except.ok_bind, h.finished]
  rfl

/-- The groups that are extracted, in order. -/
theorem mapM_packGroup {m : ℕ}
    (h : ∀ i < m, packGroup crates decoders pow pos config
        (taskAt config.startEpoch config.epochCount shardEpochs i) =
      .ok (packetAt (packEncoded crates decoders pow pos config) config.startEpoch
        config.epochCount shardEpochs i)) :
    ((List.range m).map (taskAt config.startEpoch config.epochCount shardEpochs)).mapM
        (packGroup crates decoders pow pos config) =
      .ok (firstGroups (packetAt (packEncoded crates decoders pow pos config) config.startEpoch
        config.epochCount shardEpochs) m) := by
  have hwork : ∀ task ∈ (List.range m).map (taskAt config.startEpoch config.epochCount shardEpochs),
      packGroup crates decoders pow pos config task =
        .ok (workerOut (packEncoded crates decoders pow pos config) task) := by
    intro task htask
    obtain ⟨i, hi, rfl⟩ := List.mem_map.mp htask
    exact h i (List.mem_range.mp hi)
  rw [mapM_eq_ok hwork, List.map_map]
  rfl

theorem packGroup_of_mapM {m : ℕ} {done : List PacketOut}
    (h : ((List.range m).map (taskAt config.startEpoch config.epochCount shardEpochs)).mapM
      (packGroup crates decoders pow pos config) = .ok done) {i : ℕ} (hi : i < m) :
    packGroup crates decoders pow pos config
        (taskAt config.startEpoch config.epochCount shardEpochs i) =
      .ok (packetAt (packEncoded crates decoders pow pos config) config.startEpoch
        config.epochCount shardEpochs i) := by
  obtain ⟨g, hg, -⟩ := exists_map_of_mapM h ⟨0, 0, 0, 0, 0, []⟩
  have hwork := hg _ (List.mem_map_of_mem (List.mem_range.mpr hi))
  rw [hwork, packGroup_eq_ok hwork]
  rfl

/-- Groups in front of those that are extracted. -/
theorem mapM_take {m : ℕ} (hm : m ≤ count)
    (h : ∀ i < m, packGroup crates decoders pow pos config
        (taskAt config.startEpoch config.epochCount shardEpochs i) =
      .ok (packetAt (packEncoded crates decoders pow pos config) config.startEpoch
        config.epochCount shardEpochs i)) {groups : List PacketOut}
    (hgroups : groups <+: firstGroups (packetAt (packEncoded crates decoders pow pos config)
      config.startEpoch config.epochCount shardEpochs) m) :
    (((List.range count).map (taskAt config.startEpoch config.epochCount shardEpochs)).take
        groups.length).mapM (packGroup crates decoders pow pos config) = .ok groups := by
  have hle : groups.length ≤ m := by
    have hlength := hgroups.length_le
    unfold firstGroups at hlength
    rwa [List.length_map, List.length_range] at hlength
  have htake := List.prefix_iff_eq_take.mp hgroups
  unfold firstGroups at htake
  rw [← List.map_take, List.take_range, Nat.min_eq_left hle] at htake
  rw [← List.map_take, List.take_range, Nat.min_eq_left (hle.trans hm),
    mapM_packGroup fun i hi => h i (hi.trans_le hle)]
  exact congrArg Except.ok htake.symm

/-- The files of the plain writer have different paths. -/
theorem InOrder.nodup_written {profile : Profile} {encoded : PackTask → Bytes × ℕ × ℕ}
    {startEpoch epochCount : UInt64} (hshard : 0 < shardEpochs)
    (hsum : startEpoch.toNat + epochCount.toNat < UInt64.size)
    (hcount : ∀ i, i < count ↔ i * shardEpochs.toNat < epochCount.toNat) {m : ℕ} (hm : m ≤ count)
    {writer writer' : Writer} {chunks chunks' : List (List PacketOut)}
    (h : InOrder profile namePrefix shardEpochs targetBytes
      (firstGroups (packetAt encoded startEpoch epochCount shardEpochs) m) writer writer' chunks
      chunks') : (writer'.written.map Prod.fst).Nodup := by
  obtain ⟨summary, files, hrun, -, -, hnodup⟩ :=
    exists_chunks profile namePrefix targetBytes encoded hshard hsum hcount hm
  rw [h.emitted, Except.ok_bind, h.finished, Except.ok_bind] at hrun
  obtain ⟨-, hwritten⟩ := Prod.mk.inj (Except.ok.inj hrun)
  rw [hwritten, List.map_map]
  exact hnodup

theorem map_fst_leftFile (file : File) :
    ((leftFile fate file).map Prod.fst).Sublist [file.1] := by
  unfold leftFile
  cases (fate file.1).left file.2 with
  | none => exact List.nil_sublist _
  | some bytes => exact List.Sublist.refl _

/-- A run that has closed has taken every group exactly when no worker has failed. -/
theorem closed_iff {p : PackRun} {m n : ℕ}
    (h : p.Sound (packGroup crates decoders pow pos config)
      (packWriter crates fate namePrefix shardEpochs targetBytes)
      ((List.range count).map (taskAt config.startEpoch config.epochCount shardEpochs)) n
      ((∅, 0, .default), []))
    (hworkers : (List.range count).map (taskAt config.startEpoch config.epochCount shardEpochs) ≠ [] →
      0 < n)
    (hup : p.pool.hungUp = false) (hstopped : p.pool.Stopped) (htaken : p.taken = p.pool.sent)
    (hall : (∀ i < count, taskAt config.startEpoch config.epochCount shardEpochs i ∈
      p.taken.map Prod.fst) → m = count) :
    ((∃ results, WorkerPool.collect panicked p.pool.workers = .ok results) ↔
        ∀ i < count, packGroup crates decoders pow pos config
            (taskAt config.startEpoch config.epochCount shardEpochs i) =
          .ok (packetAt (packEncoded crates decoders pow pos config) config.startEpoch
            config.epochCount shardEpochs i)) ∧
      ((∃ results, WorkerPool.collect panicked p.pool.workers = .ok results) → m = count) := by
  have haccounted := h.reachable.accounted
  have hdone : (∃ results, WorkerPool.collect panicked p.pool.workers = .ok results) →
      ∀ i < count, packGroup crates decoders pow pos config
          (taskAt config.startEpoch config.epochCount shardEpochs i) =
        .ok (packetAt (packEncoded crates decoders pow pos config) config.startEpoch
          config.epochCount shardEpochs i) := by
    rintro ⟨results, hcollect⟩ i hi
    cases hgroup : packGroup crates decoders pow pos config
        (taskAt config.startEpoch config.epochCount shardEpochs i) with
    | ok out =>
      rw [packGroup_eq_ok hgroup]
      rfl
    | error e =>
      obtain ⟨_, -, _, -, herror⟩ := haccounted.collect_eq_error panicked hstopped hup
        hworkers (List.mem_map_of_mem (List.mem_range.mpr hi)) hgroup
      cases hcollect.symm.trans herror
  -- without a failure every group has been sent
  have hsent : (∀ i < count, packGroup crates decoders pow pos config
        (taskAt config.startEpoch config.epochCount shardEpochs i) =
      .ok (packetAt (packEncoded crates decoders pow pos config) config.startEpoch
        config.epochCount shardEpochs i)) →
      m = count ∧ ∃ results, WorkerPool.collect panicked p.pool.workers = .ok results := by
    intro hextracted
    obtain ⟨results, hcollect, hsent, -⟩ := haccounted.collect_eq_ok panicked hstopped hup hworkers
      (f := workerOut (packEncoded crates decoders pow pos config)) (by
        intro task htask
        obtain ⟨i, hi, rfl⟩ := List.mem_map.mp htask
        exact hextracted i (List.mem_range.mp hi))
    refine ⟨hall fun i hi => ?_, results, hcollect⟩
    have hmem := (hsent.map Prod.fst).symm.subset (a := taskAt config.startEpoch config.epochCount
      shardEpochs i) (by
        rw [List.map_map]
        exact List.mem_map_of_mem (f := fun task => task)
          (List.mem_map_of_mem (List.mem_range.mpr hi)))
    rwa [htaken]
  exact ⟨⟨hdone, fun hextracted => (hsent hextracted).2⟩, fun hcollect => (hsent (hdone hcollect)).1⟩

variable (crates decoders pow pos config fate namePrefix) in
/-- What a run leaves: whole containers of the first groups, each of which was extracted, and behind
them at most what is left of one that has failed. -/
structure PackedFiles (shardEpochs : UInt64) (m : ℕ) (p : PackRun)
    (chunks : List (List PacketOut)) (torn : List File) : Prop where
  extracted : ∀ i < m, packGroup crates decoders pow pos config
      (taskAt config.startEpoch config.epochCount shardEpochs i) =
    .ok (packetAt (packEncoded crates decoders pow pos config) config.startEpoch config.epochCount
      shardEpochs i)
  files : packFiles p = chunks.map (fileOf namePrefix shardEpochs) ++ torn
  nodup : ((packFiles p).map Prod.fst).Nodup
  nonempty : ∀ chunk ∈ chunks, chunk ≠ []
  flatten_prefix : chunks.flatten <+: firstGroups (packetAt
    (packEncoded crates decoders pow pos config) config.startEpoch config.epochCount shardEpochs) m
  torn : torn = [] ∨ ∃ chunk e, chunk ≠ [] ∧
    chunks.flatten ++ chunk <+: firstGroups (packetAt (packEncoded crates decoders pow pos config)
      config.startEpoch config.epochCount shardEpochs) m ∧
    torn = leftFile fate (fileOf namePrefix shardEpochs chunk) ∧
    (fate (fileOf namePrefix shardEpochs chunk).1).error (fileOf namePrefix shardEpochs chunk).1 =
      some e ∧
    p.thread = .ended (.error e, packFiles p)

/-- **What a run leaves** at any point, and that nothing is missing once it has returned a summary. -/
theorem exists_packedFiles (hshard : 0 < shardEpochs)
    (hsum : config.startEpoch.toNat + config.epochCount.toNat < UInt64.size)
    (hcount : ∀ i, i < count ↔ i * shardEpochs.toNat < config.epochCount.toNat) {p : PackRun} {n : ℕ}
    (h : p.Sound (packGroup crates decoders pow pos config)
      (packWriter crates fate namePrefix shardEpochs targetBytes)
      ((List.range count).map (taskAt config.startEpoch config.epochCount shardEpochs)) n
      ((∅, 0, .default), [])) :
    ∃ m ≤ count, ∃ chunks torn,
      PackedFiles crates decoders pow pos config fate namePrefix shardEpochs m p chunks torn ∧
      (((List.range count).map (taskAt config.startEpoch config.epochCount shardEpochs) ≠ [] →
        0 < n) → ∀ summary, packResult p = some (.ok summary) →
          torn = [] ∧ chunks.flatten = firstGroups (packetAt
            (packEncoded crates decoders pow pos config) config.startEpoch config.epochCount
            shardEpochs) count) := by
  obtain ⟨m, hm, writer, writer', chunks, chunks', hwork, hinOrder, hall, hplace⟩ :=
    exists_place hshard hsum hcount h
  have hnodup := hinOrder.nodup_written hshard hsum hcount hm
  rcases hplace with ⟨state, hthread⟩ | ⟨hup, hclosed, htaken, -, hthread⟩ |
    ⟨before, file, after, e, hsplit, hfile, hthread, -⟩
  -- the writer reads
  · have hpackFiles := packFiles_reading hthread
    obtain ⟨more, hmore, -⟩ :=
      @finishTo_eq (fun _ => .written) _ _ _ (∅, 0, writer) _ hinOrder.finished
    rw [hmore, List.map_append] at hnodup
    refine ⟨m, hm, chunks, [], ⟨hwork, ?_, ?_, hinOrder.nonempty, hinOrder.flatten_prefix, .inl rfl⟩,
      fun _ summary hresult => ?_⟩
    · rw [hpackFiles, hinOrder.written, List.append_nil]
    · rw [hpackFiles]
      exact (List.nodup_append.mp hnodup).1
    · obtain ⟨-, files, hended⟩ := packResult_eq_ok.mp hresult
      cases hended.symm.trans hthread
  -- it has closed
  · have hpackFiles := packFiles_ended hthread
    refine ⟨m, hm, chunks', [], ⟨hwork, ?_, ?_, hinOrder.nonempty', ?_, .inl rfl⟩,
      fun hworkers summary hresult => ⟨rfl, ?_⟩⟩
    · rw [hpackFiles, hinOrder.written', List.append_nil]
    · rw [hpackFiles]
      exact hnodup
    · rw [hinOrder.flatten']
    · obtain ⟨-, hcomplete⟩ :=
        closed_iff h hworkers hup hclosed htaken hall
      rw [hinOrder.flatten', hcomplete (packResult_eq_ok.mp hresult).1]
  -- a container has failed: it follows those before it
  · have hpackFiles := packFiles_ended hthread
    obtain ⟨whole, chunk, rfl, rfl, hwhole, hne, hflatten⟩ := hinOrder.split_written hsplit
    refine ⟨m, hm, whole, leftFile fate (fileOf namePrefix shardEpochs chunk),
      ⟨hwork, hpackFiles, ?_, hwhole, (List.prefix_append _ _).trans hflatten,
        .inr ⟨chunk, e, hne, hflatten, rfl, hfile, ?_⟩⟩, fun _ summary hresult => ?_⟩
    · rw [hpackFiles]
      rw [hsplit, List.map_append, List.map_cons] at hnodup
      rw [List.map_append]
      refine hnodup.sublist ((List.Sublist.refl _).append ?_)
      exact (map_fst_leftFile _).trans (List.singleton_sublist.mpr List.mem_cons_self)
    · rw [hpackFiles]
      exact hthread
    · obtain ⟨-, files, hended⟩ := packResult_eq_ok.mp hresult
      cases hended.symm.trans hthread

variable (crates decoders pow pos config fate namePrefix)

/-- **Every order of the steps** of the workers and of the writer comes to an end. The run returns a
summary exactly when every group can be extracted and every container of the plain loop over the
groups be written; the summary and the files are those of this loop. -/
theorem runPacked_spec (shardEpochs targetBytes : UInt64) (jobs : ℕ) (hshard : 0 < shardEpochs)
    (hjobs : 0 < jobs)
    (hsum : config.startEpoch.toNat + config.epochCount.toNat < UInt64.size) :
    ∃ tasks,
      buildPackTasks crates.toProfile config.startEpoch config.epochCount shardEpochs = .ok tasks ∧
      ∀ schedule p,
        Pipeline.run (packGroup crates decoders pow pos config)
          (packWriter crates fate namePrefix shardEpochs targetBytes) (runPacked tasks jobs)
          schedule = some p →
        schedule.length ≤ 3 * tasks.length + min jobs tasks.length + 1 ∧
        (p.Stopped ∨ ∃ actor p', Pipeline.advance (packGroup crates decoders pow pos config)
          (packWriter crates fate namePrefix shardEpochs targetBytes) p actor = some p') ∧
        (p.Stopped → ∀ summary files,
          (packResult p = some (.ok summary) ∧ packFiles p = files ↔
            ∃ done, tasks.mapM (packGroup crates decoders pow pos config) = .ok done ∧
              writeContainers crates.toProfile namePrefix shardEpochs targetBytes done =
                .ok (summary, files) ∧
              ∀ file ∈ files, (fate file.1).isWritten)) := by
  obtain ⟨count, hcount, htasks⟩ := buildPackTasks_eq crates.toProfile hshard hsum
  refine ⟨_, htasks, fun schedule p hrun => ⟨Pipeline.length_le hrun, ?_, fun hstopped => ?_⟩⟩
  · by_cases hstopped : p.Stopped
    · exact .inl hstopped
    · exact .inr (Pipeline.exists_advance _ _ hstopped)
  have hsound := (Pipeline.sound_start (packGroup crates decoders pow pos config)
    (packWriter crates fate namePrefix shardEpochs targetBytes) _ _ _).run hrun
  obtain ⟨m, hm, writer, writer', chunks, chunks', hwork, hinOrder, hall, hplace⟩ :=
    exists_place hshard hsum hcount hsound
  have hworkers : (List.range count).map (taskAt config.startEpoch config.epochCount shardEpochs) ≠
      [] → 0 < min jobs ((List.range count).map (taskAt config.startEpoch config.epochCount
        shardEpochs)).length := fun hne => lt_min hjobs (List.length_pos_of_ne_nil hne)
  intro summary files
  constructor
  -- a run that returns a summary
  · rintro ⟨hresult, rfl⟩
    obtain ⟨hcollect, files, hended⟩ := packResult_eq_ok.mp hresult
    rcases hplace with ⟨state, hthread⟩ | ⟨hup, hclosed, htaken, hfiles, hthread⟩ |
      ⟨before, file, after, e, -, -, hthread, -⟩
    · cases hended.symm.trans hthread
    · obtain ⟨hiff, hcomplete⟩ :=
        closed_iff hsound hworkers hup hclosed htaken hall
      have hdone := hiff.mp hcollect
      obtain rfl := hcomplete hcollect
      have hpackFiles := packFiles_ended hthread
      cases hended.symm.trans hthread
      refine ⟨_, mapM_packGroup hdone, ?_, ?_⟩
      · rw [hpackFiles]
        exact writeContainers_eq hshard hsum hcount hinOrder
      · rw [hpackFiles]
        exact hfiles
    · cases hended.symm.trans hthread
  -- a run without a failure
  · rintro ⟨done, hmapM, hwrite, hfiles⟩
    have hdone := fun i (hi : i < count) => packGroup_of_mapM hmapM hi
    obtain rfl := Except.ok.inj ((mapM_packGroup hdone).symm.trans hmapM)
    obtain ⟨last, last', all, all', hallInOrder⟩ := exists_inOrder crates.toProfile namePrefix
      targetBytes (packEncoded crates decoders pow pos config) hshard hsum hcount le_rfl
    obtain ⟨rfl, rfl⟩ := Prod.mk.inj (Except.ok.inj
      ((writeContainers_eq hshard hsum hcount hallInOrder).symm.trans hwrite))
    -- a file that fails would be one of these
    have hsame : m = count → writer'.summary = last'.summary ∧ writer'.written = last'.written := by
      rintro rfl
      have heq := (writeContainers_eq hshard hsum hcount hinOrder).symm.trans
        (writeContainers_eq hshard hsum hcount hallInOrder)
      exact Prod.mk.inj (Except.ok.inj heq)
    rcases hplace with ⟨state, hthread⟩ | ⟨hup, hclosed, htaken, -, hthread⟩ |
      ⟨before, file, after, e, hsplit, hfile, hthread, hwhere⟩
    · obtain ⟨a, ha⟩ := hstopped.2
      cases hthread.symm.trans ha
    · obtain ⟨hiff, hcomplete⟩ :=
        closed_iff hsound hworkers hup hclosed htaken hall
      have hcollect := hiff.mpr hdone
      obtain ⟨hsummary, hwritten⟩ := hsame (hcomplete hcollect)
      rw [← hsummary, ← hwritten]
      exact ⟨packResult_eq_ok.mpr ⟨hcollect, _, hthread⟩, packFiles_ended hthread⟩
    · exfalso
      have hmem : file ∈ last'.written := by
        rcases hwhere with hmem | ⟨hup, hclosed, htaken⟩
        · exact hinOrder.written_subset hm hallInOrder hmem
        · obtain ⟨hiff, hcomplete⟩ :=
            closed_iff hsound hworkers hup hclosed htaken hall
          rw [← (hsame (hcomplete (hiff.mpr hdone))).2, hsplit]
          exact List.mem_append_right _ List.mem_cons_self
      rw [error_eq_none_iff.mpr (hfiles file hmem)] at hfile
      cases hfile

/-- Two epochs in one container. -/
theorem runPacked_spec_two :
    ∃ tasks done summary files,
      buildPackTasks plainCrates.toProfile 1 2 1 = .ok tasks ∧
      tasks.mapM (packGroup plainCrates plainDecoders plainShardDb plainPosDb plainConfig) =
        .ok done ∧
      writeContainers plainCrates.toProfile "epochs" 1 1000 done = .ok (summary, files) ∧
      ∀ schedule p,
        Pipeline.run (packGroup plainCrates plainDecoders plainShardDb plainPosDb plainConfig)
          (packWriter plainCrates (fun _ => .written) "epochs" 1 1000) (runPacked tasks 2) schedule =
            some p →
        p.Stopped → packResult p = some (.ok summary) ∧ packFiles p = files := by
  obtain ⟨tasks, htasks, hspec⟩ := runPacked_spec plainCrates plainDecoders plainShardDb plainPosDb
    plainConfig (fun _ => .written) "epochs" 1 1000 2 (by decide) (by decide) (by decide)
  have hok : (do
      let tasks ← buildPackTasks plainCrates.toProfile 1 2 1
      let done ← tasks.mapM (packGroup plainCrates plainDecoders plainShardDb plainPosDb plainConfig)
      writeContainers plainCrates.toProfile "epochs" 1 1000 done).isOk = true := by decide +kernel
  have htasks' : buildPackTasks plainCrates.toProfile 1 2 1 = .ok tasks := htasks
  rw [htasks', Except.ok_bind] at hok
  cases hdone : tasks.mapM (packGroup plainCrates plainDecoders plainShardDb plainPosDb
      plainConfig) with
  | error e => simp [hdone, Except.isOk, Except.toBool] at hok
  | ok done =>
    rw [hdone, Except.ok_bind] at hok
    cases hwrite : writeContainers plainCrates.toProfile "epochs" 1 1000 done with
    | error e => simp [hwrite, Except.isOk, Except.toBool] at hok
    | ok written =>
      refine ⟨tasks, done, written.1, written.2, htasks', hdone, hwrite, fun schedule p hrun hstopped =>
        ((hspec schedule p hrun).2.2 hstopped _ _).mpr ⟨done, hdone, hwrite, fun _ _ => rfl⟩⟩

/-- **The files at any point of a run** are whole containers of the groups from the first one on, in
order, each of which was extracted, and no file replaces another. Behind them there may be the
beginning of the next container, when it could not be written; the writer has ended then. Writing a
container is one step: a kill inside it leaves what a failing write leaves. -/
theorem runPacked_files (shardEpochs targetBytes : UInt64) (jobs : ℕ) (hshard : 0 < shardEpochs)
    (hsum : config.startEpoch.toNat + config.epochCount.toNat < UInt64.size) :
    ∃ tasks,
      buildPackTasks crates.toProfile config.startEpoch config.epochCount shardEpochs = .ok tasks ∧
      ∀ schedule p,
        Pipeline.run (packGroup crates decoders pow pos config)
          (packWriter crates fate namePrefix shardEpochs targetBytes) (runPacked tasks jobs)
          schedule = some p →
        ((packFiles p).map Prod.fst).Nodup ∧
        ∃ (chunks : List (List PacketOut)) (torn : List File),
          packFiles p = chunks.map (fileOf namePrefix shardEpochs) ++ torn ∧
          (∀ chunk ∈ chunks, chunk ≠ []) ∧
          (tasks.take chunks.flatten.length).mapM (packGroup crates decoders pow pos config) =
            .ok chunks.flatten ∧
          (torn = [] ∨ ∃ chunk e, chunk ≠ [] ∧
            (tasks.take (chunks.flatten ++ chunk).length).mapM
              (packGroup crates decoders pow pos config) = .ok (chunks.flatten ++ chunk) ∧
            torn = leftFile fate (fileOf namePrefix shardEpochs chunk) ∧
            (fate (fileOf namePrefix shardEpochs chunk).1).error
              (fileOf namePrefix shardEpochs chunk).1 = some e ∧
            p.thread = .ended (.error e, packFiles p)) := by
  obtain ⟨count, hcount, htasks⟩ := buildPackTasks_eq crates.toProfile hshard hsum
  refine ⟨_, htasks, fun schedule p hrun => ?_⟩
  have hsound := (Pipeline.sound_start (packGroup crates decoders pow pos config)
    (packWriter crates fate namePrefix shardEpochs targetBytes) _ _ _).run hrun
  obtain ⟨m, hm, chunks, torn, hfiles, -⟩ := exists_packedFiles hshard hsum hcount hsound
  refine ⟨hfiles.nodup, chunks, torn, hfiles.files, hfiles.nonempty,
    mapM_take hm hfiles.extracted hfiles.flatten_prefix, ?_⟩
  rcases hfiles.torn with hnone | ⟨chunk, e, hne, hprefix, hleft, herror, hthread⟩
  · exact .inl hnone
  · exact .inr ⟨chunk, e, hne, mapM_take hm hfiles.extracted hprefix, hleft, herror, hthread⟩

/-- Two epochs with a container that cannot be flushed: its first bytes are left in the end. -/
theorem runPacked_files_two :
    ∃ tasks p, buildPackTasks plainCrates.toProfile 1 2 1 = .ok tasks ∧
      Pipeline.run (packGroup plainCrates plainDecoders plainShardDb plainPosDb plainConfig)
        (packWriter plainCrates (fun _ => .unflushed 3) "epochs" 1 1000) (runPacked tasks 2)
        [.worker 0, .worker 1, .worker 1, .worker 0, .reader, .worker 0, .worker 1, .reader] =
          some p ∧
      p.pool.Stopped ∧ (packResult p).isSome ∧ (packFiles p).map (fun file => file.2.length) = [3] ∧
      ((packFiles p).map Prod.fst).Nodup ∧
      ∃ (chunks : List (List PacketOut)) (torn : List File),
        packFiles p = chunks.map (fileOf "epochs" 1) ++ torn ∧ (∀ chunk ∈ chunks, chunk ≠ []) ∧
        (tasks.take chunks.flatten.length).mapM (packGroup plainCrates plainDecoders plainShardDb
          plainPosDb plainConfig) = .ok chunks.flatten ∧
        (torn = [] ∨ ∃ chunk e, chunk ≠ [] ∧
          (tasks.take (chunks.flatten ++ chunk).length).mapM (packGroup plainCrates plainDecoders
            plainShardDb plainPosDb plainConfig) = .ok (chunks.flatten ++ chunk) ∧
          torn = leftFile (fun _ => .unflushed 3) (fileOf "epochs" 1 chunk) ∧
          Fate.error (fileOf "epochs" 1 chunk).1 (.unflushed 3) = some e ∧
          p.thread = .ended (.error e, packFiles p)) := by
  obtain ⟨tasks, htasks, hspec⟩ := runPacked_files plainCrates plainDecoders plainShardDb plainPosDb
    plainConfig (fun _ => .unflushed 3) "epochs" 1 1000 2 (by decide) (by decide)
  have htasks' : buildPackTasks plainCrates.toProfile 1 2 1 = .ok tasks := htasks
  have hlengths : (do
      let tasks ← (buildPackTasks plainCrates.toProfile 1 2 1).toOption
      let p ← Pipeline.run (packGroup plainCrates plainDecoders plainShardDb plainPosDb plainConfig)
        (packWriter plainCrates (fun _ => .unflushed 3) "epochs" 1 1000) (runPacked tasks 2)
        [.worker 0, .worker 1, .worker 1, .worker 0, .reader, .worker 0, .worker 1, .reader]
      some (p.pool.workers.all WorkerPool.Worker.hasStopped, (packResult p).isSome,
        (packFiles p).map fun file => file.2.length)) = some (true, true, [3]) := by decide +kernel
  rw [htasks'] at hlengths
  obtain ⟨_, hsome, hlengths⟩ := Option.bind_eq_some_iff.mp hlengths
  obtain rfl := Option.some.inj hsome
  obtain ⟨p, hrun, hfiles⟩ := Option.bind_eq_some_iff.mp hlengths
  obtain ⟨hstopped, hresult, hlength⟩ := by simpa only [Option.some.injEq, Prod.mk.injEq] using hfiles
  exact ⟨tasks, p, htasks', hrun, List.all_eq_true.mp hstopped, hresult, hlength, hspec _ p hrun⟩

/-- **A run that fails** reports a group that could not be extracted, or the container that could not
be written, behind those of the groups before it; neither the workers nor the writer panic on their
own. -/
theorem runPacked_failed (shardEpochs targetBytes : UInt64) (jobs : ℕ) (hshard : 0 < shardEpochs)
    (hsum : config.startEpoch.toNat + config.epochCount.toNat < UInt64.size) :
    ∃ tasks,
      buildPackTasks crates.toProfile config.startEpoch config.epochCount shardEpochs = .ok tasks ∧
      ∀ schedule p,
        Pipeline.run (packGroup crates decoders pow pos config)
          (packWriter crates fate namePrefix shardEpochs targetBytes) (runPacked tasks jobs)
          schedule = some p →
        ∀ e, packResult p = some (.error e) →
          (∃ task ∈ tasks, packGroup crates decoders pow pos config task = .error e) ∨
          ∃ (chunks : List (List PacketOut)) (chunk : List PacketOut),
            (∀ chunk' ∈ chunks, chunk' ≠ []) ∧ chunk ≠ [] ∧
            (tasks.take (chunks.flatten ++ chunk).length).mapM
              (packGroup crates decoders pow pos config) = .ok (chunks.flatten ++ chunk) ∧
            packFiles p = chunks.map (fileOf namePrefix shardEpochs) ++
              leftFile fate (fileOf namePrefix shardEpochs chunk) ∧
            (fate (fileOf namePrefix shardEpochs chunk).1).error
              (fileOf namePrefix shardEpochs chunk).1 = some e := by
  obtain ⟨count, hcount, htasks⟩ := buildPackTasks_eq crates.toProfile hshard hsum
  refine ⟨_, htasks, fun schedule p hrun e hresult => ?_⟩
  have hsound := (Pipeline.sound_start (packGroup crates decoders pow pos config)
    (packWriter crates fate namePrefix shardEpochs targetBytes) _ _ _).run hrun
  obtain ⟨m, hm, writer, writer', chunks, chunks', hwork, hinOrder, -, hplace⟩ :=
    exists_place hshard hsum hcount hsound
  rcases packResult_eq_error hresult with hcollect | ⟨files, hended⟩
  · exact .inl (hsound.reachable.accounted.of_collect_eq_error hcollect)
  · rcases hplace with ⟨state, hthread⟩ | ⟨-, -, -, -, hthread⟩ |
      ⟨before, file, after, e', hsplit, hfile, hthread, -⟩
    · cases hended.symm.trans hthread
    · cases hended.symm.trans hthread
    · obtain ⟨whole, chunk, rfl, rfl, hwhole, hne, hflatten⟩ := hinOrder.split_written hsplit
      have hpackFiles := packFiles_ended hthread
      cases hended.symm.trans hthread
      exact .inr ⟨whole, chunk, hwhole, hne, mapM_take hm hwork hflatten, hpackFiles, hfile⟩

/-- Neither of two groups can be extracted, and one of them is reported. -/
theorem runPacked_failed_two :
    ∃ tasks p, buildPackTasks plainCrates.toProfile 1 2 1 = .ok tasks ∧
      Pipeline.run (packGroup plainCrates plainDecoders plainChainDb plainPosDb plainConfig)
        (packWriter plainCrates (fun _ => .written) "epochs" 1 1000) (runPacked tasks 1)
        [.worker 0, .worker 0, .reader] = some p ∧
      packResult p = some (.error (.error "extract group 1..=1")) ∧
      ((∃ task ∈ tasks, packGroup plainCrates plainDecoders plainChainDb plainPosDb plainConfig task =
          .error (.error "extract group 1..=1")) ∨
        ∃ (chunks : List (List PacketOut)) (chunk : List PacketOut),
          (∀ chunk' ∈ chunks, chunk' ≠ []) ∧ chunk ≠ [] ∧
          (tasks.take (chunks.flatten ++ chunk).length).mapM (packGroup plainCrates plainDecoders
            plainChainDb plainPosDb plainConfig) = .ok (chunks.flatten ++ chunk) ∧
          packFiles p = chunks.map (fileOf "epochs" 1) ++
            leftFile (fun _ => .written) (fileOf "epochs" 1 chunk) ∧
          Fate.error (fileOf "epochs" 1 chunk).1 .written =
            some (.error "extract group 1..=1")) := by
  obtain ⟨tasks, htasks, hspec⟩ := runPacked_failed plainCrates plainDecoders plainChainDb plainPosDb
    plainConfig (fun _ => .written) "epochs" 1 1000 1 (by decide) (by decide)
  have htasks' : buildPackTasks plainCrates.toProfile 1 2 1 = .ok tasks := htasks
  have hfails : (do
      let tasks ← (buildPackTasks plainCrates.toProfile 1 2 1).toOption
      let p ← Pipeline.run
        (packGroup plainCrates plainDecoders plainChainDb plainPosDb plainConfig)
        (packWriter plainCrates (fun _ => .written) "epochs" 1 1000) (runPacked tasks 1)
        [.worker 0, .worker 0, .reader]
      match ← packResult p with
      | .error e => some e
      | .ok _ => none) = some (.error "extract group 1..=1") := by decide +kernel
  rw [htasks'] at hfails
  obtain ⟨_, hsome, hfails⟩ := Option.bind_eq_some_iff.mp hfails
  obtain rfl := Option.some.inj hsome
  obtain ⟨p, hrun, hresult⟩ := Option.bind_eq_some_iff.mp hfails
  obtain ⟨result, hpack, herror⟩ := Option.bind_eq_some_iff.mp hresult
  cases result with
  | ok summary => cases herror
  | error e =>
    obtain rfl := Option.some.inj herror
    exact ⟨tasks, p, htasks', hrun, hpack, hspec _ p hrun _ hpack⟩

end Spec

end Extractor
