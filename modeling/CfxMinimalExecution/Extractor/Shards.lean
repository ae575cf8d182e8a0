import CfxMinimalExecution.Cfxpack.Verify
import CfxMinimalExecution.Extractor.Extracted
import CfxMinimalExecution.Extractor.PackTasks
import CfxMinimalExecution.Library.Replacement
import CfxMinimalExecution.Library.WorkerPool

/-!
# Shards

`extract-shards` cuts a range of epochs into shards, and workers extract the shards into one file
each. Which worker takes which shard, and in which order the files are written, depends on the run;
the files and the report do not. Any file may fail to be written, and its beginning may be left.

## Main definitions

* `buildShardTasks`: the shards
* `Databases.encoded`, `Databases.toFile`: the packet of a range of epochs
* `Fate`: what becomes of a file
* `runShardTask`: what a worker does with a shard
* `shardReports`, `shardFiles`, `directory`: what the command returns, and the files behind it

## Main results

* `buildShardTasks_eq`: the shards follow one another, and their files differ
* `extractShards_spec`: every order of the workers gives the files and the reports of the plain loop
* `extractShards_failed`: what is left when shards fail
-/

namespace Extractor

open Cfxpack
open WorkerPool (Pool Worker)

/-! ## Tasks -/

structure ShardTask where
  startEpoch : UInt64
  epochCount : UInt64
  output : String
deriving DecidableEq

/-- The path of a shard in the output directory. -/
def shardPath (startEpoch endEpoch : UInt64) : String :=
  s!"{startEpoch.toNat}-{endEpoch.toNat}.cfxpkt"

/-- The last epoch of a range. -/
def endEpochOf (profile : Profile) (startEpoch epochCount : UInt64) : Result UInt64 := do
  let stop ← profile.addU64 startEpoch epochCount
  profile.subU64 stop 1

def ShardTask.endEpoch (profile : Profile) (task : ShardTask) : Result UInt64 :=
  endEpochOf profile task.startEpoch task.epochCount

/-- The shards are the groups of the packer, with a path each. -/
def shardTask (profile : Profile) (startEpoch epochCount shardEpochs shardIndex : UInt64) :
    Result ShardTask := do
  let group ← packTask profile startEpoch epochCount shardEpochs shardIndex
  let endEpoch ← endEpochOf profile group.startEpoch group.epochCount
  pure ⟨group.startEpoch, group.epochCount, shardPath group.startEpoch endEpoch⟩

def buildShardTasks (profile : Profile) (startEpoch epochCount shardEpochs : UInt64) :
    Result (List ShardTask) := do
  let shardCount ← divCeil epochCount shardEpochs
  (List.range shardCount.toNat).mapM fun shardIndex =>
    shardTask profile startEpoch epochCount shardEpochs (UInt64.ofNat shardIndex)

/-! ## Files -/

/-- What becomes of a file that is created, written and flushed. -/
inductive Fate
  | written
  | uncreated
  | unwritten (n : ℕ) (e : String)
  | unflushed (n : ℕ)

namespace Fate

def isWritten : Fate → Bool
  | written => true
  | _ => false

/-- What is left of a file. -/
def left (bytes : Bytes) : Fate → Option Bytes
  | written => some bytes
  | uncreated => none
  | unwritten n _ | unflushed n => some (bytes.take n)

/-- What is left is the beginning of the file, and all of it unless the file fails. -/
theorem prefix_of_left {fate : Fate} {bytes bytes' : Bytes} (h : fate.left bytes = some bytes') :
    bytes' <+: bytes ∧ (fate.isWritten → bytes' = bytes) := by
  cases fate with
  | written =>
    obtain rfl := Option.some.inj h
    exact ⟨List.prefix_rfl, fun _ => rfl⟩
  | uncreated => cases h
  | unwritten n e =>
    obtain rfl := Option.some.inj h
    exact ⟨List.take_prefix n bytes, fun hwritten => nomatch hwritten⟩
  | unflushed n =>
    obtain rfl := Option.some.inj h
    exact ⟨List.take_prefix n bytes, fun hwritten => nomatch hwritten⟩

end Fate

/-! ## Workers -/

structure ExtractReport where
  startEpoch : UInt64
  epochCount : UInt64
  blockCount : ℕ
  transactionCount : ℕ
  packetBytes : ℕ
  output : String
deriving DecidableEq

/-- The configuration for a part of the range. -/
def ExtractConfig.withRange (config : ExtractConfig) (startEpoch epochCount : UInt64) :
    ExtractConfig :=
  { config with startEpoch, epochCount }

section Workers

variable {T : PrimitiveTypes} (crates : Crates T) (decoders : Decoders T) (pow : PowDb) (pos : PosDb)

/-- A packet of a range of epochs, once it has passed the verifier. -/
def Databases.encoded (config : ExtractConfig) : Result (Bytes × ExtractReport) := do
  let raw ← extractRaw crates decoders config pow pos
  let packet ← encodePacket crates raw
  let verify ← verifyPacket crates packet
  pure (packet,
    { startEpoch := config.startEpoch
      epochCount := config.epochCount
      blockCount := verify.blockCount.toNat
      transactionCount := verify.transactionItems.toNat
      packetBytes := packet.length
      output := "" })

variable (fate : String → Fate) (config : ExtractConfig)

/-- The report, and what is written to the output. -/
def Databases.toFile (output : String) : Result (ExtractReport × Bytes) := do
  let (packet, report) ← Databases.encoded crates decoders pow pos config
  ensure (fate output).isWritten s!"write packet {output}"
  pure ({ report with output }, packet)

def runShardTask (task : ShardTask) : Result (ExtractReport × Bytes) := do
  let endEpoch ← task.endEpoch crates.toProfile
  let shardConfig := config.withRange task.startEpoch task.epochCount
  context s!"extract shard {task.startEpoch.toNat}..={endEpoch.toNat}"
    (Databases.toFile crates decoders pow pos fate shardConfig task.output)

/-- What is left of the file of a shard that has failed. -/
def tornFile (task : ShardTask) : Option File := do
  let _ ← (task.endEpoch crates.toProfile).toOption
  let shardConfig := config.withRange task.startEpoch task.epochCount
  let (packet, _) ← (Databases.encoded crates decoders pow pos shardConfig).toOption
  let bytes ← (fate task.output).left packet
  pure (task.output, bytes)

/-- The pool of `extract-shards`. -/
abbrev ShardPool := Pool ShardTask (ExtractReport × Bytes) Failure

def runShards (tasks : List ShardTask) (jobs : ℕ) : ShardPool :=
  WorkerPool.start tasks (min jobs tasks.length)

/-- A thread that panics takes the command with it. -/
def panicked : Failure → Bool
  | .error _ => false
  | .panic | .overflow => true

/-- The reports in the order of their first epochs, or an error. -/
def shardReports (p : ShardPool) : Result (List ExtractReport) := do
  let reports ← WorkerPool.collect panicked p.workers
  pure ((reports.map Prod.fst).insertionSort fun a b => a.startEpoch ≤ b.startEpoch)

/-- The file of a shard. -/
def shardFile (o : ShardTask × (ExtractReport × Bytes)) : File := (o.1.output, o.2.2)

/-- The files of the shards that were extracted, and what is left of others. -/
def shardFiles (p : ShardPool) : List File :=
  p.sent.map shardFile ++
    (p.workers.filterMap Worker.failedOn).filterMap (tornFile crates decoders pow pos fate config)

end Workers

/-- The files of a directory. -/
abbrev Folder := Replacement.Files String UInt8

/-- The directory with more files. -/
def directory (files : Folder) (written : List File) : Folder :=
  written.foldl (fun files file => Function.update files file.1 (some file.2)) files

/-! ## The tasks -/

/-- The digits of a number end at a dash. -/
theorem takeWhile_digits_dash (n : ℕ) (rest : List Char) :
    (Nat.toDigits 10 n ++ '-' :: rest).takeWhile Char.isDigit = Nat.toDigits 10 n := by
  have hdigits : ∀ c ∈ Nat.toDigits 10 n, c.isDigit := fun c hc =>
    Nat.isDigit_of_mem_toDigits (by omega) (by omega) hc
  rw [List.takeWhile_append_of_pos hdigits]
  simp [Char.isDigit]

/-- Shards with different first epochs are different files. -/
theorem startEpoch_eq_of_shardPath {startEpoch endEpoch startEpoch' endEpoch' : UInt64}
    (h : shardPath startEpoch endEpoch = shardPath startEpoch' endEpoch') :
    startEpoch = startEpoch' := by
  have hlist := congrArg String.toList h
  have hdash : (toString "-").toList = ['-'] := rfl
  simp only [shardPath, String.toList_append, List.append_assoc, hdash, List.nil_append,
    List.cons_append, Nat.toString_eq_repr, Nat.toList_repr] at hlist
  have hdigits : Nat.toDigits 10 startEpoch.toNat = Nat.toDigits 10 startEpoch'.toNat := by
    have htake := congrArg (List.takeWhile Char.isDigit) hlist
    rwa [takeWhile_digits_dash, takeWhile_digits_dash] at htake
  apply UInt64.toNat_inj.mp
  rw [← Nat.ofDigitChars_ten_toDigits (n := startEpoch.toNat), hdigits,
    Nat.ofDigitChars_ten_toDigits]

/-- The task of a shard. -/
def shardAt (startEpoch epochCount shardEpochs : UInt64) (i : ℕ) : ShardTask :=
  let group := taskAt startEpoch epochCount shardEpochs i
  ⟨group.startEpoch, group.epochCount,
    shardPath group.startEpoch (group.startEpoch + group.epochCount - 1)⟩

section Tasks

variable (profile : Profile) {startEpoch epochCount shardEpochs : UInt64}

theorem shardTask_eq {i : ℕ} (hi : i * shardEpochs.toNat < epochCount.toNat)
    (hshard : 0 < shardEpochs) (hsum : startEpoch.toNat + epochCount.toNat < UInt64.size) :
    shardTask profile startEpoch epochCount shardEpochs (UInt64.ofNat i) =
      .ok (shardAt startEpoch epochCount shardEpochs i) := by
  obtain ⟨hstart, hlen⟩ := span_taskAt hi hshard hsum
  have hpos : 0 < shardEpochs.toNat := hshard
  -- the shard ends before the range does
  have hfits : (taskAt startEpoch epochCount shardEpochs i).startEpoch.toNat +
      (taskAt startEpoch epochCount shardEpochs i).epochCount.toNat < UInt64.size := by omega
  have hone : 1 ≤ (taskAt startEpoch epochCount shardEpochs i).startEpoch +
      (taskAt startEpoch epochCount shardEpochs i).epochCount := by
    rw [UInt64.le_iff_toNat_le, UInt64.toNat_add, Nat.mod_eq_of_lt hfits, UInt64.toNat_one]
    omega
  unfold shardTask endEpochOf
  rw [packTask_eq profile hi hshard hsum, Except.ok_bind, Profile.addU64_of_lt hfits,
    Except.ok_bind, Profile.subU64_of_le hone]
  rfl

/-- **The shards** follow one another from the first epoch to the last, and their files differ. -/
theorem buildShardTasks_eq (hshard : 0 < shardEpochs)
    (hsum : startEpoch.toNat + epochCount.toNat < UInt64.size) :
    ∃ tasks, buildShardTasks profile startEpoch epochCount shardEpochs = .ok tasks ∧
      Tiles startEpoch.toNat (tasks.map fun task => (task.startEpoch.toNat, task.epochCount.toNat))
        (startEpoch.toNat + epochCount.toNat) ∧
      (tasks.Pairwise fun task task' => task.startEpoch < task'.startEpoch) ∧
      (tasks.map ShardTask.output).Nodup := by
  obtain ⟨count, hcount, -⟩ := buildPackTasks_eq profile hshard hsum
  have hne : shardEpochs ≠ 0 := fun h0 => by simp [h0] at hshard
  have htiles := tiles_taskAt hshard hsum hcount
  have hspan : ∀ i < count, 0 < (taskAt startEpoch epochCount shardEpochs i).epochCount.toNat := by
    intro i hi
    obtain ⟨-, hlen⟩ := span_taskAt ((hcount i).mp hi) hshard hsum
    have hpos : 0 < shardEpochs.toNat := hshard
    have hlt := (hcount i).mp hi
    omega
  have hascend : ((List.range count).map (shardAt startEpoch epochCount shardEpochs)).Pairwise
      fun task task' => task.startEpoch < task'.startEpoch := by
    have hpairwise := htiles.pairwise
    rw [List.pairwise_map] at hpairwise ⊢
    refine hpairwise.imp_of_mem fun {i j} hi _ hle => ?_
    have hpos := hspan i (List.mem_range.mp hi)
    rw [UInt64.lt_iff_toNat_lt]
    exact (Nat.lt_add_of_pos_right hpos).trans_le hle
  refine ⟨(List.range count).map (shardAt startEpoch epochCount shardEpochs), ?_, ?_, hascend, ?_⟩
  · obtain ⟨count', hcount'⟩ : ∃ count', divCeil epochCount shardEpochs = .ok count' := by
      unfold divCeil
      rw [if_neg hne]
      exact ⟨_, rfl⟩
    have hsame : count'.toNat = count := by
      refine Nat.le_antisymm (Nat.not_lt.mp fun hlt => ?_) (Nat.not_lt.mp fun hlt => ?_)
      · exact lt_irrefl _ ((hcount count).mpr ((lt_divCeil hcount' count).mp hlt))
      · exact lt_irrefl _ ((lt_divCeil hcount' _).mpr ((hcount _).mp hlt))
    rw [buildShardTasks, hcount', Except.ok_bind, hsame]
    exact mapM_eq_ok fun i hi => shardTask_eq profile ((hcount i).mp (List.mem_range.mp hi)) hshard hsum
  · rw [List.map_map]
    exact htiles
  · rw [List.map_map]
    unfold List.Nodup
    rw [List.pairwise_map] at hascend ⊢
    refine hascend.imp fun {i j} hlt heq => ?_
    have hstart : (shardAt startEpoch epochCount shardEpochs i).startEpoch =
        (shardAt startEpoch epochCount shardEpochs j).startEpoch := startEpoch_eq_of_shardPath heq
    exact absurd hlt (by rw [hstart]; exact UInt64.lt_irrefl _)

end Tasks

/-! ## What the command leaves -/

theorem insertionSort_of_ascending {reports sorted : List ExtractReport} (hperm : reports.Perm sorted)
    (hsorted : sorted.Pairwise fun a b => a.startEpoch < b.startEpoch) :
    (reports.insertionSort fun a b => a.startEpoch ≤ b.startEpoch) = sorted := by
  have hle : sorted.Pairwise fun a b => a.startEpoch ≤ b.startEpoch :=
    hsorted.imp fun h => UInt64.le_of_lt h
  have hnodup : (sorted.map ExtractReport.startEpoch).Nodup := by
    refine List.pairwise_map.mpr (hsorted.imp fun hlt heq => ?_)
    exact UInt64.ne_of_lt hlt heq
  have hinserted := (List.perm_insertionSort (fun a b => a.startEpoch ≤ b.startEpoch) reports).trans
    hperm
  refine hinserted.eq_of_pairwise (fun a b ha hb hab hba => ?_)
    (List.pairwise_insertionSort _ reports) hle
  exact List.inj_on_of_nodup_map hnodup (hinserted.subset ha) hb (UInt64.le_antisymm hab hba)

section Directory

variable (files : Folder) {written : List File}

/-- Files with different paths can be written in any order. -/
theorem directory_perm {written' : List File} (hperm : written.Perm written')
    (hnodup : (written.map Prod.fst).Nodup) : directory files written = directory files written' := by
  refine hperm.foldl_eq' (fun x hx y hy z => ?_) files
  by_cases hpath : x.1 = y.1
  · rw [List.inj_on_of_nodup_map hnodup hx hy hpath]
  · exact Function.update_comm hpath _ _ _

/-- A file is an old one, or was written. -/
theorem of_directory_eq_some {path : String} {bytes : Bytes}
    (h : directory files written path = some bytes) :
    files path = some bytes ∨ (path, bytes) ∈ written := by
  induction written using List.reverseRecOn with
  | nil => exact .inl h
  | append_singleton written file ih =>
    unfold directory at h ih
    rw [List.foldl_append, List.foldl_cons, List.foldl_nil] at h
    by_cases hpath : path = file.1
    · subst hpath
      rw [Function.update_self] at h
      obtain rfl := Option.some.inj h
      exact .inr (by simp)
    · rw [Function.update_of_ne hpath] at h
      exact (ih h).imp_right (List.mem_append_left _)

/-- What is written stays, where the paths differ. -/
theorem directory_of_mem {file : File} (hfile : file ∈ written)
    (hnodup : (written.map Prod.fst).Nodup) : directory files written file.1 = some file.2 := by
  induction written using List.reverseRecOn with
  | nil => cases hfile
  | append_singleton written file' ih =>
    unfold directory at ih ⊢
    rw [List.foldl_append, List.foldl_cons, List.foldl_nil]
    by_cases hpath : file.1 = file'.1
    · obtain rfl := List.inj_on_of_nodup_map hnodup hfile (by simp) hpath
      exact Function.update_self _ _ _
    · rw [Function.update_of_ne hpath]
      rw [List.map_append] at hnodup
      rcases List.mem_append.mp hfile with hfile | hfile
      · exact ih hfile (List.nodup_append.mp hnodup).1
      · obtain rfl := List.mem_singleton.mp hfile
        exact absurd rfl hpath

end Directory

/-! ## Two epochs in two shards -/

/-- The chain of two epochs, with the numbers of their blocks. -/
def plainShardDb : PowDb where
  get
    | .blocks, key =>
      if key.drop 32 = [epochExecutionContextSuffix] then .ok (some (plainItem (.list [.u64 5])))
      else plainTransferDb.get .blocks key
    | .epochNumbers, key => plainTransferDb.get .epochNumbers key
  rewardByPosEpoch := []

def plainShards : List ShardTask := [⟨1, 1, "1-1.cfxpkt"⟩, ⟨2, 1, "2-2.cfxpkt"⟩]

theorem buildShardTasks_plain : buildShardTasks plainCrates.toProfile plainConfig.startEpoch
    plainConfig.epochCount 1 = .ok plainShards := by decide +kernel

/-- The second shard cannot be flushed. -/
def plainFate (path : String) : Fate := if path = "2-2.cfxpkt" then .unflushed 3 else .written

/-- What a worker does with a shard of the chain. -/
abbrev plainShardWork (fate : String → Fate) : ShardTask → Result (ExtractReport × Bytes) :=
  runShardTask plainCrates plainDecoders plainShardDb plainPosDb fate plainConfig

/-- The values of a loop as a function of its inputs. -/
theorem exists_map_of_mapM {α β : Type} {f : α → Result β} {l : List α} {bs : List β}
    (h : l.mapM f = .ok bs) (default : β) :
    ∃ g : α → β, (∀ a ∈ l, f a = .ok (g a)) ∧ bs = l.map g := by
  refine ⟨fun a => (f a).toOption.getD default, ?_⟩
  have hall := mapM_eq_ok_iff.mp h
  clear h
  induction hall with
  | nil => exact ⟨by simp, rfl⟩
  | cons hround _ ih =>
    refine ⟨List.forall_mem_cons.mpr ⟨by simp [hround, Except.toOption], ih.1⟩, ?_⟩
    rw [List.map_cons, hround, ih.2]
    rfl

section Spec

variable {T : PrimitiveTypes} {crates : Crates T} {decoders : Decoders T} {pow : PowDb} {pos : PosDb}
  {fate : String → Fate} {config : ExtractConfig}

/-- What a shard that is extracted gives. -/
theorem runShardTask_eq_ok {task : ShardTask} {report : ExtractReport} {bytes : Bytes}
    (h : runShardTask crates decoders pow pos fate config task = .ok (report, bytes)) :
    report.startEpoch = task.startEpoch ∧ ∃ report', Databases.encoded crates decoders pow pos
      (config.withRange task.startEpoch task.epochCount) = .ok (bytes, report') := by
  unfold runShardTask Databases.toFile at h
  simp only [Except.bind_eq_ok, context_eq_ok, Except.pure_def, Except.ok.injEq] at h
  obtain ⟨_, -, ⟨packet, report'⟩, hencoded, _, -, heq⟩ := h
  obtain ⟨rfl, rfl⟩ := Prod.mk.inj heq
  refine ⟨?_, report', hencoded⟩
  -- the report of a packet is about the range of the configuration
  unfold Databases.encoded at hencoded
  simp only [Except.bind_eq_ok, Except.pure_def, Except.ok.injEq] at hencoded
  obtain ⟨_, -, _, -, _, -, hreport⟩ := hencoded
  obtain ⟨-, rfl⟩ := Prod.mk.inj hreport
  rfl

/-- What is left of a shard that has failed. -/
theorem tornFile_eq_some {task : ShardTask} {file : File}
    (h : tornFile crates decoders pow pos fate config task = some file) :
    file.1 = task.output ∧ ∃ packet report, Databases.encoded crates decoders pow pos
        (config.withRange task.startEpoch task.epochCount) = .ok (packet, report) ∧
      (fate task.output).left packet = some file.2 := by
  unfold tornFile at h
  obtain ⟨_, -, h⟩ := Option.bind_eq_some_iff.mp h
  obtain ⟨⟨packet, report⟩, hencoded, h⟩ := Option.bind_eq_some_iff.mp h
  obtain ⟨bytes, hleft, h⟩ := Option.bind_eq_some_iff.mp h
  obtain rfl := Option.some.inj h
  refine ⟨rfl, packet, report, ?_, hleft⟩
  cases hresult : Databases.encoded crates decoders pow pos
      (config.withRange task.startEpoch task.epochCount) with
  | error e =>
    rw [hresult] at hencoded
    cases hencoded
  | ok value =>
    rw [hresult] at hencoded
    exact congrArg Except.ok (Option.some.inj hencoded)

theorem sublist_map_filterMap {α β γ : Type} {f : α → Option β} {g : β → γ} {g' : α → γ}
    (h : ∀ a b, f a = some b → g b = g' a) (l : List α) :
    ((l.filterMap f).map g).Sublist (l.map g') := by
  induction l with
  | nil => exact .slnil
  | cons a l ih =>
    rw [List.map_cons]
    cases ha : f a with
    | none =>
      rw [List.filterMap_cons_none ha]
      exact ih.cons _
    | some b =>
      rw [List.filterMap_cons_some ha, List.map_cons, h a b ha]
      exact ih.cons_cons _

/-- The files of a run have different paths. -/
theorem nodup_shardFiles {tasks : List ShardTask} {n : ℕ} {p : ShardPool}
    (h : WorkerPool.Accounted (runShardTask crates decoders pow pos fate config) tasks n p)
    (hnodup : (tasks.map ShardTask.output).Nodup) :
    ((shardFiles crates decoders pow pos fate config p).map Prod.fst).Nodup := by
  have hpaths : ((shardFiles crates decoders pow pos fate config p).map Prod.fst).Sublist
      ((p.sent.map Prod.fst ++ p.held).map ShardTask.output) := by
    unfold shardFiles
    rw [List.map_append, List.map_append, List.map_map, List.map_map]
    refine (List.Sublist.refl _).append ?_
    refine (sublist_map_filterMap (fun task file htorn => (tornFile_eq_some htorn).1) _).trans ?_
    exact (WorkerPool.sublist_held p.workers).map _
  obtain ⟨held, hperm, hsub⟩ := h.subperm
  have hheld : (held.map ShardTask.output).Nodup := hnodup.sublist (hsub.map _)
  exact ((hperm.map ShardTask.output).nodup_iff.mp hheld).sublist hpaths

/-- A file of a run is the beginning of the packet of its shard, and the whole packet where it could
be written. -/
theorem mem_shardFiles {tasks : List ShardTask} {n : ℕ} {p : ShardPool}
    (h : WorkerPool.Accounted (runShardTask crates decoders pow pos fate config) tasks n p)
    {path : String} {bytes : Bytes}
    (hmem : (path, bytes) ∈ shardFiles crates decoders pow pos fate config p) :
    ∃ task ∈ tasks, task.output = path ∧ ∃ packet report,
      Databases.encoded crates decoders pow pos
        (config.withRange task.startEpoch task.epochCount) = .ok (packet, report) ∧
      bytes <+: packet ∧ ((fate path).isWritten → bytes = packet) := by
  rcases List.mem_append.mp hmem with hmem | hmem
  -- a whole packet
  · obtain ⟨o, ho, heq⟩ := List.mem_map.mp hmem
    obtain ⟨rfl, rfl⟩ := Prod.mk.inj heq
    obtain ⟨-, report, hencoded⟩ := runShardTask_eq_ok (h.sent o ho)
    exact ⟨o.1, h.sent_mem ho, rfl, o.2.2, report, hencoded, List.prefix_rfl, fun _ => rfl⟩
  -- what is left of one
  · obtain ⟨task, hfailed, htorn⟩ := List.mem_filterMap.mp hmem
    obtain ⟨hpath, packet, report, hencoded, hleft⟩ := tornFile_eq_some htorn
    obtain ⟨worker, hworker, hon⟩ := List.mem_filterMap.mp hfailed
    have htask : task ∈ tasks := by
      cases worker with
      | failed task' e =>
        obtain rfl := Option.some.inj hon
        exact (h.failed_mem hworker).1
      | _ => cases hon
    obtain rfl : path = task.output := hpath
    exact ⟨task, htask, rfl, packet, report, hencoded, Fate.prefix_of_left hleft⟩

variable (crates decoders pow pos fate config)

/-- **The order of the workers does not matter.** The shards follow one another from the first epoch
to the last. A run of any number of workers comes to an end, whatever the order of its steps and
whatever shards fail. When every shard can be extracted, it leaves the files and the reports of a
plain loop over the shards. -/
theorem extractShards_spec (shardEpochs : UInt64) (jobs : ℕ) (files : Folder)
    (hshard : 0 < shardEpochs) (hjobs : 0 < jobs)
    (hsum : config.startEpoch.toNat + config.epochCount.toNat < UInt64.size) :
    ∃ tasks,
      buildShardTasks crates.toProfile config.startEpoch config.epochCount shardEpochs = .ok tasks ∧
      Tiles config.startEpoch.toNat
        (tasks.map fun task => (task.startEpoch.toNat, task.epochCount.toNat))
        (config.startEpoch.toNat + config.epochCount.toNat) ∧
      ∀ schedule p,
        WorkerPool.run (runShardTask crates decoders pow pos fate config)
          (runShards tasks jobs) schedule = some p →
        schedule.length ≤ 2 * tasks.length + min jobs tasks.length ∧
        (p.Stopped ∨ ∃ i p', WorkerPool.advance
          (runShardTask crates decoders pow pos fate config) p i = some p') ∧
        ∀ done, tasks.mapM (runShardTask crates decoders pow pos fate config) = .ok done →
          p.Stopped → shardReports p = .ok (done.map Prod.fst) ∧
            directory files (shardFiles crates decoders pow pos fate config p) =
              directory files ((tasks.zip done).map shardFile) := by
  obtain ⟨tasks, htasks, htiles, hascend, hnodup⟩ := buildShardTasks_eq crates.toProfile hshard hsum
  refine ⟨tasks, htasks, htiles, fun schedule p hrun => ?_⟩
  obtain ⟨hbounded, hends⟩ := WorkerPool.ends_of_run hrun
  obtain ⟨hreachable, hup⟩ := WorkerPool.reachable_of_run hrun
  have haccounted := hreachable.accounted
  refine ⟨hbounded, hends, fun done hdone hstopped => ?_⟩
  obtain ⟨f, hf, rfl⟩ := exists_map_of_mapM hdone (⟨0, 0, 0, 0, 0, ""⟩, [])
  have hworkers : tasks ≠ [] → 0 < min jobs tasks.length := fun hne =>
    lt_min hjobs (List.length_pos_of_ne_nil hne)
  obtain ⟨results, hcollect, hsent, hresults⟩ :=
    haccounted.collect_eq_ok panicked hstopped hup hworkers hf
  constructor
  -- the reports are sorted by the epochs of their shards
  · unfold shardReports
    rw [hcollect, Except.ok_bind]
    refine congrArg Except.ok (insertionSort_of_ascending (hresults.map Prod.fst) ?_)
    rw [List.map_map, List.pairwise_map]
    refine hascend.imp_of_mem fun {task task'} htask htask' hlt => ?_
    rw [Function.comp_apply, Function.comp_apply, (runShardTask_eq_ok (hf task htask)).1,
      (runShardTask_eq_ok (hf task' htask')).1]
    exact hlt
  -- nothing is left of a shard that has failed, and the files have different paths
  · have hnone : p.workers.filterMap Worker.failedOn = [] := by
      refine List.filterMap_eq_nil_iff.mpr fun worker hmem => ?_
      cases worker with
      | failed task e =>
        obtain ⟨htask, herror⟩ := haccounted.failed_mem hmem
        cases (hf task htask).symm.trans herror
      | _ => rfl
    have hpaths := nodup_shardFiles haccounted hnodup
    unfold shardFiles at hpaths ⊢
    rw [hnone, List.filterMap_nil, List.append_nil] at hpaths ⊢
    rw [← List.map_prod_left_eq_zip]
    exact directory_perm files (hsent.map shardFile) hpaths

theorem exists_of_plainShards {fate : String → Fate} {done : List (ExtractReport × Bytes)}
    (h : plainShards.mapM (plainShardWork fate) = .ok done) :
    ∃ first second, plainShardWork fate ⟨1, 1, "1-1.cfxpkt"⟩ = .ok first ∧
      plainShardWork fate ⟨2, 1, "2-2.cfxpkt"⟩ = .ok second := by
  obtain ⟨f, hf, -⟩ := exists_map_of_mapM h (⟨0, 0, 0, 0, 0, ""⟩, [])
  exact ⟨_, _, hf _ (by simp [plainShards]), hf _ (by simp [plainShards])⟩

/-- Two epochs are extracted by two workers, which take turns. -/
theorem extractShards_spec_two :
    ∃ done p, plainShards.mapM (plainShardWork fun _ => .written) = .ok done ∧
      WorkerPool.run (plainShardWork fun _ => .written) (runShards plainShards 2)
        [0, 1, 0, 1, 0, 1] = some p ∧
      p.Stopped ∧ shardReports p = .ok (done.map Prod.fst) ∧
      directory (fun _ => none) (shardFiles plainCrates plainDecoders plainShardDb plainPosDb
          (fun _ => .written) plainConfig p) =
        directory (fun _ => none) ((plainShards.zip done).map shardFile) := by
  have hok : (plainShards.mapM (plainShardWork fun _ => .written)).isOk = true := by decide +kernel
  obtain ⟨tasks, htasks, -, hspec⟩ := extractShards_spec plainCrates plainDecoders plainShardDb
    plainPosDb (fun _ => .written) plainConfig 1 2 (fun _ => none) (by decide) (by decide) (by decide)
  obtain rfl := Except.ok.inj (buildShardTasks_plain.symm.trans htasks)
  cases hdone : plainShards.mapM (plainShardWork fun _ => .written) with
  | error e => simp [hdone, Except.isOk, Except.toBool] at hok
  | ok done =>
    obtain ⟨first, second, hfirst, hsecond⟩ := exists_of_plainShards hdone
    obtain ⟨p, hrun, hstopped⟩ : ∃ p, WorkerPool.run (plainShardWork fun _ => .written)
        (runShards plainShards 2) [0, 1, 0, 1, 0, 1] = some p ∧ p.Stopped := by
      simp [WorkerPool.run, WorkerPool.advance, WorkerPool.start, Pool.put, Pool.Stopped,
        Worker.hasStopped, runShards, plainShards, hfirst, hsecond]
    obtain ⟨-, -, hresult⟩ := hspec _ p hrun
    exact ⟨done, p, rfl, hrun, hstopped, hresult done hdone hstopped⟩

/-- **What is left when shards fail.** Every run comes to an end. The error is that of a shard that
fails. As many workers fail as there are such shards, or all of them. Every file is an old one or the
beginning of the packet of its shard, and the whole packet unless it could not be written. As long as
a worker is left, every shard that can be extracted is. -/
theorem extractShards_failed (shardEpochs : UInt64) (jobs : ℕ) (files : Folder)
    (hshard : 0 < shardEpochs) (hjobs : 0 < jobs)
    (hsum : config.startEpoch.toNat + config.epochCount.toNat < UInt64.size) :
    ∃ tasks,
      buildShardTasks crates.toProfile config.startEpoch config.epochCount shardEpochs = .ok tasks ∧
      ∀ schedule p,
        WorkerPool.run (runShardTask crates decoders pow pos fate config)
          (runShards tasks jobs) schedule = some p →
        schedule.length ≤ 2 * tasks.length + min jobs tasks.length ∧
        (p.Stopped ∨ ∃ i p', WorkerPool.advance
          (runShardTask crates decoders pow pos fate config) p i = some p') ∧
        (p.Stopped →
        ∀ task ∈ tasks, ∀ e, runShardTask crates decoders pow pos fate config task = .error e →
          (∃ task' ∈ tasks, ∃ e',
            runShardTask crates decoders pow pos fate config task' = .error e' ∧
              shardReports p = .error e') ∧
          p.workers.countP Worker.hasFailed = min (min jobs tasks.length)
            (tasks.countP (WorkerPool.fails (runShardTask crates decoders pow pos fate config))) ∧
          (∀ path bytes,
            directory files (shardFiles crates decoders pow pos fate config p) path = some bytes →
            files path = some bytes ∨
              ∃ task' ∈ tasks, task'.output = path ∧ ∃ packet report,
                Databases.encoded crates decoders pow pos
                  (config.withRange task'.startEpoch task'.epochCount) = .ok (packet, report) ∧
                bytes <+: packet ∧ ((fate path).isWritten → bytes = packet)) ∧
          (tasks.countP (WorkerPool.fails (runShardTask crates decoders pow pos fate config)) <
              min jobs tasks.length →
            ∀ task' ∈ tasks, ∀ report bytes,
              runShardTask crates decoders pow pos fate config task' = .ok (report, bytes) →
                directory files (shardFiles crates decoders pow pos fate config p) task'.output =
                  some bytes)) := by
  obtain ⟨tasks, htasks, -, -, hnodup⟩ := buildShardTasks_eq crates.toProfile hshard hsum
  refine ⟨tasks, htasks, fun schedule p hrun => ?_⟩
  obtain ⟨hbounded, hends⟩ := WorkerPool.ends_of_run hrun
  refine ⟨hbounded, hends, fun hstopped task htask e hwork => ?_⟩
  obtain ⟨hreachable, hup⟩ := WorkerPool.reachable_of_run hrun
  have haccounted := hreachable.accounted
  have hpaths := nodup_shardFiles haccounted hnodup
  have hworkers : tasks ≠ [] → 0 < min jobs tasks.length := fun hne =>
    lt_min hjobs (List.length_pos_of_ne_nil hne)
  refine ⟨?_, haccounted.card_failed hstopped hup, ?_, ?_⟩
  · obtain ⟨task', htask', e', hwork', hcollect⟩ :=
      haccounted.collect_eq_error panicked hstopped hup hworkers htask hwork
    refine ⟨task', htask', e', hwork', ?_⟩
    unfold shardReports
    rw [hcollect]
    rfl
  · intro path bytes hpath
    exact (of_directory_eq_some files hpath).imp_right (mem_shardFiles haccounted)
  · intro hlt task' htask' report bytes hwork'
    have hperm := haccounted.sent_perm_of_lt hstopped hup hlt
    -- the shard is among those that are sent
    have hmem : task' ∈ p.sent.map Prod.fst := by
      refine hperm.symm.subset (List.mem_filter.mpr ⟨htask', ?_⟩)
      unfold WorkerPool.fails
      rw [hwork']
      rfl
    obtain ⟨o, ho, rfl⟩ := List.mem_map.mp hmem
    have hbytes := Except.ok.inj ((haccounted.sent o ho).symm.trans hwork')
    have hfile : shardFile o ∈ shardFiles crates decoders pow pos fate config p :=
      List.mem_append_left _ (List.mem_map_of_mem ho)
    rw [show o.1.output = (shardFile o).1 from rfl, directory_of_mem files hfile hpaths]
    exact congrArg (fun r => some r.2) hbytes

/-- One of two shards fails, and the other one is extracted. -/
theorem extractShards_failed_two :
    ∃ p, WorkerPool.run (plainShardWork plainFate) (runShards plainShards 2) [0, 1, 0, 1, 0] =
        some p ∧
      p.Stopped ∧
      (∃ task ∈ plainShards, ∃ e, plainShardWork plainFate task = .error e ∧
        shardReports p = .error e) ∧
      p.workers.countP Worker.hasFailed =
        min 2 (plainShards.countP (WorkerPool.fails (plainShardWork plainFate))) ∧
      ∃ report bytes, plainShardWork plainFate ⟨1, 1, "1-1.cfxpkt"⟩ = .ok (report, bytes) ∧
        directory (fun _ => none) (shardFiles plainCrates plainDecoders plainShardDb plainPosDb
          plainFate plainConfig p) "1-1.cfxpkt" = some bytes := by
  have hfails : (plainShardWork plainFate ⟨2, 1, "2-2.cfxpkt"⟩).isOk = false := by decide +kernel
  have hok : (plainShardWork plainFate ⟨1, 1, "1-1.cfxpkt"⟩).isOk = true := by decide +kernel
  obtain ⟨tasks, htasks, hspec⟩ := extractShards_failed plainCrates plainDecoders plainShardDb
    plainPosDb plainFate plainConfig 1 2 (fun _ => none) (by decide) (by decide) (by decide)
  obtain rfl := Except.ok.inj (buildShardTasks_plain.symm.trans htasks)
  cases hsecond : plainShardWork plainFate ⟨2, 1, "2-2.cfxpkt"⟩ with
  | ok r => simp [hsecond, Except.isOk, Except.toBool] at hfails
  | error e =>
    cases hfirst : plainShardWork plainFate ⟨1, 1, "1-1.cfxpkt"⟩ with
    | error e => simp [hfirst, Except.isOk, Except.toBool] at hok
    | ok r =>
      obtain ⟨p, hrun, hstopped⟩ : ∃ p, WorkerPool.run (plainShardWork plainFate)
          (runShards plainShards 2) [0, 1, 0, 1, 0] = some p ∧ p.Stopped := by
        simp [WorkerPool.run, WorkerPool.advance, WorkerPool.start, Pool.put, Pool.Stopped,
          Worker.hasStopped, runShards, plainShards, hfirst, hsecond]
      have hlt : plainShards.countP (WorkerPool.fails (plainShardWork plainFate)) <
          min 2 plainShards.length := by
        simp [plainShards, WorkerPool.fails, hfirst, hsecond]
      obtain ⟨-, -, hresult⟩ := hspec _ p hrun
      obtain ⟨hreports, hcount, -, hfiles⟩ :=
        hresult hstopped ⟨2, 1, "2-2.cfxpkt"⟩ (by simp [plainShards]) e hsecond
      exact ⟨p, hrun, hstopped, hreports, hcount, r.1, r.2, rfl,
        hfiles hlt ⟨1, 1, "1-1.cfxpkt"⟩ (by simp [plainShards]) r.1 r.2 hfirst⟩

end Spec

end Extractor
