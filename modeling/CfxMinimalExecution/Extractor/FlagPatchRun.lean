import CfxMinimalExecution.Extractor.FileNames
import CfxMinimalExecution.Extractor.FlagPatchReport
import CfxMinimalExecution.Library.Fallible
import CfxMinimalExecution.Library.Replacement

/-!
# The run of the flag patcher

`add_total_reward_flag` patches the containers of a directory, in the order of their start epochs,
while a second thread reports the progress until it is told that the patcher has finished. A read,
a patch or a write may fail, and the process may be killed inside a write. The containers hold any
bytes.

## Main definitions

* `writePatchedFile`, `patchFile`: the replacement of a container, and a round of the patcher
* `PatchRun`: the patcher and the monitor; `PatchRun.advance`: the next step of either
* `PatchRun.returned`: what the command returns, once both have ended
* `PatchHistory`: the directories behind any number of runs

## Main results

* `patchRun_files`: the files at any point of a run
* `patchRun_returns_iff`: exactly when a run can return at all, and what it returns
* `patchHistory_files`: any sequence of runs, interrupted ones among them
-/

namespace Extractor

open Cfxpack
open Fallible (exec)
open Replacement (Progress replace)

/-! ## Files -/

/-- A name with `.tmp` behind it. -/
def tmpPath : FileName → FileName
  | .utf8 name => .utf8 (name ++ ".tmp".toList)
  | .other name => .other (name ++ ".tmp".toUTF8.toList)

/-- The bytes of a name, by which names are sorted. -/
def nameBytes : FileName → Bytes
  | .utf8 name => (String.ofList name).toUTF8.toList
  | .other name => name

/-- The files of a directory. -/
abbrev PackFiles := Replacement.Files FileName UInt8

/-- What becomes of a container: it cannot be read, or its replacement stops. -/
inductive PatchFate
  | written
  | unread
  | stopped (progress : Progress) (e : String)

/-- The blocks that each worker claims, of those of a container. -/
structure PatchSchedule where
  claimed : FileName → ℕ → List (List ℕ)
  perm : ∀ path n, (claimed path n).flatten.Perm (List.range n)

structure FlagPatchSummary where
  filesScanned : ℕ
  filesChanged : ℕ
  blocksTotal : ℕ
  blocksFlagged : ℕ
  bytesRewritten : ℕ
  changedFiles : List FileName
deriving DecidableEq

namespace FlagPatchSummary

def default : FlagPatchSummary := ⟨0, 0, 0, 0, 0, []⟩

/-- A container is counted. -/
def add (summary : FlagPatchSummary) (dryRun : Bool) (path : FileName) (patched : Patched) :
    FlagPatchSummary where
  filesScanned := summary.filesScanned + 1
  filesChanged := if patched.changed then summary.filesChanged + 1 else summary.filesChanged
  blocksTotal := summary.blocksTotal + patched.blocksSeen
  blocksFlagged := summary.blocksFlagged + patched.blocksFlagged
  bytesRewritten :=
    if patched.changed && !dryRun then summary.bytesRewritten + patched.data.length
    else summary.bytesRewritten
  changedFiles := if patched.changed then summary.changedFiles ++ [path] else summary.changedFiles

/-- The changed files are sorted in the end. -/
def sorted (summary : FlagPatchSummary) : FlagPatchSummary :=
  { summary with
    changedFiles := summary.changedFiles.insertionSort fun a b => nameBytes a ≤ nameBytes b }

end FlagPatchSummary

/-! ## The patcher -/

section Patcher

/-- The databases, the scheduler, and the file system as a run meets them. -/
structure PatchWorld where
  profile : Profile
  readReward : H256 → Result (Option U256)
  schedule : PatchSchedule
  fate : FileName → PatchFate
  display : FileName → String

variable (world : PatchWorld) (dryRun : Bool)

/-- The patch of a container, with the blocks that the workers claim. -/
def PatchWorld.patch (path : FileName) (data : Bytes) : Result Patched := do
  let sites ← collectSites world.profile data
  patchContainerBytes world.profile world.readReward (world.schedule.claimed path sites.length) data

def PatchWorld.read (path : FileName) (disk : PackFiles) : Result Bytes :=
  match world.fate path with
  | .unread => throw (.error s!"read {world.display path}")
  | _ => okOr s!"read {world.display path}" (disk path)

def writePatchedFile (path : FileName) (data : Bytes) : Fallible Failure PackFiles PUnit :=
  match world.fate path with
  | .stopped progress e => do
    modify fun disk => replace (tmpPath path) path data disk progress
    throw (.error e)
  | _ => modify fun disk => replace (tmpPath path) path data disk .renamed

/-- A round of the loop over the files. -/
def patchFile (summary : FlagPatchSummary) (path : FileName) :
    Fallible Failure PackFiles FlagPatchSummary := do
  let disk ← getThe PackFiles
  let data ← world.read path disk
  let patched ← context s!"patch {world.display path}" (world.patch path data)
  if patched.changed && !dryRun then
    writePatchedFile world path patched.data
  pure (summary.add dryRun path patched)

end Patcher

/-! ## The run -/

structure PatchOptions where
  dir : String
  dryRun : Bool
  maxEpoch : Option UInt64
  minEpoch : Option UInt64

/-- The thread of the patcher. -/
inductive PatchThread
  | patching (files : List FileName) (summary : FlagPatchSummary)
  | ended (result : Result FlagPatchSummary)

/-- The files, the patcher, the flag that it sets in the end, and whether the monitor runs. -/
structure PatchRun where
  disk : PackFiles
  patcher : PatchThread
  finished : Bool
  monitoring : Bool

inductive PatchActor
  | patcher
  | monitor

namespace PatchRun

/-- The run over the files that are selected. -/
def start (options : PatchOptions) (names : List FileName) (disk : PackFiles) : Result PatchRun := do
  let files ← collectSortedPackFiles options.dir names options.maxEpoch options.minEpoch
  pure ⟨disk, .patching files .default, false, true⟩

/-- The patcher leaves its scope on an error, without setting the flag. The monitor sleeps, and goes
on unless the flag is set. -/
def advance (world : PatchWorld) (dryRun : Bool) (p : PatchRun) : PatchActor → Option PatchRun
  | .patcher =>
    match p.patcher with
    | .ended _ => none
    | .patching [] summary => some { p with patcher := .ended (.ok summary), finished := true }
    | .patching (path :: files) summary =>
      match exec (patchFile world dryRun summary path) p.disk with
      | (.ok summary, disk) => some { p with disk, patcher := .patching files summary }
      | (.error e, disk) => some { p with disk, patcher := .ended (.error e) }
  | .monitor => if p.monitoring then some { p with monitoring := !p.finished } else none

def run (world : PatchWorld) (dryRun : Bool) (p : PatchRun) (schedule : List PatchActor) :
    Option PatchRun :=
  schedule.foldlM (advance world dryRun) p

/-- What the command returns: the scope waits for the monitor as well. -/
def returned (p : PatchRun) : Option (Result FlagPatchSummary) :=
  match p.patcher, p.monitoring with
  | .ended result, false => some (result.map FlagPatchSummary.sorted)
  | _, _ => none

end PatchRun

/-! ## Names of temporary files -/

theorem extension_append_of_mem {α : Type} [DecidableEq α] {dot : α} {before after ext : List α}
    (hafter : dot ∉ after) (h : extension dot (before ++ dot :: after) = some ext) : ext = after := by
  by_cases hbefore : before = []
  · subst hbefore
    unfold extension at h
    rw [List.nil_append, List.reverse_cons] at h
    have hreversed : dot ∉ after.reverse := by rwa [List.mem_reverse]
    obtain ⟨-, hdrop⟩ := takeWhile_dropWhile_append_cons hreversed []
    rw [hdrop] at h
    cases h
  · rw [extension_append hbefore hafter] at h
    exact (Option.some.inj h).symm

/-- A temporary file is not taken for a container. -/
theorem not_hasPackExtension_tmpPath (path : FileName) : hasPackExtension (tmpPath path) = false := by
  rw [Bool.eq_false_iff]
  intro hext
  cases path with
  | utf8 name =>
    have hdot : '.' ∉ "tmp".toList := by decide
    have hext' : extension '.' (name ++ '.' :: "tmp".toList) = some "cfxpack".toList :=
      of_decide_eq_true hext
    have hne := extension_append_of_mem hdot hext'
    revert hne
    decide
  | other name =>
    have hsuffix : ".tmp".toUTF8.toList = 0x2e :: "tmp".toUTF8.toList := by decide +kernel
    have hdot : (0x2e : UInt8) ∉ "tmp".toUTF8.toList := by decide +kernel
    have hext' : extension 0x2e (name ++ ".tmp".toUTF8.toList) =
        some ("cfxpack".toList.map fun c => UInt8.ofNat c.toNat) := of_decide_eq_true hext
    rw [hsuffix] at hext'
    have hne := extension_append_of_mem hdot hext'
    revert hne
    decide +kernel

theorem tmpPath_ne {path path' : FileName} (h : hasPackExtension path) : path ≠ tmpPath path' := by
  rintro rfl
  rw [not_hasPackExtension_tmpPath] at h
  cases h

/-! ## A round -/

section Archive

variable {T : PrimitiveTypes} {crates : Crates T} {readReward : H256 → Result (Option U256)}
  {profile : Profile} {data : Bytes}

theorem Patchable.world_patch {world : PatchWorld}
    (h : Patchable world.profile world.readReward data) (path : FileName) :
    world.patch path data = .ok (patchedOf world.profile world.readReward data) := by
  obtain ⟨sites, hsites, hpatch⟩ := h.patch_eq_ok
  unfold PatchWorld.patch
  rw [hsites]
  exact hpatch _ (world.schedule.perm path sites.length)

theorem world_patch_eq_error {world : PatchWorld}
    (h : ¬ Patchable world.profile world.readReward data) (path : FileName) :
    ∃ e, world.patch path data = .error e := by
  cases hpatch : world.patch path data with
  | error e => exact ⟨e, rfl⟩
  | ok patched =>
    obtain ⟨sites, hsites, hpatched⟩ := Except.bind_eq_ok.mp hpatch
    exact absurd (patchable_of_patch_eq_ok hsites (world.schedule.perm path sites.length) hpatched) h

/-- A container of encoded packets, whose blocks have rewards to read. -/
def Archive (crates : Crates T) (readReward : H256 → Result (Option U256)) (data : Bytes) : Prop :=
  ∃ packets, ArchiveOf crates packets data ∧
    ∀ packet ∈ packets, ∀ block ∈ packet.blocks, ∃ reward, readReward block.hash = .ok reward

/-- A container of packets that can be patched has rewards to read. -/
theorem ArchiveOf.archive {packets : List (Packet T)} (h : ArchiveOf crates packets data)
    (hpatchable : Patchable profile readReward data) : Archive crates readReward data := by
  obtain ⟨sites, hsites, hhashes⟩ := @ArchiveOf.exists_sites _ _ profile _ _ h
  obtain ⟨sites', hsites', hreads⟩ := hpatchable
  obtain rfl := Except.ok.inj (hsites.symm.trans hsites')
  refine ⟨packets, h, fun packet hpacket block hblock => ?_⟩
  have hmem : block.hash ∈ sites.map (·.2) := by
    rw [hhashes]
    exact List.mem_map_of_mem (List.mem_flatMap.mpr ⟨packet, hpacket, hblock⟩)
  obtain ⟨site, hsite, heq⟩ := List.mem_map.mp hmem
  exact heq ▸ hreads site hsite

/-- A patched container is one again. -/
theorem Archive.patched (h : Archive crates readReward data) :
    Archive crates readReward (patchedOf profile readReward data).data := by
  obtain ⟨packets, harchive, hreads⟩ := h
  obtain ⟨-, -, hpatched, -, -⟩ := @ArchiveOf.patch _ _ profile _ _ _ harchive hreads
  refine ⟨_, hpatched, fun packet hpacket block hblock => ?_⟩
  obtain ⟨packet', hpacket', rfl⟩ := List.mem_map.mp hpacket
  obtain ⟨block', hblock', rfl⟩ := List.mem_map.mp hblock
  exact hreads packet' hpacket' block' hblock'

/-- A second patch finds nothing to change. -/
theorem Archive.patchedOf_patched (h : Archive crates readReward data) :
    patchedOf profile readReward (patchedOf profile readReward data).data =
      { patchedOf profile readReward data with changed := false } := by
  obtain ⟨packets, harchive, hreads⟩ := h
  exact (harchive.patch hreads).choose_spec.2.2.2

theorem patchedOf_data_eq (h : (patchedOf profile readReward data).changed = false) :
    (patchedOf profile readReward data).data = data := by
  unfold patchedOf at h ⊢
  split at h
  · exact not_not.mp (of_decide_eq_false h)
  · rfl

end Archive

/-! ## What a run reaches -/

section Reached

variable {world : PatchWorld} {dryRun : Bool}

variable (world) in
/-- The content of a container behind its patch. -/
def PatchWorld.flagged (data : Bytes) : Bytes :=
  (patchedOf world.profile world.readReward data).data

variable (world dryRun) in
/-- A round succeeds: the container is read and patched, and replaced if that is needed. -/
def Succeeds (disk : PackFiles) (path : FileName) : Prop :=
  ∃ data, disk path = some data ∧ Patchable world.profile world.readReward data ∧
    match world.fate path with
    | .written => True
    | .unread => False
    | .stopped _ _ =>
      dryRun = true ∨ (patchedOf world.profile world.readReward data).changed = false

variable (world dryRun) in
/-- The report on containers, from what they hold. -/
def planned (disk : PackFiles) (files : List FileName) : FlagPatchSummary :=
  files.foldl (fun summary path => summary.add dryRun path
    (patchedOf world.profile world.readReward ((disk path).getD []))) .default

/-- A container that is not read is not patched. -/
theorem exec_patchFile_unread {disk : PackFiles} {path : FileName} {e : Failure}
    (hread : world.read path disk = .error e) (summary : FlagPatchSummary) :
    exec (patchFile world dryRun summary path) disk = (.error e, disk) := by
  unfold patchFile
  rw [Fallible.exec_bind_ok (Fallible.exec_get disk), hread]
  exact Fallible.exec_bind_error (Fallible.exec_lift (.error _) disk)

/-- A patch that fails leaves the container. -/
theorem exec_patchFile_failed {disk : PackFiles} {path : FileName} {data : Bytes}
    (hread : world.read path disk = .ok data)
    (hpatchable : ¬ Patchable world.profile world.readReward data) (summary : FlagPatchSummary) :
    ∃ e, exec (patchFile world dryRun summary path) disk = (.error e, disk) := by
  obtain ⟨e, hpatch⟩ := world_patch_eq_error hpatchable path
  cases hcontext : context s!"patch {world.display path}" (world.patch path data) with
  | ok patched =>
    rw [context_eq_ok, hpatch] at hcontext
    cases hcontext
  | error e' =>
    refine ⟨e', ?_⟩
    unfold patchFile
    rw [Fallible.exec_bind_ok (Fallible.exec_get disk), hread,
      Fallible.exec_bind_ok (Fallible.exec_lift (.ok data) disk), hcontext]
    exact Fallible.exec_bind_error (Fallible.exec_lift (.error _) disk)

/-- A container that is read is patched, and then replaced. -/
theorem exec_patchFile {disk : PackFiles} {path : FileName} {data : Bytes}
    (hread : world.read path disk = .ok data)
    (hpatchable : Patchable world.profile world.readReward data) (summary : FlagPatchSummary) :
    exec (patchFile world dryRun summary path) disk =
      exec (do
        if (patchedOf world.profile world.readReward data).changed && !dryRun then
          writePatchedFile world path (world.flagged data)
        pure (summary.add dryRun path (patchedOf world.profile world.readReward data)) :
          Fallible Failure PackFiles FlagPatchSummary) disk := by
  have hpatch : context s!"patch {world.display path}" (world.patch path data) =
      .ok (patchedOf world.profile world.readReward data) :=
    context_eq_ok.mpr (hpatchable.world_patch path)
  unfold patchFile
  rw [Fallible.exec_bind_ok (Fallible.exec_get disk), hread,
    Fallible.exec_bind_ok (Fallible.exec_lift (.ok data) disk), hpatch,
    Fallible.exec_bind_ok (Fallible.exec_lift (.ok _) disk)]
  rfl

theorem PatchWorld.read_eq_ok {disk : PackFiles} {path : FileName} {data : Bytes} :
    world.read path disk = .ok data ↔ world.fate path ≠ .unread ∧ disk path = some data := by
  unfold PatchWorld.read
  split
  · next hunread => simp [hunread]
  · next hread => rw [okOr_eq_ok, and_iff_right hread]

/-- **A round of the patcher.** -/
theorem patchFile_cases (world : PatchWorld) (dryRun : Bool) (disk : PackFiles) (path : FileName)
    (summary : FlagPatchSummary) :
    (¬ Succeeds world dryRun disk path ∧
      ∃ e, exec (patchFile world dryRun summary path) disk = (.error e, disk)) ∨
    ∃ data, disk path = some data ∧ Patchable world.profile world.readReward data ∧
      ((Succeeds world dryRun disk path ∧
        ((patchedOf world.profile world.readReward data).changed && !dryRun) = false ∧
        exec (patchFile world dryRun summary path) disk =
          (.ok (summary.add dryRun path (patchedOf world.profile world.readReward data)), disk)) ∨
      (Succeeds world dryRun disk path ∧ dryRun = false ∧
        exec (patchFile world dryRun summary path) disk =
          (.ok (summary.add dryRun path (patchedOf world.profile world.readReward data)),
            replace (tmpPath path) path (world.flagged data) disk .renamed)) ∨
      (¬ Succeeds world dryRun disk path ∧ dryRun = false ∧
        ∃ progress e, exec (patchFile world dryRun summary path) disk = (.error (.error e),
          replace (tmpPath path) path (world.flagged data) disk progress))) := by
  cases hread : world.read path disk with
  | error e =>
    refine .inl ⟨?_, e, exec_patchFile_unread hread summary⟩
    rintro ⟨data, hdisk, -, hfate⟩
    have hunread : world.fate path ≠ .unread := fun hunread => by
      rw [hunread] at hfate
      exact hfate
    cases hread.symm.trans (PatchWorld.read_eq_ok.mpr ⟨hunread, hdisk⟩)
  | ok data =>
    obtain ⟨hfate, hdisk⟩ := PatchWorld.read_eq_ok.mp hread
    by_cases hpatchable : Patchable world.profile world.readReward data
    case neg =>
      refine .inl ⟨?_, exec_patchFile_failed hread hpatchable summary⟩
      rintro ⟨data', hdisk', hpatchable', -⟩
      exact hpatchable (Option.some.inj (hdisk'.symm.trans hdisk) ▸ hpatchable')
    refine .inr ⟨data, hdisk, hpatchable, ?_⟩
    rw [exec_patchFile hread hpatchable]
    cases hwrite : (patchedOf world.profile world.readReward data).changed && !dryRun with
    | false =>
      refine .inl ⟨⟨data, hdisk, hpatchable, ?_⟩, rfl, rfl⟩
      cases hfate' : world.fate path with
      | written => trivial
      | unread => exact absurd hfate' hfate
      | stopped progress e =>
        exact (Bool.and_eq_false_iff.mp hwrite).symm.imp_left fun hdry => by simpa using hdry
    | true =>
      obtain ⟨hchanged, hdry⟩ := Bool.and_eq_true_iff.mp hwrite
      have hdry : dryRun = false := by simpa using hdry
      right
      simp only [if_true]
      unfold writePatchedFile
      cases hfate' : world.fate path with
      | unread => exact absurd hfate' hfate
      | written =>
        refine .inl ⟨⟨data, hdisk, hpatchable, ?_⟩, hdry, ?_⟩
        · rw [hfate']
          trivial
        · exact Fallible.exec_bind_ok (Fallible.exec_modify _ disk)
      | stopped progress e =>
        refine .inr ⟨?_, hdry, progress, e, Fallible.exec_bind_error ?_⟩
        · rintro ⟨data', hdisk', -, hsame⟩
          obtain rfl := Option.some.inj (hdisk.symm.trans hdisk')
          rw [hfate', hdry, hchanged] at hsame
          simp at hsame
        · exact Fallible.exec_bind_ok (Fallible.exec_modify _ disk)

/-- The directory behind the patches of some of the files. -/
structure DiskAfter (world : PatchWorld) (dryRun : Bool) (disk₀ : PackFiles)
    (files done : List FileName) (disk : PackFiles) : Prop where
  patchable : ∀ path ∈ done, ∃ data, disk₀ path = some data ∧
    Patchable world.profile world.readReward data
  packs : ∀ path, hasPackExtension path →
    disk path = if dryRun = false ∧ path ∈ done then (disk₀ path).map world.flagged else disk₀ path
  others : ∀ path, hasPackExtension path = false → (∀ path' ∈ files, path ≠ tmpPath path') →
    disk path = disk₀ path
  dry : dryRun = true → disk = disk₀

/-- The states that a run over the files passes through. -/
inductive Reached (world : PatchWorld) (dryRun : Bool) (disk₀ : PackFiles) (files : List FileName) :
    PatchRun → Prop
  | patching {done rest : List FileName} {disk : PackFiles} : files = done ++ rest →
      DiskAfter world dryRun disk₀ files done disk →
      (∀ path ∈ done, Succeeds world dryRun disk₀ path) →
      Reached world dryRun disk₀ files
        ⟨disk, .patching rest (planned world dryRun disk₀ done), false, true⟩
  | ended {disk : PackFiles} {monitoring : Bool} : DiskAfter world dryRun disk₀ files files disk →
      (∀ path ∈ files, Succeeds world dryRun disk₀ path) →
      Reached world dryRun disk₀ files
        ⟨disk, .ended (.ok (planned world dryRun disk₀ files)), true, monitoring⟩
  | failed {done rest : List FileName} {disk : PackFiles} {e : Failure} : files = done ++ rest →
      DiskAfter world dryRun disk₀ files done disk →
      (∃ path ∈ files, ¬ Succeeds world dryRun disk₀ path) →
      Reached world dryRun disk₀ files ⟨disk, .ended (.error e), false, true⟩

/-- What a run is over: containers, under different names. -/
structure Selected (files : List FileName) : Prop where
  nodup : files.Nodup
  packs : ∀ path ∈ files, hasPackExtension path

variable {disk₀ : PackFiles} {files : List FileName}

/-- Nothing is to be done for a container that has all its flags, or in a dry run. -/
theorem DiskAfter.skip {done : List FileName} {disk : PackFiles} {path : FileName} {data : Bytes}
    (h : DiskAfter world dryRun disk₀ files done disk) (hdisk₀ : disk₀ path = some data)
    (hpatchable : Patchable world.profile world.readReward data)
    (hskip : ((patchedOf world.profile world.readReward data).changed && !dryRun) = false) :
    DiskAfter world dryRun disk₀ files (done ++ [path]) disk := by
  refine ⟨?_, fun path' hpack => ?_, h.others, h.dry⟩
  · exact List.forall_mem_append.mpr
      ⟨h.patchable, List.forall_mem_singleton.mpr ⟨data, hdisk₀, hpatchable⟩⟩
  rw [h.packs path' hpack]
  by_cases hpath : path' = path
  · subst hpath
    cases hdry : dryRun with
    | true => simp
    | false =>
      -- the patch changes nothing
      rw [hdry, Bool.not_false, Bool.and_true] at hskip
      have hsame : world.flagged data = data := patchedOf_data_eq hskip
      rw [hdisk₀, Option.map_some, hsame]
      simp
  · simp [hpath]

/-- A container that is replaced. -/
theorem DiskAfter.replace {done : List FileName} {disk : PackFiles} {path : FileName} {data : Bytes}
    (h : DiskAfter world false disk₀ files done disk) (hpath : path ∈ files)
    (hpack : hasPackExtension path) (hdisk₀ : disk₀ path = some data)
    (hpatchable : Patchable world.profile world.readReward data) (progress : Progress) :
    DiskAfter world false disk₀ files (if progress = .renamed then done ++ [path] else done)
      (Replacement.replace (tmpPath path) path (world.flagged data) disk progress) := by
  have htmp : tmpPath path ≠ path := (tmpPath_ne hpack).symm
  constructor
  · split
    · exact List.forall_mem_append.mpr
        ⟨h.patchable, List.forall_mem_singleton.mpr ⟨data, hdisk₀, hpatchable⟩⟩
    · exact h.patchable
  · intro path' hpack'
    by_cases hsame : path' = path
    · subst hsame
      rw [Replacement.replace_path _ _ htmp]
      split
      · rw [hdisk₀]
        simp
      · exact h.packs path' hpack'
    · rw [Replacement.replace_other _ _ (tmpPath_ne hpack') hsame, h.packs path' hpack']
      refine if_congr (and_congr_right fun _ => ?_) rfl rfl
      split
      · rw [List.mem_append, List.mem_singleton, or_iff_left hsame]
      · exact Iff.rfl
  · intro path' hpack' hother
    have hsame : path' ≠ path := by
      rintro rfl
      rw [hpack] at hpack'
      cases hpack'
    rw [Replacement.replace_other _ _ (hother path hpath) hsame]
    exact h.others path' hpack' hother
  · exact fun hdry => nomatch hdry

theorem planned_append (done : List FileName) {path : FileName} {data : Bytes}
    (hdisk₀ : disk₀ path = some data) :
    planned world dryRun disk₀ (done ++ [path]) = (planned world dryRun disk₀ done).add dryRun path
      (patchedOf world.profile world.readReward data) := by
  unfold planned
  rw [List.foldl_append, List.foldl_cons, List.foldl_nil, hdisk₀]
  rfl

/-- Whether a round succeeds depends on its container only. -/
theorem succeeds_congr {disk : PackFiles} {path : FileName} (h : disk path = disk₀ path) :
    Succeeds world dryRun disk path ↔ Succeeds world dryRun disk₀ path := by
  unfold Succeeds
  rw [h]

/-- **A step of a run.** -/
theorem Reached.step (hselected : Selected files) {p p' : PatchRun}
    (h : Reached world dryRun disk₀ files p) {actor : PatchActor}
    (hadvance : p.advance world dryRun actor = some p') : Reached world dryRun disk₀ files p' := by
  cases h with
  | @patching done rest disk hsplit hdisk hdone =>
    cases actor with
    | monitor =>
      obtain rfl := Option.some.inj hadvance
      exact .patching hsplit hdisk hdone
    | patcher =>
      cases rest with
      | nil =>
        obtain rfl := Option.some.inj hadvance
        rw [List.append_nil] at hsplit
        subst hsplit
        exact .ended hdisk hdone
      | cons path rest =>
        have hpath : path ∈ files := hsplit ▸ List.mem_append_right _ List.mem_cons_self
        have hpack := hselected.packs path hpath
        have hnew : path ∉ done := by
          have hnodup := hselected.nodup
          rw [hsplit] at hnodup
          exact fun hmem => (List.nodup_append.mp hnodup).2.2 path hmem path List.mem_cons_self rfl
        have hcurrent : disk path = disk₀ path := by
          rw [hdisk.packs path hpack, if_neg fun hand => hnew hand.2]
        have hsplit' : files = done ++ [path] ++ rest := by
          rw [hsplit, List.append_assoc]
          rfl
        have hdone' : Succeeds world dryRun disk₀ path →
            ∀ path' ∈ done ++ [path], Succeeds world dryRun disk₀ path' := fun hpath =>
          List.forall_mem_append.mpr ⟨hdone, List.forall_mem_singleton.mpr hpath⟩
        unfold PatchRun.advance at hadvance
        dsimp only at hadvance
        rcases patchFile_cases world dryRun disk path (planned world dryRun disk₀ done) with
          ⟨hfails, e, hround⟩ | ⟨data, hdata, hpatchable, ⟨hsucceeds, hskip, hround⟩ |
          ⟨hsucceeds, hdry, hround⟩ | ⟨hfails, hdry, progress, e, hround⟩⟩
        · rw [hround] at hadvance
          obtain rfl := Option.some.inj hadvance
          exact .failed hsplit hdisk ⟨path, hpath, mt (succeeds_congr hcurrent).mpr hfails⟩
        · have hdisk₀ := hcurrent.symm.trans hdata
          rw [hround, ← planned_append done hdisk₀] at hadvance
          obtain rfl := Option.some.inj hadvance
          exact .patching hsplit' (hdisk.skip hdisk₀ hpatchable hskip)
            (hdone' ((succeeds_congr hcurrent).mp hsucceeds))
        · have hdisk₀ := hcurrent.symm.trans hdata
          rw [hround, ← planned_append done hdisk₀] at hadvance
          obtain rfl := Option.some.inj hadvance
          subst hdry
          exact .patching hsplit' (hdisk.replace hpath hpack hdisk₀ hpatchable .renamed)
            (hdone' ((succeeds_congr hcurrent).mp hsucceeds))
        -- the replacement stops, before or behind the rename
        · have hdisk₀ := hcurrent.symm.trans hdata
          rw [hround] at hadvance
          obtain rfl := Option.some.inj hadvance
          subst hdry
          have hafter := hdisk.replace hpath hpack hdisk₀ hpatchable progress
          have hfails' : ∃ path ∈ files, ¬ Succeeds world false disk₀ path :=
            ⟨path, hpath, mt (succeeds_congr hcurrent).mpr hfails⟩
          by_cases hrenamed : progress = .renamed
          · rw [if_pos hrenamed] at hafter
            exact .failed hsplit' hafter hfails'
          · rw [if_neg hrenamed] at hafter
            exact .failed hsplit hafter hfails'
  | ended hdisk hdone =>
    cases actor with
    | patcher => cases hadvance
    | monitor =>
      unfold PatchRun.advance at hadvance
      dsimp only at hadvance
      split at hadvance
      · obtain rfl := Option.some.inj hadvance
        exact .ended hdisk hdone
      · cases hadvance
  | failed hsplit hdisk hfails =>
    cases actor with
    | patcher => cases hadvance
    | monitor =>
      obtain rfl := Option.some.inj hadvance
      exact .failed hsplit hdisk hfails

theorem Reached.run (hselected : Selected files) {p p' : PatchRun}
    (h : Reached world dryRun disk₀ files p) {schedule : List PatchActor}
    (hrun : p.run world dryRun schedule = some p') : Reached world dryRun disk₀ files p' := by
  induction schedule generalizing p with
  | nil =>
    obtain rfl := Option.some.inj hrun
    exact h
  | cons actor schedule ih =>
    obtain ⟨p₁, hadvance, hrest⟩ := Option.bind_eq_some_iff.mp hrun
    exact ih (h.step hselected hadvance) hrest

/-- The directory is the one behind the patches of the first files, and of all of them once the
command has returned. -/
theorem Reached.exists_diskAfter {p : PatchRun} (h : Reached world dryRun disk₀ files p) :
    ∃ done, done <+: files ∧ DiskAfter world dryRun disk₀ files done p.disk ∧
      (p.returned.isSome → done = files) := by
  cases h with
  | patching hsplit hdisk _ => exact ⟨_, ⟨_, hsplit.symm⟩, hdisk, nofun⟩
  | ended hdisk _ => exact ⟨files, List.prefix_rfl, hdisk, fun _ => rfl⟩
  | failed hsplit hdisk _ => exact ⟨_, ⟨_, hsplit.symm⟩, hdisk, nofun⟩

end Reached

/-! ## Runs -/

section Runs

instance packName_total : Std.Total fun a b : FileName =>
    FlagPatch.startEpoch a ≤ FlagPatch.startEpoch b :=
  ⟨fun a b => UInt64.le_total (FlagPatch.startEpoch a) (FlagPatch.startEpoch b)⟩

instance packName_trans : IsTrans FileName fun a b =>
    FlagPatch.startEpoch a ≤ FlagPatch.startEpoch b :=
  ⟨fun _ _ _ => UInt64.le_trans⟩

/-- A container of the range. -/
def isSelected (options : PatchOptions) (path : FileName) : Bool :=
  hasPackExtension path && inRange options.maxEpoch options.minEpoch (FlagPatch.startEpoch path)

/-- The files of a run are the containers of its range, in the order of their start epochs. -/
theorem start_eq_ok {options : PatchOptions} {names : List FileName} {disk : PackFiles} {p : PatchRun}
    (h : PatchRun.start options names disk = .ok p) :
    ∃ files, files.Perm (names.filter (isSelected options)) ∧
      (files.Pairwise fun a b => FlagPatch.startEpoch a ≤ FlagPatch.startEpoch b) ∧
      p = ⟨disk, .patching files .default, false, true⟩ := by
  obtain ⟨files, hfiles, hp⟩ := Except.bind_eq_ok.mp h
  obtain rfl := Except.ok.inj hp
  refine ⟨files, ?_, ?_, rfl⟩
  all_goals
    have hnames : ∀ path ∈ names.filter hasPackExtension, hasPackExtension path := fun path hpath =>
      (List.mem_filter.mp hpath).2
    have hsame : collectSortedPackFiles options.dir names options.maxEpoch options.minEpoch =
        collectSortedPackFiles options.dir (names.filter hasPackExtension) options.maxEpoch
          options.minEpoch := by
      unfold collectSortedPackFiles
      rw [List.filter_filter]
      simp only [Bool.and_self]
    rw [hsame, collectSortedPackFiles_eq hnames] at hfiles
    obtain ⟨-, -, hfiles⟩ := Except.bind_eq_ok.mp hfiles
    obtain rfl := Except.ok.inj hfiles
  · have hselected : names.filter (isSelected options) = (names.filter hasPackExtension).filter
        fun path => inRange options.maxEpoch options.minEpoch (FlagPatch.startEpoch path) := by
      rw [List.filter_filter]
      refine List.filter_congr fun path _ => ?_
      exact Bool.and_comm _ _
    rw [hselected]
    exact (List.perm_insertionSort _ _).filter _
  · exact (List.pairwise_insertionSort _ _).filter _

variable {T : PrimitiveTypes} {crates : Crates T}

theorem selected_of_perm {options : PatchOptions} {names files : List FileName}
    (hnodup : names.Nodup) (hfiles : files.Perm (names.filter (isSelected options))) :
    Selected files where
  nodup := hfiles.nodup_iff.mpr (hnodup.filter _)
  packs _ hpath :=
    (Bool.and_eq_true_iff.mp (List.mem_filter.mp (hfiles.subset hpath)).2).1

/-- Before the first step. -/
theorem reached_start (world : PatchWorld) (dryRun : Bool) (disk : PackFiles)
    (files : List FileName) :
    Reached world dryRun disk files ⟨disk, .patching files .default, false, true⟩ := by
  have hdisk : DiskAfter world dryRun disk files [] disk :=
    ⟨by simp, fun path _ => by simp, fun _ _ _ => rfl, fun _ => rfl⟩
  exact .patching (List.nil_append files).symm hdisk (by simp)

/-! ## A directory of one container -/

def plainContainer : Bytes := containerFile 1 [⟨0, 5, 1, 1, 0, plainBytes⟩]

def plainPath : FileName := .utf8 "epochs_5_5.cfxpack".toList

def plainPatchDisk : PackFiles := fun path => if path = plainPath then some plainContainer else none

def plainPatchWorld (fate : PatchFate) : PatchWorld where
  profile := ⟨true⟩
  readReward _ := .ok none
  schedule := ⟨fun _ n => [List.range n], fun _ n => by simp⟩
  fate _ := fate
  display _ := "epochs_5_5.cfxpack"

def plainPatchRun : PatchRun := ⟨plainPatchDisk, .patching [plainPath] .default, false, true⟩

theorem start_plainPatchRun :
    PatchRun.start ⟨"packs", false, none, none⟩ [plainPath] plainPatchDisk = .ok plainPatchRun := rfl

/-- The container is torn behind its first byte. -/
def tornPatchDisk : PackFiles := fun path => if path = plainPath then some [7] else none

def tornPatchRun : PatchRun := ⟨tornPatchDisk, .patching [plainPath] .default, false, true⟩

theorem archiveOf_plainContainer : ArchiveOf plainCrates [plainPacket] plainContainer := by
  have hlen := length_plainBytes
  have hencode := encodePacket_plainPacket
  unfold plainContainer
  generalize plainBytes = b at hlen hencode
  refine ⟨_, 1, .cons hencode .nil, show 1 < UInt32.size by decide, ?_, rfl⟩
  simp [payloadsOf, hlen, containerHeaderLen, dirEntryLen, UInt64.size]

theorem archiveOf_plainPatchDisk {path : FileName} {data : Bytes}
    (h : plainPatchDisk path = some data) : ∃ packets, ArchiveOf plainCrates packets data := by
  unfold plainPatchDisk at h
  split at h
  · exact Option.some.inj h ▸ ⟨_, archiveOf_plainContainer⟩
  · cases h

variable (world : PatchWorld) (options : PatchOptions) (names : List FileName) (disk : PackFiles)
  (p₀ : PatchRun)

/-- **The files at any point of a run.** A run goes over the containers of its range in the order of
their start epochs. Wherever it stops, those that it has passed hold their packets with the flags,
every other container is the old one, and no other file is touched but temporary ones. A dry run
touches nothing. -/
theorem patchRun_files (hnodup : names.Nodup)
    (hstart : PatchRun.start options names disk = .ok p₀) :
    ∃ files, files.Perm (names.filter (isSelected options)) ∧
      (files.Pairwise fun a b => FlagPatch.startEpoch a ≤ FlagPatch.startEpoch b) ∧
      ∀ schedule p, p₀.run world options.dryRun schedule = some p →
        (∃ done, done <+: files ∧ ∀ path, hasPackExtension path → p.disk path =
          if options.dryRun = false ∧ path ∈ done then (disk path).map world.flagged
          else disk path) ∧
        (∀ path, hasPackExtension path = false → (∀ path' ∈ files, path ≠ tmpPath path') →
          p.disk path = disk path) ∧
        (options.dryRun = true → p.disk = disk) := by
  obtain ⟨files, hperm, hsorted, rfl⟩ := start_eq_ok hstart
  refine ⟨files, hperm, hsorted, fun schedule p hrun => ?_⟩
  have hreached := (reached_start world options.dryRun disk files).run
    (selected_of_perm hnodup hperm) hrun
  obtain ⟨done, hprefix, hdisk, -⟩ := hreached.exists_diskAfter
  exact ⟨⟨done, hprefix, hdisk.packs⟩, hdisk.others, hdisk.dry⟩

/-- The replacement of the only container is cut off. -/
theorem patchRun_files_one :
    ∃ p, plainPatchRun.run (plainPatchWorld (.stopped (.cut 3) "no space")) false [.patcher] =
        some p ∧
      (p.disk plainPath = some plainContainer ∨
        p.disk plainPath = some ((plainPatchWorld .written).flagged plainContainer)) := by
  have hruns : (plainPatchRun.run (plainPatchWorld (.stopped (.cut 3) "no space")) false
      [.patcher]).isSome = true := by decide +kernel
  obtain ⟨p, hrun⟩ := Option.isSome_iff_exists.mp hruns
  obtain ⟨files, -, -, hspec⟩ := patchRun_files (plainPatchWorld (.stopped (.cut 3) "no space"))
    ⟨"packs", false, none, none⟩ [plainPath] plainPatchDisk plainPatchRun
    (List.nodup_singleton _) start_plainPatchRun
  obtain ⟨⟨done, -, hpacks⟩, -, -⟩ := hspec [.patcher] p hrun
  refine ⟨p, hrun, ?_⟩
  rw [hpacks plainPath (by decide)]
  have hdisk : plainPatchDisk plainPath = some plainContainer := rfl
  split
  · exact .inr (by rw [hdisk]; rfl)
  · exact .inl hdisk

/-- The patcher ends. -/
theorem exists_ended (world : PatchWorld) (dryRun : Bool) (p : PatchRun) :
    ∃ schedule p' result, p.run world dryRun schedule = some p' ∧ p'.patcher = .ended result := by
  obtain ⟨disk, patcher, finished, monitoring⟩ := p
  cases patcher with
  | ended result => exact ⟨[], _, result, rfl, rfl⟩
  | patching files summary =>
    induction files generalizing disk summary with
    | nil => exact ⟨[.patcher], _, .ok summary, rfl, rfl⟩
    | cons path files ih =>
      rcases hround : exec (patchFile world dryRun summary path) disk with ⟨e | summary', disk'⟩
      · have hadvance : PatchRun.advance world dryRun
            ⟨disk, .patching (path :: files) summary, finished, monitoring⟩ .patcher =
              some ⟨disk', .ended (.error e), finished, monitoring⟩ := by
          unfold PatchRun.advance
          dsimp only
          rw [hround]
        refine ⟨[.patcher], ⟨disk', .ended (.error e), finished, monitoring⟩, .error e, ?_, rfl⟩
        exact Option.bind_eq_some_iff.mpr ⟨_, hadvance, rfl⟩
      · have hadvance : PatchRun.advance world dryRun
            ⟨disk, .patching (path :: files) summary, finished, monitoring⟩ .patcher =
              some ⟨disk', .patching files summary', finished, monitoring⟩ := by
          unfold PatchRun.advance
          dsimp only
          rw [hround]
        obtain ⟨schedule, p', result, hrun, hended⟩ := ih disk' summary'
        refine ⟨.patcher :: schedule, p', result, ?_, hended⟩
        exact Option.bind_eq_some_iff.mpr ⟨_, hadvance, hrun⟩

theorem run_append (world : PatchWorld) (dryRun : Bool) {p p' p'' : PatchRun}
    {schedule schedule' : List PatchActor} (h : p.run world dryRun schedule = some p')
    (h' : p'.run world dryRun schedule' = some p'') :
    p.run world dryRun (schedule ++ schedule') = some p'' := by
  unfold PatchRun.run at h h' ⊢
  rw [List.foldlM_append, h]
  exact h'

/-- A dry run reports what a run would, but for the bytes that are rewritten. -/
theorem planned_dryRun (disk : PackFiles) (files : List FileName) :
    planned world true disk files = { planned world false disk files with bytesRewritten := 0 } := by
  induction files using List.reverseRecOn with
  | nil => rfl
  | append_singleton files path ih =>
    unfold planned at ih ⊢
    rw [List.foldl_append, List.foldl_append, ih]
    simp [FlagPatchSummary.add]

/-- **A run returns only when no file fails.** From every state of such a run the command can still
return, and what it returns is the report on the containers of its range, all of which have been
patched; a dry run returns the same, but for the bytes that are rewritten. Once a file cannot be
read, patched or replaced, the flag that ends the monitor is never set, and the command never
returns. -/
theorem patchRun_returns_iff (hnodup : names.Nodup)
    (hstart : PatchRun.start options names disk = .ok p₀) :
    ∃ files, files.Perm (names.filter (isSelected options)) ∧
      planned world true disk files =
        { planned world false disk files with bytesRewritten := 0 } ∧
      ∀ schedule p, p₀.run world options.dryRun schedule = some p →
        ((∃ schedule' p' result, p.run world options.dryRun schedule' = some p' ∧
            p'.returned = some result) ↔
          ∀ path ∈ files, Succeeds world options.dryRun disk path) ∧
        ∀ result, p.returned = some result →
          result = .ok (planned world options.dryRun disk files).sorted ∧
          (options.dryRun = false →
            ∀ path ∈ files, p.disk path = (disk path).map world.flagged) := by
  obtain ⟨files, hperm, hsorted, rfl⟩ := start_eq_ok hstart
  have hselected := selected_of_perm hnodup hperm
  have hreturned : ∀ p, Reached world options.dryRun disk files p → ∀ result,
      p.returned = some result →
        (∀ path ∈ files, Succeeds world options.dryRun disk path) ∧
        result = .ok (planned world options.dryRun disk files).sorted ∧
        (options.dryRun = false →
          ∀ path ∈ files, p.disk path = (disk path).map world.flagged) := by
    intro p hreached result hresult
    cases hreached with
    | patching hsplit hdisk _ => cases hresult
    | failed hsplit hdisk _ => cases hresult
    | @ended _ monitoring hdisk hdone =>
      cases monitoring with
      | true => cases hresult
      | false =>
        refine ⟨hdone, (Option.some.inj hresult).symm, fun hdry path hpath => ?_⟩
        exact (hdisk.packs path (hselected.packs path hpath)).trans (if_pos ⟨hdry, hpath⟩)
  refine ⟨files, hperm, planned_dryRun world disk files, fun schedule p hrun => ⟨?_, ?_⟩⟩
  · have hreached := (reached_start world options.dryRun disk files).run hselected hrun
    constructor
    · rintro ⟨schedule', p', result, hrun', hresult⟩
      exact (hreturned p' (hreached.run hselected hrun') result hresult).1
    · intro hall
      obtain ⟨schedule', p', result, hrun', hended⟩ := exists_ended world options.dryRun p
      have hreached' := hreached.run hselected hrun'
      cases hreached' with
      | patching hsplit hdisk _ => cases hended
      | failed hsplit hdisk hfails =>
        obtain ⟨path, hpath, hfails⟩ := hfails
        exact absurd (hall path hpath) hfails
      | @ended disk' monitoring hdisk hdone =>
        cases monitoring with
        | false => exact ⟨schedule', _, _, hrun', rfl⟩
        | true => exact ⟨schedule' ++ [.monitor], _, _, run_append world _ hrun' rfl, rfl⟩
  · intro result hresult
    have hreached := (reached_start world options.dryRun disk files).run hselected hrun
    exact (hreturned p hreached result hresult).2

/-- The only container is torn, and the command waits for the monitor for ever. -/
theorem patchRun_returns_iff_one :
    ∃ p, tornPatchRun.run (plainPatchWorld .written) false [.patcher] = some p ∧
      p.patcher = .ended (.error (.error "patch epochs_5_5.cfxpack")) ∧
      ¬ ∃ schedule p' result, p.run (plainPatchWorld .written) false schedule = some p' ∧
        p'.returned = some result := by
  obtain ⟨files, hperm, -, hspec⟩ := patchRun_returns_iff (plainPatchWorld .written)
    ⟨"packs", false, none, none⟩ [plainPath] tornPatchDisk tornPatchRun
    (List.nodup_singleton _) rfl
  refine ⟨_, rfl, rfl, ?_⟩
  rw [(hspec [.patcher] _ rfl).1]
  intro hall
  obtain ⟨data, hdata, ⟨sites, hsites, -⟩, -⟩ := hall plainPath (hperm.symm.subset (by decide))
  obtain rfl : [7] = data := Option.some.inj hdata
  cases hsites

/-- The directories behind runs, one after the other, each of which may have been interrupted, and
the containers that a run that has returned went over. -/
inductive PatchHistory (profile : Profile) (readReward : H256 → Result (Option U256))
    (disk₀ : PackFiles) : PackFiles → (FileName → Prop) → Prop
  | start : PatchHistory profile readReward disk₀ disk₀ fun _ => False
  | run {disk : PackFiles} {settled : FileName → Prop} {world : PatchWorld} {options : PatchOptions}
      {names : List FileName} {p₀ p : PatchRun} {schedule : List PatchActor} :
      PatchHistory profile readReward disk₀ disk settled →
      world.profile = profile → world.readReward = readReward →
      names.Nodup → (∀ path, path ∈ names ↔ (disk path).isSome) →
      PatchRun.start options names disk = .ok p₀ →
      p₀.run world options.dryRun schedule = some p →
      PatchHistory profile readReward disk₀ p.disk fun path =>
        settled path ∨ options.dryRun = false ∧ p.returned.isSome ∧ path ∈ names ∧
          isSelected options path

section History

variable {profile : Profile} {readReward : H256 → Result (Option U256)} {disk₀ disk : PackFiles}
  {settled : FileName → Prop} {path : FileName} {data : Bytes}

/-- One run of a history. -/
theorem exists_diskAfter {world : PatchWorld} {options : PatchOptions} {names : List FileName}
    {p₀ p : PatchRun} {schedule : List PatchActor} (hnodup : names.Nodup)
    (hstart : PatchRun.start options names disk = .ok p₀)
    (hrun : p₀.run world options.dryRun schedule = some p) :
    ∃ files done, DiskAfter world options.dryRun disk files done p.disk ∧
      (p.returned.isSome → ∀ path ∈ names, isSelected options path → path ∈ done) := by
  obtain ⟨files, hperm, -, rfl⟩ := start_eq_ok hstart
  have hreached := (reached_start world options.dryRun disk files).run
    (selected_of_perm hnodup hperm) hrun
  obtain ⟨done, -, hdisk, hreturned⟩ := hreached.exists_diskAfter
  refine ⟨files, done, hdisk, fun hreturns path hlisted hselects => ?_⟩
  rw [hreturned hreturns]
  exact hperm.symm.subset (List.mem_filter.mpr ⟨hlisted, hselects⟩)

/-- A container that is the same after a second patch has its old bytes or its flagged bytes, and
the latter once a run that has returned went over it. -/
theorem PatchHistory.flagged (h : PatchHistory profile readReward disk₀ disk settled)
    (hpack : hasPackExtension path) (hdata : disk₀ path = some data)
    (hagain : (patchedOf profile readReward (patchedOf profile readReward data).data).data =
      (patchedOf profile readReward data).data) :
    (disk path = some data ∨ disk path = some (patchedOf profile readReward data).data) ∧
      (settled path → disk path = some (patchedOf profile readReward data).data) := by
  induction h with
  | start => exact ⟨.inl hdata, False.elim⟩
  | @run disk settled world options names p₀ p schedule _ hprofile hreward hnodup _ hstart hrun ih =>
    subst hprofile hreward
    obtain ⟨hor, hsettled⟩ := ih
    obtain ⟨files, done, hdisk, hreturned⟩ := exists_diskAfter hnodup hstart hrun
    have hkeeps : disk path = some (patchedOf world.profile world.readReward data).data →
        p.disk path = some (patchedOf world.profile world.readReward data).data := by
      intro hflagged
      rw [hdisk.packs path hpack, hflagged, Option.map_some, PatchWorld.flagged, hagain, ite_self]
    constructor
    · rcases hor with hsame | hflagged
      · rw [hdisk.packs path hpack, hsame, Option.map_some]
        split
        · exact .inr rfl
        · exact .inl rfl
      · exact .inr (hkeeps hflagged)
    · rintro (hbefore | ⟨hdry, hreturns, hlisted, hselects⟩)
      · exact hkeeps (hsettled hbefore)
      · rcases hor with hsame | hflagged
        · rw [hdisk.packs path hpack, if_pos ⟨hdry, hreturned hreturns path hlisted hselects⟩, hsame]
          rfl
        · exact hkeeps hflagged

/-- A container that cannot be patched is left alone, and no run over it returns. -/
theorem PatchHistory.untouched (h : PatchHistory profile readReward disk₀ disk settled)
    (hpack : hasPackExtension path) (hdata : disk₀ path = some data)
    (hnot : ¬ Patchable profile readReward data) : disk path = some data ∧ ¬ settled path := by
  induction h with
  | start => exact ⟨hdata, id⟩
  | @run disk settled world options names p₀ p schedule _ hprofile hreward hnodup _ hstart hrun ih =>
    subst hprofile hreward
    obtain ⟨hsame, hunsettled⟩ := ih
    obtain ⟨files, done, hdisk, hreturned⟩ := exists_diskAfter hnodup hstart hrun
    have hnotDone : path ∉ done := by
      intro hdone
      obtain ⟨data', hdata', hpatchable⟩ := hdisk.patchable path hdone
      obtain rfl := Option.some.inj (hsame.symm.trans hdata')
      exact hnot hpatchable
    constructor
    · rw [hdisk.packs path hpack, if_neg fun hand => hnotDone hand.2, hsame]
    · rintro (hbefore | ⟨-, hreturns, hlisted, hselects⟩)
      · exact hunsettled hbefore
      · exact hnotDone (hreturned hreturns path hlisted hselects)

end History

/-- **Any sequence of runs**, with any ranges, dry runs and interrupted ones among them, over
containers of packets and others that cannot be patched, leaves every container as it was or with the
flags of its packets. Those that a run went over that has returned have their flags, and no later run
changes them; those that cannot be patched are left alone. -/
theorem patchHistory_files {profile : Profile} {readReward : H256 → Result (Option U256)}
    {disk₀ disk : PackFiles} {settled : FileName → Prop}
    (hcontents : ∀ path data, hasPackExtension path → disk₀ path = some data →
      (∃ packets, ArchiveOf crates packets data) ∨ ¬ Patchable profile readReward data)
    (h : PatchHistory profile readReward disk₀ disk settled) :
    ∀ path data, hasPackExtension path → disk₀ path = some data →
      (disk path = some data ∨ disk path = some (patchedOf profile readReward data).data) ∧
      (settled path → disk path = some (patchedOf profile readReward data).data ∧
        (patchedOf profile readReward
          (patchedOf profile readReward data).data).changed = false) ∧
      (¬ Patchable profile readReward data → disk path = some data ∧ ¬ settled path) := by
  intro path data hpack hdata
  by_cases hpatchable : Patchable profile readReward data
  · obtain ⟨packets, harchive⟩ :=
      (hcontents path data hpack hdata).resolve_right (not_not_intro hpatchable)
    have hagain : patchedOf profile readReward (patchedOf profile readReward data).data =
        { patchedOf profile readReward data with changed := false } :=
      (harchive.archive hpatchable).patchedOf_patched
    obtain ⟨hor, hsettled⟩ := h.flagged hpack hdata (by rw [hagain])
    exact ⟨hor, fun hpath => ⟨hsettled hpath, by rw [hagain]⟩,
      fun hnot => absurd hpatchable hnot⟩
  · obtain ⟨hsame, hunsettled⟩ := h.untouched hpack hdata hpatchable
    exact ⟨.inl hsame, fun hpath => absurd hpath hunsettled, fun _ => ⟨hsame, hunsettled⟩⟩

/-- A run that fails, and then one that returns. -/
theorem patchHistory_files_two :
    ∃ p, plainPatchRun.run (plainPatchWorld .written) false [.patcher, .patcher, .monitor] = some p ∧
      p.disk plainPath = some (patchedOf ⟨true⟩ (fun _ => .ok none) plainContainer).data := by
  have hreturns : ((plainPatchRun.run (plainPatchWorld .written) false
      [.patcher, .patcher, .monitor]).any fun p => p.returned.isSome) = true := by decide +kernel
  obtain ⟨p, hrun, hreturned⟩ := (Option.any_eq_true _ _).mp hreturns
  have hnames : ∀ path, path ∈ [plainPath] ↔ (plainPatchDisk path).isSome := by
    intro path
    rw [List.mem_singleton]
    unfold plainPatchDisk
    split <;> simp_all
  have hfailed : PatchHistory ⟨true⟩ (fun _ => .ok none) plainPatchDisk plainPatchDisk _ :=
    @PatchHistory.run _ _ _ _ _ (plainPatchWorld .unread) ⟨"packs", false, none, none⟩ [plainPath]
      plainPatchRun ⟨plainPatchDisk, .ended (.error (.error "read epochs_5_5.cfxpack")), false, true⟩
      [.patcher] .start rfl rfl (List.nodup_singleton _) hnames start_plainPatchRun rfl
  have hhistory : PatchHistory ⟨true⟩ (fun _ => .ok none) plainPatchDisk p.disk _ :=
    @PatchHistory.run _ _ _ _ _ (plainPatchWorld .written) ⟨"packs", false, none, none⟩ [plainPath]
      plainPatchRun p _ hfailed rfl rfl (List.nodup_singleton _) hnames start_plainPatchRun hrun
  have hspec := patchHistory_files (fun _ _ _ hdata => .inl (archiveOf_plainPatchDisk hdata)) hhistory
    plainPath plainContainer (by decide) rfl
  exact ⟨p, hrun, (hspec.2.1 (.inr ⟨rfl, hreturned, List.mem_singleton_self _, by decide⟩)).1⟩

end Runs

end Extractor
