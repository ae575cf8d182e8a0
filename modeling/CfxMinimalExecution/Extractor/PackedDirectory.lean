import CfxMinimalExecution.Extractor.DirectorySafety
import CfxMinimalExecution.Extractor.FileNames
import CfxMinimalExecution.Extractor.PackRun

/-!
# The directory behind a run of the packer

A reader collects the containers of a directory by their names, parses their directories and cuts
the packets out. The packer writes a container under its own name, so that a run which fails or is
killed may leave one cut off. It is the last to be collected, and its directory is refused.

## Main definitions

* `readContainer`: the groups of a container, as the readers cut them out
* `Contiguous`: the groups follow one another and the checkpoint

## Main results

* `collectFiles_of_pairwise`: files of different start epochs are collected in their order
* `IsContainer.parseDirectory_take`: a container that is cut off is refused
* `packedDirectory_read`: what a reader finds behind a run, at any point of it
-/

namespace Extractor

open Cfxpack
open WorkerPool (Pipeline)

/-! ## Files are collected by their names -/

def nameOf (file : File) : FileName := .utf8 file.1.toList

theorem startsAt_fileName (pack : Pack) : StartsAt pack.start pack.fileName := by
  rw [startsAt_iff]
  refine ⟨?_, startEpoch_fileName pack⟩
  show (plainExtension.isSuffixOf _ || zstdExtension.isSuffixOf _) = true
  rw [toList_containerPath, Bool.or_eq_true]
  left
  rw [List.isSuffixOf_iff_suffix]
  exact ⟨pack.namePrefix.toList ++ '_' :: (epochDigits pack.start ++ '_' :: epochDigits pack.stop),
    by simp⟩

/-- **Files of different start epochs are collected**, in the order of these. -/
theorem collectFiles_of_pairwise {dir : String} {names : List FileName}
    {entries : List (UInt64 × FileName)} (hstarts : ∀ entry ∈ entries, StartsAt entry.1 entry.2)
    (hsorted : (entries.map Prod.fst).Pairwise (· < ·)) (hne : entries ≠ [])
    (hperm : names.Perm (entries.map Prod.snd)) :
    collectFiles dir names = .ok (entries.map Prod.snd) := by
  have hnodup : (entries.map Prod.fst).Nodup := hsorted.imp fun hlt => UInt64.ne_of_lt hlt
  -- a name has one start epoch only
  have hunique : ∀ {start path}, path ∈ names → StartsAt start path → (start, path) ∈ entries := by
    intro start path hpath hstart
    obtain ⟨⟨start', path'⟩, hentry, rfl⟩ := List.mem_map.mp (hperm.subset hpath)
    have hsame := (startsAt_iff.mp (hstarts _ hentry)).2.symm.trans (startsAt_iff.mp hstart).2
    exact Option.some.inj hsame ▸ hentry
  have hmem : ∀ entry : UInt64 × FileName, entry ∈ sortedEntries names ↔ entry ∈ entries := by
    rintro ⟨start, path⟩
    rw [mem_sortedEntries]
    constructor
    · intro hcollected
      obtain ⟨hpath, hstart, -⟩ := collectedAt_spec hcollected
      exact hunique hpath hstart
    · intro hentry
      have hpath : path ∈ names := hperm.symm.subset (List.mem_map_of_mem hentry)
      obtain ⟨path', hcollected⟩ := exists_collectedAt hpath (hstarts _ hentry)
      obtain ⟨hpath', hstart', -⟩ := collectedAt_spec hcollected
      have heq := List.inj_on_of_nodup_map hnodup (hunique hpath' hstart') hentry rfl
      exact (Prod.mk.inj heq).2 ▸ hcollected
  have hsame : sortedEntries names = entries := by
    have hperm' : (sortedEntries names).Perm entries :=
      (List.perm_ext_iff_of_nodup (nodup_sortedEntries names).of_map hnodup.of_map).mpr hmem
    refine hperm'.eq_of_pairwise ?_ (List.pairwise_map.mp (pairwise_sortedEntries names))
      (List.pairwise_map.mp hsorted)
    exact fun a b _ _ hab hba => absurd hba (UInt64.lt_asymm hab)
  rw [collectFiles_eq, hsame, ensure_of (by simpa using hne)]
  rfl

/-! ## Containers that are cut off -/

section Cut

variable {data : Bytes} {n : ℕ}

theorem fieldAt_take {pos : ℕ} (h : pos + 8 ≤ n) :
    fieldAt (data.take n) pos = fieldAt data pos := by
  unfold fieldAt
  rw [List.drop_take, List.take_take, Nat.min_eq_left (by omega)]

theorem entryAt_take {i : ℕ} (h : Present (data.take n) i) :
    Present data i ∧ entryAt (data.take n) i = entryAt data i := by
  unfold Present dirEntryLen at h ⊢
  rw [List.length_take] at h
  refine ⟨h.trans (Nat.min_le_right _ _), ?_⟩
  have hle := h.trans (Nat.min_le_left _ _)
  unfold entryAt
  rw [fieldAt_take (by omega), fieldAt_take (by omega), fieldAt_take (by omega),
    fieldAt_take (by omega)]

/-- **A container that is cut off is refused**: the last payload does not lie within it. -/
theorem IsContainer.parseDirectory_take {groups : List PacketOut} (h : IsContainer data groups)
    (hne : groups ≠ []) (hn : n < data.length) (profile : Profile) :
    ∃ message, parseDirectory profile (data.take n) = .error (.error message) := by
  have hlen : (data.take n).length = n := List.length_take_of_le hn.le
  by_cases hheader : IsHeader (data.take n)
  swap
  · exact ⟨_, parseWith_of_not_header hheader _⟩
  have hwhole : IsHeader data := ⟨h.headerLen_le, h.take_magic⟩
  have hle : 24 ≤ n := hlen ▸ hheader.1
  -- the entries that are left are those of the container
  have hcount : entryCount (data.take n) = entryCount data := by
    unfold entryCount
    rw [List.drop_take, List.take_take, Nat.min_eq_left (by omega)]
  obtain ⟨-, hentries⟩ :=
    ((readsEntry_readDirEntry profile data).parse_eq_ok hwhole).mp (h.parseDirectory_eq profile)
  have hstop : ∀ i < entryCount data, payloadStop data i ≤ data.length := by
    intro i hi
    refine h.entry_le (entryAt data i) ?_
    rw [hentries]
    exact List.mem_map_of_mem (List.mem_range.mpr hi)
  have hsize := h.size
  cases hparse : parseDirectory profile (data.take n) with
  | ok entries =>
    exfalso
    obtain ⟨hall, -⟩ := ((readsEntry_readDirEntry profile _).parse_eq_ok hheader).mp hparse
    have htiles := tiles_directoryOf (containerHeaderLen + dirEntryLen * groups.length) groups
    rw [← h.length_eq] at htiles
    refine absurd (htiles.stop_le_of_forall ?_ fun span hspan => ?_) (Nat.not_le.mpr hn)
    · intro hnil
      have hlength := congrArg List.length hnil
      rw [List.length_map, length_directoryOf] at hlength
      exact hne (List.length_eq_zero_iff.mp hlength)
    · rw [hentries, List.map_map] at hspan
      obtain ⟨i, hi, rfl⟩ := List.mem_map.mp hspan
      rw [List.mem_range] at hi
      obtain ⟨hpresent, stop, hstop', hstopLe⟩ := hall i (hcount ▸ hi)
      have hentry := (entryAt_take hpresent).2
      unfold payloadStop at hstop'
      rw [hentry] at hstop'
      have hsum := hstop i hi
      unfold payloadStop at hsum
      rw [Profile.usize_of_lt (by omega)] at hstop'
      exact (Except.ok.inj hstop').trans_le (hstopLe.trans hlen.le)
  | error e =>
    obtain ⟨i, hi, -, hround⟩ :=
      ((readsEntry_readDirEntry profile _).parse_eq_error hheader).mp hparse
    rcases (readsEntry_readDirEntry profile _).run_eq_error hround with
      ⟨message, rfl⟩ | ⟨hpresent, -, hwrap⟩
    · exact ⟨message, rfl⟩
    · exfalso
      unfold payloadStop at hwrap
      rw [(entryAt_take hpresent).2] at hwrap
      have hsum := hstop i (hcount ▸ hi)
      unfold payloadStop at hsum
      omega

end Cut

/-! ## The groups of a container -/

/-- The groups of a container: their epochs, and the packets that the readers cut out. -/
def readContainer (profile : Profile) (data : Bytes) : Result (List (UInt64 × UInt64 × Bytes)) := do
  let entries ← parseDirectory profile data
  entries.mapM fun entry => do
    let packetData ← slice data entry.2.2.1 (← profile.addUsize entry.2.2.1 entry.2.2.2)
    pure (entry.1, entry.2.1, packetData)

/-- What is read of a group. -/
def PacketOut.entry (group : PacketOut) : UInt64 × UInt64 × Bytes :=
  (group.startEpoch, group.epochCount, group.bytes)

theorem IsContainer.readContainer_eq {data : Bytes} {groups : List PacketOut}
    (h : IsContainer data groups) (profile : Profile) :
    readContainer profile data = .ok (groups.map PacketOut.entry) := by
  unfold readContainer
  rw [h.parseDirectory_eq, Except.ok_bind]
  have hsize := h.size
  have hread : ∀ entry ∈ directoryOf (containerHeaderLen + dirEntryLen * groups.length) groups,
      profile.addUsize entry.2.2.1 entry.2.2.2 = .ok (entry.2.2.1 + entry.2.2.2) := by
    intro entry hentry
    have hle := h.entry_le entry hentry
    exact Profile.addUsize_of_lt (by omega)
  have hgroups := h.forall₂_directoryOf
  generalize directoryOf (containerHeaderLen + dirEntryLen * groups.length) groups = entries at *
  clear h hsize
  induction hgroups with
  | nil => rfl
  | @cons group entry groups entries hgroup _ ih =>
    obtain ⟨hstart, hcount, hslice⟩ := hgroup
    rw [List.mapM_cons, hread entry List.mem_cons_self, Except.ok_bind, hslice, Except.ok_bind,
      ih fun other hother => hread other (List.mem_cons_of_mem _ hother)]
    unfold PacketOut.entry
    rw [hstart, hcount]
    rfl

/-- A container that is cut off has no groups to read. -/
theorem IsContainer.readContainer_take {data : Bytes} {groups : List PacketOut}
    (h : IsContainer data groups) (hne : groups ≠ []) {n : ℕ} (hn : n < data.length)
    (profile : Profile) :
    ∃ message, readContainer profile (data.take n) = .error (.error message) := by
  obtain ⟨message, hparse⟩ := h.parseDirectory_take hne hn profile
  refine ⟨message, ?_⟩
  unfold readContainer
  rw [hparse, Except.error_bind]

/-! ## The order of the groups -/

/-- The groups follow one another, and the first one the height of the checkpoint. -/
structure Contiguous (profile : Profile) (resumeHeight : UInt64) (groups : List PacketOut) :
    Prop where
  first : ∀ group ∈ groups.head?,
    validateContiguity profile group.startEpoch none resumeHeight = .ok ()
  next : groups.IsChain fun group group' => validateContiguity profile group'.startEpoch
    (some (group.startEpoch + group.epochCount)) resumeHeight = .ok ()

/-- **Groups without a gap pass the checks**, from whichever of them the reader resumes. -/
theorem contiguous_drop {start stop : ℕ} {groups : List PacketOut}
    (htiles : Tiles start
      (groups.map fun group => (group.startEpoch.toNat, group.epochCount.toNat)) stop)
    (hstop : stop < UInt64.size) (profile : Profile) (k : ℕ) (resumeHeight : UInt64)
    (hresume : ∀ group ∈ (groups.drop k).head?,
      resumeHeight = 0 ∨ resumeHeight.toNat + 1 = group.startEpoch.toNat) :
    Contiguous profile resumeHeight (groups.drop k) where
  first group hgroup := by
    unfold validateContiguity
    by_cases hzero : resumeHeight = 0
    · exact if_pos hzero
    · dsimp only
      rw [if_neg hzero]
      have hnext := (hresume group hgroup).resolve_left hzero
      have hlt := group.startEpoch.toNat_lt_size
      have hadd : profile.addU64 resumeHeight 1 = .ok (resumeHeight + 1) :=
        Profile.addU64_of_lt (by rw [UInt64.toNat_one]; omega)
      have heq : group.startEpoch = resumeHeight + 1 := by
        rw [← UInt64.toNat_inj, UInt64.toNat_add, UInt64.toNat_one, hnext,
          Nat.mod_eq_of_lt hlt]
      rw [hadd, Except.ok_bind, ensure_of heq]
  next := by
    have hchain : groups.IsChain fun group group' => validateContiguity profile group'.startEpoch
        (some (group.startEpoch + group.epochCount)) resumeHeight = .ok () := by
      clear hresume
      induction groups generalizing start with
      | nil => exact .nil
      | cons group groups ih =>
        obtain ⟨hstart, hrest⟩ := htiles
        cases groups with
        | nil => exact .singleton _
        | cons group' groups =>
          refine List.isChain_cons_cons.mpr ⟨?_, ih hrest⟩
          have hle := hrest.le
          obtain ⟨hstart', -⟩ := hrest
          refine ensure_of (UInt64.toNat_inj.mp ?_)
          dsimp only at hle hstart hstart'
          have hlt : start + group.epochCount.toNat < UInt64.size := hle.trans_lt hstop
          rw [UInt64.toNat_add, hstart', hstart, Nat.mod_eq_of_lt hlt]
    exact hchain.drop k

/-! ## Behind a run -/

section Run

variable {T : PrimitiveTypes} {crates : Crates T} {decoders : Decoders T} {pow : PowDb}
  {pos : PosDb} {config : ExtractConfig} {fate : String → Fate} {namePrefix : String}
  {shardEpochs targetBytes : UInt64} {count m : ℕ} {p : PackRun} {chunks : List (List PacketOut)}
  {torn : List File}

/-- Where no container is cut off, all are whole. -/
theorem PackedFiles.whole_or_cut
    (h : PackedFiles crates decoders pow pos config fate namePrefix shardEpochs m p chunks torn) :
    ∃ whole : List (List PacketOut), (∀ chunk ∈ whole, chunk ≠ []) ∧
      whole.flatten <+: firstGroups (packetAt (packEncoded crates decoders pow pos config)
        config.startEpoch config.epochCount shardEpochs) m ∧
      (torn = [] → whole = chunks ∧ packFiles p = whole.map (fileOf namePrefix shardEpochs)) ∧
      (packFiles p = whole.map (fileOf namePrefix shardEpochs) ∨
        ∃ chunk n, chunk ≠ [] ∧
          whole.flatten ++ chunk <+: firstGroups (packetAt
            (packEncoded crates decoders pow pos config) config.startEpoch config.epochCount
            shardEpochs) m ∧
          n < (containerFile shardEpochs chunk).length ∧
          packFiles p = whole.map (fileOf namePrefix shardEpochs) ++
            [((fileOf namePrefix shardEpochs chunk).1,
              (containerFile shardEpochs chunk).take n)]) := by
  have hnone : torn = [] → packFiles p = chunks.map (fileOf namePrefix shardEpochs) := by
    intro hnil
    rw [h.files, hnil, List.append_nil]
  rcases h.torn with hnil | ⟨chunk, e, hne, hprefix, hleft, -, -⟩
  · exact ⟨chunks, h.nonempty, h.flatten_prefix, fun _ => ⟨rfl, hnone hnil⟩, .inl (hnone hnil)⟩
  -- the last container has failed
  cases hbytes : (fate (fileOf namePrefix shardEpochs chunk).1).left
      (fileOf namePrefix shardEpochs chunk).2 with
  | none =>
    have hnil : torn = [] := by
      rw [hleft]
      unfold leftFile
      rw [hbytes]
      rfl
    exact ⟨chunks, h.nonempty, h.flatten_prefix, fun _ => ⟨rfl, hnone hnil⟩, .inl (hnone hnil)⟩
  | some bytes =>
    have htorn : torn = [((fileOf namePrefix shardEpochs chunk).1, bytes)] := by
      rw [hleft]
      unfold leftFile
      rw [hbytes]
      rfl
    have hnotNil : torn ≠ [] := htorn ▸ List.cons_ne_nil _ _
    obtain ⟨hbeginning, -⟩ := Fate.prefix_of_left hbytes
    have htake := List.prefix_iff_eq_take.mp hbeginning
    by_cases hall : bytes.length < (containerFile shardEpochs chunk).length
    · refine ⟨chunks, h.nonempty, h.flatten_prefix, fun hnil => absurd hnil hnotNil,
        .inr ⟨chunk, bytes.length, hne, hprefix, hall, ?_⟩⟩
      rw [h.files, htorn]
      exact congrArg (fun b => chunks.map (fileOf namePrefix shardEpochs) ++
        [((fileOf namePrefix shardEpochs chunk).1, b)]) htake
    -- all of it is there
    · refine ⟨chunks ++ [chunk], fun chunk' hchunk' => ?_, ?_, fun hnil => absurd hnil hnotNil,
        .inl ?_⟩
      · rcases List.mem_append.mp hchunk' with hmem | hmem
        · exact h.nonempty chunk' hmem
        · exact List.mem_singleton.mp hmem ▸ hne
      · rwa [List.flatten_append, List.flatten_singleton]
      · have hwhole : bytes = (fileOf namePrefix shardEpochs chunk).2 := by
          rw [htake]
          exact List.take_of_length_le (Nat.not_lt.mp hall)
        rw [h.files, htorn, hwhole, List.map_append]
        rfl

variable (crates decoders pow pos config) in
/-- The groups of the tasks that can be extracted. -/
def extractedGroups (tasks : List PackTask) : List PacketOut :=
  tasks.filterMap fun task => (packGroup crates decoders pow pos config task).toOption

theorem sublist_extractedGroups (hm : m ≤ count)
    (h : ∀ i < m, packGroup crates decoders pow pos config
        (taskAt config.startEpoch config.epochCount shardEpochs i) =
      .ok (packetAt (packEncoded crates decoders pow pos config) config.startEpoch
        config.epochCount shardEpochs i)) :
    (firstGroups (packetAt (packEncoded crates decoders pow pos config) config.startEpoch
      config.epochCount shardEpochs) m).Sublist (extractedGroups crates decoders pow pos config
        ((List.range count).map (taskAt config.startEpoch config.epochCount shardEpochs))) := by
  obtain ⟨k, rfl⟩ := Nat.exists_eq_add_of_le hm
  have hfirst : extractedGroups crates decoders pow pos config
      ((List.range m).map (taskAt config.startEpoch config.epochCount shardEpochs)) =
        firstGroups (packetAt (packEncoded crates decoders pow pos config) config.startEpoch
          config.epochCount shardEpochs) m := by
    unfold extractedGroups firstGroups
    rw [List.filterMap_map, ← List.filterMap_eq_map]
    refine List.filterMap_congr fun i hi => ?_
    rw [Function.comp_apply, h i (List.mem_range.mp hi)]
    rfl
  rw [← hfirst, List.range_add, List.map_append]
  exact (List.sublist_append_left _ _).filterMap _

/-- Extracted groups fit into a container together when all of them do. -/
theorem isContainer_of_sublist {tasks : List PackTask} {groups chunk : List PacketOut}
    (hchunk : chunk.Sublist groups)
    (hgroups : groups.Sublist (extractedGroups crates decoders pow pos config tasks))
    (hcount : tasks.length < UInt32.size)
    (hmemory : (containerFile shardEpochs
      (extractedGroups crates decoders pow pos config tasks)).length < UInt64.size) :
    IsContainer (containerFile shardEpochs chunk) chunk := by
  have hsublist := hchunk.trans hgroups
  have hlength := hsublist.length_le
  have hpayloads : (payloadsOf chunk).length ≤
      (payloadsOf (extractedGroups crates decoders pow pos config tasks)).length :=
    (hsublist.flatMap _).length_le
  have htasks : (extractedGroups crates decoders pow pos config tasks).length ≤ tasks.length :=
    List.length_filterMap_le _ _
  rw [length_containerFile] at hmemory
  apply isContainer_containerFile
  · omega
  · have hentries := Nat.mul_le_mul_left dirEntryLen hlength
    omega

/-- The first groups tile the epochs from the first one on. -/
theorem tiles_of_taken {encoded : PackTask → Bytes × ℕ × ℕ} {startEpoch epochCount : UInt64}
    (hshard : 0 < shardEpochs) (hsum : startEpoch.toNat + epochCount.toNat < UInt64.size)
    (hcount : ∀ i, i < count ↔ i * shardEpochs.toNat < epochCount.toNat) (hm : m ≤ count)
    {groups : List PacketOut}
    (h : groups <+: firstGroups (packetAt encoded startEpoch epochCount shardEpochs) m) :
    (groups.Pairwise fun group group' => group.startEpoch < group'.startEpoch) ∧
      ∃ stop < UInt64.size, Tiles startEpoch.toNat
        (groups.map fun group => (group.startEpoch.toNat, group.epochCount.toNat)) stop := by
  obtain ⟨-, hgroups, -⟩ := packetAt_spec encoded hshard hsum hcount
  have hall : groups <+:
      firstGroups (packetAt encoded startEpoch epochCount shardEpochs) count := by
    refine h.trans ?_
    obtain ⟨k, rfl⟩ := Nat.exists_eq_add_of_le hm
    unfold firstGroups
    rw [List.range_add, List.map_append]
    exact List.prefix_append _ _
  have htiles : Tiles startEpoch.toNat
      ((firstGroups (packetAt encoded startEpoch epochCount shardEpochs) count).map fun group =>
        (group.startEpoch.toNat, group.epochCount.toNat))
      (startEpoch.toNat + epochCount.toNat) := by
    unfold firstGroups
    rw [List.map_map]
    exact tiles_taskAt hshard hsum hcount
  obtain ⟨rest, hrest⟩ := hall
  rw [← hrest, List.map_append] at htiles
  obtain ⟨stop, hstop, hbehind⟩ := htiles.of_append
  refine ⟨?_, stop, hbehind.le.trans_lt hsum, hstop⟩
  refine (List.pairwise_map.mp hstop.pairwise).imp_of_mem fun {group group'} hgroup _ hle => ?_
  have hmem : group ∈ firstGroups (packetAt encoded startEpoch epochCount shardEpochs) count :=
    hrest ▸ List.mem_append_left rest hgroup
  have hpos := (inRange_firstGroups (fun i hi => (hgroups i hi).1) group hmem).1
  rw [UInt64.lt_iff_toNat_lt] at hpos ⊢
  exact (Nat.lt_add_of_pos_right hpos).trans_le hle

/-- The files of the packer are collected in the order in which they are written. -/
theorem collectFiles_fileOf (hslash : '/' ∉ namePrefix.toList) {dir : String}
    {names : List FileName} (hne : ∀ chunk ∈ chunks, chunk ≠ [])
    (hsorted : chunks.flatten.Pairwise fun group group' => group.startEpoch < group'.startEpoch)
    (hchunks : chunks ≠ [])
    (hperm : names.Perm (chunks.map fun chunk => nameOf (fileOf namePrefix shardEpochs chunk))) :
    collectFiles dir names =
      .ok (chunks.map fun chunk => nameOf (fileOf namePrefix shardEpochs chunk)) := by
  have hsnd : (chunks.map fun chunk => ((chunk.head?.map (·.startEpoch)).getD 0,
      nameOf (fileOf namePrefix shardEpochs chunk))).map Prod.snd =
        chunks.map fun chunk => nameOf (fileOf namePrefix shardEpochs chunk) := by
    rw [List.map_map]
    rfl
  rw [← hsnd] at hperm ⊢
  apply collectFiles_of_pairwise _ _ _ hperm
  · intro entry hentry
    obtain ⟨chunk, -, rfl⟩ := List.mem_map.mp hentry
    exact startsAt_fileName ⟨namePrefix, hslash, _, _⟩
  · rw [List.map_map, List.pairwise_map]
    have hpairs := (List.pairwise_flatten.mp hsorted).2
    refine hpairs.imp_of_mem fun {chunk chunk'} hchunk hchunk' hlt => ?_
    obtain ⟨group, groups, rfl⟩ := List.exists_cons_of_ne_nil (hne chunk hchunk)
    obtain ⟨group', groups', rfl⟩ := List.exists_cons_of_ne_nil (hne chunk' hchunk')
    exact hlt group List.mem_cons_self group' List.mem_cons_self
  · simpa using hchunks

variable (crates decoders pow pos config fate namePrefix)

/-- **What a reader finds behind a run of the packer**, wherever it was interrupted. The files are
collected in the order of their epochs. All but the last are read, which is refused if it is cut
off. What is read are the groups from the first one on, each of which was extracted, and they pass
the checks of a reader that starts at any of them. Behind a run that has returned nothing is
missing. -/
theorem packedDirectory_read (shardEpochs targetBytes : UInt64) (jobs : ℕ)
    (hshard : 0 < shardEpochs) (hjobs : 0 < jobs)
    (hsum : config.startEpoch.toNat + config.epochCount.toNat < UInt64.size)
    (hslash : '/' ∉ namePrefix.toList) {tasks : List PackTask}
    (htasks : buildPackTasks crates.toProfile config.startEpoch config.epochCount shardEpochs =
      .ok tasks)
    (hcount : tasks.length < UInt32.size)
    (hmemory : (containerFile shardEpochs
      (extractedGroups crates decoders pow pos config tasks)).length < UInt64.size)
    {schedule : List WorkerPool.Actor} {p : PackRun}
    (hrun : Pipeline.run (packGroup crates decoders pow pos config)
      (packWriter crates fate namePrefix shardEpochs targetBytes) (runPacked tasks jobs) schedule =
        some p)
    {dir : String} {names : List FileName} (hnames : names.Perm ((packFiles p).map nameOf)) :
    (packFiles p ≠ [] → collectFiles dir names = .ok ((packFiles p).map nameOf)) ∧
      ∃ (whole torn : List File) (groups : List PacketOut)
        (read : List (List (UInt64 × UInt64 × Bytes))),
        packFiles p = whole ++ torn ∧ torn.length ≤ 1 ∧
        (∀ file ∈ torn, ∃ message,
          readContainer crates.toProfile file.2 = .error (.error message)) ∧
        whole.mapM (fun file => readContainer crates.toProfile file.2) = .ok read ∧
        read.flatten = groups.map PacketOut.entry ∧
        (tasks.take groups.length).mapM (packGroup crates decoders pow pos config) = .ok groups ∧
        (∀ k resumeHeight, (∀ group ∈ (groups.drop k).head?,
            resumeHeight = 0 ∨ resumeHeight.toNat + 1 = group.startEpoch.toNat) →
          Contiguous crates.toProfile resumeHeight (groups.drop k)) ∧
        ∀ summary, packResult p = some (.ok summary) →
          torn = [] ∧ groups.length = tasks.length := by
  obtain ⟨count, hindices, hbuild⟩ := buildPackTasks_eq crates.toProfile hshard hsum
  obtain rfl := Except.ok.inj (hbuild.symm.trans htasks)
  have hsound := (Pipeline.sound_start (packGroup crates decoders pow pos config)
    (packWriter crates fate namePrefix shardEpochs targetBytes) _ _ _).run hrun
  obtain ⟨m, hm, chunks, torn, hfiles, hcomplete⟩ := exists_packedFiles hshard hsum hindices hsound
  obtain ⟨whole, hne, hprefix, hnone, hcases⟩ := hfiles.whole_or_cut
  -- the groups fit into containers
  have hextracted : (firstGroups (packetAt (packEncoded crates decoders pow pos config)
      config.startEpoch config.epochCount shardEpochs) m).Sublist
        (extractedGroups crates decoders pow pos config
          ((List.range count).map (taskAt config.startEpoch config.epochCount shardEpochs))) :=
    sublist_extractedGroups hm hfiles.extracted
  have hcontainer : ∀ chunk, chunk.Sublist (firstGroups (packetAt
      (packEncoded crates decoders pow pos config) config.startEpoch config.epochCount shardEpochs)
        m) → IsContainer (containerFile shardEpochs chunk) chunk := fun chunk hchunk =>
    isContainer_of_sublist hchunk hextracted hcount hmemory
  have hread : (whole.map (fileOf namePrefix shardEpochs)).mapM
      (fun file => readContainer crates.toProfile file.2) =
        .ok (whole.map fun chunk => chunk.map PacketOut.entry) := by
    rw [mapM_eq_ok_iff, List.forall₂_map_left_iff, List.forall₂_map_right_iff, List.forall₂_same]
    intro chunk hchunk
    refine (hcontainer chunk ?_).readContainer_eq crates.toProfile
    exact (List.sublist_flatten_of_mem hchunk).trans hprefix.sublist
  have hflatten : (whole.map fun chunk => chunk.map PacketOut.entry).flatten =
      whole.flatten.map PacketOut.entry := List.map_flatten.symm
  obtain ⟨hsorted, stop, hstop, htiles⟩ := tiles_of_taken hshard hsum hindices hm hprefix
  have hcontiguous := contiguous_drop htiles hstop crates.toProfile
  have hworkers : (List.range count).map (taskAt config.startEpoch config.epochCount shardEpochs) ≠
      [] → 0 < min jobs ((List.range count).map (taskAt config.startEpoch config.epochCount
        shardEpochs)).length := fun hne => lt_min hjobs (List.length_pos_of_ne_nil hne)
  -- a run that has returned has cut no container off
  have hreturned : ∀ summary, packResult p = some (.ok summary) →
      packFiles p = whole.map (fileOf namePrefix shardEpochs) ∧ whole.flatten.length = count := by
    intro summary hresult
    obtain ⟨hnil, hall⟩ := hcomplete hworkers summary hresult
    obtain ⟨hsame, hpackFiles⟩ := hnone hnil
    refine ⟨hpackFiles, ?_⟩
    rw [hsame, hall]
    simp [firstGroups]
  rcases hcases with hwhole | ⟨chunk, n, hchunk, hcutPrefix, hn, hcut⟩
  · have hmap : (packFiles p).map nameOf =
        whole.map fun chunk => nameOf (fileOf namePrefix shardEpochs chunk) := by
      rw [hwhole, List.map_map]
      rfl
    rw [hmap] at hnames ⊢
    refine ⟨fun hfilesNe => ?_, whole.map (fileOf namePrefix shardEpochs), [], whole.flatten, _, ?_,
      by simp, by simp, hread, hflatten, mapM_take hm hfiles.extracted hprefix, hcontiguous,
      fun summary hresult => ⟨rfl, ?_⟩⟩
    · refine collectFiles_fileOf hslash hne hsorted ?_ hnames
      rintro rfl
      exact hfilesNe hwhole
    · rw [hwhole, List.append_nil]
    · rw [(hreturned summary hresult).2, List.length_map, List.length_range]
  · have hmap : (packFiles p).map nameOf =
        (whole ++ [chunk]).map fun chunk => nameOf (fileOf namePrefix shardEpochs chunk) := by
      rw [hcut, List.map_append, List.map_append, List.map_map]
      rfl
    rw [hmap] at hnames ⊢
    have hcutSorted := (tiles_of_taken hshard hsum hindices hm hcutPrefix).1
    refine ⟨fun _ => ?_, _, _, whole.flatten, _, hcut, le_rfl, ?_, hread, hflatten,
      mapM_take hm hfiles.extracted hprefix, hcontiguous, fun summary hresult => ?_⟩
    · refine collectFiles_fileOf hslash ?_ ?_ (by simp) hnames
      · intro chunk' hchunk'
        rcases List.mem_append.mp hchunk' with hmem | hmem
        · exact hne chunk' hmem
        · exact List.mem_singleton.mp hmem ▸ hchunk
      · rwa [List.flatten_append, List.flatten_singleton]
    · intro file hfile
      obtain rfl := List.mem_singleton.mp hfile
      refine (hcontainer chunk ?_).readContainer_take hchunk hn crates.toProfile
      exact (List.sublist_append_right _ _).trans hcutPrefix.sublist
    · have hlength := congrArg List.length (hcut.symm.trans (hreturned summary hresult).1)
      rw [List.length_append, List.length_singleton] at hlength
      omega

/-- The second of two containers cannot be flushed: it is refused, and the first one is read. -/
theorem packedDirectory_read_two :
    let fate : String → Fate := fun path =>
      if path = "epochs_2_2.cfxpack" then .unflushed 3 else .written
    ∃ p first torn groups,
      Pipeline.run (packGroup plainCrates plainDecoders plainShardDb plainPosDb plainConfig)
        (packWriter plainCrates fate "epochs" 1 1) (runPacked [⟨0, 1, 1⟩, ⟨1, 2, 1⟩] 1)
        [.worker 0, .worker 0, .worker 0, .worker 0, .worker 0, .reader, .reader] = some p ∧
      (packResult p).map (·.isOk) = some false ∧ packFiles p = [first, torn] ∧
      first.1 = "epochs_1_1.cfxpack" ∧ torn.1 = "epochs_2_2.cfxpack" ∧
      collectFiles "packs" [nameOf torn, nameOf first] = .ok [nameOf first, nameOf torn] ∧
      (∃ message, readContainer plainCrates.toProfile torn.2 = .error (.error message)) ∧
      readContainer plainCrates.toProfile first.2 = .ok (groups.map PacketOut.entry) ∧
      ([⟨0, 1, 1⟩, ⟨1, 2, 1⟩].take groups.length).mapM
        (packGroup plainCrates plainDecoders plainShardDb plainPosDb plainConfig) = .ok groups ∧
      Contiguous plainCrates.toProfile 0 groups := by
  intro fate
  have hruns : ((Pipeline.run
      (packGroup plainCrates plainDecoders plainShardDb plainPosDb plainConfig)
      (packWriter plainCrates fate "epochs" 1 1) (runPacked [⟨0, 1, 1⟩, ⟨1, 2, 1⟩] 1)
      [.worker 0, .worker 0, .worker 0, .worker 0, .worker 0, .reader, .reader]).any fun p =>
        (packResult p).map (·.isOk) = some false ∧ (packFiles p).map (fun file =>
          (file.1, (readContainer plainCrates.toProfile file.2).isOk)) =
            [("epochs_1_1.cfxpack", true), ("epochs_2_2.cfxpack", false)]) = true := by
    decide +kernel
  obtain ⟨p, hrun, hended⟩ := (Option.any_eq_true _ _).mp hruns
  obtain ⟨hresult, hfiles⟩ := of_decide_eq_true hended
  obtain ⟨first, rest, hfiles, hfirst, hrest⟩ := List.map_eq_cons_iff.mp hfiles
  obtain ⟨torn, rest', rfl, htorn, hrest'⟩ := List.map_eq_cons_iff.mp hrest
  obtain rfl := List.map_eq_nil_iff.mp hrest'
  obtain ⟨hfirstName, -⟩ := Prod.mk.inj hfirst
  obtain ⟨htornName, hrefused⟩ := Prod.mk.inj htorn
  have hnames : [nameOf torn, nameOf first].Perm ((packFiles p).map nameOf) := by
    rw [hfiles]
    exact List.Perm.swap _ _ _
  obtain ⟨hcollect, whole, cut, groups, read, hsplit, hcut, hcutRefused, hread, hflatten, hgroups,
      hcontiguous, -⟩ :=
    packedDirectory_read plainCrates plainDecoders plainShardDb plainPosDb plainConfig fate "epochs"
      1 1 1 (by decide) (by decide) (by decide) (by decide) rfl (by decide) (by decide +kernel) hrun
      hnames
  rw [hfiles] at hcollect hsplit
  -- a file that is refused is not one of those that are read
  obtain ⟨rfl, rfl⟩ : whole = [first] ∧ cut = [torn] := by
    rcases cut with _ | ⟨file, _ | ⟨_, _⟩⟩
    · rw [List.append_nil] at hsplit
      obtain ⟨_, hok⟩ := exists_of_mapM_eq_ok hread (hsplit ▸ List.mem_cons_of_mem _ List.mem_cons_self)
      rw [hok] at hrefused
      cases hrefused
    · obtain ⟨hwhole, htorn⟩ := List.append_inj' (show [first] ++ [torn] = _ from hsplit) rfl
      exact ⟨hwhole.symm, htorn.symm⟩
    · simp at hcut
  obtain ⟨entries, hentries, rfl⟩ : ∃ entries,
      readContainer plainCrates.toProfile first.2 = .ok entries ∧ [entries] = read := by
    simpa [Except.bind_eq_ok] using hread
  rw [List.flatten_singleton] at hflatten
  exact ⟨p, first, torn, groups, hrun, hresult, hfiles, hfirstName, htornName,
    hcollect (List.cons_ne_nil _ _), hcutRefused torn (List.mem_singleton_self _),
    hflatten ▸ hentries, hgroups, hcontiguous 0 0 fun _ _ => .inl rfl⟩

end Run

end Extractor
