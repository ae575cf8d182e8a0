import CfxMinimalExecution.Cfxpack.PlainCrates
import CfxMinimalExecution.Extractor.FlagPatch
import CfxMinimalExecution.Extractor.Pack
import CfxMinimalExecution.Library.Sections

/-!
# What a container file holds

## Main definitions

* `directoryOf base groups`: the directory of groups whose payloads start at `base`
* `containerFile shardEpochs groups`: the file that holds the groups

## Main results

* `Holds.containerBytes_eq`: what the writer writes for the groups that were pushed
* `parseDirectory_eq`, `parseContainer_eq`: the readers find the groups
* `parseDirectory_flushContainer`: the round trip
-/

namespace Extractor

open Cfxpack

/-- The directory of groups whose payloads start at `base`. -/
def directoryOf : ℕ → List PacketOut → Directory
  | _, [] => []
  | base, group :: groups =>
    (group.startEpoch, group.epochCount, base, group.bytes.length) ::
      directoryOf (base + group.bytes.length) groups

def payloadsOf (groups : List PacketOut) : Bytes := groups.flatMap (·.bytes)

def containerHeader (shardEpochs : UInt64) (groupCount : UInt32) : Bytes :=
  magic ++ leBytes 4 formatVersion.toNat ++ leBytes 4 groupCount.toNat ++
    leBytes 4 shardEpochs.toUInt32.toNat ++ leBytes 4 0

/-- The file that holds the groups. -/
def containerFile (shardEpochs : UInt64) (groups : List PacketOut) : Bytes :=
  let groupCount := UInt32.ofNat groups.length
  containerHeader shardEpochs groupCount ++
    (directoryOf (containerHeaderLen + dirEntryLen * groupCount.toNat) groups).flatMap
      dirEntryBytes ++
    payloadsOf groups

@[simp] theorem length_containerHeader (shardEpochs : UInt64) (groupCount : UInt32) :
    (containerHeader shardEpochs groupCount).length = containerHeaderLen := by
  simp [containerHeader, magic, containerHeaderLen]

@[simp] theorem length_directoryOf (base : ℕ) (groups : List PacketOut) :
    (directoryOf base groups).length = groups.length := by
  induction groups generalizing base with
  | nil => rfl
  | cons group groups ih => simp [directoryOf, ih]

/-! ## The writer -/

/-- The entries of the groups. -/
def entriesOf (groups : List PacketOut) : List DirEntry :=
  groups.map fun group => ⟨group.startEpoch, group.epochCount, group.bytes.length⟩

theorem foldl_writeDirEntry (written : Bytes) (base : ℕ) (groups : List PacketOut) :
    ((entriesOf groups).foldl writeDirEntry (written, base)).1 =
      written ++ (directoryOf base groups).flatMap dirEntryBytes := by
  induction groups generalizing written base with
  | nil => simp [entriesOf, directoryOf]
  | cons group groups ih =>
    have hstep := ih (writeDirEntry (written, base)
      ⟨group.startEpoch, group.epochCount, group.bytes.length⟩).1 (base + group.bytes.length)
    rw [directoryOf, List.flatMap_cons, ← List.append_assoc]
    simpa [entriesOf, writeDirEntry, dirEntryBytes] using hstep

/-- What a builder has collected. -/
structure Holds (builder : ContainerBuilder) (groups : List PacketOut) : Prop where
  startEpoch : builder.startEpoch = groups.head?.map (·.startEpoch)
  entries : builder.entries = entriesOf groups
  payloads : builder.payloads = groups.map (·.bytes)
  payloadBytes : builder.payloadBytes = (payloadsOf groups).length

theorem holds_default : Holds .default [] := ⟨rfl, rfl, rfl, rfl⟩

/-- A group is pushed. -/
theorem Holds.push {profile : Profile} {builder builder' : ContainerBuilder}
    {groups : List PacketOut} {packet : PacketOut} (h : Holds builder groups)
    (hpush : builder.push profile packet = .ok builder') : Holds builder' (groups ++ [packet]) := by
  simp only [ContainerBuilder.push, Except.bind_eq_ok, Except.pure_def, Except.ok.injEq] at hpush
  obtain ⟨_, -, _, -, _, -, rfl⟩ := hpush
  constructor
  · cases groups <;> simp [h.startEpoch]
  · simp [h.entries, entriesOf]
  · simp [h.payloads]
  · simp [h.payloadBytes, payloadsOf]

theorem Holds.of_foldlM {profile : Profile} {builder builder' : ContainerBuilder}
    {groups pushed : List PacketOut} (h : Holds builder groups)
    (hpush : pushed.foldlM (ContainerBuilder.push profile) builder = .ok builder') :
    Holds builder' (groups ++ pushed) := by
  induction pushed generalizing builder groups with
  | nil =>
    obtain rfl : builder = builder' := Except.ok.inj hpush
    simpa using h
  | cons packet pushed ih =>
    rw [List.foldlM_cons, Except.bind_eq_ok] at hpush
    obtain ⟨builder₁, hfirst, hrest⟩ := hpush
    simpa using ih (h.push hfirst) hrest

/-- **What the writer writes** for the groups of a builder. -/
theorem Holds.containerBytes_eq {builder : ContainerBuilder} {groups : List PacketOut}
    (h : Holds builder groups) (shardEpochs : UInt64) :
    containerBytes shardEpochs builder = containerFile shardEpochs groups := by
  have hlen : (entriesOf groups).length = groups.length := by simp [entriesOf]
  simp only [containerBytes, containerFile, payloadBase, hlen, h.entries, h.payloads,
    foldl_writeDirEntry, payloadsOf, List.flatMap, containerHeader]

/-! ## The readers -/

/-- The patcher reads an entry without its epochs. -/
theorem reads_span {profile : Profile} {data : Bytes} {entry : UInt64 × UInt64 × ℕ × ℕ}
    (hle : entry.2.2.1 + entry.2.2.2 ≤ data.length) (hsize : data.length < UInt64.size) :
    Reads data (readSpan profile data) (dirEntryBytes entry) entry.2.2 := by
  intro pos rest hdrop
  have hpos := add_length_le_of_drop_eq hdrop (by simp [dirEntryBytes, leBytes])
  rw [length_dirEntryBytes] at hpos ⊢
  have hoffset : entry.2.2.1 < UInt64.size := by omega
  have hlength : entry.2.2.2 < UInt64.size := by omega
  obtain ⟨-, -, hoff, hlen⟩ := fields_of_drop hdrop hoffset hlength
  have hstop : profile.addUsize entry.2.2.1 entry.2.2.2 = .ok (entry.2.2.1 + entry.2.2.2) :=
    Profile.addUsize_of_lt (by omega)
  simp [readSpan, ensure_of hpos, hoff, hlen, UInt64.toNat_ofNat_of_lt' hoffset,
    UInt64.toNat_ofNat_of_lt' hlength, hstop, ensure_of hle]

theorem tiles_directoryOf (base : ℕ) (groups : List PacketOut) :
    Tiles base ((directoryOf base groups).map (·.2.2)) (base + (payloadsOf groups).length) := by
  induction groups generalizing base with
  | nil => exact rfl
  | cons group groups ih =>
    have hrest := ih (base + group.bytes.length)
    rw [Nat.add_assoc, ← List.length_append] at hrest
    exact ⟨rfl, hrest⟩

/-- Every entry of the directory has the start epoch and the epoch count of its group, and the
bytes of its packet stand at its offset. -/
theorem forall₂_directoryOf {data : Bytes} {base : ℕ} {groups : List PacketOut} {pre : Bytes}
    (hdata : data = pre ++ payloadsOf groups) (hbase : pre.length = base) :
    List.Forall₂ (fun (group : PacketOut) (entry : UInt64 × UInt64 × ℕ × ℕ) =>
      entry.1 = group.startEpoch ∧ entry.2.1 = group.epochCount ∧
        slice data entry.2.2.1 (entry.2.2.1 + entry.2.2.2) = .ok group.bytes)
      groups (directoryOf base groups) := by
  induction groups generalizing base pre with
  | nil => exact .nil
  | cons group groups ih =>
    subst hbase
    have hsplit : data = pre ++ group.bytes ++ payloadsOf groups := by
      rw [hdata]
      simp [payloadsOf]
    exact .cons ⟨rfl, rfl, slice_append hsplit⟩ (ih hsplit (by simp))

/-- What the readers find in a file. -/
structure IsContainer (data : Bytes) (groups : List PacketOut) : Prop where
  headerLen_le : containerHeaderLen ≤ data.length
  take_magic : data.take 8 = magic
  groupCount : u32FromLe data 12 = .ok (UInt32.ofNat groups.length)
  drop_directory : data.drop containerHeaderLen =
    (directoryOf (containerHeaderLen + dirEntryLen * groups.length) groups).flatMap dirEntryBytes ++
      payloadsOf groups
  length_lt : groups.length < UInt32.size
  length_eq : data.length =
    containerHeaderLen + dirEntryLen * groups.length + (payloadsOf groups).length
  size : data.length < UInt64.size

theorem length_containerFile (shardEpochs : UInt64) (groups : List PacketOut) :
    (containerFile shardEpochs groups).length =
      containerHeaderLen + dirEntryLen * groups.length + (payloadsOf groups).length := by
  rw [containerFile, List.length_append, List.length_append, length_containerHeader,
    length_flatMap_of_length length_dirEntryBytes, length_directoryOf, Nat.mul_comm]

theorem isContainer_containerFile {groups : List PacketOut} (shardEpochs : UInt64)
    (hcount : groups.length < UInt32.size)
    (hsize : containerHeaderLen + dirEntryLen * groups.length + (payloadsOf groups).length <
      UInt64.size) : IsContainer (containerFile shardEpochs groups) groups := by
  have hlen := length_containerFile shardEpochs groups
  have hword : (UInt32.ofNat groups.length).toNat = groups.length :=
    UInt32.toNat_ofNat_of_lt' hcount
  constructor
  · omega
  · simp [containerFile, containerHeader, magic]
  · have hpre : (magic ++ leBytes 4 formatVersion.toNat).length = 12 := by simp [magic]
    apply u32FromLe_of_drop
    rw [containerFile, containerHeader, hword]
    simp only [List.append_assoc]
    rw [← List.append_assoc magic]
    exact List.drop_left' hpre
  · have hpre := length_containerHeader shardEpochs (UInt32.ofNat groups.length)
    rw [containerFile, List.append_assoc, hword]
    exact List.drop_left' hpre
  · exact hcount
  · exact hlen
  · rw [hlen]
    exact hsize

namespace IsContainer

variable {data : Bytes} {groups : List PacketOut} (h : IsContainer data groups)

include h

theorem drop_payloads :
    data.drop (containerHeaderLen + dirEntryLen * groups.length) = payloadsOf groups := by
  have hdrop := drop_add_of_drop_eq h.drop_directory
  rwa [length_flatMap_of_length length_dirEntryBytes, length_directoryOf, Nat.mul_comm] at hdrop

/-- Every group is found by its entry. -/
theorem forall₂_directoryOf :
    List.Forall₂ (fun (group : PacketOut) (entry : UInt64 × UInt64 × ℕ × ℕ) =>
      entry.1 = group.startEpoch ∧ entry.2.1 = group.epochCount ∧
        slice data entry.2.2.1 (entry.2.2.1 + entry.2.2.2) = .ok group.bytes)
      groups (directoryOf (containerHeaderLen + dirEntryLen * groups.length) groups) := by
  have hle := h.length_eq
  have hsplit : data = data.take (containerHeaderLen + dirEntryLen * groups.length) ++
      payloadsOf groups := by rw [← h.drop_payloads, List.take_append_drop]
  refine Extractor.forall₂_directoryOf hsplit ?_
  rw [List.length_take]
  omega

/-- Every payload of the directory lies within the file. -/
theorem entry_le : ∀ entry ∈ directoryOf (containerHeaderLen + dirEntryLen * groups.length) groups,
    entry.2.2.1 + entry.2.2.2 ≤ data.length := by
  intro entry hentry
  have htiles := tiles_directoryOf (containerHeaderLen + dirEntryLen * groups.length) groups
  rw [← h.length_eq] at htiles
  exact htiles.le_stop _ (List.mem_map_of_mem hentry)

/-- **The directory is read back.** -/
theorem parseDirectory_eq (profile : Profile) : parseDirectory profile data =
    .ok (directoryOf (containerHeaderLen + dirEntryLen * groups.length) groups) := by
  have hword : (UInt32.ofNat groups.length).toNat = groups.length :=
    UInt32.toNat_ofNat_of_lt' h.length_lt
  have hloop : Reads data _ _ _ := Reads.mapM_const (l := List.range groups.length)
    (r := readDirEntry profile data) (b := id) (by simp)
    fun entry hentry => reads_dirEntry (h.entry_le entry hentry) h.size
  have hrun := hloop _ _ h.drop_directory
  simp [parseDirectory, ensure_of (And.intro h.headerLen_le h.take_magic), h.groupCount, hword, hrun]

/-- **The patcher reads the same directory.** -/
theorem parseContainer_eq (profile : Profile) : parseContainer profile data =
    .ok ((directoryOf (containerHeaderLen + dirEntryLen * groups.length) groups).map (·.2.2)) := by
  have hword : (UInt32.ofNat groups.length).toNat = groups.length :=
    UInt32.toNat_ofNat_of_lt' h.length_lt
  have hloop : Reads data _ _ _ := Reads.mapM_const (l := List.range groups.length)
    (r := readSpan profile data) (b := fun entry => entry.2.2) (by simp)
    fun entry hentry => reads_span (h.entry_le entry hentry) h.size
  have hrun := hloop _ _ h.drop_directory
  simp [parseContainer, ensure_of (And.intro h.headerLen_le h.take_magic), h.groupCount, hword, hrun]

end IsContainer

/-- A flush writes the groups of the builder. -/
theorem Holds.flushContainer_eq {builder : ContainerBuilder} {groups : List PacketOut}
    (h : Holds builder groups) (hne : groups ≠ []) (profile : Profile) (namePrefix : String)
    (shardEpochs : UInt64) : ∃ path, ∀ summary written,
      (∀ writer, flushContainer profile namePrefix shardEpochs ⟨builder, summary, written⟩ =
        .ok writer → writer.written = written ++ [(path, containerFile shardEpochs groups)]) ∧
      (summary.epochCount.toNat + builder.epochCount.toNat < UInt64.size →
        ∃ writer, flushContainer profile namePrefix shardEpochs ⟨builder, summary, written⟩ =
          .ok writer) := by
  obtain ⟨group, groups, rfl⟩ := List.exists_cons_of_ne_nil hne
  have hstart : builder.startEpoch = some group.startEpoch := h.startEpoch
  refine ⟨containerPath namePrefix group.startEpoch builder.endEpoch, fun summary written => ?_⟩
  simp only [flushContainer, hstart, h.containerBytes_eq]
  constructor
  · intro writer hflush
    rw [Except.bind_eq_ok] at hflush
    obtain ⟨_, -, hwriter⟩ := hflush
    rw [← Except.ok.inj hwriter]
  · intro hsum
    rw [Profile.addU64_of_lt hsum]
    exact ⟨_, rfl⟩

/-- **The container round trip.** The groups that are pushed and flushed are found by both readers
of the directory, in order, each with its epochs and the bytes of its packet. The slices of the
packets are disjoint and cover the file after the directory. -/
theorem parseDirectory_flushContainer (profile : Profile) (namePrefix : String)
    (shardEpochs : UInt64) (groups : List PacketOut) (builder : ContainerBuilder)
    (hne : groups ≠ [])
    (hpush : groups.foldlM (ContainerBuilder.push profile) .default = .ok builder)
    (hcount : groups.length < UInt32.size)
    (hsize : containerHeaderLen + dirEntryLen * groups.length + (payloadsOf groups).length <
      UInt64.size) :
    ∃ path data directory,
      (∀ summary written,
        (∀ writer, flushContainer profile namePrefix shardEpochs ⟨builder, summary, written⟩ =
          .ok writer → writer.written = written ++ [(path, data)]) ∧
        (summary.epochCount.toNat + builder.epochCount.toNat < UInt64.size →
          ∃ writer, flushContainer profile namePrefix shardEpochs ⟨builder, summary, written⟩ =
            .ok writer)) ∧
      parseDirectory profile data = .ok directory ∧
      List.Forall₂ (fun (group : PacketOut) (entry : UInt64 × UInt64 × ℕ × ℕ) =>
        entry.1 = group.startEpoch ∧ entry.2.1 = group.epochCount ∧
          slice data entry.2.2.1 (entry.2.2.1 + entry.2.2.2) = .ok group.bytes) groups directory ∧
      directory.Pairwise (fun entry entry' => entry.2.2.1 + entry.2.2.2 ≤ entry'.2.2.1) ∧
      (∀ entry ∈ directory, containerHeaderLen + dirEntryLen * groups.length ≤ entry.2.2.1) ∧
      (∀ pos, containerHeaderLen + dirEntryLen * groups.length ≤ pos → pos < data.length →
        ∃ entry ∈ directory, entry.2.2.1 ≤ pos ∧ pos < entry.2.2.1 + entry.2.2.2) ∧
      parseContainer profile data = .ok (directory.map (·.2.2)) := by
  -- the file is the container of the groups
  have hholds := holds_default.of_foldlM hpush
  rw [List.nil_append] at hholds
  have hfile := isContainer_containerFile shardEpochs hcount hsize
  -- whose payloads tile what follows the directory
  have htiles := tiles_directoryOf (containerHeaderLen + dirEntryLen * groups.length) groups
  rw [← hfile.length_eq] at htiles
  obtain ⟨path, hflush⟩ := hholds.flushContainer_eq hne profile namePrefix shardEpochs
  refine ⟨path, _, _, hflush, hfile.parseDirectory_eq profile, hfile.forall₂_directoryOf,
    List.pairwise_map.mp htiles.pairwise, ?_, ?_, hfile.parseContainer_eq profile⟩
  · exact fun entry hentry => htiles.start_le _ (List.mem_map_of_mem hentry)
  · intro pos hstart hstop
    obtain ⟨span, hspan, hpos⟩ := htiles.covers hstart hstop
    obtain ⟨entry, hentry, rfl⟩ := List.mem_map.mp hspan
    exact ⟨entry, hentry, hpos⟩

/-- Two groups, the second without bytes. -/
theorem parseDirectory_flushContainer_two :
    ∃ data directory, parseDirectory ⟨true⟩ data = .ok directory ∧
      directory.map (·.1) = [5, 7] ∧ parseContainer ⟨true⟩ data = .ok (directory.map (·.2.2)) := by
  obtain ⟨_, data, directory, -, hparse, hgroups, -, -, -, hsame⟩ :=
    parseDirectory_flushContainer ⟨true⟩ "epochs" 2 [⟨0, 5, 2, 3, 4, [1, 2]⟩, ⟨1, 7, 1, 0, 0, []⟩]
      ⟨some 5, 7, [⟨5, 2, 2⟩, ⟨7, 1, 0⟩], [[1, 2], []], 2, 3, 3, 4⟩ (by simp) rfl (by decide)
      (by decide)
  refine ⟨data, directory, hparse, ?_, hsame⟩
  obtain ⟨first, rest, hfirst, hrest, rfl⟩ := List.forall₂_cons_left_iff.mp hgroups
  obtain ⟨second, last, hsecond, hlast, rfl⟩ := List.forall₂_cons_left_iff.mp hrest
  obtain rfl := List.forall₂_nil_left_iff.mp hlast
  simp [hfirst.1, hsecond.1]

/-! ## A container of two packets -/

def plainGroup : PacketOut := ⟨0, 5, 1, 1, 0, plainBytes⟩

def transferGroup : PacketOut := ⟨1, 6, 2, 2, 3, transferBytes⟩

theorem encodes_plainGroup : List.Forall₂ (fun packet (group : PacketOut) =>
    encodePacket plainCrates packet = .ok group.bytes) [plainPacket, transferPacket 10]
      [plainGroup, transferGroup] := by
  simp only [List.forall₂_cons, List.forall₂_nil_left_iff, plainGroup, transferGroup,
    encodePacket_plainPacket, encodePacket_transferPacket, and_self]

/-- The builder that holds both groups. -/
def plainBuilder : ContainerBuilder where
  startEpoch := some 5
  endEpoch := 7
  entries := [⟨5, 1, plainBytes.length⟩, ⟨6, 2, transferBytes.length⟩]
  payloads := [plainBytes, transferBytes]
  payloadBytes := 0 + plainBytes.length + transferBytes.length
  epochCount := 3
  blockCount := 3
  transactionCount := 3

theorem foldlM_push_plainGroup :
    [plainGroup, transferGroup].foldlM (ContainerBuilder.push ⟨true⟩) .default =
      .ok plainBuilder := by
  unfold plainGroup transferGroup plainBuilder
  generalize plainBytes = b
  generalize transferBytes = b'
  simp (disch := decide) only [List.foldlM_cons, List.foldlM_nil, ContainerBuilder.push,
    ContainerBuilder.default, Profile.addU64_of_lt, Profile.subU64_of_le, Except.ok_bind,
    Except.pure_def]
  rfl

theorem length_payloadsOf_plainGroup :
    containerHeaderLen + dirEntryLen * [plainGroup, transferGroup].length +
      (payloadsOf [plainGroup, transferGroup]).length < UInt64.size := by
  simp [payloadsOf, plainGroup, transferGroup, length_plainBytes, length_transferBytes,
    containerHeaderLen, dirEntryLen, UInt64.size]

end Extractor
