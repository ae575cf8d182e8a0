import CfxMinimalExecution.Cfxpack.EncodeErrors
import CfxMinimalExecution.Extractor.Collected

/-!
# The packets that are extracted

## Main definitions

* `Lowered`: a block as it is lowered from what is read
* `Preconditions`: what the encoder relies on

## Main results

* `validInput_of_runs`: the checks of the encoder pass
* `preconditions_packetOf`: an extracted packet has what the encoder relies on
-/

namespace Extractor

open Cfxpack

variable {T : PrimitiveTypes} {crates : Crates T} {decoders : Decoders T} {pow : PowDb}
  {pos : PosDb} {config : ExtractConfig}

/-! ## The blocks -/

/-- A block as it is lowered from what is read. -/
structure Lowered (config : ExtractConfig) (posBlocks : Assoc H256 CommittedBlock)
    (raw : RawBlock T) (block : Block T) : Prop where
  epoch : block.epoch = raw.epoch
  hash : block.hash = raw.hash
  flags : block.flags = raw.flags
  author : block.author = raw.header.author
  timestamp : block.timestamp = raw.header.timestamp
  difficulty : block.difficulty = raw.header.difficulty
  height : block.height = raw.header.height
  transactions : block.transactions = raw.body
  transactionRefs : block.transactionRefs = []
  posView : block.posView = ((effectivePosReference raw.header
    config.chain.posReferenceEnableHeight).bind fun posRef => posBlocks.get posRef).map (·.view)

/-- The same block, up to what the PoS chain pays. -/
def Attached (block attached : Block T) : Prop :=
  ∃ posRewards unlockEvents, attached = { block with posRewards, unlockEvents }

theorem Attached.refl (block : Block T) : Attached block block :=
  ⟨block.posRewards, block.unlockEvents, rfl⟩

theorem Lowered.attached {posBlocks : Assoc H256 CommittedBlock} {raw : RawBlock T}
    {block attached : Block T} (h : Lowered config posBlocks raw block)
    (hattached : Attached block attached) : Lowered config posBlocks raw attached := by
  obtain ⟨posRewards, unlockEvents, rfl⟩ := hattached
  exact { h with }

/-- **The blocks are lowered in order**, and numbered. -/
theorem buildBlockInputs_spec {posBlocks : Assoc H256 CommittedBlock} {raws : List (RawBlock T)}
    {blocks : List (Block T)}
    (h : buildBlockInputs decoders config pow posBlocks raws = .ok blocks) :
    List.Forall₂ (Lowered config posBlocks) raws blocks ∧
      blocks.map (·.index) = List.range blocks.length := by
  have hrounds := mapM_eq_ok_iff.mp h
  have hlowered : List.Forall₂ (fun entry block =>
      Lowered config posBlocks entry.1 block ∧ block.index = entry.2) raws.zipIdx blocks := by
    refine hrounds.imp fun entry block hround => ?_
    obtain ⟨raw, index⟩ := entry
    simp only [buildBlockInput, Except.bind_eq_ok, Except.pure_def, Except.ok.injEq] at hround
    obtain ⟨finalizedEpoch, -, rfl⟩ := hround
    exact ⟨⟨rfl, rfl, rfl, rfl, rfl, rfl, rfl, rfl, rfl, rfl⟩, rfl⟩
  constructor
  · have hraws : raws.zipIdx.map Prod.fst = raws := List.zipIdx_map_fst 0 raws
    rw [← hraws, List.forall₂_map_left_iff]
    exact hlowered.imp fun entry block hround => hround.1
  · have hlen : blocks.length = raws.length := by
      rw [← hlowered.length_eq, List.length_zipIdx]
    have hindices : raws.zipIdx.map Prod.snd = List.range raws.length := by
      rw [List.zipIdx_map_snd, List.range_eq_range']
    rw [hlen, ← hindices]
    exact (hlowered.map_eq_map fun entry block hround => hround.2.symm).symm

/-! ## The runs of blocks -/

/-- The reserved bit is free, and the pivots are marked. -/
theorem blockFlags_spec {header : BlockHeader} {reward : BlockRewardResult} {pivot : Bool}
    {skipped : List H256} {hash : H256} {flags : UInt8}
    (h : blockFlags config header reward pivot skipped hash = .ok flags) :
    flags &&& 0b10000000 = 0 ∧ decide (flags &&& flagPivot ≠ 0) = pivot := by
  have hall : ∀ adaptive pivot espace skipped zero : Bool,
      let flags := if adaptive then flagAdaptive else 0
      let flags := if pivot then flags ||| flagPivot else flags
      let flags := if espace then flags ||| flagEspace else flags
      let flags := if skipped then flags ||| flagSkippedExecution else flags
      let flags := if zero then flags ||| flagZeroTotalReward else flags
      flags &&& 0b10000000 = 0 ∧ decide (flags &&& flagPivot ≠ 0) = pivot := by
    decide
  cases pivot with
  | false =>
    obtain rfl := Except.ok.inj h
    simpa using hall header.adaptive false false (hash ∈ skipped) (reward.totalReward = 0)
  | true =>
    simp only [blockFlags, if_true, Except.bind_eq_ok, Except.pure_def, Except.ok.injEq] at h
    obtain ⟨espace, -, rfl⟩ := h
    simpa using hall header.adaptive true espace (hash ∈ skipped) (reward.totalReward = 0)

/-- Whether a block is read as a pivot. -/
def RawBlock.isPivot (raw : RawBlock T) : Bool := raw.flags &&& flagPivot ≠ 0

/-- The pivots of an epoch have its number as their height. -/
def PivotHeights (decoders : Decoders T) (pow : PowDb) (epochs : List EpochBlocks) : Prop :=
  ∀ epoch ∈ epochs, ∀ pivotHash ∈ epoch.executed.getLast?, ∀ header,
    readHeader decoders pow pivotHash = .ok header → header.height = epoch.number

/-- **An epoch is a run** that ends at its pivot. -/
theorem IsRawEpoch.exists_run {epoch : EpochBlocks} {raws : List (RawBlock T)}
    (h : IsRawEpoch decoders pow config epoch raws)
    (hnodup : (epoch.executed ++ epoch.skipped).Nodup) :
    ∃ members last, raws = members ++ [last] ∧ last.isPivot ∧ (∀ raw ∈ members, ¬ raw.isPivot) ∧
      (∃ pivotHash ∈ epoch.executed.getLast?, readHeader decoders pow pivotHash = .ok last.header) ∧
      ∀ raw ∈ members ++ [last], raw.epoch = epoch.number ∧ raw.flags &&& 0b10000000 = 0 := by
  obtain ⟨pivotHash, hpivot, hall⟩ := h
  obtain ⟨members, last, rfl, hmembers, hlast⟩ := List.Forall₂.exists_concat hall
  have hexecuted : epoch.executed = epoch.executed.dropLast ++ [pivotHash] :=
    (List.dropLast_append_getLast? pivotHash hpivot).symm
  have hnotMem : pivotHash ∉ epoch.executed.dropLast ++ epoch.skipped := by
    rw [hexecuted, List.append_assoc] at hnodup
    exact (List.nodup_cons.mp (List.nodup_middle.mp hnodup)).1
  refine ⟨members, last, rfl, ?_, fun raw hraw => ?_, ⟨pivotHash, hpivot, hlast.header⟩,
    fun raw hraw => ?_⟩
  · simpa [RawBlock.isPivot] using (blockFlags_spec hlast.flags).2
  · obtain ⟨hash, hhash, hisRaw⟩ := hmembers.exists_left hraw
    have hne : hash ≠ pivotHash := fun heq => hnotMem (heq ▸ hhash)
    have hmark := (blockFlags_spec hisRaw.flags).2
    rw [RawBlock.isPivot, hmark]
    simpa using hne
  · obtain ⟨hash, -, hisRaw⟩ := hall.exists_left hraw
    exact ⟨hisRaw.epoch_eq, (blockFlags_spec hisRaw.flags).1⟩

/-- An epoch has a block. -/
theorem IsRawEpoch.ne_nil {epoch : EpochBlocks} {raws : List (RawBlock T)}
    (h : IsRawEpoch decoders pow config epoch raws) : raws ≠ [] := by
  obtain ⟨pivotHash, -, hall⟩ := h
  obtain ⟨members, last, rfl, -, -⟩ := List.Forall₂.exists_concat hall
  simp

theorem IsRawEpoch.flatten_ne_nil {epoch : EpochBlocks} {raws : List (RawBlock T)}
    {groups : List (List (RawBlock T))} (h : IsRawEpoch decoders pow config epoch raws) :
    (raws :: groups).flatten ≠ [] := by
  rw [List.flatten_cons]
  exact List.append_ne_nil_of_left_ne_nil h.ne_nil _

/-- The first block is of the first epoch. -/
theorem IsRawEpoch.epoch_head? {epoch : EpochBlocks} {raws : List (RawBlock T)}
    {groups : List (List (RawBlock T))} (h : IsRawEpoch decoders pow config epoch raws) :
    ∀ first ∈ (raws :: groups).flatten.head?, first.epoch = epoch.number := by
  intro first hfirst
  rcases raws with _ | ⟨raw, raws⟩
  · exact absurd rfl h.ne_nil
  · obtain rfl := Option.some.inj hfirst
    obtain ⟨pivotHash, -, hall⟩ := h
    obtain ⟨hash, -, hisRaw⟩ := hall.exists_left List.mem_cons_self
    exact hisRaw.epoch_eq

/-- **The epochs are runs** that end at their pivots. -/
theorem exists_runs {epochs : List EpochBlocks} {raws : List (List (RawBlock T))}
    (h : List.Forall₂ (IsRawEpoch decoders pow config) epochs raws)
    (hnodup : ∀ epoch ∈ epochs, (epoch.executed ++ epoch.skipped).Nodup)
    (hheights : PivotHeights decoders pow epochs) :
    ∃ runs, raws.flatten = List.ungroup runs ∧ List.Grouped RawBlock.isPivot runs ∧
      ∀ run ∈ runs, ∀ raw ∈ run.1 ++ [run.2], raw.epoch = run.2.header.height := by
  induction h with
  | nil => exact ⟨[], rfl, nofun, nofun⟩
  | @cons epoch group epochs raws hepoch _ ih =>
    obtain ⟨runs, hruns, hgrouped, hrunEpochs⟩ := ih
      (fun epoch' hmem => hnodup epoch' (List.mem_cons_of_mem epoch hmem))
      (fun epoch' hmem => hheights epoch' (List.mem_cons_of_mem epoch hmem))
    obtain ⟨members, last, rfl, hlast, hmembers, ⟨pivotHash, hpivot, hheader⟩, hall⟩ :=
      hepoch.exists_run (hnodup epoch List.mem_cons_self)
    have hheight := hheights epoch List.mem_cons_self pivotHash hpivot last.header hheader
    refine ⟨(members, last) :: runs, ?_, fun run hrun => ?_, fun run hrun raw hraw => ?_⟩
    · rw [List.flatten_cons, hruns, List.ungroup_cons, List.append_assoc]
      rfl
    · rcases List.mem_cons.mp hrun with rfl | hrun
      · exact ⟨hlast, hmembers⟩
      · exact hgrouped run hrun
    · rcases List.mem_cons.mp hrun with rfl | hrun
      · exact (hall raw hraw).1.trans hheight.symm
      · exact hrunEpochs run hrun raw hraw

/-- What the checks of the runs read of a block. -/
def blockMark (block : Block T) : Bool × UInt64 × UInt64 :=
  (block.has flagPivot, block.epoch, block.height)

def rawMark (raw : RawBlock T) : Bool × UInt64 × UInt64 :=
  (raw.isPivot, raw.epoch, raw.header.height)

theorem Lowered.mark_eq {posBlocks : Assoc H256 CommittedBlock} {raw : RawBlock T}
    {block : Block T} (h : Lowered config posBlocks raw block) : rawMark raw = blockMark block := by
  rw [rawMark, blockMark, RawBlock.isPivot, Block.has, h.flags, h.epoch, h.height]

/-- **The checks of the encoder pass** for blocks that are lowered from runs. -/
theorem validInput_of_runs {packet : Packet T} {posBlocks : Assoc H256 CommittedBlock}
    {raws : List (RawBlock T)} {runs : List (List (RawBlock T) × RawBlock T)}
    (hlowered : List.Forall₂ (Lowered config posBlocks) raws packet.blocks)
    (hindices : packet.blocks.map (·.index) = List.range packet.blocks.length)
    (hruns : raws = List.ungroup runs) (hgrouped : List.Grouped RawBlock.isPivot runs)
    (hepochs : ∀ run ∈ runs, ∀ raw ∈ run.1 ++ [run.2], raw.epoch = run.2.header.height)
    (hreserved : ∀ raw ∈ raws, raw.flags &&& 0b10000000 = 0) (hnonempty : raws ≠ [])
    (hfirst : ∀ first ∈ raws.head?, first.epoch.toNat + packetEpochs.toNat < UInt64.size) :
    ValidInput packet := by
  -- the blocks and what they are lowered from are cut in the same way
  have hmarks : raws.map rawMark = packet.blocks.map blockMark :=
    hlowered.map_eq_map fun raw block h => h.mark_eq
  have hgroups : List.groups RawBlock.isPivot raws = (runs, []) :=
    hruns ▸ List.groups_ungroup hgrouped
  have hrawMark : ∀ raw : RawBlock T, (rawMark raw).1 = raw.isPivot := fun _ => rfl
  have hblockMark : ∀ block : Block T, (blockMark block).1 = block.has flagPivot := fun _ => rfl
  have hcut := List.groups_map hblockMark packet.blocks
  rw [← hmarks, List.groups_map hrawMark, hgroups, Prod.mk.injEq] at hcut
  obtain ⟨hcutRuns, hcutRest⟩ := hcut
  refine ⟨fun hempty => ?_, fun first hhead => ?_, fun i block hblock => ?_, fun block hblock => ?_,
    fun group hgroup block hblock => ?_, ?_⟩
  · rw [hempty] at hlowered
    exact hnonempty (List.forall₂_nil_right_iff.mp hlowered)
  · rcases raws with _ | ⟨raw, raws⟩
    · exact absurd rfl hnonempty
    · obtain ⟨block, blocks, hraw, -, hblocks⟩ := List.forall₂_cons_left_iff.mp hlowered
      rw [hblocks] at hhead
      obtain rfl := Option.some.inj hhead
      rw [hraw.epoch]
      exact hfirst raw rfl
  · have hindex := congrArg (·[i]?) hindices
    obtain ⟨hi, rfl⟩ := List.getElem?_eq_some_iff.mp hblock
    simpa [hi] using hindex
  -- the reserved bit of the flags is what the raw blocks leave clear
  · obtain ⟨raw, hraw, h⟩ := hlowered.exists_left hblock
    rw [h.flags]
    exact hreserved raw hraw
  · have hmem : (group.1.map blockMark, blockMark group.2) ∈
        (List.groups (·.has flagPivot) packet.blocks).1.map
          fun group => (group.1.map blockMark, blockMark group.2) := List.mem_map_of_mem hgroup
    rw [← hcutRuns] at hmem
    obtain ⟨run, hrun, heq⟩ := List.mem_map.mp hmem
    obtain ⟨hmembers, hlast⟩ := Prod.mk.inj heq
    have hmemMark : blockMark block ∈ (run.1 ++ [run.2]).map rawMark := by
      rw [List.map_append, hmembers, List.map_singleton, hlast, ← List.map_singleton,
        ← List.map_append]
      exact List.mem_map_of_mem hblock
    obtain ⟨raw, hraw, hmark⟩ := List.mem_map.mp hmemMark
    have hepoch : raw.epoch = block.epoch := congrArg (·.2.1) hmark
    have hheight : run.2.header.height = group.2.height := congrArg (·.2.2) hlast
    rw [← hepoch, ← hheight]
    exact hepochs run hrun raw hraw
  · exact List.map_eq_nil_iff.mp hcutRest.symm

/-! ## The packet -/

/-- What the encoder relies on. -/
structure Preconditions (primitives : Primitives T) (decoders : Decoders T) (pow : PowDb)
    (config : ExtractConfig) (packet : Packet T) : Prop where
  nodup_addresses : packet.addresses.Nodup
  author : ∀ block ∈ packet.blocks, block.author ∈ packet.addresses
  sender : ∀ block ∈ packet.blocks, ∀ tx ∈ block.transactions, tx.sender ∈ packet.addresses
  target : ∀ block ∈ packet.blocks, ∀ tx ∈ block.transactions, ∀ address,
    (primitives.fields tx.unsigned).action = .call address → address ∈ packet.addresses
  destination : ∀ block ∈ packet.blocks, ∀ tx ∈ block.transactions, ∀ unsigned,
    tx.unsigned = .ethereum (.eip7702 unsigned) → unsigned.destination ∈ packet.addresses
  difficulty : ∀ block ∈ packet.blocks, block.difficulty ∈ packet.difficulties
  minTimestamp_le : ∀ block ∈ packet.blocks, packet.minTimestamp ≤ block.timestamp
  minHeight_le : ∀ block ∈ packet.blocks, packet.minHeight ≤ block.height
  minPosHeight_le : ∀ block ∈ packet.blocks, ∀ view ∈ block.posView, packet.minPosHeight ≤ view
  nodup_senderIndex : (packet.senderBaseNonces.map (·.senderIndex)).Nodup
  baseNonce_le : ∀ entry ∈ packet.senderBaseNonces, ∃ sender,
    packet.addresses[entry.senderIndex.toNat]? = some sender ∧
      ∀ block ∈ packet.blocks, ∀ tx ∈ block.transactions, tx.sender = sender →
        entry.baseNonce ≤ lowU64 (primitives.fields tx.unsigned).nonce
  posView_isSome : ∀ block ∈ packet.blocks, ∃ header, readHeader decoders pow block.hash =
    .ok header ∧ (block.posView.isSome ↔
      (effectivePosReference header config.chain.posReferenceEnableHeight).isSome)

/-- The blocks of a packet, lowered from what is collected of the epochs. -/
theorem exists_lowered {collected : CollectedBlocks T} {blocks attached : List (Block T)}
    (hblocks : buildBlockInputs decoders config pow collected.posBlocks collected.blockInputs =
      .ok blocks) (hattached : List.Forall₂ Attached blocks attached) :
    List.Forall₂ (Lowered config collected.posBlocks) collected.blockInputs attached ∧
      attached.map (·.index) = List.range attached.length := by
  obtain ⟨hlowered, hindices⟩ := buildBlockInputs_spec hblocks
  constructor
  · refine List.forall₂_iff_get.mpr ⟨hlowered.length_eq.trans hattached.length_eq, ?_⟩
    intro i hi hi'
    have hmiddle : i < blocks.length := hlowered.length_eq ▸ hi
    exact (hlowered.get hi hmiddle).attached (hattached.get hmiddle hi')
  · rw [← hattached.length_eq, ← hindices]
    refine (hattached.map_eq_map fun block attached h => ?_).symm
    obtain ⟨posRewards, unlockEvents, rfl⟩ := h
    rfl

/-- **What is looked up of a packet is there**, and its minima bound the blocks. -/
theorem preconditions_packetOf (hprimitives : crates.primitives.Lawful)
    {epochs : List EpochBlocks} {collected : CollectedBlocks T} {tables : Tables}
    {blocks : List (Block T)} (boundary : PrevBoundary)
    (hcollect : collectBlocks decoders config pow pos epochs = .ok collected)
    (htables : buildTables crates.primitives collected.blockInputs collected.posBlocks
      collected.minPosHeight config.chain.posReferenceEnableHeight = .ok tables)
    (hlowered : List.Forall₂ (Lowered config collected.posBlocks) collected.blockInputs blocks)
    (hlen : tables.addresses.length < UInt64.size) :
    Preconditions crates.primitives decoders pow config
      (packetOf boundary collected tables blocks) := by
  obtain ⟨hcollected, groups, hgroups, hepochs⟩ := collectBlocks_spec hcollect
  simp only [buildTables, Except.bind_eq_ok, Except.pure_def, Except.ok.injEq] at htables
  obtain ⟨posEntries, -, rfl⟩ := htables
  have haddress : ∀ block ∈ blocks, ∃ raw ∈ collected.blockInputs,
      Lowered config collected.posBlocks raw block ∧
        ∀ address ∈ blockAddresses crates.primitives raw,
          address ∈ buildAddressTable crates.primitives collected.blockInputs := by
    intro block hblock
    obtain ⟨raw, hraw, h⟩ := hlowered.exists_left hblock
    exact ⟨raw, hraw, h, fun address haddress => mem_buildAddressTable.mpr ⟨raw, hraw, haddress⟩⟩
  have htarget : ∀ block ∈ blocks, ∀ tx ∈ block.transactions, ∀ address,
      (crates.primitives.fields tx.unsigned).action = .call address →
        address ∈ buildAddressTable crates.primitives collected.blockInputs := by
    intro block hblock tx htx address haction
    obtain ⟨raw, -, h, hall⟩ := haddress block hblock
    refine hall address (List.mem_cons_of_mem _ (List.mem_flatMap.mpr ⟨tx, h.transactions ▸ htx, ?_⟩))
    rw [txAddresses, haction]
    simp
  refine ⟨nodup_buildAddressTable _, fun block hblock => ?_, fun block hblock tx htx => ?_, htarget,
    fun block hblock tx htx unsigned hunsigned => ?_, fun block hblock => ?_, fun block hblock => ?_,
    fun block hblock => ?_, fun block hblock view hview => ?_, nodup_senderIndex hlen _,
    fun entry hentry => ?_, fun block hblock => ?_⟩
  · obtain ⟨raw, -, h, hall⟩ := haddress block hblock
    exact h.author ▸ hall raw.header.author List.mem_cons_self
  · obtain ⟨raw, -, h, hall⟩ := haddress block hblock
    refine hall tx.sender
      (List.mem_cons_of_mem _ (List.mem_flatMap.mpr ⟨tx, h.transactions ▸ htx, ?_⟩))
    unfold txAddresses
    split <;> simp
  · refine htarget block hblock tx htx unsigned.destination ?_
    rw [hunsigned, hprimitives.fields_eip7702]
  · obtain ⟨raw, hraw, h⟩ := hlowered.exists_left hblock
    exact h.difficulty ▸ mem_buildDifficultyTable hraw
  · obtain ⟨raw, hraw, h⟩ := hlowered.exists_left hblock
    exact h.timestamp ▸ hcollected.minTimestamp_le raw hraw
  · obtain ⟨raw, hraw, h⟩ := hlowered.exists_left hblock
    exact h.height ▸ hcollected.minHeight_le raw hraw
  -- a view is the one of a committed block, which is at the least height or above
  · obtain ⟨raw, hraw, h⟩ := hlowered.exists_left hblock
    rw [h.posView] at hview
    obtain ⟨committed, hcommitted, rfl⟩ := Option.map_eq_some_iff.mp hview
    obtain ⟨posRef, -, hcached⟩ := Option.bind_eq_some_iff.mp hcommitted
    exact (hcollected.committed posRef committed hcached).2
  · obtain ⟨sender, hsender, hle⟩ := baseNonce_le (nodup_buildAddressTable _) hlen hentry
    refine ⟨sender, hsender, fun block hblock tx htx heq => ?_⟩
    obtain ⟨raw, hraw, h⟩ := hlowered.exists_left hblock
    exact hle raw hraw tx (h.transactions ▸ htx) heq
  · obtain ⟨raw, hraw, h⟩ := hlowered.exists_left hblock
    obtain ⟨group, hgroup, hmem⟩ := List.mem_flatten.mp (hgroups ▸ hraw)
    obtain ⟨epoch, -, pivotHash, -, hall⟩ := hepochs.exists_left hgroup
    obtain ⟨hash, -, hisRaw⟩ := hall.exists_left hmem
    refine ⟨raw.header, ?_, ?_⟩
    · rw [h.hash, hisRaw.hash_eq]
      exact hisRaw.header
    · rw [h.posView]
      cases hreference : effectivePosReference raw.header config.chain.posReferenceEnableHeight with
      | none => simp
      | some posRef =>
        obtain ⟨committed, hcached⟩ := hcollected.cached raw hraw posRef hreference
        simp [hcached]

/-- **Extraction establishes what the encoder relies on.** -/
theorem extracted_spec (hprimitives : crates.primitives.Lawful) {epochs : List EpochBlocks}
    {collected : CollectedBlocks T} {tables : Tables} {blocks attached : List (Block T)}
    (boundary : PrevBoundary) (hnonempty : epochs ≠ [])
    (hfirst : ∀ epoch ∈ epochs.head?, epoch.number.toNat + packetEpochs.toNat < UInt64.size)
    (hnodup : (epochs.flatMap fun epoch => epoch.executed ++ epoch.skipped).Nodup)
    (hheights : PivotHeights decoders pow epochs)
    (hcollect : collectBlocks decoders config pow pos epochs = .ok collected)
    (htables : buildTables crates.primitives collected.blockInputs collected.posBlocks
      collected.minPosHeight config.chain.posReferenceEnableHeight = .ok tables)
    (hblocks : buildBlockInputs decoders config pow collected.posBlocks collected.blockInputs =
      .ok blocks) (hattached : List.Forall₂ Attached blocks attached)
    (hlen : tables.addresses.length < UInt64.size) :
    validateInput crates (packetOf boundary collected tables attached) = .ok () ∧
      Preconditions crates.primitives decoders pow config
        (packetOf boundary collected tables attached) ∧
      ∀ e, encodePacket crates (packetOf boundary collected tables attached) = .error e →
        RangeError crates (packetOf boundary collected tables attached) e := by
  obtain ⟨hlowered, hindices⟩ := exists_lowered hblocks hattached
  have hpre := preconditions_packetOf hprimitives boundary hcollect htables
    hlowered hlen
  -- the raw blocks are one group for each epoch, the pivot last
  obtain ⟨-, groups, hgroups, hepochs⟩ := collectBlocks_spec hcollect
  have hdistinct : ∀ epoch ∈ epochs, (epoch.executed ++ epoch.skipped).Nodup :=
    fun epoch hepoch => (List.nodup_flatMap.mp hnodup).1 epoch hepoch
  obtain ⟨runs, hruns, hgrouped, hrunEpochs⟩ := exists_runs hepochs hdistinct hheights
  have hvalid : ValidInput (packetOf boundary collected tables attached) := by
    refine validInput_of_runs hlowered hindices (hgroups.trans hruns) hgrouped hrunEpochs
      (fun raw hraw => ?_) ?_ ?_
    · obtain ⟨group, hgroup, hmem⟩ := List.mem_flatten.mp (hgroups ▸ hraw)
      obtain ⟨epoch, -, pivotHash, -, hall⟩ := hepochs.exists_left hgroup
      obtain ⟨hash, -, hisRaw⟩ := hall.exists_left hmem
      exact (blockFlags_spec hisRaw.flags).1
    · cases hepochs with
      | nil => exact absurd rfl hnonempty
      | cons hepoch _ => exact hgroups ▸ hepoch.flatten_ne_nil
    · intro first hhead
      cases hepochs with
      | nil => exact absurd rfl hnonempty
      | @cons epoch _ _ _ hepoch _ =>
        rw [hepoch.epoch_head? first (hgroups ▸ hhead)]
        exact hfirst epoch rfl
  exact ⟨validateInput_eq_ok.mpr hvalid, hpre, fun e he =>
    Encodable.encodePacket_eq_error ⟨hvalid, hpre.author, hpre.sender, hpre.target, hpre.difficulty,
      hpre.minTimestamp_le, hpre.minHeight_le, fun block hblock => by
        obtain ⟨raw, -, h⟩ := hlowered.exists_left hblock
        exact h.transactionRefs⟩ he⟩

/-! ## Two epochs with a transfer each -/

/-- The chain of two epochs, where every block has a transfer. -/
def plainTransferDb : PowDb where
  get
    | .blocks, key =>
      if key.drop 32 = [blockBodySuffix] then
        .ok (some (plainItem (.list [.list [.bytes Address.zero.asBytes, .bytes (key.take 20),
          .u64 (UInt64.ofNat (leNat (key.take 1)))]])))
      else plainChainDb.get .blocks key
    | .epochNumbers, key => plainChainDb.get .epochNumbers key
  rewardByPosEpoch := []

def plainBoundary : PrevBoundary := ⟨plainPivot 0, H256.fromSlice [], 0⟩

/-- The passes over the epochs, one after the other. -/
def plainPasses (pow : PowDb) (epochs : List EpochBlocks) :
    Result (CollectedBlocks plainTypes × Tables × List (Block plainTypes)) := do
  let collected ← collectBlocks plainDecoders plainConfig pow plainPosDb epochs
  let tables ← buildTables plainPrimitives collected.blockInputs collected.posBlocks
    collected.minPosHeight plainConfig.chain.posReferenceEnableHeight
  let blocks ← buildBlockInputs plainDecoders plainConfig pow collected.posBlocks
    collected.blockInputs
  ensure (tables.addresses.length < UInt64.size) "too many addresses"
  pure (collected, tables, blocks)

theorem height_eq {pow : PowDb} {hash : H256} {header : BlockHeader} {height : UInt64}
    (hheader : readHeader plainDecoders pow hash = .ok header)
    (hread : BlockHeader.height <$> readHeader plainDecoders pow hash = .ok height) :
    header.height = height := by
  rw [hheader] at hread
  exact Except.ok.inj hread

/-- The packet of two epochs. -/
theorem extracted_spec_two : ∃ collected tables blocks,
    plainPasses plainTransferDb plainEpochs = .ok (collected, tables, blocks) ∧
      validateInput plainCrates (packetOf plainBoundary collected tables blocks) = .ok () ∧
      Preconditions plainPrimitives plainDecoders plainTransferDb plainConfig
        (packetOf plainBoundary collected tables blocks) := by
  obtain ⟨⟨collected, tables, blocks⟩, hpasses⟩ :
      ∃ passes, plainPasses plainTransferDb plainEpochs = .ok passes := by
    have hok : (plainPasses plainTransferDb plainEpochs).isOk = true := by decide +kernel
    cases hrun : plainPasses plainTransferDb plainEpochs with
    | ok passes => exact ⟨passes, rfl⟩
    | error e => simp [hrun, Except.isOk, Except.toBool] at hok
  have hheights : PivotHeights plainDecoders plainTransferDb plainEpochs := by
    have hread : ∀ n ∈ [1, 2], BlockHeader.height <$>
        readHeader plainDecoders plainTransferDb (plainPivot n) = .ok (UInt64.ofNat n) := by
      decide +kernel
    intro epoch hepoch pivotHash hpivot header hheader
    simp only [plainEpochs, List.mem_cons, List.not_mem_nil, or_false] at hepoch
    rcases hepoch with rfl | rfl
    · obtain rfl := Option.some.inj hpivot
      exact height_eq hheader (hread 1 (by simp))
    · obtain rfl := Option.some.inj hpivot
      exact height_eq hheader (hread 2 (by simp))
  refine ⟨collected, tables, blocks, hpasses, ?_⟩
  simp only [plainPasses, Except.bind_eq_ok, ensure_eq_ok, Except.pure_def, Except.ok.injEq,
    Prod.mk.injEq] at hpasses
  obtain ⟨_, hcollect, _, htables, _, hblocks, _, hlen, rfl, rfl, rfl⟩ := hpasses
  obtain ⟨hvalid, hpre, -⟩ := extracted_spec plainCrates_lawful.primitives
    plainBoundary (by decide) (by decide) (by decide) hheights hcollect htables hblocks
    (List.forall₂_same.mpr fun block _ => .refl block) hlen
  exact ⟨hvalid, hpre⟩

/-- An epoch at the end of the range of heights. -/
def plainTopDb : PowDb where
  get
    | .blocks, key =>
      if key.length = 32 then .ok (some (plainHeader maxU64 none)) else .ok none
    | .epochNumbers, _ => .ok none
  rewardByPosEpoch := []

def plainTopEpochs : List EpochBlocks := [⟨maxU64, [plainPivot 255], []⟩]

/-- The checks of the encoder fail for no epochs, and for an epoch whose range wraps around. -/
theorem packetOf_not_valid :
    (∃ collected tables blocks, plainPasses plainChainDb [] = .ok (collected, tables, blocks) ∧
      validateInput plainCrates (packetOf plainBoundary collected tables blocks) =
        .error (.error "packet has no blocks")) ∧
    PivotHeights plainDecoders plainTopDb plainTopEpochs ∧
      ∃ collected tables blocks,
        plainPasses plainTopDb plainTopEpochs = .ok (collected, tables, blocks) ∧
          validateInput plainCrates (packetOf plainBoundary collected tables blocks) ≠ .ok () := by
  refine ⟨⟨_, _, _, rfl, rfl⟩, ?_, ?_⟩
  · intro epoch hepoch pivotHash hpivot header hheader
    have hread : BlockHeader.height <$> readHeader plainDecoders plainTopDb (plainPivot 255) =
        .ok maxU64 := by decide +kernel
    obtain rfl := List.mem_singleton.mp hepoch
    obtain rfl := Option.some.inj hpivot
    exact height_eq hheader hread
  · have hrun : (fun passes => validateInput plainCrates
        (packetOf plainBoundary passes.1 passes.2.1 passes.2.2)) <$>
          plainPasses plainTopDb plainTopEpochs = .ok (.error .overflow) := by decide +kernel
    obtain ⟨⟨collected, tables, blocks⟩, hpasses, hvalid⟩ := Except.map_eq_ok.mp hrun
    exact ⟨collected, tables, blocks, hpasses, fun hok => by cases hvalid.symm.trans hok⟩

end Extractor
