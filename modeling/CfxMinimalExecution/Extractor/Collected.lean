import CfxMinimalExecution.Extractor.TableLookups
import CfxMinimalExecution.Extractor.UnlockEvents
import CfxMinimalExecution.Library.Related

/-!
# The collected blocks

## Main definitions

* `IsRawBlock`: a block of an epoch as it is collected
* `Collected`: the minima bound the blocks, and the references are cached

## Main results

* `collectBlocks_spec`: what is collected of the epochs
* `referencesCached_of_collected`: the cache holds every reference of a pivot in the range
-/

namespace Extractor

open Cfxpack

variable {T : PrimitiveTypes} {decoders : Decoders T} {pow : PowDb} {pos : PosDb}
  {config : ExtractConfig}

/-- A block of an epoch as it is collected. -/
structure IsRawBlock (decoders : Decoders T) (pow : PowDb) (config : ExtractConfig)
    (epoch : EpochBlocks) (pivotHash hash : H256) (raw : RawBlock T) : Prop where
  header : readHeader decoders pow hash = .ok raw.header
  body : readBody decoders pow hash = .ok raw.body
  epoch_eq : raw.epoch = epoch.number
  hash_eq : raw.hash = hash
  flags : blockFlags config raw.header raw.reward (hash = pivotHash) epoch.skipped hash =
    .ok raw.flags

/-- The minima bound the blocks, and what the blocks refer to is cached. -/
structure Collected (decoders : Decoders T) (pos : PosDb) (config : ExtractConfig)
    (collected : CollectedBlocks T) : Prop where
  minTimestamp_le : ∀ raw ∈ collected.blockInputs, collected.minTimestamp ≤ raw.header.timestamp
  minHeight_le : ∀ raw ∈ collected.blockInputs, collected.minHeight ≤ raw.header.height
  cached : ∀ raw ∈ collected.blockInputs, ∀ posRef,
    effectivePosReference raw.header config.chain.posReferenceEnableHeight = some posRef →
      ∃ committed, collected.posBlocks.get posRef = some committed
  committed : ∀ posRef committed, collected.posBlocks.get posRef = some committed →
    pos.getCommittedBlock decoders posRef = .ok committed ∧ collected.minPosHeight ≤ committed.view

/-- The cache and the minimum of the views, with the reference of a header. -/
theorem collectPosBlock_spec {collected collected' : CollectedBlocks T} {header : BlockHeader}
    (h : collectPosBlock decoders config pos header collected = .ok collected')
    (hcached : ∀ posRef committed, collected.posBlocks.get posRef = some committed →
      pos.getCommittedBlock decoders posRef = .ok committed ∧
        collected.minPosHeight ≤ committed.view) :
    (∃ minPosHeight posBlocks, collected' = { collected with minPosHeight, posBlocks }) ∧
      (∀ posRef committed, collected.posBlocks.get posRef = some committed →
        ∃ committed', collected'.posBlocks.get posRef = some committed') ∧
      (∀ posRef, effectivePosReference header config.chain.posReferenceEnableHeight = some posRef →
        ∃ committed, collected'.posBlocks.get posRef = some committed) ∧
      ∀ posRef committed, collected'.posBlocks.get posRef = some committed →
        pos.getCommittedBlock decoders posRef = .ok committed ∧
          collected'.minPosHeight ≤ committed.view := by
  unfold collectPosBlock at h
  cases hreference : effectivePosReference header config.chain.posReferenceEnableHeight with
  -- nothing is collected for a header without a reference
  | none =>
    rw [hreference] at h
    obtain rfl := Except.ok.inj h
    exact ⟨⟨_, _, rfl⟩, fun posRef committed hget => ⟨committed, hget⟩, nofun, hcached⟩
  -- a committed block is added, and the least height follows it
  | some posRef =>
    simp only [hreference, Except.bind_eq_ok, Except.pure_def, Except.ok.injEq] at h
    obtain ⟨committed, hcommitted, rfl⟩ := h
    have hmin := minU64_le collected.minPosHeight committed.view
    refine ⟨⟨_, _, rfl⟩, fun posRef' committed' hget => ?_, fun posRef' hposRef => ?_,
      fun posRef' committed' hget => ?_⟩
    · simp only [Assoc.get_insert]
      split
      · exact ⟨_, rfl⟩
      · exact ⟨committed', hget⟩
    · obtain rfl := Option.some.inj hposRef
      simp [Assoc.get_insert]
    · simp only [Assoc.get_insert] at hget
      split at hget
      case isTrue heq =>
        obtain rfl := Option.some.inj hget
        exact ⟨heq ▸ hcommitted, hmin.2⟩
      case isFalse =>
        obtain ⟨hread, hle⟩ := hcached posRef' committed' hget
        exact ⟨hread, UInt64.le_trans hmin.1 hle⟩

/-- **One block is collected.** -/
theorem collectBlock_spec {epoch : EpochBlocks} {pivotHash hash : H256}
    {collected collected' : CollectedBlocks T} (hcollected : Collected decoders pos config collected)
    (h : collectBlock decoders config pow pos epoch pivotHash collected hash = .ok collected') :
    Collected decoders pos config collected' ∧ ∃ raw,
      collected'.blockInputs = collected.blockInputs ++ [raw] ∧
      IsRawBlock decoders pow config epoch pivotHash hash raw := by
  simp only [collectBlock, Except.bind_eq_ok, Except.pure_def, Except.ok.injEq] at h
  obtain ⟨header, hheader, body, hbody, reward, -, middle, hmiddle, flags, hflags, rfl⟩ := h
  obtain ⟨⟨minPosHeight, posBlocks, rfl⟩, hkept, hreference, hcommitted⟩ :=
    collectPosBlock_spec hmiddle hcollected.committed
  have htimestamp := minU64_le collected.minTimestamp header.timestamp
  have hheight := minU64_le collected.minHeight header.height
  refine ⟨⟨fun raw hraw => ?_, fun raw hraw => ?_, fun raw hraw posRef hposRef => ?_, hcommitted⟩,
    _, rfl, ⟨hheader, hbody, rfl, rfl, hflags⟩⟩
  · rcases List.mem_append.mp hraw with hraw | hraw
    · exact UInt64.le_trans htimestamp.1 (hcollected.minTimestamp_le raw hraw)
    · obtain rfl := List.mem_singleton.mp hraw
      exact htimestamp.2
  · rcases List.mem_append.mp hraw with hraw | hraw
    · exact UInt64.le_trans hheight.1 (hcollected.minHeight_le raw hraw)
    · obtain rfl := List.mem_singleton.mp hraw
      exact hheight.2
  · rcases List.mem_append.mp hraw with hraw | hraw
    · obtain ⟨committed, hget⟩ := hcollected.cached raw hraw posRef hposRef
      exact hkept posRef committed hget
    · obtain rfl := List.mem_singleton.mp hraw
      exact hreference posRef hposRef

/-- The blocks of an epoch, the pivot last. -/
def IsRawEpoch (decoders : Decoders T) (pow : PowDb) (config : ExtractConfig) (epoch : EpochBlocks)
    (raws : List (RawBlock T)) : Prop :=
  ∃ pivotHash, epoch.executed.getLast? = some pivotHash ∧
    List.Forall₂ (IsRawBlock decoders pow config epoch pivotHash) (orderedHashes epoch pivotHash) raws

/-- **The blocks of some hashes are collected.** -/
theorem foldlM_collectBlock_spec {epoch : EpochBlocks} {pivotHash : H256} {hashes : List H256}
    {collected collected' : CollectedBlocks T} (hcollected : Collected decoders pos config collected)
    (h : hashes.foldlM (collectBlock decoders config pow pos epoch pivotHash) collected =
      .ok collected') :
    Collected decoders pos config collected' ∧ ∃ raws,
      collected'.blockInputs = collected.blockInputs ++ raws ∧
      List.Forall₂ (IsRawBlock decoders pow config epoch pivotHash) hashes raws := by
  induction hashes generalizing collected with
  | nil =>
    obtain rfl := Except.ok.inj h
    exact ⟨hcollected, [], (List.append_nil _).symm, .nil⟩
  | cons hash hashes ih =>
    rw [List.foldlM_cons, Except.bind_eq_ok] at h
    obtain ⟨middle, hround, h⟩ := h
    obtain ⟨hmiddle, raw, hraw, hisRaw⟩ := collectBlock_spec hcollected hround
    obtain ⟨hcollected', raws, hraws, hall⟩ := ih hmiddle h
    rw [hraw, List.append_assoc] at hraws
    exact ⟨hcollected', raw :: raws, hraws, .cons hisRaw hall⟩

/-- **The blocks of some epochs are collected.** -/
theorem foldlM_collectEpoch_spec {epochs : List EpochBlocks}
    {collected collected' : CollectedBlocks T} (hcollected : Collected decoders pos config collected)
    (h : epochs.foldlM (collectEpoch decoders config pow pos) collected = .ok collected') :
    Collected decoders pos config collected' ∧ ∃ raws : List (List (RawBlock T)),
      collected'.blockInputs = collected.blockInputs ++ raws.flatten ∧
      List.Forall₂ (IsRawEpoch decoders pow config) epochs raws := by
  induction epochs generalizing collected with
  | nil =>
    obtain rfl := Except.ok.inj h
    exact ⟨hcollected, [], by simp, .nil⟩
  | cons epoch epochs ih =>
    rw [List.foldlM_cons, Except.bind_eq_ok] at h
    obtain ⟨middle, hround, h⟩ := h
    simp only [collectEpoch, Except.bind_eq_ok, okOr_eq_ok] at hround
    obtain ⟨pivotHash, hpivot, hround⟩ := hround
    obtain ⟨hmiddle, raws, hraws, hall⟩ := foldlM_collectBlock_spec hcollected hround
    obtain ⟨hcollected', rest, hrest, hepochs⟩ := ih hmiddle h
    rw [hraws, List.append_assoc] at hrest
    exact ⟨hcollected', raws :: rest, by rw [hrest, List.flatten_cons],
      .cons ⟨pivotHash, hpivot, hall⟩ hepochs⟩

/-- **What is collected of the epochs.** -/
theorem collectBlocks_spec {epochs : List EpochBlocks} {collected : CollectedBlocks T}
    (h : collectBlocks decoders config pow pos epochs = .ok collected) :
    Collected decoders pos config collected ∧ ∃ raws : List (List (RawBlock T)),
      collected.blockInputs = raws.flatten ∧
      List.Forall₂ (IsRawEpoch decoders pow config) epochs raws := by
  have hstart : Collected decoders pos config
      (⟨[], maxU64, maxU64, maxU64, []⟩ : CollectedBlocks T) := ⟨nofun, nofun, nofun, nofun⟩
  simp only [collectBlocks, Except.bind_eq_ok, Except.pure_def, Except.ok.injEq] at h
  obtain ⟨last, hloop, h⟩ := h
  obtain ⟨hlast, raws, hraws, hepochs⟩ := foldlM_collectEpoch_spec hstart hloop
  split at h
  case isTrue =>
    subst h
    refine ⟨⟨hlast.minTimestamp_le, hlast.minHeight_le, hlast.cached, fun posRef committed hget => ?_⟩,
      raws, hraws, hepochs⟩
    exact ⟨(hlast.committed posRef committed hget).1, UInt64.zero_le⟩
  case isFalse =>
    subst h
    exact ⟨hlast, raws, hraws, hepochs⟩

/-! ## The cache of the references -/

/-- An epoch of the range. -/
theorem EpochsFrom.exists_epoch {n m : ℕ} {epochs : List EpochBlocks}
    (h : EpochsFrom decoders pow n epochs) (hn : n ≤ m) (hm : m < n + epochs.length) :
    ∃ epoch ∈ epochs, readEpochHashes decoders pow (UInt64.ofNat m) epochExecutedBlockSetSuffix =
      .ok (some epoch.executed) := by
  induction epochs generalizing n with
  | nil => simp at hm; omega
  | cons epoch epochs ih =>
    obtain ⟨⟨-, hread⟩, hrest⟩ := h
    rcases Nat.eq_or_lt_of_le hn with rfl | hlt
    · exact ⟨epoch, List.mem_cons_self, hread⟩
    · rw [List.length_cons] at hm
      obtain ⟨epoch', hmem, hread'⟩ := ih hrest hlt (by omega)
      exact ⟨epoch', List.mem_cons_of_mem epoch hmem, hread'⟩

/-- The pivot of an epoch is collected. -/
theorem exists_pivot {epochs : List EpochBlocks} {collected : CollectedBlocks T}
    (h : collectBlocks decoders config pow pos epochs = .ok collected) {epoch : EpochBlocks}
    (hepoch : epoch ∈ epochs) : ∃ pivotHash, epoch.executed.getLast? = some pivotHash ∧
      ∃ raw ∈ collected.blockInputs, IsRawBlock decoders pow config epoch pivotHash pivotHash raw := by
  obtain ⟨-, raws, hraws, hepochs⟩ := collectBlocks_spec h
  obtain ⟨group, hgroup, pivotHash, hpivot, hall⟩ := hepochs.exists_right hepoch
  obtain ⟨raw, hraw, hisRaw⟩ := hall.exists_right (a := pivotHash) (by simp [orderedHashes])
  exact ⟨pivotHash, hpivot, raw, hraws ▸ List.mem_flatten_of_mem hgroup hraw, hisRaw⟩

/-- **The cache holds every reference of a pivot in the range.** -/
theorem referencesCached_of_collected {profile : Profile} {epochs : List EpochBlocks}
    {collected : CollectedBlocks T} {reference : ℕ → Option H256} {version : H256 → UInt64}
    (hsize : config.startEpoch.toNat + config.epochCount.toNat < UInt64.size)
    (hchain : PivotChain decoders pow pos config.chain (config.startEpoch.toNat - 1)
      (config.startEpoch.toNat + config.epochCount.toNat) reference version)
    (hload : loadEpochs decoders profile pow config = .ok epochs)
    (h : collectBlocks decoders config pow pos epochs = .ok collected) :
    ReferencesCached collected.posBlocks config.startEpoch.toNat
      (config.startEpoch.toNat + config.epochCount.toNat) reference version := by
  intro n hash hn hlt hreference
  obtain ⟨hlen, hepochs⟩ := loadEpochs_eq_ok hsize hload
  obtain ⟨epoch, hmem, hread⟩ := hepochs.exists_epoch hn (by rw [hlen]; exact hlt)
  obtain ⟨pivotHash, hpivot, raw, hraw, hisRaw⟩ := exists_pivot h hmem
  obtain ⟨hashes, pivot, header, hhashes, hlast, hheader, heffective⟩ :=
    hchain.refers n (by omega) hlt
  obtain rfl := Option.some.inj (Except.ok.inj (hread.symm.trans hhashes))
  obtain rfl := Option.some.inj (hpivot.symm.trans hlast)
  obtain rfl := Except.ok.inj (hheader.symm.trans hisRaw.header)
  obtain ⟨hcollected, -⟩ := collectBlocks_spec h
  obtain ⟨committed, hcached⟩ := hcollected.cached raw hraw hash (heffective.trans hreference)
  obtain ⟨block, hblock, hversion⟩ := hchain.committed n hash (by omega) hlt hreference
  obtain rfl := Except.ok.inj (hblock.symm.trans (hcollected.committed hash committed hcached).1)
  exact ⟨block, hcached, hversion⟩

end Extractor
