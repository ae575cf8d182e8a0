import CfxMinimalExecution.Cfxpack.GracefulReads
import CfxMinimalExecution.Extractor.FlagPatchContainer

/-!
# What the patch of a container reports

## Main definitions

* `Patchable profile readReward data`: the sites and the rewards of a container can be read

* `zeroRewardOf readReward`: the blocks to flag, as the rewards tell
* `patchedOf profile readReward data`: the patch of a container, without a schedule
* `ArchiveOf crates packets data`: a container of encoded packets

## Main results

* `foldlM_applyFlip_changed`: a patch reports a change exactly when it makes one
* `collectSites_lt`: the sites lie within the container, whatever it holds
* `Patchable.patch_eq_ok`, `patchable_of_patch_eq_ok`: exactly when a container is patched
* `ArchiveOf.patch`: the patch of a container, and the report, for every schedule of the workers
-/

namespace Extractor

open Cfxpack

/-! ## Changes -/

section Changes

/-- Every byte is the old one, or the old one with the flag set. -/
def Flagged (data current : Bytes) : Prop :=
  ∀ (k : ℕ) (byte : UInt8), current[k]? = some byte →
    ∃ old : UInt8, data[k]? = some old ∧ (byte = old ∨ byte = old ||| flagZeroTotalReward)

theorem or_zeroReward_ne {byte : UInt8} (h : byte &&& flagZeroTotalReward = 0) :
    byte ||| flagZeroTotalReward ≠ byte := by
  intro heq
  have hset := or_zeroReward_and byte
  rw [heq] at hset
  exact hset h

/-- A round reports a change exactly when it makes the first one. -/
theorem applyFlip_changed {data current current' : Bytes} {changed changed' : Bool} {k : ℕ}
    (hflagged : Flagged data current) (hchanged : changed = true ↔ current ≠ data)
    (h : applyFlip (current, changed) k = .ok (current', changed')) :
    Flagged data current' ∧ (changed' = true ↔ current' ≠ data) := by
  unfold applyFlip at h
  obtain ⟨byte, hbyte, h⟩ := Except.bind_eq_ok.mp h
  rw [indexAt_eq_ok] at hbyte
  obtain ⟨old, hold, hor⟩ := hflagged k byte hbyte
  split at h
  · next hzero =>
    obtain ⟨rfl, rfl⟩ := Prod.mk.inj (Except.ok.inj h)
    -- the byte has not been flagged before
    have hsame : byte = old := by
      rcases hor with hsame | rfl
      · exact hsame
      · exact absurd hzero (or_zeroReward_and old)
    have hlt : k < current.length := (List.getElem?_eq_some_iff.mp hbyte).1
    have hset : (current.set k (byte ||| flagZeroTotalReward))[k]? =
        some (byte ||| flagZeroTotalReward) := List.getElem?_set_self hlt
    constructor
    · intro j byte' hbyte'
      by_cases hj : k = j
      · subst hj
        obtain rfl := Option.some.inj (hset.symm.trans hbyte')
        exact ⟨old, hold, .inr (hsame ▸ rfl)⟩
      · rw [List.getElem?_set_ne hj] at hbyte'
        exact hflagged j byte' hbyte'
    · refine iff_of_true rfl fun heq => ?_
      rw [heq, hold] at hset
      exact or_zeroReward_ne hzero ((Option.some.inj hset).symm.trans hsame.symm)
  · obtain ⟨rfl, rfl⟩ := Prod.mk.inj (Except.ok.inj h)
    exact ⟨hflagged, hchanged⟩

/-- **A patch reports a change exactly when it makes one.** -/
theorem foldlM_applyFlip_changed {data current current' : Bytes} {changed changed' : Bool}
    {flips : List ℕ} (hflagged : Flagged data current) (hchanged : changed = true ↔ current ≠ data)
    (h : flips.foldlM applyFlip (current, changed) = .ok (current', changed')) :
    changed' = true ↔ current' ≠ data := by
  induction flips generalizing current changed with
  | nil =>
    obtain ⟨rfl, rfl⟩ := Prod.mk.inj (Except.ok.inj h)
    exact hchanged
  | cons k flips ih =>
    rw [List.foldlM_cons] at h
    obtain ⟨⟨current₁, changed₁⟩, hround, h⟩ := Except.bind_eq_ok.mp h
    obtain ⟨hflagged₁, hchanged₁⟩ := applyFlip_changed hflagged hchanged hround
    exact ih hflagged₁ hchanged₁ h

theorem flagged_self (data : Bytes) : Flagged data data := fun _ byte hbyte =>
  ⟨byte, hbyte, .inl rfl⟩

end Changes

/-! ## The report -/

section Report

variable {profile : Profile} {readReward : H256 → Result (Option U256)}

/-- The blocks to flag, as the rewards tell. -/
def zeroRewardOf (readReward : H256 → Result (Option U256)) (hash : H256) : Bool :=
  match readReward hash with
  | .ok reward => reward.getD 0 = 0
  | .error _ => false

theorem rewardsOf_zeroRewardOf {hash : H256} {reward : Option U256}
    (h : readReward hash = .ok reward) : RewardsOf readReward (zeroRewardOf readReward) hash := by
  refine ⟨reward, h, ?_⟩
  unfold zeroRewardOf
  rw [h]
  exact decide_eq_true_iff.symm

/-- The patch of a container, as it is for every schedule. -/
def patchedOf (profile : Profile) (readReward : H256 → Result (Option U256)) (data : Bytes) :
    Patched :=
  match collectSites profile data with
  | .ok sites =>
    { data := setFlags (zeroRewardOf readReward) sites data
      blocksSeen := sites.length
      blocksFlagged := (zeroRewardSites (zeroRewardOf readReward) sites).length
      changed := decide (setFlags (zeroRewardOf readReward) sites data ≠ data) }
  | .error _ => ⟨data, 0, 0, false⟩

/-- **The report of a patch**, for every schedule of the workers. -/
theorem patchContainerBytes_report {data : Bytes} {sites : List (ℕ × H256)}
    {schedule : List (List ℕ)} (hsites : collectSites profile data = .ok sites)
    (hlt : ∀ site ∈ sites, site.1 < data.length)
    (hreads : ∀ site ∈ sites, RewardsOf readReward (zeroRewardOf readReward) site.2)
    (hschedule : schedule.flatten.Perm (List.range sites.length)) :
    patchContainerBytes profile readReward schedule data =
      .ok (patchedOf profile readReward data) := by
  obtain ⟨⟨data', seen, flagged, changed⟩, hpatch, hdata, hseen⟩ :=
    patchContainerBytes_eq hsites hlt hreads hschedule
  obtain ⟨flips, hflips, hperm⟩ := flips_perm hreads hschedule
  rw [hpatch]
  unfold patchedOf
  rw [hsites]
  dsimp only
  unfold patchContainerBytes at hpatch
  rw [hsites, Except.ok_bind, hflips, Except.ok_bind] at hpatch
  obtain ⟨⟨data'', changed''⟩, hfold, hpatched⟩ := Except.bind_eq_ok.mp hpatch
  obtain ⟨rfl, rfl, rfl, rfl⟩ := Patched.mk.inj (Except.ok.inj hpatched)
  have hchanged := foldlM_applyFlip_changed (flagged_self data) (by simp) hfold
  obtain rfl : data'' = setFlags (zeroRewardOf readReward) sites data := hdata
  rw [hperm.length_eq]
  refine congrArg Except.ok (congrArg _ ?_)
  rw [Bool.eq_iff_iff, hchanged, decide_eq_true_iff]

end Report

/-! ## When a container is patched -/

/-- The flags of a packet lie within it. -/
theorem blockFlagSites_lt {packet : Bytes} {sites : List (ℕ × H256)}
    (h : blockFlagSites packet = .ok sites) : ∀ site ∈ sites, site.1 < packet.length := by
  simp only [blockFlagSites, Except.bind_eq_ok, ensure_eq_ok, okOr_eq_ok] at h
  obtain ⟨_, -, prefixSize, -, _, hsize, offsets, hoffsets, ⟨⟩, hordered, blockCount, -, prefixTotal,
    htotal, _, harea, hsites⟩ := h
  obtain ⟨-, hend⟩ := ensureOffsets_eq_ok hoffsets hordered (Nat.le_refl 7) (by decide)
  obtain rfl : blockCount.toNat * prefixSize.toNat = prefixTotal := by
    unfold checkedMul at htotal
    split at htotal
    · exact Option.some.inj htotal
    · cases htotal
  intro site hsite
  obtain ⟨i, hi, hround⟩ := exists_of_mem_mapM hsites hsite
  obtain ⟨_, -, hround⟩ := Except.bind_eq_ok.mp hround
  obtain rfl := Except.ok.inj hround
  -- the record of the block lies in the prefix area
  have hrecord : (i + 1) * prefixSize.toNat ≤ blockCount.toNat * prefixSize.toNat :=
    Nat.mul_le_mul_right _ (List.mem_range.mp hi)
  have hlarge : 64 ≤ prefixSize.toNat := by
    simp only [List.mem_cons, List.not_mem_nil, or_false] at hsize
    omega
  rw [Nat.add_mul, Nat.one_mul] at hrecord
  dsimp only
  omega

/-- The sites lie within the container. -/
theorem collectSites_lt {profile : Profile} {data : Bytes} {sites : List (ℕ × H256)}
    (h : collectSites profile data = .ok sites) : ∀ site ∈ sites, site.1 < data.length := by
  obtain ⟨entries, -, h⟩ := Except.bind_eq_ok.mp h
  obtain ⟨groups, hgroups, h⟩ := Except.bind_eq_ok.mp h
  obtain rfl := Except.ok.inj h
  intro site hsite
  obtain ⟨group, hgroup, hsite⟩ := List.mem_flatten.mp hsite
  obtain ⟨span, -, hspan⟩ := exists_of_mem_mapM hgroups hgroup
  simp only [groupSites, Except.bind_eq_ok, slice_eq_ok] at hspan
  obtain ⟨stop, -, packet, ⟨⟨hle, hstop⟩, rfl⟩, packetSites, hpacket, hsites⟩ := hspan
  obtain ⟨site', hsite', hround⟩ := exists_of_mem_mapM hsites hsite
  obtain ⟨abs, habs, hround⟩ := Except.bind_eq_ok.mp hround
  obtain rfl := Except.ok.inj hround
  have hlt := blockFlagSites_lt hpacket site' hsite'
  have hsum := Profile.addUsize_le habs
  rw [List.length_drop, List.length_take_of_le hstop] at hlt
  dsimp only
  omega

section Patchable

variable {profile : Profile} {readReward : H256 → Result (Option U256)} {data : Bytes}

/-- The sites of a container can be found, and the rewards of their blocks be read. -/
def Patchable (profile : Profile) (readReward : H256 → Result (Option U256)) (data : Bytes) : Prop :=
  ∃ sites, collectSites profile data = .ok sites ∧
    ∀ site ∈ sites, ∃ reward, readReward site.2 = .ok reward

/-- **A container that can be read is patched**, for every schedule of the workers. -/
theorem Patchable.patch_eq_ok (h : Patchable profile readReward data) :
    ∃ sites, collectSites profile data = .ok sites ∧
      ∀ schedule : List (List ℕ), schedule.flatten.Perm (List.range sites.length) →
        patchContainerBytes profile readReward schedule data =
          .ok (patchedOf profile readReward data) := by
  obtain ⟨sites, hsites, hreads⟩ := h
  refine ⟨sites, hsites, fun schedule hschedule =>
    patchContainerBytes_report hsites (collectSites_lt hsites) (fun site hsite => ?_) hschedule⟩
  obtain ⟨reward, hreward⟩ := hreads site hsite
  exact rewardsOf_zeroRewardOf hreward

/-- **No other container is patched.** -/
theorem patchable_of_patch_eq_ok {sites : List (ℕ × H256)} {schedule : List (List ℕ)}
    {patched : Patched} (hsites : collectSites profile data = .ok sites)
    (hschedule : schedule.flatten.Perm (List.range sites.length))
    (h : patchContainerBytes profile readReward schedule data = .ok patched) :
    Patchable profile readReward data := by
  unfold patchContainerBytes at h
  rw [hsites, Except.ok_bind] at h
  obtain ⟨flips, hflips, -⟩ := Except.bind_eq_ok.mp h
  refine ⟨sites, hsites, fun site hsite => ?_⟩
  -- some worker has claimed the site
  obtain ⟨i, hi, rfl⟩ := List.getElem_of_mem hsite
  obtain ⟨claimed, hclaimed, hmem⟩ :=
    List.mem_flatten.mp (hschedule.symm.subset (List.mem_range.mpr hi))
  obtain ⟨found, hworker⟩ := exists_of_mapM_eq_ok hflips hclaimed
  obtain ⟨_, hrounds, -⟩ := Except.bind_eq_ok.mp hworker
  obtain ⟨_, hround⟩ := exists_of_mapM_eq_ok hrounds hmem
  obtain ⟨⟨abs, hash⟩, hindex, hround⟩ := Except.bind_eq_ok.mp hround
  obtain ⟨reward, hreward, -⟩ := Except.bind_eq_ok.mp hround
  rw [indexAt_eq_ok, List.getElem?_eq_getElem hi] at hindex
  exact ⟨reward, Option.some.inj hindex ▸ hreward⟩

end Patchable

/-! ## Containers of packets -/

section Archive

variable {T : PrimitiveTypes} (crates : Crates T)

/-- A container of encoded packets. -/
def ArchiveOf (packets : List (Packet T)) (data : Bytes) : Prop :=
  ∃ (groups : List PacketOut) (shardEpochs : UInt64),
    List.Forall₂ (fun packet (group : PacketOut) => encodePacket crates packet = .ok group.bytes)
      packets groups ∧
    groups.length < UInt32.size ∧
    containerHeaderLen + dirEntryLen * groups.length + (payloadsOf groups).length < UInt64.size ∧
    data = containerFile shardEpochs groups

variable {crates} {profile : Profile} {readReward : H256 → Result (Option U256)}
  {packets : List (Packet T)} {data : Bytes}

/-- The sites of a container of packets are those of their blocks. -/
theorem ArchiveOf.exists_sites (h : ArchiveOf crates packets data) :
    ∃ sites, collectSites profile data = .ok sites ∧
      sites.map (·.2) = (packets.flatMap (·.blocks)).map (·.hash) := by
  obtain ⟨groups, shardEpochs, hencode, hcount, hsize, rfl⟩ := h
  obtain ⟨parts, rfl, hparts⟩ := exists_parts (fun _ => false) hencode
  refine ⟨_, collectSites_eq profile (isContainer_containerFile shardEpochs hcount hsize)
    (sitesWithin_of_isPart hparts), ?_⟩
  rw [containerSites_hashes, hashes_of_isPart hparts]

/-- **The patch of a container of packets**, for every schedule of the workers, is the container of
the flagged packets, and a second patch changes nothing. -/
theorem ArchiveOf.patch (h : ArchiveOf crates packets data)
    (hreads : ∀ packet ∈ packets, ∀ block ∈ packet.blocks, ∃ reward,
      readReward block.hash = .ok reward) :
    ∃ sites, collectSites profile data = .ok sites ∧
      ArchiveOf crates (packets.map (Packet.withZeroReward (zeroRewardOf readReward)))
        (patchedOf profile readReward data).data ∧
      (∀ schedule : List (List ℕ), schedule.flatten.Perm (List.range sites.length) →
        patchContainerBytes profile readReward schedule data =
          .ok (patchedOf profile readReward data)) ∧
      patchedOf profile readReward (patchedOf profile readReward data).data =
        { patchedOf profile readReward data with changed := false } := by
  obtain ⟨groups, shardEpochs, hencode, hcount, hsize, rfl⟩ := h
  obtain ⟨parts, rfl, hparts⟩ := exists_parts (zeroRewardOf readReward) hencode
  have hwithin := sitesWithin_of_isPart hparts
  have hwithin' := sitesWithin_patchedGroups hparts
  have hhashes := hashes_of_isPart hparts
  have hlength : (patchedGroups (zeroRewardOf readReward) parts).length =
      (parts.map (·.1)).length := by simp [patchedGroups]
  have hpayloads : (payloadsOf (patchedGroups (zeroRewardOf readReward) parts)).length =
      (payloadsOf (parts.map (·.1))).length := by
    rw [payloadsOf_patchedGroups 0 hwithin, List.length_mark]
  -- flags keep every length, so both files are containers
  have hfile := isContainer_containerFile shardEpochs hcount hsize
  have hcount' : (patchedGroups (zeroRewardOf readReward) parts).length < UInt32.size := by
    rwa [hlength]
  have hsize' : containerHeaderLen + dirEntryLen *
      (patchedGroups (zeroRewardOf readReward) parts).length +
        (payloadsOf (patchedGroups (zeroRewardOf readReward) parts)).length < UInt64.size := by
    rwa [hlength, hpayloads]
  have hfile' := isContainer_containerFile shardEpochs hcount' hsize'
  have hflagged := containerFile_patchedGroups (zeroRewardOf readReward) shardEpochs hcount hwithin
  -- the same sites are collected from both
  have hcollect := collectSites_eq profile hfile hwithin
  have hzip : ((patchedGroups (zeroRewardOf readReward) parts).zip (parts.map (·.2))).map (·.1) =
      patchedGroups (zeroRewardOf readReward) parts := List.map_fst_zip (by simp [patchedGroups])
  have hcollect' := collectSites_eq profile (by rwa [hzip]) hwithin'
  rw [hzip, hlength, containerSites_setFlags] at hcollect'
  generalize hbase : containerHeaderLen + dirEntryLen * (parts.map (·.1)).length = base at *
  replace hflagged : containerFile shardEpochs
      (patchedGroups (zeroRewardOf readReward) parts) = setFlags (zeroRewardOf readReward)
        (containerSites base parts) (containerFile shardEpochs (parts.map (·.1))) := hflagged
  have hsites : (containerSites base parts).map (·.2) =
      (packets.flatMap (·.blocks)).map (·.hash) := by rw [containerSites_hashes, hhashes]
  have hbounds : ∀ site ∈ containerSites base parts,
      site.1 < (containerFile shardEpochs (parts.map (·.1))).length := by
    intro site hsite
    rw [length_containerFile, hbase]
    exact (bounds_of_mem_containerSites hwithin site hsite).2
  have hrewards : ∀ site ∈ containerSites base parts,
      RewardsOf readReward (zeroRewardOf readReward) site.2 := by
    intro site hsite
    have hhash := List.mem_map_of_mem (f := fun site : ℕ × H256 => site.2) hsite
    rw [hsites] at hhash
    obtain ⟨block, hblock, heq⟩ := List.mem_map.mp hhash
    obtain ⟨packet, hpacket, hblock⟩ := List.mem_flatMap.mp hblock
    obtain ⟨reward, hreward⟩ := hreads packet hpacket block hblock
    exact heq ▸ rewardsOf_zeroRewardOf hreward
  have hpatched : patchedOf profile readReward (containerFile shardEpochs (parts.map (·.1))) =
      ⟨containerFile shardEpochs (patchedGroups (zeroRewardOf readReward) parts),
        (containerSites base parts).length,
        (zeroRewardSites (zeroRewardOf readReward) (containerSites base parts)).length,
        decide (containerFile shardEpochs (patchedGroups (zeroRewardOf readReward) parts) ≠
          containerFile shardEpochs (parts.map (·.1)))⟩ := by
    unfold patchedOf
    rw [hcollect, hflagged]
  refine ⟨containerSites base parts, hcollect, ?_, fun schedule hschedule => ?_, ?_⟩
  · rw [hpatched]
    refine ⟨_, shardEpochs, ?_, hcount', hsize', rfl⟩
    rw [patchedGroups, List.forall₂_map_left_iff, List.forall₂_map_right_iff]
    exact hparts.imp fun _ _ hpart => hpart.encode_flagged
  · exact patchContainerBytes_report hcollect hbounds hrewards hschedule
  -- the second patch finds every flag set
  · have hself : setFlags (zeroRewardOf readReward) (containerSites base parts)
        (setFlags (zeroRewardOf readReward) (containerSites base parts)
          (containerFile shardEpochs (parts.map (·.1)))) =
        setFlags (zeroRewardOf readReward) (containerSites base parts)
          (containerFile shardEpochs (parts.map (·.1))) := by
      unfold setFlags
      refine List.ext_getElem? fun i => ?_
      rw [List.getElem?_mark, List.getElem?_mark, Option.map_map]
      refine congrArg (fun f => Option.map f _) (funext fun byte => ?_)
      rw [Function.comp_apply]
      split
      · exact or_zeroReward_self byte
      · rfl
    rw [hpatched]
    dsimp only
    unfold patchedOf
    rw [hcollect', hflagged]
    dsimp only
    rw [hself]
    simp

end Archive

end Extractor
