import CfxMinimalExecution.Extractor.ContainerFile
import CfxMinimalExecution.Cfxpack.PlainCrates
import CfxMinimalExecution.Cfxpack.FlagSites

/-!
# Patching in place is encoding again

## Main definitions

* `containerSites`: the sites of the blocks of a container
* `patchedGroups`: groups with the flag set in the bytes of their packets

## Main results

* `collectSites_eq`: the sites that the patcher finds
* `flips_perm`: whatever the workers claim, they find the sites of the blocks without a reward
* `foldlM_applyFlip`: the flips, in any order
* `containerFile_patchedGroups`: the flips of the packets are the flips of the container
* `patchContainerBytes_spec`: patching in place is encoding again
-/

namespace Extractor

open Cfxpack

/-! ## The sites of a container -/

/-- The sites of the blocks of groups whose payloads start at `base`, from the sites in each of
their packets. -/
def containerSites : ℕ → List (PacketOut × List (ℕ × H256)) → List (ℕ × H256)
  | _, [] => []
  | base, (group, sites) :: parts =>
    sites.map (fun site => (base + site.1, site.2)) ++
      containerSites (base + group.bytes.length) parts

/-- The sites of every packet lie within it. -/
def SitesWithin (parts : List (PacketOut × List (ℕ × H256))) : Prop :=
  ∀ part ∈ parts, blockFlagSites part.1.bytes = .ok part.2 ∧
    ∀ site ∈ part.2, site.1 < part.1.bytes.length

theorem groupSites_eq {profile : Profile} {data : Bytes} {offset : ℕ} {group : PacketOut}
    {sites : List (ℕ × H256)} (hsize : data.length < UInt64.size)
    (hslice : slice data offset (offset + group.bytes.length) = .ok group.bytes)
    (hsites : blockFlagSites group.bytes = .ok sites)
    (hwithin : ∀ site ∈ sites, site.1 < group.bytes.length) :
    groupSites profile data (offset, group.bytes.length) =
      .ok (sites.map fun site => (offset + site.1, site.2)) := by
  have hle := (slice_eq_ok.mp hslice).1.2
  have hadd : profile.addUsize offset group.bytes.length = .ok (offset + group.bytes.length) :=
    Profile.addUsize_of_lt (by omega)
  have hsite : ∀ site ∈ sites, (do
      let abs ← profile.addUsize offset site.1
      pure (abs, site.2) : Result (ℕ × H256)) = .ok (offset + site.1, site.2) := by
    intro site hsite
    have hlt := hwithin site hsite
    rw [Profile.addUsize_of_lt (by omega)]
    rfl
  simp only [groupSites, hadd, hslice, hsites, Except.ok_bind]
  exact mapM_eq_ok hsite

theorem mapM_groupSites (profile : Profile) {data : Bytes} (hsize : data.length < UInt64.size)
    {parts : List (PacketOut × List (ℕ × H256))} {base : ℕ} {pre : Bytes}
    (hdata : data = pre ++ payloadsOf (parts.map (·.1))) (hbase : pre.length = base)
    (hwithin : SitesWithin parts) :
    ∃ sites, ((directoryOf base (parts.map (·.1))).map (·.2.2)).mapM (groupSites profile data) =
      .ok sites ∧ sites.flatten = containerSites base parts := by
  induction parts generalizing base pre with
  | nil => exact ⟨[], rfl, rfl⟩
  | cons part parts ih =>
    obtain ⟨group, sites⟩ := part
    subst hbase
    obtain ⟨hsites, hlt⟩ := hwithin _ List.mem_cons_self
    have hsplit : data = pre ++ group.bytes ++ payloadsOf (parts.map (·.1)) := by
      rw [hdata]
      simp [payloadsOf]
    have hslice : slice data pre.length (pre.length + group.bytes.length) = .ok group.bytes :=
      slice_append hsplit
    obtain ⟨rest, hrest, hflatten⟩ := ih hsplit List.length_append
      fun part hpart => hwithin part (List.mem_cons_of_mem _ hpart)
    refine ⟨sites.map (fun site => (pre.length + site.1, site.2)) :: rest, ?_, ?_⟩
    · rw [List.map_cons, directoryOf, List.map_cons, List.mapM_cons,
        groupSites_eq hsize hslice hsites hlt, hrest]
      rfl
    · rw [List.flatten_cons, hflatten, containerSites]

/-- **The sites that the patcher finds.** -/
theorem collectSites_eq (profile : Profile) {data : Bytes}
    {parts : List (PacketOut × List (ℕ × H256))} (hdata : IsContainer data (parts.map (·.1)))
    (hwithin : SitesWithin parts) :
    collectSites profile data = .ok (containerSites
      (containerHeaderLen + dirEntryLen * (parts.map (·.1)).length) parts) := by
  have hle := hdata.length_eq
  have hsplit : data = data.take (containerHeaderLen + dirEntryLen * (parts.map (·.1)).length) ++
      payloadsOf (parts.map (·.1)) := by rw [← hdata.drop_payloads, List.take_append_drop]
  have hbase : (data.take (containerHeaderLen + dirEntryLen * (parts.map (·.1)).length)).length =
      containerHeaderLen + dirEntryLen * (parts.map (·.1)).length := by
    rw [List.length_take]
    omega
  obtain ⟨sites, hsites, hflatten⟩ := mapM_groupSites profile hdata.size hsplit hbase hwithin
  rw [collectSites, hdata.parseContainer_eq, Except.ok_bind, hsites, Except.ok_bind, hflatten]
  rfl

/-! ## The flips -/

section Flips

variable {readReward : H256 → Result (Option U256)} {zeroReward : H256 → Bool}

/-- The reads of the rewards tell the blocks to flag. -/
def RewardsOf (readReward : H256 → Result (Option U256)) (zeroReward : H256 → Bool) (hash : H256) :
    Prop :=
  ∃ reward, readReward hash = .ok reward ∧ (reward.getD 0 = 0 ↔ zeroReward hash = true)

/-- The flip of a claimed index. -/
def flipOf (zeroReward : H256 → Bool) (sites : List (ℕ × H256)) (i : ℕ) : Option ℕ :=
  sites[i]?.bind fun site => if zeroReward site.2 then some site.1 else none

theorem workerFlips_eq {sites : List (ℕ × H256)} {claimed : List ℕ}
    (hreads : ∀ site ∈ sites, RewardsOf readReward zeroReward site.2)
    (hclaimed : ∀ i ∈ claimed, i < sites.length) :
    workerFlips readReward sites claimed = .ok (claimed.filterMap (flipOf zeroReward sites)) := by
  have hflips : workerFlips readReward sites claimed =
      (claimed.map (flipOf zeroReward sites) |> fun flips => .ok (flips.filterMap id)) := by
    unfold workerFlips
    rw [mapM_eq_ok fun i hi => ?_]
    · rfl
    have hi := List.getElem?_eq_getElem (hclaimed i hi)
    obtain ⟨reward, hread, hzero⟩ := hreads _ (List.mem_of_getElem? hi)
    simp only [indexAt_eq_ok.mpr hi, hread, flipOf, hi, Except.ok_bind, Option.bind_some]
    exact congrArg Except.ok (if_congr hzero rfl rfl)
  rw [hflips]
  simp [List.filterMap_map]

theorem filterMap_range_flipOf (sites : List (ℕ × H256)) :
    (List.range sites.length).filterMap (flipOf zeroReward sites) =
      zeroRewardSites zeroReward sites := by
  induction sites with
  | nil => rfl
  | cons site sites ih =>
    rw [List.length_cons, List.range_succ_eq_map, List.filterMap_cons, List.filterMap_map]
    have hcomp : flipOf zeroReward (site :: sites) ∘ Nat.succ = flipOf zeroReward sites := rfl
    rw [hcomp, ih]
    cases hzero : zeroReward site.2 <;> simp [flipOf, zeroRewardSites, hzero]

/-- **Whatever the workers claim**, they find the sites of the blocks without a reward. -/
theorem flips_perm {sites : List (ℕ × H256)} {schedule : List (List ℕ)}
    (hreads : ∀ site ∈ sites, RewardsOf readReward zeroReward site.2)
    (hschedule : schedule.flatten.Perm (List.range sites.length)) :
    ∃ flips, schedule.mapM (workerFlips readReward sites) = .ok flips ∧
      flips.flatten.Perm (zeroRewardSites zeroReward sites) := by
  refine ⟨schedule.map fun claimed => claimed.filterMap (flipOf zeroReward sites),
    mapM_eq_ok fun claimed hclaimed => workerFlips_eq hreads fun i hi => ?_, ?_⟩
  · exact List.mem_range.mp (hschedule.subset (List.mem_flatten_of_mem hclaimed hi))
  · rw [← filterMap_range_flipOf, ← List.filterMap_flatten]
    exact hschedule.filterMap _

theorem or_zeroReward_self (byte : UInt8) :
    byte ||| flagZeroTotalReward ||| flagZeroTotalReward = byte ||| flagZeroTotalReward := by
  rw [UInt8.or_assoc, UInt8.or_self]

theorem or_zeroReward_and (byte : UInt8) :
    (byte ||| flagZeroTotalReward) &&& flagZeroTotalReward ≠ 0 := by
  have hall : ∀ b : Fin 256,
      (UInt8.ofNat b ||| flagZeroTotalReward) &&& flagZeroTotalReward ≠ 0 := by decide +kernel
  simpa using hall ⟨byte.toNat, byte.toNat_lt⟩

theorem or_zeroReward_of_ne {byte : UInt8} (h : byte &&& flagZeroTotalReward ≠ 0) :
    byte ||| flagZeroTotalReward = byte := by
  have hall : ∀ b : Fin 256, UInt8.ofNat b &&& flagZeroTotalReward ≠ 0 →
      UInt8.ofNat b ||| flagZeroTotalReward = UInt8.ofNat b := by decide +kernel
  simpa using hall ⟨byte.toNat, byte.toNat_lt⟩ (by simpa using h)

theorem applyFlip_eq {data : Bytes} {k : ℕ} {byte : UInt8} (h : data[k]? = some byte)
    (changed : Bool) : applyFlip (data, changed) k =
      .ok (data.set k (byte ||| flagZeroTotalReward),
        decide (byte &&& flagZeroTotalReward = 0) || changed) := by
  rw [applyFlip, indexAt_eq_ok.mpr h, Except.ok_bind]
  split
  case isTrue hzero => simp [hzero]
  case isFalse hzero =>
    obtain ⟨hlt, rfl⟩ := List.getElem?_eq_some_iff.mp h
    rw [or_zeroReward_of_ne hzero, List.set_getElem_self]
    simp [hzero]

/-- **The flips, in any order**, set the flag at their places. -/
theorem foldlM_applyFlip {data : Bytes} {P : ℕ → Prop} [DecidablePred P] {flips : List ℕ}
    (hflips : ∀ k ∈ flips, k < data.length) (changed : Bool) :
    ∃ changed', flips.foldlM applyFlip (data.mark P (· ||| flagZeroTotalReward), changed) =
      .ok (data.mark (fun k => P k ∨ k ∈ flips) (· ||| flagZeroTotalReward), changed') := by
  induction flips generalizing P changed with
  | nil => exact ⟨changed, by simp⟩
  | cons k flips ih =>
    obtain ⟨byte, hbyte⟩ : ∃ byte, (data.mark P (· ||| flagZeroTotalReward))[k]? = some byte := by
      refine ⟨_, List.getElem?_eq_getElem ?_⟩
      rw [List.length_mark]
      exact hflips k List.mem_cons_self
    have hset := List.mark_set or_zeroReward_self hbyte
    obtain ⟨changed', hrest⟩ := ih (P := fun j => P j ∨ j = k)
      (fun j hj => hflips j (List.mem_cons_of_mem _ hj))
      (decide (byte &&& flagZeroTotalReward = 0) || changed)
    refine ⟨changed', ?_⟩
    rw [List.foldlM_cons, applyFlip_eq hbyte, Except.ok_bind, hset, hrest]
    refine congrArg (fun data => Except.ok (data, changed')) (List.mark_congr fun j _ => ?_)
    rw [List.mem_cons, or_assoc]

/-- Flags that are set already stay. -/
theorem foldlM_applyFlip_of_flagged {data : Bytes} {flips : List ℕ}
    (hflips : ∀ k ∈ flips, ∃ byte, data[k]? = some byte ∧ byte &&& flagZeroTotalReward ≠ 0)
    (changed : Bool) : flips.foldlM applyFlip (data, changed) = .ok (data, changed) := by
  induction flips with
  | nil => rfl
  | cons k flips ih =>
    obtain ⟨byte, hbyte, hset⟩ := hflips k List.mem_cons_self
    have hround : applyFlip (data, changed) k = .ok (data, changed) := by
      simp [applyFlip, indexAt_eq_ok.mpr hbyte, hset]
    rw [List.foldlM_cons, hround]
    exact ih fun j hj => hflips j (List.mem_cons_of_mem _ hj)

end Flips

/-! ## The flips of a container -/

section Container

variable {zeroReward : H256 → Bool}

/-- Groups with the flag set in the bytes of their packets. -/
def patchedGroups (zeroReward : H256 → Bool) (parts : List (PacketOut × List (ℕ × H256))) :
    List PacketOut :=
  parts.map fun part => { part.1 with bytes := setFlags zeroReward part.2 part.1.bytes }

theorem zeroRewardSites_append (sites sites' : List (ℕ × H256)) :
    zeroRewardSites zeroReward (sites ++ sites') =
      zeroRewardSites zeroReward sites ++ zeroRewardSites zeroReward sites' := by
  simp [zeroRewardSites]

theorem zeroRewardSites_map (base : ℕ) (sites : List (ℕ × H256)) :
    zeroRewardSites zeroReward (sites.map fun site => (base + site.1, site.2)) =
      (zeroRewardSites zeroReward sites).map (base + ·) := by
  simp [zeroRewardSites, List.filter_map, Function.comp_def]

theorem exists_of_mem_zeroRewardSites {sites : List (ℕ × H256)} {k : ℕ}
    (h : k ∈ zeroRewardSites zeroReward sites) : ∃ site ∈ sites, site.1 = k := by
  obtain ⟨site, hsite, rfl⟩ := List.mem_map.mp h
  exact ⟨site, List.mem_of_mem_filter hsite, rfl⟩

/-- The sites of a container lie in its payloads. -/
theorem bounds_of_mem_containerSites {parts : List (PacketOut × List (ℕ × H256))} {base : ℕ}
    (hwithin : SitesWithin parts) :
    ∀ site ∈ containerSites base parts,
      base ≤ site.1 ∧ site.1 < base + (payloadsOf (parts.map (·.1))).length := by
  induction parts generalizing base with
  | nil => simp [containerSites]
  | cons part parts ih =>
    obtain ⟨group, sites⟩ := part
    intro site hsite
    have hlen : (payloadsOf (((group, sites) :: parts).map (·.1))).length =
        group.bytes.length + (payloadsOf (parts.map (·.1))).length := by simp [payloadsOf]
    rcases List.mem_append.mp hsite with hsite | hsite
    · obtain ⟨site, hmem, rfl⟩ := List.mem_map.mp hsite
      have hlt := (hwithin _ List.mem_cons_self).2 site hmem
      rw [hlen]
      simp only at hlt ⊢
      omega
    · have hrest := ih (fun part hpart => hwithin part (List.mem_cons_of_mem _ hpart)) site hsite
      rw [hlen]
      omega

/-- The flips of the packets are the flips of the payloads. -/
theorem payloadsOf_patchedGroups {parts : List (PacketOut × List (ℕ × H256))} (base : ℕ)
    (hwithin : SitesWithin parts) :
    payloadsOf (patchedGroups zeroReward parts) = (payloadsOf (parts.map (·.1))).mark
      (fun i => base + i ∈ zeroRewardSites zeroReward (containerSites base parts))
      (· ||| flagZeroTotalReward) := by
  induction parts generalizing base with
  | nil => rfl
  | cons part parts ih =>
    obtain ⟨group, sites⟩ := part
    have hrest := fun part hpart => hwithin part (List.mem_cons_of_mem (group, sites) hpart)
    obtain ⟨-, hlt⟩ := hwithin _ List.mem_cons_self
    have hcons : payloadsOf (((group, sites) :: parts).map (·.1)) =
        group.bytes ++ payloadsOf (parts.map (·.1)) := by simp [payloadsOf]
    have hcons' : payloadsOf (patchedGroups zeroReward ((group, sites) :: parts)) =
        group.bytes.mark (· ∈ zeroRewardSites zeroReward sites) (· ||| flagZeroTotalReward) ++
          payloadsOf (patchedGroups zeroReward parts) := by
      simp [payloadsOf, patchedGroups, setFlags]
    -- the sites of a container are those of its first group, and those of the rest further on
    have hmem : ∀ k, k ∈ zeroRewardSites zeroReward (containerSites base ((group, sites) :: parts)) ↔
        (∃ i ∈ zeroRewardSites zeroReward sites, base + i = k) ∨
          k ∈ zeroRewardSites zeroReward (containerSites (base + group.bytes.length) parts) := by
      intro k
      rw [containerSites, zeroRewardSites_append, zeroRewardSites_map, List.mem_append, List.mem_map]
    rw [hcons, hcons', ih (base + group.bytes.length) hrest, List.mark_append]
    congr 1
    · refine List.mark_congr fun i hi => ?_
      rw [hmem]
      constructor
      · exact fun h => .inl ⟨i, h, rfl⟩
      · rintro (⟨j, hj, heq⟩ | h)
        · obtain rfl : j = i := by omega
          exact hj
        · obtain ⟨site, hsite, heq⟩ := exists_of_mem_zeroRewardSites h
          have hbounds := bounds_of_mem_containerSites hrest site hsite
          omega
    · refine List.mark_congr fun i hi => ?_
      rw [hmem, Nat.add_assoc]
      constructor
      · exact .inr
      · rintro (⟨j, hj, heq⟩ | h)
        · obtain ⟨site, hsite, rfl⟩ := exists_of_mem_zeroRewardSites hj
          have hbound := hlt site hsite
          simp only at hbound
          omega
        · exact h

theorem directoryOf_patchedGroups (base : ℕ) (parts : List (PacketOut × List (ℕ × H256))) :
    directoryOf base (patchedGroups zeroReward parts) = directoryOf base (parts.map (·.1)) := by
  induction parts generalizing base with
  | nil => rfl
  | cons part parts ih =>
    have hrest := ih (base + part.1.bytes.length)
    simp only [patchedGroups, List.map_cons, directoryOf, length_setFlags] at hrest ⊢
    rw [hrest]

/-- **The flips of the packets are the flips of the container.** -/
theorem containerFile_patchedGroups (zeroReward : H256 → Bool) (shardEpochs : UInt64)
    {parts : List (PacketOut × List (ℕ × H256))} (hcount : (parts.map (·.1)).length < UInt32.size)
    (hwithin : SitesWithin parts) :
    containerFile shardEpochs (patchedGroups zeroReward parts) =
      (containerFile shardEpochs (parts.map (·.1))).mark
        (· ∈ zeroRewardSites zeroReward (containerSites
          (containerHeaderLen + dirEntryLen * (parts.map (·.1)).length) parts))
        (· ||| flagZeroTotalReward) := by
  have hlen : (patchedGroups zeroReward parts).length = (parts.map (·.1)).length := by
    simp [patchedGroups]
  have hword : (UInt32.ofNat (parts.map (·.1)).length).toNat = (parts.map (·.1)).length :=
    UInt32.toNat_ofNat_of_lt' hcount
  have hfront : (containerHeader shardEpochs (UInt32.ofNat (parts.map (·.1)).length) ++
      (directoryOf (containerHeaderLen + dirEntryLen * (parts.map (·.1)).length)
        (parts.map (·.1))).flatMap dirEntryBytes).length =
          containerHeaderLen + dirEntryLen * (parts.map (·.1)).length := by
    rw [List.length_append, length_containerHeader,
      length_flatMap_of_length length_dirEntryBytes, length_directoryOf, Nat.mul_comm]
  rw [containerFile, containerFile, hlen, hword, directoryOf_patchedGroups, List.mark_append]
  congr 1
  · refine (List.mark_eq_self fun i hi hmem => ?_).symm
    obtain ⟨site, hsite, rfl⟩ := exists_of_mem_zeroRewardSites hmem
    have hbounds := bounds_of_mem_containerSites hwithin site hsite
    omega
  · rw [payloadsOf_patchedGroups _ hwithin, hfront]

/-- The flags do not move the sites. -/
theorem containerSites_setFlags (base : ℕ) (parts : List (PacketOut × List (ℕ × H256))) :
    containerSites base ((patchedGroups zeroReward parts).zip (parts.map (·.2))) =
      containerSites base parts := by
  induction parts generalizing base with
  | nil => rfl
  | cons part parts ih =>
    have hrest := ih (base + part.1.bytes.length)
    simp only [patchedGroups, List.map_cons, List.zip_cons_cons, containerSites,
      length_setFlags] at hrest ⊢
    rw [hrest]

theorem containerSites_hashes (base : ℕ) (parts : List (PacketOut × List (ℕ × H256))) :
    (containerSites base parts).map (·.2) = parts.flatMap fun part => part.2.map (·.2) := by
  induction parts generalizing base with
  | nil => rfl
  | cons part parts ih =>
    rw [containerSites, List.map_append, ih, List.map_map, List.flatMap_cons]
    rfl

end Container

/-! ## The patch -/

section Patch

variable {T : PrimitiveTypes} {crates : Crates T} {profile : Profile} {zeroReward : H256 → Bool}

/-- Builders with the same epochs. -/
structure SameEpochs (builder builder' : ContainerBuilder) : Prop where
  startEpoch : builder.startEpoch = builder'.startEpoch
  endEpoch : builder.endEpoch = builder'.endEpoch
  epochCount : builder.epochCount = builder'.epochCount

/-- A push checks the epochs only. -/
theorem SameEpochs.push {builder builder' pushed : ContainerBuilder} {group : PacketOut}
    (h : SameEpochs builder builder') (bytes : Bytes) (hpush : builder.push profile group = .ok pushed) :
    ∃ pushed', builder'.push profile { group with bytes } = .ok pushed' ∧ SameEpochs pushed pushed' := by
  simp only [ContainerBuilder.push, Except.bind_eq_ok, Except.pure_def, Except.ok.injEq] at hpush
  obtain ⟨stop, hstop, endEpoch, hend, epochCount, hcount, rfl⟩ := hpush
  rw [h.epochCount] at hcount
  simp only [ContainerBuilder.push, hstop, hend, hcount, Except.ok_bind, Except.pure_def]
  exact ⟨_, rfl, by rw [h.startEpoch], rfl, rfl⟩

theorem SameEpochs.foldlM {groups groups' : List PacketOut} {builder builder' pushed : ContainerBuilder}
    (hgroups : List.Forall₂ (fun (group group' : PacketOut) =>
      group' = { group with bytes := group'.bytes }) groups groups')
    (h : SameEpochs builder builder')
    (hpush : groups.foldlM (ContainerBuilder.push profile) builder = .ok pushed) :
    ∃ pushed', groups'.foldlM (ContainerBuilder.push profile) builder' = .ok pushed' ∧
      SameEpochs pushed pushed' := by
  induction hgroups generalizing builder builder' with
  | nil =>
    obtain rfl : builder = pushed := Except.ok.inj hpush
    exact ⟨builder', rfl, h⟩
  | @cons group group' groups groups' hgroup _ ih =>
    rw [List.foldlM_cons, Except.bind_eq_ok] at hpush
    obtain ⟨middle, hmiddle, hrest⟩ := hpush
    obtain ⟨middle', hmiddle', hsame⟩ := h.push group'.bytes hmiddle
    rw [List.foldlM_cons, hgroup, hmiddle']
    exact ih hsame hrest

/-- A flush of the same epochs is to the same path. -/
theorem SameEpochs.flushContainer {builder builder' : ContainerBuilder} {namePrefix : String}
    {shardEpochs : UInt64} {summary : PackSummary} {written : List File} {writer : Writer}
    (h : SameEpochs builder builder')
    (hflush : flushContainer profile namePrefix shardEpochs ⟨builder, summary, written⟩ = .ok writer) :
    ∃ path writer', writer.written = written ++ [(path, containerBytes shardEpochs builder)] ∧
      flushContainer profile namePrefix shardEpochs ⟨builder', summary, written⟩ = .ok writer' ∧
      writer'.written = written ++ [(path, containerBytes shardEpochs builder')] := by
  cases hstart : builder.startEpoch with
  | none => simp [Extractor.flushContainer, hstart] at hflush
  | some startEpoch =>
    simp only [Extractor.flushContainer, hstart, Except.bind_eq_ok, Except.pure_def,
      Except.ok.injEq] at hflush
    obtain ⟨epochCount, hcount, rfl⟩ := hflush
    rw [h.epochCount] at hcount
    simp only [Extractor.flushContainer, ← h.startEpoch, hstart, hcount, h.endEpoch, Except.ok_bind,
      Except.pure_def]
    exact ⟨_, _, rfl, rfl, rfl⟩

/-- **The patch of data with given sites.** -/
theorem patchContainerBytes_eq {readReward : H256 → Result (Option U256)} {data : Bytes}
    {sites : List (ℕ × H256)} {schedule : List (List ℕ)}
    (hsites : collectSites profile data = .ok sites) (hlt : ∀ site ∈ sites, site.1 < data.length)
    (hreads : ∀ site ∈ sites, RewardsOf readReward zeroReward site.2)
    (hschedule : schedule.flatten.Perm (List.range sites.length)) :
    ∃ patched, patchContainerBytes profile readReward schedule data = .ok patched ∧
      patched.data = setFlags zeroReward sites data ∧ patched.blocksSeen = sites.length := by
  obtain ⟨flips, hflips, hperm⟩ := flips_perm hreads hschedule
  have hbounds : ∀ k ∈ flips.flatten, k < data.length := by
    intro k hk
    obtain ⟨site, hsite, rfl⟩ := exists_of_mem_zeroRewardSites (hperm.subset hk)
    exact hlt site hsite
  have hstart : data.mark (fun _ => False) (· ||| flagZeroTotalReward) = data :=
    List.mark_eq_self fun _ _ => id
  obtain ⟨changed, hfold⟩ := foldlM_applyFlip (P := fun _ => False) hbounds false
  have hmark : data.mark (fun k => False ∨ k ∈ flips.flatten) (· ||| flagZeroTotalReward) =
      setFlags zeroReward sites data := by
    refine List.mark_congr fun k _ => ?_
    rw [false_or]
    exact hperm.mem_iff
  rw [hstart, hmark] at hfold
  refine ⟨⟨setFlags zeroReward sites data, sites.length, flips.flatten.length, changed⟩, ?_, rfl, rfl⟩
  simp only [patchContainerBytes, hsites, hflips, hfold, Except.ok_bind, Except.pure_def]

/-- **A second patch** changes nothing. -/
theorem patchContainerBytes_setFlags {readReward : H256 → Result (Option U256)} {data : Bytes}
    {sites : List (ℕ × H256)} {schedule : List (List ℕ)}
    (hsites : collectSites profile (setFlags zeroReward sites data) = .ok sites)
    (hlt : ∀ site ∈ sites, site.1 < data.length)
    (hreads : ∀ site ∈ sites, RewardsOf readReward zeroReward site.2)
    (hschedule : schedule.flatten.Perm (List.range sites.length)) :
    ∃ patched, patchContainerBytes profile readReward schedule (setFlags zeroReward sites data) =
      .ok patched ∧ patched.data = setFlags zeroReward sites data ∧ patched.changed = false := by
  obtain ⟨flips, hflips, hperm⟩ := flips_perm hreads hschedule
  have hflagged : ∀ k ∈ flips.flatten, ∃ byte,
      (setFlags zeroReward sites data)[k]? = some byte ∧ byte &&& flagZeroTotalReward ≠ 0 := by
    intro k hk
    have hmem := hperm.subset hk
    obtain ⟨site, hsite, rfl⟩ := exists_of_mem_zeroRewardSites hmem
    rw [setFlags, List.getElem?_mark, List.getElem?_eq_getElem (hlt site hsite), Option.map_some,
      if_pos hmem]
    exact ⟨_, rfl, or_zeroReward_and _⟩
  have hfold := foldlM_applyFlip_of_flagged hflagged false
  refine ⟨⟨setFlags zeroReward sites data, sites.length, flips.flatten.length, false⟩, ?_, rfl, rfl⟩
  simp only [patchContainerBytes, hsites, hflips, hfold, Except.ok_bind, Except.pure_def]

/-- A packet, its group, and its sites. -/
structure IsPart (crates : Crates T) (zeroReward : H256 → Bool) (packet : Packet T)
    (part : PacketOut × List (ℕ × H256)) : Prop where
  siteList : SiteList packet part.1.bytes part.2
  encode_flagged : encodePacket crates (packet.withZeroReward zeroReward) =
    .ok (setFlags zeroReward part.2 part.1.bytes)
  sites_flagged : blockFlagSites (setFlags zeroReward part.2 part.1.bytes) = .ok part.2

theorem exists_parts {packets : List (Packet T)} {groups : List PacketOut}
    (zeroReward : H256 → Bool) (h : List.Forall₂ (fun packet (group : PacketOut) =>
      encodePacket crates packet = .ok group.bytes) packets groups) :
    ∃ parts, groups = parts.map (·.1) ∧
      List.Forall₂ (IsPart crates zeroReward) packets parts := by
  induction h with
  | nil => exact ⟨[], rfl, .nil⟩
  | @cons packet group _ _ hencode _ ih =>
    obtain ⟨parts, rfl, hparts⟩ := ih
    obtain ⟨sites, hsites, hflagged, hsame⟩ := exists_siteList zeroReward hencode
    exact ⟨(group, sites) :: parts, rfl, .cons ⟨hsites, hflagged, hsame⟩ hparts⟩

theorem sitesWithin_of_isPart {packets : List (Packet T)} {parts : List (PacketOut × List (ℕ × H256))}
    (h : List.Forall₂ (IsPart crates zeroReward) packets parts) : SitesWithin parts := by
  induction h with
  | nil => simp [SitesWithin]
  | cons hpart _ ih =>
    rintro part (_ | ⟨_, hmem⟩)
    · exact ⟨hpart.siteList.blockFlagSites_eq, hpart.siteList.lt_length⟩
    · exact ih part hmem

/-- The groups with the flag set have the same sites. -/
theorem sitesWithin_patchedGroups {packets : List (Packet T)}
    {parts : List (PacketOut × List (ℕ × H256))}
    (h : List.Forall₂ (IsPart crates zeroReward) packets parts) :
    SitesWithin ((patchedGroups zeroReward parts).zip (parts.map (·.2))) := by
  induction h with
  | nil => simp [SitesWithin, patchedGroups]
  | cons hpart _ ih =>
    rintro part (_ | ⟨_, hmem⟩)
    · refine ⟨hpart.sites_flagged, fun site hsite => ?_⟩
      rw [length_setFlags]
      exact hpart.siteList.lt_length site hsite
    · exact ih part hmem

theorem hashes_of_isPart {packets : List (Packet T)} {parts : List (PacketOut × List (ℕ × H256))}
    (h : List.Forall₂ (IsPart crates zeroReward) packets parts) :
    (parts.flatMap fun part => part.2.map (·.2)) =
      (packets.flatMap (·.blocks)).map (·.hash) := by
  induction h with
  | nil => rfl
  | cons hpart _ ih =>
    rw [List.flatMap_cons, List.flatMap_cons, List.map_append, ih, hpart.siteList.hashes]

/-- **Patching in place is encoding again.** The packets of a container are written with the flag
set on the blocks without a reward: whatever the workers claim and whatever the order of the flips,
the patched container is the container of the flagged packets, at the same path. The flags of every
block are at its site, with its hash, and a second patch changes nothing. -/
theorem patchContainerBytes_spec (crates : Crates T) (profile : Profile) (zeroReward : H256 → Bool)
    (readReward : H256 → Result (Option U256)) (namePrefix : String) (shardEpochs : UInt64)
    (summary : PackSummary) (written : List File) (packets : List (Packet T))
    (groups : List PacketOut) (builder : ContainerBuilder) (writer : Writer)
    (hencode : List.Forall₂ (fun packet (group : PacketOut) =>
      encodePacket crates packet = .ok group.bytes) packets groups)
    (hpush : groups.foldlM (ContainerBuilder.push profile) .default = .ok builder)
    (hflush : flushContainer profile namePrefix shardEpochs ⟨builder, summary, written⟩ = .ok writer)
    (hcount : groups.length < UInt32.size)
    (hsize : containerHeaderLen + dirEntryLen * groups.length + (payloadsOf groups).length <
      UInt64.size)
    (hreads : ∀ packet ∈ packets, ∀ block ∈ packet.blocks,
      RewardsOf readReward zeroReward block.hash) :
    ∃ (path : String) (data flaggedData : Bytes) (flagged : List PacketOut)
        (flaggedBuilder : ContainerBuilder) (flaggedWriter : Writer),
      writer.written = written ++ [(path, data)] ∧
      List.Forall₂ (fun packet (group : PacketOut) =>
        encodePacket crates (packet.withZeroReward zeroReward) = .ok group.bytes) packets flagged ∧
      List.Forall₂ (fun (group group' : PacketOut) =>
        group' = { group with bytes := group'.bytes }) groups flagged ∧
      flagged.foldlM (ContainerBuilder.push profile) .default = .ok flaggedBuilder ∧
      flushContainer profile namePrefix shardEpochs ⟨flaggedBuilder, summary, written⟩ =
        .ok flaggedWriter ∧
      flaggedWriter.written = written ++ [(path, flaggedData)] ∧
      (∀ schedule : List (List ℕ),
        schedule.flatten.Perm (List.range (packets.flatMap (·.blocks)).length) →
        ∃ patched, patchContainerBytes profile readReward schedule data = .ok patched ∧
          patched.data = flaggedData ∧
          patched.blocksSeen = (packets.flatMap (·.blocks)).length) ∧
      (∀ schedule : List (List ℕ),
        schedule.flatten.Perm (List.range (packets.flatMap (·.blocks)).length) →
        ∃ patched, patchContainerBytes profile readReward schedule flaggedData = .ok patched ∧
          patched.data = flaggedData ∧ patched.changed = false) ∧
      List.Forall₂ (fun packet (group : PacketOut) =>
        ∃ sites, SiteList packet group.bytes sites) packets groups := by
  obtain ⟨parts, rfl, hparts⟩ := exists_parts zeroReward hencode
  have hwithin := sitesWithin_of_isPart hparts
  have hwithin' := sitesWithin_patchedGroups hparts
  have hhashes := hashes_of_isPart hparts
  have hsame : List.Forall₂ (fun (group group' : PacketOut) =>
      group' = { group with bytes := group'.bytes }) (parts.map (·.1))
        (patchedGroups zeroReward parts) := by
    rw [patchedGroups, List.forall₂_map_left_iff, List.forall₂_map_right_iff, List.forall₂_same]
    exact fun _ _ => rfl
  -- the flagged packets fill a builder with the same epochs, hence under the same path
  obtain ⟨builder', hpush', hepochs⟩ := SameEpochs.foldlM hsame ⟨rfl, rfl, rfl⟩ hpush
  obtain ⟨path, writer', hwritten, hflush', hwritten'⟩ := hepochs.flushContainer hflush
  have hlength : (patchedGroups zeroReward parts).length = (parts.map (·.1)).length := by
    simp [patchedGroups]
  have hpayloads : (payloadsOf (patchedGroups zeroReward parts)).length =
      (payloadsOf (parts.map (·.1))).length := by
    rw [payloadsOf_patchedGroups 0 hwithin, List.length_mark]
  -- both files are containers of groups at the same offsets, since flags keep every length
  have hfile := isContainer_containerFile shardEpochs hcount hsize
  have hfile' : IsContainer (containerFile shardEpochs (patchedGroups zeroReward parts))
      (patchedGroups zeroReward parts) := by
    refine isContainer_containerFile shardEpochs ?_ ?_
    · rwa [hlength]
    · rwa [hlength, hpayloads]
  have hflagged := containerFile_patchedGroups zeroReward shardEpochs hcount hwithin
  rw [(holds_default.of_foldlM hpush).containerBytes_eq, List.nil_append] at hwritten
  rw [(holds_default.of_foldlM hpush').containerBytes_eq, List.nil_append] at hwritten'
  have hcollect := collectSites_eq profile hfile hwithin
  have hzip : ((patchedGroups zeroReward parts).zip (parts.map (·.2))).map (·.1) =
      patchedGroups zeroReward parts := List.map_fst_zip (by simp [patchedGroups])
  have hcollect' := collectSites_eq profile (by rwa [hzip]) hwithin'
  rw [hzip, hlength, containerSites_setFlags, hflagged] at hcollect'
  generalize hbase : containerHeaderLen + dirEntryLen * (parts.map (·.1)).length = base at *
  have hsites : (containerSites base parts).map (·.2) = (packets.flatMap (·.blocks)).map (·.hash) := by
    rw [containerSites_hashes, hhashes]
  have hcountSites : (containerSites base parts).length = (packets.flatMap (·.blocks)).length := by
    simpa using congrArg List.length hsites
  have hbounds : ∀ site ∈ containerSites base parts,
      site.1 < (containerFile shardEpochs (parts.map (·.1))).length := by
    intro site hsite
    rw [length_containerFile, hbase]
    exact (bounds_of_mem_containerSites hwithin site hsite).2
  have hrewards : ∀ site ∈ containerSites base parts, RewardsOf readReward zeroReward site.2 := by
    intro site hsite
    have hhash := List.mem_map_of_mem (f := fun site : ℕ × H256 => site.2) hsite
    rw [hsites] at hhash
    obtain ⟨block, hblock, heq⟩ := List.mem_map.mp hhash
    obtain ⟨packet, hpacket, hblock⟩ := List.mem_flatMap.mp hblock
    exact heq ▸ hreads packet hpacket block hblock
  refine ⟨path, _, _, _, _, _, hwritten, ?_, hsame, hpush', hflush', hwritten', ?_, ?_, ?_⟩
  · rw [patchedGroups, List.forall₂_map_right_iff]
    exact hparts.imp fun _ _ hpart => hpart.encode_flagged
  · intro schedule hschedule
    rw [← hcountSites] at hschedule ⊢
    rw [hflagged]
    exact patchContainerBytes_eq hcollect hbounds hrewards hschedule
  · intro schedule hschedule
    rw [← hcountSites] at hschedule
    rw [hflagged]
    exact patchContainerBytes_setFlags hcollect' hbounds hrewards hschedule
  · rw [List.forall₂_map_right_iff]
    exact hparts.imp fun _ _ hpart => ⟨_, hpart.siteList⟩

/-- Two packets, of which the last block has no reward. -/
theorem patchContainerBytes_spec_two :
    let zeroReward := fun hash : H256 => decide (hash = H256.fromSlice [7])
    let readReward := fun hash : H256 =>
      (.ok (if hash = H256.fromSlice [7] then none else some 1) : Result (Option U256))
    ∃ flagged : List PacketOut,
      List.Forall₂ (fun packet (group : PacketOut) =>
        encodePacket plainCrates (packet.withZeroReward zeroReward) = .ok group.bytes)
          [plainPacket, transferPacket 10] flagged ∧
      ∃ patched, patchContainerBytes ⟨true⟩ readReward [[2, 0], [1]]
          (containerFile 2 [plainGroup, transferGroup]) = .ok patched ∧
        patched.data = containerFile 2 flagged ∧ patched.blocksSeen = 3 := by
  intro zeroReward readReward
  obtain ⟨path, hflush⟩ := (holds_default.of_foldlM foldlM_push_plainGroup).flushContainer_eq
    (by simp) ⟨true⟩ "epochs" 2
  obtain ⟨writer, hwriter⟩ := (hflush .default []).2 (show 0 + 3 < UInt64.size by decide)
  have hreads : ∀ packet ∈ [plainPacket, transferPacket 10], ∀ block ∈ packet.blocks,
      RewardsOf readReward zeroReward block.hash := by
    intro packet _ block _
    refine ⟨_, rfl, ?_⟩
    by_cases hhash : block.hash = H256.fromSlice [7] <;> simp [zeroReward, hhash]
  obtain ⟨path', data, flaggedData, flagged, flaggedBuilder, flaggedWriter, hwritten, hflagged,
      hsame, hpush, hflushed, hflaggedWritten, hpatch, -, -⟩ :=
    patchContainerBytes_spec plainCrates ⟨true⟩ zeroReward readReward "epochs" 2 .default []
      [plainPacket, transferPacket 10] [plainGroup, transferGroup] plainBuilder writer
      encodes_plainGroup foldlM_push_plainGroup hwriter (by decide) length_payloadsOf_plainGroup
      hreads
  have hdata : data = containerFile 2 [plainGroup, transferGroup] := by
    have hfile := hwritten.symm.trans ((hflush .default []).1 writer hwriter)
    exact (Prod.ext_iff.mp (List.singleton_inj.mp (List.append_cancel_left hfile))).2
  have hne : flagged ≠ [] := by
    rintro rfl
    cases hflagged
  obtain ⟨path'', hflush'⟩ := (holds_default.of_foldlM hpush).flushContainer_eq hne ⟨true⟩ "epochs" 2
  have hflaggedData : flaggedData = containerFile 2 flagged := by
    have hfile := hflaggedWritten.symm.trans ((hflush' .default []).1 flaggedWriter hflushed)
    exact (Prod.ext_iff.mp (List.singleton_inj.mp (List.append_cancel_left hfile))).2
  rw [hdata, hflaggedData] at hpatch
  exact ⟨flagged, hflagged, hpatch [[2, 0], [1]] (by decide)⟩

end Patch

end Extractor
