import CfxMinimalExecution.Cfxpack.Reencoded
import CfxMinimalExecution.Extractor.ContainerFile

/-!
# What the injection of a reward changes

The file that is written holds the same groups. A packet without a pivot of the epoch keeps its
bytes, and the others are read with the reward at their first pivot of the epoch.

## Main definitions

* `RoundTrips`: a packet of which the bytes are read and written again
* `Rewritten`: a group, and what the loop makes of it
* `Injected before after`: how the packets of two byte strings differ

## Main results

* `foldlM_injectGroup`: the file after the loop
* `inject_spec`: the groups of the file that is written
-/

namespace Extractor

open Cfxpack

variable {T : PrimitiveTypes} {crates : Crates T} {rewardEntry : PosRewardEntry} {toEpoch : UInt64}

/-! ## The directory -/

/-- Bytes in the middle are overwritten. -/
theorem copyFromSlice_append {before old new after : Bytes} (h : new.length = old.length) :
    copyFromSlice (before ++ old ++ after) before.length new = .ok (before ++ new ++ after) := by
  have hle : before.length + new.length ≤ (before ++ old ++ after).length := by
    simp only [List.length_append]
    omega
  have htake : (before ++ old ++ after).take before.length = before := by
    rw [List.append_assoc, List.take_left]
  have hdrop : (before ++ old ++ after).drop (before.length + new.length) = after := by
    rw [h, ← List.length_append, List.drop_left]
  rw [copyFromSlice, if_pos hle, htake, hdrop]

/-- **An entry of the directory is overwritten** with another offset and length. -/
theorem overwrite_dirEntry {before after : Bytes} (entry : UInt64 × UInt64 × ℕ × ℕ)
    (offset length : ℕ) :
    (do
      let out ← copyFromSlice (before ++ dirEntryBytes entry ++ after) (before.length + 16)
        (leBytes 8 offset)
      copyFromSlice out (before.length + 24) (leBytes 8 length)) =
      .ok (before ++ dirEntryBytes (entry.1, entry.2.1, offset, length) ++ after) := by
  have hoffset := @copyFromSlice_append
    (before ++ (leBytes 8 entry.1.toNat ++ leBytes 8 entry.2.1.toNat)) (leBytes 8 entry.2.2.1)
    (leBytes 8 offset) (leBytes 8 entry.2.2.2 ++ after) (by simp)
  have hlength := @copyFromSlice_append
    (before ++ (leBytes 8 entry.1.toNat ++ leBytes 8 entry.2.1.toNat ++ leBytes 8 offset))
    (leBytes 8 entry.2.2.2) (leBytes 8 length) after (by simp)
  have h16 : (before ++ (leBytes 8 entry.1.toNat ++ leBytes 8 entry.2.1.toNat)).length =
      before.length + 16 := by simp
  have h24 : (before ++ (leBytes 8 entry.1.toNat ++ leBytes 8 entry.2.1.toNat ++
      leBytes 8 offset)).length = before.length + 24 := by simp
  rw [h16] at hoffset
  rw [h24] at hlength
  simp only [dirEntryBytes, List.append_assoc] at hoffset hlength ⊢
  rw [hoffset, Except.ok_bind, hlength]

theorem directoryOf_append_singleton (base : ℕ) (groups : List PacketOut) (group : PacketOut) :
    directoryOf base (groups ++ [group]) = directoryOf base groups ++
      [(group.startEpoch, group.epochCount, base + (payloadsOf groups).length,
        group.bytes.length)] := by
  induction groups generalizing base with
  | nil => rfl
  | cons first groups ih =>
    rw [List.cons_append, directoryOf, ih, directoryOf, List.cons_append]
    simp [payloadsOf, Nat.add_assoc]

/-! ## The loop -/

/-- A packet of which the bytes are read and written again. -/
def RoundTrips (crates : Crates T) (height : UInt64) (packet : Packet T) (b : Bytes) : Prop :=
  encodePacket crates packet = .ok b ∧ ∃ packet', Reproduced crates height b packet'

/-- A group, and what the loop makes of it. -/
structure Rewritten (crates : Crates T) (rewardEntry : PosRewardEntry) (toEpoch : UInt64)
    (group group' : PacketOut) : Prop where
  startEpoch : group'.startEpoch = group.startEpoch
  epochCount : group'.epochCount = group.epochCount
  bytes : ∃ packet, Reproduced crates posRefHeight group.bytes packet ∧
    encodePacket crates (injectReward rewardEntry toEpoch packet).1 = .ok group'.bytes

/-- The entry of the directory tells where the group stands in the data. -/
structure Points (data : Bytes) (group : PacketOut) (entry : UInt64 × UInt64 × ℕ × ℕ) : Prop where
  startEpoch : entry.1 = group.startEpoch
  epochCount : entry.2.1 = group.epochCount
  slice : slice data entry.2.2.1 (entry.2.2.1 + entry.2.2.2) = .ok group.bytes
  lt : entry.2.2.1 + entry.2.2.2 < UInt64.size

/-- **One round of the loop**: the bytes of the group are appended, and its entry is overwritten. -/
theorem injectGroup_eq_ok {data before after : Bytes} {group : PacketOut}
    {entry : UInt64 × UInt64 × ℕ × ℕ} (hentry : Points data group entry)
    (hreads : ∃ packet, Reproduced crates posRefHeight group.bytes packet) {k : ℕ}
    (hbefore : before.length = 24 + k * 32) {modified : Bool} {state : Bytes × Bool}
    (h : injectGroup crates rewardEntry toEpoch data
      (before ++ dirEntryBytes entry ++ after, modified) (entry, k) = .ok state) :
    ∃ group', Rewritten crates rewardEntry toEpoch group group' ∧
      state.1 = before ++ dirEntryBytes (group'.startEpoch, group'.epochCount,
        (before ++ dirEntryBytes entry ++ after).length, group'.bytes.length) ++
          (after ++ group'.bytes) := by
  obtain ⟨packet, hreads⟩ := hreads
  obtain ⟨hstart, hcount, hslice, hlt⟩ := hentry
  have hadd : crates.addUsize entry.2.2.1 entry.2.2.2 = .ok (entry.2.2.1 + entry.2.2.2) :=
    Profile.addUsize_of_lt hlt
  have hdecode : ∀ message, context message (decodePacketExt crates group.bytes posRefHeight) =
      .ok packet := fun _ => context_eq_ok.mpr hreads.decode
  simp only [injectGroup, hadd, hslice, hdecode, Except.ok_bind] at h
  rw [Except.bind_eq_ok] at h
  obtain ⟨bytes, hencode, h⟩ := h
  rw [context_eq_ok] at hencode
  refine ⟨{ group with bytes }, ⟨rfl, rfl, packet, hreads, hencode⟩, ?_⟩
  obtain ⟨out, hoffset, hlength⟩ := Except.bind_eq_ok.mp (@overwrite_dirEntry before (after ++ bytes)
    entry (before ++ dirEntryBytes entry ++ after).length bytes.length)
  rw [← hbefore, List.append_assoc _ after, hoffset, Except.ok_bind, hlength, Except.ok_bind] at h
  rw [← Except.ok.inj h, ← hstart, ← hcount]

/-- **The file after the loop.** -/
theorem foldlM_injectGroup {data header : Bytes} (hheader : header.length = 24)
    {groups : List PacketOut} {entries : Directory} (hentries : List.Forall₂ (Points data) groups entries)
    (hreads : ∀ group ∈ groups, ∃ packet, Reproduced crates posRefHeight group.bytes packet)
    {done : List PacketOut} {base : ℕ} (hbase : base = 24 + (done.length + groups.length) * 32)
    {modified : Bool} {state : Bytes × Bool}
    (h : (entries.zipIdx done.length).foldlM (injectGroup crates rewardEntry toEpoch data)
      (header ++ (directoryOf base done).flatMap dirEntryBytes ++ entries.flatMap dirEntryBytes ++
        payloadsOf done, modified) = .ok state) :
    ∃ groups', List.Forall₂ (Rewritten crates rewardEntry toEpoch) groups groups' ∧
      state.1 = header ++ (directoryOf base (done ++ groups')).flatMap dirEntryBytes ++
        payloadsOf (done ++ groups') := by
  -- induction on the groups not done: their entries are still those of the old file
  induction hentries generalizing done modified with
  | nil =>
    rw [List.zipIdx_nil, List.foldlM_nil] at h
    refine ⟨[], .nil, ?_⟩
    rw [← Except.ok.inj h]
    simp
  | @cons group entry groups entries hentry hrest ih =>
    obtain ⟨hfirst, hothers⟩ := List.forall_mem_cons.mp hreads
    rw [List.zipIdx_cons, List.foldlM_cons, Except.bind_eq_ok] at h
    obtain ⟨state', hround, h⟩ := h
    have hbefore : (header ++ (directoryOf base done).flatMap dirEntryBytes).length =
        24 + done.length * 32 := by
      rw [List.length_append, hheader, length_flatMap_of_length length_dirEntryBytes,
        length_directoryOf]
      rfl
    rw [List.flatMap_cons, ← List.append_assoc _ (dirEntryBytes entry), List.append_assoc _ _
      (payloadsOf done)] at hround
    obtain ⟨group', hrewritten, hstate⟩ := injectGroup_eq_ok hentry hfirst hbefore hround
    have hoffset : (header ++ (directoryOf base done).flatMap dirEntryBytes ++ dirEntryBytes entry ++
        (entries.flatMap dirEntryBytes ++ payloadsOf done)).length =
          base + (payloadsOf done).length := by
      have hlen := hrest.length_eq
      rw [List.length_append, List.length_append, hbefore, length_dirEntryBytes, List.length_append,
        length_flatMap_of_length length_dirEntryBytes, hbase, List.length_cons, dirEntryLen]
      omega
    have hnext : state' = (header ++ (directoryOf base (done ++ [group'])).flatMap dirEntryBytes ++
        entries.flatMap dirEntryBytes ++ payloadsOf (done ++ [group']), state'.2) := by
      apply Prod.ext
      · rw [hstate, hoffset, directoryOf_append_singleton]
        simp [payloadsOf]
      · rfl
    rw [hnext] at h
    obtain ⟨groups', hgroups', hfile⟩ := @ih hothers (done ++ [group'])
      (by rw [hbase, List.length_append, List.length_cons, List.length_singleton]; omega) state'.2
      (by simpa using h)
    refine ⟨group' :: groups', .cons hrewritten hgroups', ?_⟩
    have happend : done ++ [group'] ++ groups' = done ++ group' :: groups' := by simp
    rw [hfile, happend]

/-! ## The groups of the file -/

/-- How the packets of two byte strings differ: not at all without a pivot of the epoch, and
otherwise in the rewards and the payload flags of the first one. -/
def Injected (crates : Crates T) (rewardEntry : PosRewardEntry) (toEpoch : UInt64)
    (before after : Bytes) : Prop :=
  ∃ packet, decodePacketExt crates before posRefHeight = .ok packet ∧
    (((∀ block ∈ packet.blocks, ¬ block.isPivotOf toEpoch) ∧ after = before) ∨
      ∃ i block txPayload, packet.blocks[i]? = some block ∧ block.isPivotOf toEpoch ∧
        (∀ k < i, ∀ earlier, packet.blocks[k]? = some earlier → ¬ earlier.isPivotOf toEpoch) ∧
        (∃ seenTxs seenTxs', (encodeTxPayload crates (Assoc.indexOf packet.addresses)
          (Assoc.indexOf packet.gasPrices) (senderNonceIndex packet)
            (block.withReward rewardEntry)).run seenTxs = .ok (txPayload, seenTxs')) ∧
        decodePacketExt crates after posRefHeight = .ok { packet with
          blocks := packet.blocks.set i { block.withReward rewardEntry with
            flags := recordFlags block txPayload } })

/-- **What is read of a rewritten group.** -/
theorem Rewritten.injected {group group' : PacketOut} (hlawful : crates.Lawful)
    (h : Rewritten crates rewardEntry toEpoch group group')
    (hsize : group.bytes.length < UInt64.size) (hsize' : group'.bytes.length < UInt64.size) :
    Injected crates rewardEntry toEpoch group.bytes group'.bytes := by
  obtain ⟨packet, hreads, hencode⟩ := h.bytes
  refine ⟨packet, hreads.decode, ?_⟩
  unfold injectReward at hencode
  cases hfind : packet.blocks.findIdx? (·.isPivotOf toEpoch) with
  | none =>
    rw [hfind] at hencode
    have hnone := List.findIdx?_eq_none_iff.mp hfind
    refine .inl ⟨fun block hblock => by simp [hnone block hblock], ?_⟩
    exact Except.ok.inj (hencode.symm.trans hreads.encode)
  | some i =>
    rw [hfind] at hencode
    obtain ⟨hi, hpivot, hearlier⟩ := List.findIdx?_eq_some_iff_getElem.mp hfind
    have hblock : packet.blocks[i]? = some packet.blocks[i] := List.getElem?_eq_getElem hi
    obtain ⟨txPayload, hpayload, hdecode⟩ :=
      hreads.decode_withRewardAt hlawful hsize hblock hencode hsize'
    refine .inr ⟨i, packet.blocks[i], txPayload, hblock, hpivot, ?_, hpayload, hdecode⟩
    intro k hk earlier hget
    obtain ⟨hlt, rfl⟩ := List.getElem?_eq_some_iff.mp hget
    exact hearlier k hk

/-- A header before another directory. -/
theorem IsContainer.of_header {data out header : Bytes} {groups groups' : List PacketOut}
    (h : IsContainer data groups) (hheader : header = data.take containerHeaderLen)
    (hlen : groups'.length = groups.length)
    (heq : out = header ++ (directoryOf (containerHeaderLen + dirEntryLen * groups.length)
      groups').flatMap dirEntryBytes ++ payloadsOf groups')
    (hout : out.length < UInt64.size) : IsContainer out groups' := by
  have hle := h.headerLen_le
  have hheaderLen : header.length = containerHeaderLen := by
    rw [hheader, List.length_take]
    omega
  have hoffset : (directoryOf (containerHeaderLen + dirEntryLen * groups.length)
      groups').flatMap dirEntryBytes ++ payloadsOf groups' = out.drop containerHeaderLen := by
    rw [heq, List.append_assoc, List.drop_left' hheaderLen]
  have hlength : out.length =
      containerHeaderLen + dirEntryLen * groups'.length + (payloadsOf groups').length := by
    rw [heq, List.length_append, List.length_append, hheaderLen,
      length_flatMap_of_length length_dirEntryBytes, length_directoryOf, Nat.mul_comm]
  have htake : ∀ n ≤ containerHeaderLen, out.take n = data.take n := by
    intro n hn
    rw [heq, List.append_assoc, List.take_append_of_le_length (by omega), hheader, List.take_take,
      Nat.min_eq_left hn]
  have hle' : containerHeaderLen ≤ out.length := by omega
  constructor
  · exact hle'
  · rw [htake 8 (by decide), h.take_magic]
  · rw [hlen, ← h.groupCount, u32FromLe, u32FromLe, slice, slice, htake (12 + 4) (by decide),
      if_pos, if_pos]
    · exact ⟨by omega, hle.trans' (by decide)⟩
    · exact ⟨by omega, hle'.trans' (by decide)⟩
  · rw [← hoffset, hlen]
  · rw [hlen]
    exact h.length_lt
  · exact hlength
  · exact hout

/-- Every entry of the directory of a container points at its group. -/
theorem IsContainer.points {data : Bytes} {groups : List PacketOut} (h : IsContainer data groups) :
    List.Forall₂ (Points data) groups
      (directoryOf (containerHeaderLen + dirEntryLen * groups.length) groups) := by
  have hentries := h.forall₂_directoryOf
  have hsize := h.size
  rw [List.forall₂_iff_get] at hentries ⊢
  refine ⟨hentries.1, fun i hi hi' => ?_⟩
  obtain ⟨hstart, hcount, hslice⟩ := hentries.2 i hi hi'
  exact ⟨hstart, hcount, hslice, (h.entry_le _ (List.get_mem _ _)).trans_lt hsize⟩

/-- The file after the loop is a container of the rewritten groups. -/
theorem IsContainer.patchedContainer_eq_ok {data out : Bytes} {groups : List PacketOut}
    (h : IsContainer data groups) (hne : groups ≠ [])
    (hreads : ∀ group ∈ groups, ∃ packet, Reproduced crates posRefHeight group.bytes packet)
    (hout : out.length < UInt64.size)
    (hpatched : patchedContainer crates rewardEntry toEpoch data = .ok (some out)) :
    ∃ groups', List.Forall₂ (Rewritten crates rewardEntry toEpoch) groups groups' ∧
      IsContainer out groups' := by
  -- the payloads start where the first group of the directory does
  obtain ⟨group, rest, rfl⟩ := List.exists_cons_of_ne_nil hne
  have hle := h.headerLen_le
  have hlength := h.length_eq
  have hbase : (((directoryOf (containerHeaderLen + dirEntryLen * (group :: rest).length)
      (group :: rest)).head?.map (·.2.2.1)).getD data.length) =
        containerHeaderLen + dirEntryLen * (group :: rest).length := rfl
  have hheader : data.take (containerHeaderLen + dirEntryLen * (group :: rest).length) =
      data.take containerHeaderLen ++
        (directoryOf (containerHeaderLen + dirEntryLen * (group :: rest).length)
          (group :: rest)).flatMap dirEntryBytes := by
    rw [List.take_add, h.drop_directory]
    refine congrArg (data.take containerHeaderLen ++ ·) (List.take_left' ?_)
    rw [length_flatMap_of_length length_dirEntryBytes, length_directoryOf, Nat.mul_comm]
  have hslice : slice data 0 (containerHeaderLen + dirEntryLen * (group :: rest).length) =
      .ok (data.take (containerHeaderLen + dirEntryLen * (group :: rest).length)) := by
    rw [slice_eq_ok, List.drop_zero]
    exact ⟨⟨Nat.zero_le _, by omega⟩, rfl⟩
  simp only [patchedContainer, h.parseDirectory_eq, Except.ok_bind, hbase, hslice] at hpatched
  rw [Except.bind_eq_ok] at hpatched
  obtain ⟨state, hloop, hout'⟩ := hpatched
  obtain rfl : state.1 = out := by
    split at hout'
    · exact Option.some.inj (Except.ok.inj hout')
    · cases Except.ok.inj hout'
  have hheaderLen : (data.take containerHeaderLen).length = 24 := List.length_take_of_le hle
  have hstart : data.take containerHeaderLen ++
      (directoryOf (containerHeaderLen + dirEntryLen * (group :: rest).length) []).flatMap
        dirEntryBytes ++
      (directoryOf (containerHeaderLen + dirEntryLen * (group :: rest).length)
        (group :: rest)).flatMap dirEntryBytes ++ payloadsOf [] =
        data.take (containerHeaderLen + dirEntryLen * (group :: rest).length) := by
    rw [hheader, directoryOf, payloadsOf, List.flatMap_nil, List.flatMap_nil, List.append_nil,
      List.append_nil]
  obtain ⟨groups', hgroups', heq⟩ := @foldlM_injectGroup _ crates rewardEntry toEpoch _ _ hheaderLen _ _
    h.points hreads [] (containerHeaderLen + dirEntryLen * (group :: rest).length)
    (by simp [containerHeaderLen, dirEntryLen, Nat.mul_comm]) false state
    (by rw [hstart]; exact hloop)
  exact ⟨groups', hgroups', h.of_header rfl hgroups'.length_eq.symm heq hout⟩

/-- What the loop writes passes the checks after it. -/
theorem IsContainer.verifyPatched_eq {data : Bytes} {groups : List PacketOut}
    (h : IsContainer data groups)
    (hdecodes : ∀ group ∈ groups, ∃ packet,
      decodePacketExt crates group.bytes posRefHeight = .ok packet) :
    verifyPatched crates data = .ok () := by
  have hpackets : ∀ group ∈ groups, ∀ entry, Points data group entry → ∃ packet, (do
      let packetData ← slice data entry.2.2.1 (← crates.addUsize entry.2.2.1 entry.2.2.2)
      context s!"verify group starting at epoch {entry.1.toNat}"
        (decodePacketExt crates packetData posRefHeight)) = .ok packet := by
    intro group hgroup entry hentry
    obtain ⟨packet, hdecode⟩ := hdecodes group hgroup
    refine ⟨packet, ?_⟩
    rw [Profile.addUsize_of_lt hentry.lt, Except.ok_bind, hentry.slice, Except.ok_bind,
      context_eq_ok, hdecode]
  rw [verifyPatched, h.parseDirectory_eq, Except.ok_bind]
  have hpoints := h.points
  generalize directoryOf (containerHeaderLen + dirEntryLen * groups.length) groups = entries at *
  obtain ⟨packets, hall⟩ : ∃ packets : List (Packet T), (entries.mapM fun entry => do
      let packetData ← slice data entry.2.2.1 (← crates.addUsize entry.2.2.1 entry.2.2.2)
      context s!"verify group starting at epoch {entry.1.toNat}"
        (decodePacketExt crates packetData posRefHeight)) = .ok packets := by
    simp only [mapM_eq_ok_iff]
    clear h hdecodes
    induction hpoints with
    | nil => exact ⟨[], .nil⟩
    | cons hpoint _ ih =>
      obtain ⟨hfirst, hrest⟩ := List.forall_mem_cons.mp hpackets
      obtain ⟨packet, hpacket⟩ := hfirst _ hpoint
      obtain ⟨packets, hpackets⟩ := ih hrest
      exact ⟨packet :: packets, .cons hpacket hpackets⟩
  rw [hall, Except.ok_bind]
  rfl

theorem inject_eq_some {data out : Bytes} {outcome : Result Unit}
    (h : inject crates rewardEntry toEpoch data = (some out, outcome)) :
    patchedContainer crates rewardEntry toEpoch data = .ok (some out) ∧
      outcome = verifyPatched crates out := by
  unfold inject at h
  split at h
  · cases h
  · cases h
  case h_3 out' hpatched =>
    obtain ⟨hsome, houtcome⟩ := Prod.ext_iff.mp h
    obtain rfl := Option.some.inj hsome
    exact ⟨hpatched, houtcome.symm⟩

theorem IsContainer.length_bytes_lt {data : Bytes} {groups : List PacketOut}
    (h : IsContainer data groups) : ∀ group ∈ groups, group.bytes.length < UInt64.size := by
  intro group hgroup
  obtain ⟨entry, -, hentry⟩ := h.points.exists_right hgroup
  obtain ⟨-, hbytes⟩ := slice_eq_ok.mp hentry.slice
  have hsize := h.size
  rw [← hbytes, List.length_drop, List.length_take]
  omega

theorem Injected.exists_packet {before after : Bytes}
    (h : Injected crates rewardEntry toEpoch before after) :
    ∃ packet, decodePacketExt crates after posRefHeight = .ok packet := by
  obtain ⟨packet, hdecode, ⟨-, rfl⟩ | ⟨_, _, _, -, -, -, -, hafter⟩⟩ := h
  · exact ⟨packet, hdecode⟩
  · exact ⟨_, hafter⟩

/-- **The injection of a reward changes nothing else.** The file that is written passes the checks
and holds the same groups, of which the packets differ in the reward. -/
theorem inject_spec (hlawful : crates.Lawful) (profile : Profile) (namePrefix : String)
    (shardEpochs : UInt64) {packets : List (Packet T)} {groups : List PacketOut}
    (hpackets : List.Forall₂ (fun packet group => RoundTrips crates posRefHeight packet group.bytes)
      packets groups)
    (hne : groups ≠ []) {builder : ContainerBuilder}
    (hpush : groups.foldlM (ContainerBuilder.push profile) .default = .ok builder)
    {summary : PackSummary} {written : List File} {writer : Writer}
    (hflush : flushContainer profile namePrefix shardEpochs ⟨builder, summary, written⟩ = .ok writer)
    {path : String} {data : Bytes} (hfile : writer.written = written ++ [(path, data)])
    (hcount : groups.length < UInt32.size) (hsize : data.length < UInt64.size)
    (rewardEntry : PosRewardEntry) (toEpoch : UInt64) {out : Bytes} {outcome : Result Unit}
    (hinject : inject crates rewardEntry toEpoch data = (some out, outcome))
    (hout : out.length < UInt64.size) :
    outcome = .ok () ∧
    ∃ directory, parseDirectory crates.toProfile out = .ok directory ∧
      List.Forall₂ (fun (group : PacketOut) (entry : UInt64 × UInt64 × ℕ × ℕ) =>
        entry.1 = group.startEpoch ∧ entry.2.1 = group.epochCount ∧
          ∃ bytes, slice out entry.2.2.1 (entry.2.2.1 + entry.2.2.2) = .ok bytes ∧
            Injected crates rewardEntry toEpoch group.bytes bytes) groups directory := by
  have hholds := holds_default.of_foldlM hpush
  rw [List.nil_append] at hholds
  obtain ⟨_, hcontainer⟩ := hholds.flushContainer_eq hne profile namePrefix shardEpochs
  have hwritten := (hcontainer summary written).1 writer hflush
  obtain rfl : data = containerFile shardEpochs groups := by
    have hsame := List.append_cancel_left (hfile.symm.trans hwritten)
    exact (Prod.ext_iff.mp (List.singleton_inj.mp hsame)).2
  have hdata : IsContainer (containerFile shardEpochs groups) groups :=
    isContainer_containerFile shardEpochs hcount (length_containerFile shardEpochs groups ▸ hsize)
  have hreads : ∀ group ∈ groups, ∃ packet, Reproduced crates posRefHeight group.bytes packet := by
    intro group hgroup
    obtain ⟨packet, -, -, packet', hreads⟩ := hpackets.exists_left hgroup
    exact ⟨packet', hreads⟩
  -- a file is returned only if the verification after the loop passes
  obtain ⟨hpatched, rfl⟩ := inject_eq_some hinject
  obtain ⟨groups', hrewritten, hcontainer'⟩ := hdata.patchedContainer_eq_ok hne hreads hout hpatched
  have hinjected : ∀ group ∈ groups, ∀ group' ∈ groups', Rewritten crates rewardEntry toEpoch group
      group' → Injected crates rewardEntry toEpoch group.bytes group'.bytes :=
    fun group hgroup group' hgroup' h => h.injected hlawful (hdata.length_bytes_lt group hgroup)
      (hcontainer'.length_bytes_lt group' hgroup')
  refine ⟨?_, _, hcontainer'.parseDirectory_eq crates.toProfile, ?_⟩
  · apply hcontainer'.verifyPatched_eq
    intro group' hgroup'
    obtain ⟨group, hgroup, h⟩ := hrewritten.exists_left hgroup'
    exact (hinjected group hgroup group' hgroup' h).exists_packet
  · obtain ⟨hlen, hrewritten⟩ := List.forall₂_iff_get.mp hrewritten
    obtain ⟨hlen', hpoints⟩ := List.forall₂_iff_get.mp hcontainer'.points
    refine List.forall₂_iff_get.mpr ⟨hlen.trans hlen', fun i hi hi' => ?_⟩
    have hgroup := hrewritten i hi (hlen ▸ hi)
    obtain ⟨hstart, hcount, hslice, -⟩ := hpoints i (hlen ▸ hi) hi'
    exact ⟨hstart.trans hgroup.startEpoch, hcount.trans hgroup.epochCount, _, hslice,
      hinjected _ (List.get_mem _ _) _ (List.get_mem _ _) hgroup⟩

theorem roundTrips_of_run {packet : Packet plainTypes} {b : Bytes}
    (hencode : encodePacket plainCrates packet = .ok b)
    (hrun : ((decodePacketExt plainCrates b posRefHeight).bind fun packet' =>
      (encodePacket plainCrates packet').map fun b' => decide (b' = b)) = .ok true) :
    RoundTrips plainCrates posRefHeight packet b := by
  obtain ⟨packet', hdecode, hencodes⟩ := Except.bind_eq_ok.mp hrun
  obtain ⟨b', hencode', hsame⟩ := Except.map_eq_ok.mp hencodes
  obtain rfl := of_decide_eq_true hsame
  exact ⟨hencode, packet', hdecode, hencode'⟩

/-- The reward of an account. -/
def plainRewardEntry : PosRewardEntry :=
  ⟨[⟨otherAddress, H256.fromSlice [4], 9⟩], H256.fromSlice []⟩

set_option maxRecDepth 4000 in
/-- The first of two groups has no pivot of epoch 7. -/
theorem inject_spec_two : ∃ out entry entry',
    inject plainCrates plainRewardEntry 7 (containerFile 2 [plainGroup, transferGroup]) =
        (some out, .ok ()) ∧
      parseDirectory plainCrates.toProfile out = .ok [entry, entry'] ∧
      (entry.1, entry.2.1) = (5, 1) ∧ (entry'.1, entry'.2.1) = (6, 2) ∧
      slice out entry.2.2.1 (entry.2.2.1 + entry.2.2.2) = .ok plainBytes ∧
      ∃ bytes packet, slice out entry'.2.2.1 (entry'.2.2.1 + entry'.2.2.2) = .ok bytes ∧
        decodePacketExt plainCrates bytes posRefHeight = .ok packet ∧
        ∃ block ∈ packet.blocks, block.epoch = 7 ∧
          { plainRewardEntry with executionEpochHash := block.hash } ∈ block.posRewards := by
  have hrun : (inject plainCrates plainRewardEntry 7
      (containerFile 2 [plainGroup, transferGroup])).1.map List.length = some 1514 := by
    decide +kernel
  rcases hinject : inject plainCrates plainRewardEntry 7
    (containerFile 2 [plainGroup, transferGroup]) with ⟨first, outcome⟩
  rw [hinject] at hrun
  obtain ⟨out, rfl, hlen⟩ := Option.map_eq_some_iff.mp hrun
  have hpackets : List.Forall₂ (fun packet group =>
      RoundTrips plainCrates posRefHeight packet group.bytes) [plainPacket, transferPacket 10]
        [plainGroup, transferGroup] :=
    .cons (roundTrips_of_run encodePacket_plainPacket (by decide +kernel))
      (.cons (roundTrips_of_run encodePacket_transferPacket (by decide +kernel)) .nil)
  obtain ⟨path, hflush⟩ := (holds_default.of_foldlM foldlM_push_plainGroup).flushContainer_eq
    (by simp) ⟨true⟩ "epochs" 2
  obtain ⟨writer, hwriter⟩ := (hflush .default []).2 (show 0 + 3 < UInt64.size by decide)
  have hfile := (hflush .default []).1 writer hwriter
  have hsize : (containerFile 2 [plainGroup, transferGroup]).length < UInt64.size := by
    rw [length_containerFile]
    exact length_payloadsOf_plainGroup
  obtain ⟨rfl, directory, hparse, hgroups⟩ := inject_spec plainCrates_lawful ⟨true⟩ "epochs" 2
    hpackets (by simp) foldlM_push_plainGroup hwriter hfile (by decide) hsize plainRewardEntry 7
    hinject (by rw [hlen]; decide)
  obtain ⟨entry, rest, hentry, hrest, rfl⟩ := List.forall₂_cons_left_iff.mp hgroups
  obtain ⟨entry', rest', hentry', hrest', rfl⟩ := List.forall₂_cons_left_iff.mp hrest
  obtain rfl := List.forall₂_nil_left_iff.mp hrest'
  obtain ⟨hstart, hcount, bytes, hslice, packet, hdecode, hkept⟩ := hentry
  obtain ⟨hstart', hcount', bytes', hslice', packet', hdecode', hrewarded⟩ := hentry'
  refine ⟨out, entry, entry', rfl, hparse, Prod.ext hstart hcount,
    Prod.ext hstart' hcount', ?_, ?_⟩
  -- no block of the first group is a pivot of the epoch
  · have hpivots : (decodePacketExt plainCrates plainBytes posRefHeight).map
        (fun packet => packet.blocks.all fun block => !block.isPivotOf 7) = .ok true := by
      decide +kernel
    obtain ⟨packet₁, hdecode₁, hnone⟩ := Except.map_eq_ok.mp hpivots
    obtain rfl := Except.ok.inj (hdecode₁.symm.trans hdecode)
    rcases hkept with ⟨-, rfl⟩ | ⟨i, block, -, hblock, hpivot, -⟩
    · exact hslice
    · have hnot := List.all_eq_true.mp hnone block (List.mem_of_getElem? hblock)
      rw [hpivot] at hnot
      cases hnot
  · have hpivots : (decodePacketExt plainCrates transferBytes posRefHeight).map
        (fun packet => packet.blocks.any fun block => block.isPivotOf 7) = .ok true := by
      decide +kernel
    obtain ⟨packet₁, hdecode₁, hsome⟩ := Except.map_eq_ok.mp hpivots
    obtain rfl := Except.ok.inj (hdecode₁.symm.trans hdecode')
    rcases hrewarded with ⟨hnone, -⟩ | ⟨i, block, txPayload, hblock, hpivot, -, -, hafter⟩
    · obtain ⟨block, hblock, hpivot⟩ := List.any_eq_true.mp hsome
      exact absurd hpivot (hnone block hblock)
    · refine ⟨bytes', _, hslice', hafter, _,
        List.mem_set (List.getElem?_eq_some_iff.mp hblock).1 _, ?_, ?_⟩
      · exact of_decide_eq_true (Bool.and_eq_true_iff.mp hpivot).1
      · exact List.mem_append_right _ (List.mem_singleton_self _)

end Extractor
