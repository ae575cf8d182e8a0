import CfxMinimalExecution.Cfxpack.EncodeDecoded
import CfxMinimalExecution.Cfxpack.References
import CfxMinimalExecution.Cfxpack.Unaltered

/-!
# Decoding and encoding again

A decoder that does not know from where on blocks have PoS views skips them, or takes a zero that
fills a record for one.

## Main definitions

* `Packet.records`: the records that the encoder writes
* `ViewSurvives`: the record of a block does not depend on whether its PoS view is read
* `ViewsSurvive`: nor does the size of the prefixes

## Main results

* `IsEncoding.exists_txs`: the transactions of a packet without repeated hashes in a block are
  read
* `exists_decode_encode_iff`: the decoded packet is encoded to the same bytes exactly when the PoS
  views survive
-/

namespace Cfxpack

variable {T : PrimitiveTypes} {crates : Crates T} {input : Packet T}

/-! ## The same bytes -/

/-- **Records are assembled to the same bytes exactly when they are packed alike.** -/
theorem assemblePacket_eq_ok_iff {b txSegment : Bytes} {records records' : List Bytes} {n n' : ℕ}
    (hlen : records'.length = records.length) (hn : n ∈ prefixSizes)
    (hn' : n' ∈ prefixSizes)
    (h : assemblePacket input n records.length (packBlockBody records n).2
      (packBlockBody records n).1 txSegment = .ok b) :
    assemblePacket input n' records'.length (packBlockBody records' n').2
        (packBlockBody records' n').1 txSegment = .ok b ↔
      n' = n ∧ records'.map (paddedRecord n) = records.map (paddedRecord n) := by
  constructor
  · intro h'
    have harea := blockArea_of_assemblePacket hn h
    have harea' := blockArea_of_assemblePacket hn' h'
    have hbyte := Except.ok.inj (harea'.prefixSize.symm.trans harea.prefixSize)
    obtain rfl : n' = n := by
      have hbounds := prefixSize_bounds hn
      have hbounds' := prefixSize_bounds hn'
      have hmod := congrArg UInt8.toNat hbyte
      rw [UInt8.toNat_ofNat', UInt8.toNat_ofNat'] at hmod
      omega
    have hoffsets := Except.ok.inj (harea'.readOffsets.symm.trans harea.readOffsets)
    rw [hoffsets] at harea'
    have hbitmap' := harea'.bitmap
    rw [hlen] at hbitmap'
    have hbitmap := Except.ok.inj (hbitmap'.symm.trans harea.bitmap)
    have hrounds := mapM_run_eq_ok.mpr (harea.packed.rounds_reassembleRecord ⟨true⟩)
    have hrounds' := mapM_run_eq_ok.mpr (harea'.packed.rounds_reassembleRecord ⟨true⟩)
    rw [hbitmap, hlen] at hrounds'
    exact ⟨rfl, congrArg Prod.fst (Except.ok.inj (hrounds'.symm.trans hrounds))⟩
  · rintro ⟨rfl, hpadded⟩
    rw [packBlockBody_congr hpadded, hlen, h]

/-- Zeros are read as a zero. -/
theorem eq_zero_of_uleb128_append {value : UInt64} {j k : ℕ}
    (h : uleb128 value ++ List.replicate j 0 = List.replicate k 0) : value = 0 := by
  cases k with
  | zero => simp [uleb128_ne_nil] at h
  | succ k =>
    have hread := reads_uleb128 (List.replicate (k + 1) 0) value 0 _ h.symm
    have hread' := reads_uleb128 (List.replicate (k + 1) 0) 0 0 (List.replicate k 0) rfl
    exact congrArg Prod.fst (Except.ok.inj (hread.symm.trans hread'))

/-- A number at the end of a record cannot be told from the zeros that fill its prefix. -/
theorem paddedRecord_append_uleb128_iff {n : ℕ} {base : Bytes} {value : UInt64} :
    paddedRecord n (base ++ uleb128 value) = paddedRecord n base ↔
      value = 0 ∧ base.length < n := by
  rw [paddedRecord_eq_append, paddedRecord_eq_append, List.append_assoc, List.append_cancel_left_eq,
    zeroFill, zeroFill]
  constructor
  · intro h
    obtain rfl := eq_zero_of_uleb128_append h
    have hlen := congrArg List.length h
    simp only [List.length_append, List.length_replicate] at hlen
    have hpos := List.length_pos_of_ne_nil (uleb128_ne_nil 0)
    exact ⟨rfl, by omega⟩
  · rintro ⟨rfl, hlt⟩
    have hzero : uleb128 0 = List.replicate 1 0 := rfl
    rw [hzero, List.replicate_append_replicate]
    refine congrArg (List.replicate · 0) ?_
    simp only [List.length_append, List.length_replicate]
    omega

/-! ## The PoS views -/

/-- The record of a block does not depend on whether its PoS view is read. -/
def ViewSurvives (input : Packet T) (height : UInt64) (n : ℕ) (entry : Block T × Bytes) : Prop :=
  if height ≤ entry.1.height then entry.1.posView = none → entry.2.length < n
  else ∀ posView, entry.1.posView = some posView →
    posView ≤ input.minPosHeight ∧ entry.2.length ≤ n

/-- The record of a block whose PoS view is read as a zero, or is skipped. -/
def rereadRecord (height : UInt64) (entry : Block T × Bytes) : Bytes :=
  if height ≤ entry.1.height then
    if entry.1.posView.isSome then entry.2 else entry.2 ++ [0]
  else if entry.1.posView.isSome then entry.2.dropLast else entry.2

/-- The PoS views of a packet can be skipped, or zeros be read for them. -/
structure ViewsSurvive (input : Packet T) (height : UInt64) (records : List Bytes) : Prop where
  view : ∀ entry ∈ input.blocks.zip records,
    ViewSurvives input height (choosePrefixSize records) entry
  prefixSize : choosePrefixSize ((input.blocks.zip records).map (rereadRecord height)) =
    choosePrefixSize records

theorem saturatingSub_eq_zero_iff {a b : UInt64} : saturatingSub a b = 0 ↔ a ≤ b := by
  rw [← UInt64.toNat_inj, toNat_saturatingSub, UInt64.le_iff_toNat_le]
  exact Nat.sub_eq_zero_iff_le

/-- The distance to the base is read back. -/
theorem saturatingSub_viewBack (input : Packet T) (posView : UInt64) :
    saturatingSub (input.viewBack posView) input.storedMinPosHeight =
      saturatingSub posView input.minPosHeight := by
  have hadd := addU64_storedMinPosHeight ⟨true⟩ input posView
  have hlt : input.storedMinPosHeight.toNat + (saturatingSub posView input.minPosHeight).toNat <
      UInt64.size := by
    by_contra hge
    have herror : (⟨true⟩ : Profile).addU64 input.storedMinPosHeight
        (saturatingSub posView input.minPosHeight) = .error .overflow :=
      Profile.addU64_eq_error.mpr ⟨⟨rfl, Nat.not_lt.mp hge⟩, rfl⟩
    cases hadd.symm.trans herror
  rw [← UInt64.toNat_inj, toNat_saturatingSub, Packet.viewBack, UInt64.toNat_add,
    Nat.mod_eq_of_lt hlt]
  omega

/-- **When a record is packed as before**, and what it is then. -/
theorem paddedRecord_rewrittenRecord {height : UInt64} {n : ℕ} {block : Block T} {base : Bytes}
    {view : Option UInt64}
    (hview : viewRead input height block
      (zeroFill n (base ++ posViewBytes input block)) = some view) :
    (paddedRecord n (rewrittenRecord input block (base ++ posViewBytes input block) view) =
        paddedRecord n (base ++ posViewBytes input block) ↔
      ViewSurvives input height n (block, base ++ posViewBytes input block)) ∧
    (ViewSurvives input height n (block, base ++ posViewBytes input block) →
      rewrittenRecord input block (base ++ posViewBytes input block) view =
        rereadRecord height (block, base ++ posViewBytes input block)) := by
  rw [rewrittenRecord_append]
  unfold viewRead at hview
  unfold ViewSurvives rereadRecord posViewBytes at *
  split at hview
  case isTrue hheight =>
    simp only [if_pos hheight]
    cases hposView : block.posView with
    | some posView =>
      rw [hposView] at hview
      obtain rfl := Option.some.inj hview
      have hsame := saturatingSub_viewBack input posView
      rw [Packet.viewBack] at hsame
      simp [viewBytes, hsame]
    -- no view was written: the reader finds zeros or the end of the padded record
    | none =>
      rw [hposView] at hview
      simp only [Option.map_none, Option.getD_none, List.append_nil] at hview ⊢
      split at hview
      case isTrue => cases hview
      case isFalse hzeros =>
        obtain rfl := Option.some.inj hview
        -- zeros are there only when the record leaves room for one
        have hlt : base.length < n := by
          by_contra hge
          exact hzeros (by rw [zeroFill, Nat.sub_eq_zero_of_le (Nat.not_lt.mp hge)]; rfl)
        have hbytes : viewBytes input (some input.storedMinPosHeight) = uleb128 0 := by
          simp [viewBytes, saturatingSub_eq_zero_iff.mpr (UInt64.le_refl _)]
        rw [hbytes, paddedRecord_append_uleb128_iff]
        exact ⟨⟨fun _ _ => hlt, fun _ => ⟨rfl, hlt⟩⟩, fun _ => rfl⟩
  -- the reader does not look for a view, so one that was written becomes padding
  case isFalse hheight =>
    obtain rfl := Option.some.inj hview
    simp only [if_neg hheight]
    cases hposView : block.posView with
    | none => simp [viewBytes]
    | some posView =>
      simp only [viewBytes, Option.map_none, Option.getD_none, List.append_nil, Option.map_some,
        Option.getD_some, Option.some.injEq, forall_eq', Option.isSome_some, if_true]
      rw [eq_comm, paddedRecord_append_uleb128_iff, saturatingSub_eq_zero_iff]
      -- it is unchanged exactly when the view is written as a zero that the padding holds
      refine ⟨and_congr_right fun hle => ?_, fun hsurvives => ?_⟩
      · rw [saturatingSub_eq_zero_iff.mpr hle, List.length_append]
        exact Nat.lt_iff_add_one_le
      · rw [saturatingSub_eq_zero_iff.mpr hsurvives.1]
        exact (List.dropLast_concat).symm

/-! ## The transactions -/

/-- The records that the encoder writes. -/
def Packet.records (crates : Crates T) (input : Packet T) : List Bytes :=
  match encodeBlocks crates input (Assoc.indexOf input.addresses) (Assoc.indexOf input.gasPrices)
    (senderNonceIndex input) (Assoc.indexOf input.difficulties) with
  | .ok (records, _) => records
  | .error _ => []

section Packet

variable {b : Bytes} {txPayloads records : List Bytes} {txSegment : Bytes} {height : UInt64}

theorem IsEncoding.records_eq (h : IsEncoding crates input b txPayloads records txSegment) :
    input.records crates = records := by
  obtain ⟨seenTxs, hpayloads⟩ := h.payloads
  have hrecords := mapM_run_eq_ok.mpr h.rounds
  rw [Packet.records, encodeBlocks, mapM_run_eq_ok.mpr hpayloads, Except.ok_bind]
  simp only [hrecords]

/-- The sender of a transaction in full stands in the table. -/
theorem IsEncoding.exists_sender (h : IsEncoding crates input b txPayloads records txSegment)
    {p : ℕ × ℕ} {tx : SignedTransaction T}
    (he : (input.written crates).atPosition p = some (.value tx)) :
    ∃ senderIndex, (Assoc.indexOf input.addresses).get tx.sender = some senderIndex := by
  obtain ⟨written, hwritten, hget⟩ := List.atPosition_eq_some.mp he
  obtain ⟨block, hblock, rfl⟩ := getElem?_writtenBlocks hwritten
  have hpayloads := h.length_payloads
  have hi := (List.getElem?_eq_some_iff.mp hblock).1
  have hpayload : txPayloads[p.1]? = some txPayloads[p.1] := List.getElem?_eq_getElem (by omega)
  rcases h.isPayload hblock hwritten hpayload with ⟨hbare, -⟩ | ⟨-, items, hitems, -⟩
  · rw [Block.written, hbare.1] at hget
    cases hget
  · obtain ⟨item, -, hitem⟩ := hitems.exists_right (List.mem_of_getElem? hget)
    cases hitem with
    | value hsender => exact ⟨_, hsender⟩

/-- **The transactions are read**, when no block repeats one and a sender has one base nonce. -/
theorem IsEncoding.exists_txs (h : IsEncoding crates input b txPayloads records txSegment)
    (hlawful : crates.Lawful) (hrefs : NoRefs input) (hdistinct : DistinctHashes crates input)
    (hsenders : UniqueSenders input) :
    ∃ txs, Resolves (readTx crates input) (input.written crates) txs := by
  apply exists_resolves (h.pointBackwards_written hlawful hrefs hdistinct)
  intro p tx he
  obtain ⟨senderIndex, hsender⟩ := h.exists_sender he
  exact hsenders.exists_readTx hsender

/-! ## The packet -/

/-- A record of a packet ends with its PoS view. -/
theorem IsEncoding.exists_append_posViewBytes
    (h : IsEncoding crates input b txPayloads records txSegment) {entry : Block T × Bytes}
    (hentry : entry ∈ input.blocks.zip records) :
    ∃ base, entry.2 = base ++ posViewBytes input entry.1 := by
  obtain ⟨i, hi⟩ := List.getElem?_of_mem hentry
  obtain ⟨hblock, hrecord⟩ := List.getElem?_zip_eq_some.mp hi
  obtain ⟨block, txPayload, fields, units, hblock', -, -, heq, -⟩ := h.exists_record hrecord
  obtain rfl := Option.some.inj (hblock.symm.trans hblock')
  refine ⟨recordHead entry.1 ++ recordFlags entry.1 txPayload ::
    fields.fixedBytes input entry.1 units, ?_⟩
  rw [heq, FieldBytes.toBytes_eq, List.append_assoc, List.cons_append]

/-- **When the records are packed as before**, and what they are then. -/
theorem IsEncoding.rewrittenRecords_iff
    (h : IsEncoding crates input b txPayloads records txSegment) {views : List (Option UInt64)}
    (hviews : ReadsViews input height records views) (n : ℕ) (hn : n = choosePrefixSize records) :
    ((rewrittenRecords input records views).map (paddedRecord n) = records.map (paddedRecord n) ↔
      ∀ entry ∈ input.blocks.zip records, ViewSurvives input height n entry) ∧
    ((∀ entry ∈ input.blocks.zip records, ViewSurvives input height n entry) →
      rewrittenRecords input records views =
        (input.blocks.zip records).map (rereadRecord height)) := by
  subst hn
  obtain ⟨hlen, hviews⟩ := List.forall₂_iff_get.mp hviews
  have hrecords := h.length_records
  have hzip : (input.blocks.zip records).length = input.blocks.length := by simp [hrecords]
  have hspec : ∀ i (hi : i < (input.blocks.zip records).length) (hi' : i < views.length),
      (paddedRecord (choosePrefixSize records) (rewrittenRecord input
          (input.blocks.zip records)[i].1 (input.blocks.zip records)[i].2 views[i]) =
            paddedRecord (choosePrefixSize records) (input.blocks.zip records)[i].2 ↔
        ViewSurvives input height (choosePrefixSize records) (input.blocks.zip records)[i]) ∧
      (ViewSurvives input height (choosePrefixSize records) (input.blocks.zip records)[i] →
        rewrittenRecord input (input.blocks.zip records)[i].1 (input.blocks.zip records)[i].2
          views[i] = rereadRecord height (input.blocks.zip records)[i]) := by
    intro i hi hi'
    have hview := hviews i hi hi'
    rw [List.get_eq_getElem, List.get_eq_getElem] at hview
    obtain ⟨base, heq⟩ := h.exists_append_posViewBytes (List.getElem_mem hi)
    generalize (input.blocks.zip records)[i] = entry at *
    obtain ⟨block, record⟩ := entry
    obtain rfl : record = base ++ posViewBytes input block := heq
    exact paddedRecord_rewrittenRecord hview
  have hget : ∀ i (hi : i < (rewrittenRecords input records views).length)
      (hi' : i < (input.blocks.zip records).length) (hi'' : i < views.length),
      (rewrittenRecords input records views)[i] = rewrittenRecord input
        (input.blocks.zip records)[i].1 (input.blocks.zip records)[i].2 views[i] := by
    intro i hi hi' hi''
    simp [rewrittenRecords, hi'']
  have hrewritten : (rewrittenRecords input records views).length = input.blocks.length := by
    simp [rewrittenRecords, hrecords]
  refine ⟨⟨fun hpadded entry hentry => ?_, fun hsurvive => ?_⟩, fun hsurvive => ?_⟩
  · obtain ⟨i, hi, rfl⟩ := List.getElem_of_mem hentry
    refine (hspec i hi (by omega)).1.mp ?_
    have heq := List.getElem_of_eq hpadded (show i < _ by simp; omega)
    rw [List.getElem_map, List.getElem_map, hget i (by omega) hi (by omega)] at heq
    rw [heq, List.getElem_zip]
  · refine List.ext_getElem (by simp; omega) fun i hi hi' => ?_
    rw [List.length_map] at hi
    have hi'' : i < (input.blocks.zip records).length := by omega
    rw [List.getElem_map, List.getElem_map, hget i hi hi'' (by omega),
      (hspec i hi'' (by omega)).1.mpr (hsurvive _ (List.getElem_mem hi'')), List.getElem_zip]
  · refine List.ext_getElem (by simp; omega) fun i hi hi' => ?_
    have hi'' : i < (input.blocks.zip records).length := by omega
    rw [List.getElem_map, hget i hi hi'' (by omega),
      (hspec i hi'' (by omega)).2 (hsurvive _ (List.getElem_mem hi''))]

/-- Views that survive can be read. -/
theorem exists_readsViews {n : ℕ} (hn : n = choosePrefixSize records)
    (h : ∀ entry ∈ input.blocks.zip records, ViewSurvives input height n entry) :
    ∃ views, ReadsViews input height records views := by
  subst hn
  refine ⟨(input.blocks.zip records).map fun entry => (viewRead input height entry.1
    (zeroFill (choosePrefixSize records) entry.2)).getD none, ?_⟩
  rw [ReadsViews, List.forall₂_map_right_iff]
  refine List.forall₂_same.mpr fun entry hentry => ?_
  have hsurvives := h entry hentry
  unfold ViewSurvives at hsurvives
  unfold viewRead
  split
  case isFalse => rfl
  case isTrue hheight =>
    rw [if_pos hheight] at hsurvives
    cases hposView : entry.1.posView with
    | some posView => rfl
    | none =>
      have hzeros : zeroFill (choosePrefixSize records) entry.2 ≠ [] := by
        have hlt := hsurvives hposView
        simp only [zeroFill, ne_eq, List.replicate_eq_nil_iff]
        omega
      simp [hzeros]

/-- **The decoded packet is encoded to the same bytes exactly when the PoS views survive.** -/
theorem IsEncoding.exists_decode_encode_iff
    (h : IsEncoding crates input b txPayloads records txSegment) (hlawful : crates.Lawful)
    (hsize : b.length < UInt64.size) (hrefs : NoRefs input)
    (hdistinct : DistinctHashes crates input) (hsenders : UniqueSenders input) :
    (∃ packet, decodePacketExt crates b height = .ok packet ∧
      encodePacket crates packet = .ok b) ↔ ViewsSurvive input height records := by
  have hbytes : ∀ views txs, ReadsViews input height records views →
      Resolves (readTx crates input) (input.written crates) txs →
        (encodePacket crates (input.readBack crates txPayloads views txs) = .ok b ↔
          choosePrefixSize (rewrittenRecords input records views) = choosePrefixSize records ∧
            ∀ entry ∈ input.blocks.zip records,
              ViewSurvives input height (choosePrefixSize records) entry) := by
    intro views txs hviews hresolves
    have hlen : (rewrittenRecords input records views).length = records.length := by
      simp [rewrittenRecords, h.length_records]
    rw [h.encodePacket_readBack_eq hlawful.primitives hsenders hresolves,
      assemblePacket_eq_ok_iff hlen (choosePrefixSize_mem _)
        (choosePrefixSize_mem _) h.assembled, (h.rewrittenRecords_iff hviews _ rfl).1]
  constructor
  · rintro ⟨packet, hdecode, hencode⟩
    obtain ⟨views, txs, hviews, hresolves, rfl⟩ :=
      (h.decodePacketExt_eq_ok hlawful hsize).mp hdecode
    obtain ⟨hsame, hsurvive⟩ := (hbytes views txs hviews hresolves).mp hencode
    refine ⟨hsurvive, ?_⟩
    rw [← (h.rewrittenRecords_iff hviews _ rfl).2 hsurvive, hsame]
  · rintro ⟨hsurvive, hsame⟩
    obtain ⟨views, hviews⟩ := exists_readsViews rfl hsurvive
    obtain ⟨txs, hresolves⟩ := h.exists_txs hlawful hrefs hdistinct hsenders
    refine ⟨_, (h.decodePacketExt_eq_ok hlawful hsize).mpr ⟨views, txs, hviews, hresolves, rfl⟩, ?_⟩
    refine (hbytes views txs hviews hresolves).mpr ⟨?_, hsurvive⟩
    rw [(h.rewrittenRecords_iff hviews _ rfl).2 hsurvive, hsame]

end Packet

end Cfxpack
