import CfxMinimalExecution.Cfxpack.Agreement
import CfxMinimalExecution.Cfxpack.FlagSites
import CfxMinimalExecution.Cfxpack.PacketReads

/-!
# Decoding what the encoder writes

## Main definitions

* `Block.readBack`, `Packet.readBack`: what is read of a block and of a packet
* `ReadsViews`: what is read as the PoS views of the blocks

## Main results

* `IsEncoding.decodePacketExt_eq_ok`: at any height, what a packet is decoded to
-/

namespace Cfxpack

variable {T : PrimitiveTypes} {crates : Crates T}

/-! ## The records -/

/-- The decoder finds the offset of the payload in every record. -/
theorem exists_rounds_decodeRecord {profile : Profile} {data bitmap : Bytes}
    {blockBodyOffset txSegmentOffset n start stop : ℕ} {indices : List ℕ} {records : List Bytes}
    (h : Rounds (reassembleRecord profile data bitmap blockBodyOffset txSegmentOffset n) start indices
      records stop)
    (hunits : ∀ record ∈ records, ∃ units, peekTxOffsetUnits record = .ok units) :
    ∃ decoded : List DecodedRecord, decoded.map (·.bytes) = records ∧
      (∀ record ∈ decoded, peekTxOffsetUnits record.bytes = .ok record.txOffsetUnits) ∧
      Rounds (decodeRecord profile data bitmap blockBodyOffset txSegmentOffset n) start indices
        decoded stop := by
  induction h with
  | nil => exact ⟨[], rfl, by simp, .nil _⟩
  | @cons _ _ _ _ record _ _ hround _ ih =>
    obtain ⟨decoded, rfl, hdecoded, hrounds⟩ :=
      ih fun record hrecord => hunits record (List.mem_cons_of_mem _ hrecord)
    obtain ⟨units, hunit⟩ := hunits record List.mem_cons_self
    refine ⟨⟨record, units⟩ :: decoded, rfl, List.forall_mem_cons.mpr ⟨hunit, hdecoded⟩,
      .cons ?_ hrounds⟩
    simp [decodeRecord, hround, hunit]

section Records

variable {input : Packet T} {b : Bytes} {txPayloads records : List Bytes} {txSegment : Bytes}
  {offsets : List ℕ}

/-- **The decoder finds the records** of an area, when it finds the offset of the payload in each. -/
theorem BlockArea.exists_decodedRecords {n : ℕ} (h : BlockArea b n records txSegment offsets)
    (hunits : ∀ record ∈ records.map (paddedRecord n),
      ∃ units, peekTxOffsetUnits record = .ok units) (profile : Profile) :
    ∃ decoded : List DecodedRecord, decoded.map (·.bytes) = records.map (paddedRecord n) ∧
      (∀ record ∈ decoded, peekTxOffsetUnits record.bytes = .ok record.txOffsetUnits) ∧
      decodeBlockRecords profile b (offsets.getD 5 0) (offsets.getD 6 0) (offsets.getD 7 0) n =
        .ok decoded := by
  obtain ⟨decoded, hbytes, hdecoded, hrounds⟩ :=
    exists_rounds_decodeRecord (h.packed.rounds_reassembleRecord profile) hunits
  refine ⟨decoded, hbytes, hdecoded, ?_⟩
  have hrun := mapM_run_eq_ok.mpr hrounds
  simp only [decodeBlockRecords, h.blockCount, h.toNat_blockCount, h.bitmap, h.checkedMul_eq, okOr,
    ensure_of h.prefixArea_le, Except.ok_bind, StateT.run'_eq, hrun]
  rfl

/-- **The records are found**, each with the zeros that fill its prefix. -/
theorem IsEncoding.exists_decodedRecords
    (h : IsEncoding crates input b txPayloads records txSegment)
    (harea : BlockArea b (choosePrefixSize records) records txSegment offsets) (profile : Profile) :
    ∃ decoded : List DecodedRecord,
      decoded.map (·.bytes) = records.map (paddedRecord (choosePrefixSize records)) ∧
      (∀ record ∈ decoded, peekTxOffsetUnits record.bytes = .ok record.txOffsetUnits) ∧
      decodeBlockRecords profile b (offsets.getD 5 0) (offsets.getD 6 0) (offsets.getD 7 0)
        (choosePrefixSize records) = .ok decoded := by
  refine harea.exists_decodedRecords ?_ profile
  rw [List.forall_mem_map]
  intro record hrecord
  obtain ⟨i, hi, rfl⟩ := List.getElem_of_mem hrecord
  obtain ⟨block, txPayload, fields, units, -, -, hfields, hrecord, -⟩ :=
    h.exists_record (List.getElem?_eq_getElem hi)
  refine ⟨units, ?_⟩
  rw [paddedRecord_eq_append, hrecord, List.append_assoc, List.cons_append]
  exact peekTxOffsetUnits_toBytes hfields.reads

/-- What is read as the PoS views of the blocks, when the decoder expects them from a height on. -/
def ReadsViews (input : Packet T) (height : UInt64) (records : List Bytes)
    (views : List (Option UInt64)) : Prop :=
  List.Forall₂ (fun entry view =>
    viewRead input height entry.1 (zeroFill (choosePrefixSize records) entry.2) = some view)
      (input.blocks.zip records) views

/-- What is read of the blocks before their payloads. -/
def bareBlocks (input : Packet T) (txPayloads : List Bytes) (views : List (Option UInt64)) :
    List (Block T) :=
  input.blocks.zipIdx.map fun entry =>
    entry.1.ofRecord entry.2 (recordFlags entry.1 (txPayloads.getD entry.2 []))
      (views.getD entry.2 none)

/-- What a record of a packet is decoded to. -/
theorem IsEncoding.decodeBlockRecord_eq_ok
    (h : IsEncoding crates input b txPayloads records txSegment) (hhead : HeadReads b input offsets)
    (profile : Profile) (height : UInt64) {i : ℕ} {block : Block T} {record : Bytes}
    (hblock : input.blocks[i]? = some block) (hrecord : records[i]? = some record) (n : ℕ)
    (decoded : Block T) :
    decodeBlockRecord profile (paddedRecord n record) i input.minTimestamp input.minHeight
        input.storedMinPosHeight height input.addresses input.difficulties = .ok decoded ↔
      ∃ view, viewRead input height block (zeroFill n record) = some view ∧
        decoded = block.ofRecord i (recordFlags block (txPayloads.getD i [])) view := by
  obtain ⟨block', txPayload, fields, units, hblock', hpayload, hfields, heq, -⟩ :=
    h.exists_record hrecord
  obtain rfl := Option.some.inj (hblock.symm.trans hblock')
  rw [paddedRecord_eq_append, List.getD_eq_getElem?_getD, hpayload, Option.getD_some, zeroFill]
  generalize n - record.length = k
  rw [heq, List.append_assoc, List.cons_append]
  exact Cfxpack.decodeBlockRecord_eq_ok profile hfields hhead.addresses_lt hhead.difficulties_lt

/-- What the records of a packet are decoded to. -/
theorem IsEncoding.mapM_decodeBlockRecord_eq_ok
    (h : IsEncoding crates input b txPayloads records txSegment) (hhead : HeadReads b input offsets)
    (profile : Profile) {height : UInt64} {decoded : List DecodedRecord}
    (hbytes : decoded.map (·.bytes) = records.map (paddedRecord (choosePrefixSize records)))
    {blocks : List (Block T)} :
    (decoded.zipIdx.mapM fun entry => decodeBlockRecord profile entry.1.bytes entry.2
        input.minTimestamp input.minHeight input.storedMinPosHeight height input.addresses
        input.difficulties) = .ok blocks ↔
      ∃ views, ReadsViews input height records views ∧
        blocks = bareBlocks input txPayloads views := by
  have hlen := h.length_records
  have hdecoded : decoded.length = records.length := by
    simpa using congrArg List.length hbytes
  have hget : ∀ i (hi : i < decoded.length) (hi' : i < records.length),
      decoded[i].bytes = paddedRecord (choosePrefixSize records) records[i] := by
    intro i hi hi'
    have heq := congrArg (·[i]?) hbytes
    simpa [hi, hi'] using heq
  have hround : ∀ i (hi : i < decoded.length) (hi' : i < input.blocks.length)
      (hi'' : i < records.length) decodedBlock,
      decodeBlockRecord profile decoded[i].bytes i input.minTimestamp input.minHeight
          input.storedMinPosHeight height input.addresses input.difficulties = .ok decodedBlock ↔
        ∃ view, viewRead input height input.blocks[i]
            (zeroFill (choosePrefixSize records) records[i]) = some view ∧
          decodedBlock = (input.blocks[i]).ofRecord i
            (recordFlags input.blocks[i] (txPayloads.getD i [])) view := by
    intro i hi hi' hi'' decodedBlock
    rw [hget i hi hi'']
    exact h.decodeBlockRecord_eq_ok hhead profile height (List.getElem?_eq_getElem hi')
      (List.getElem?_eq_getElem hi'') _ decodedBlock
  have hzip : decoded.zipIdx.length = decoded.length := List.length_zipIdx
  rw [mapM_eq_ok_iff]
  constructor
  · intro hall
    obtain ⟨hblocks, hall⟩ := List.forall₂_iff_get.mp hall
    have hspec : ∀ i (hi : i < blocks.length) (hi' : i < input.blocks.length)
        (hi'' : i < records.length),
        viewRead input height input.blocks[i]
            (zeroFill (choosePrefixSize records) records[i]) = some blocks[i].posView ∧
          blocks[i] = (input.blocks[i]).ofRecord i
            (recordFlags input.blocks[i] (txPayloads.getD i [])) blocks[i].posView := by
      intro i hi hi' hi''
      have hdecode := hall i (by omega) hi
      simp only [List.get_eq_getElem, List.getElem_zipIdx, Nat.zero_add] at hdecode
      obtain ⟨view, hview, heq⟩ := (hround i (by omega) hi' hi'' _).mp hdecode
      obtain rfl : blocks[i].posView = view := by rw [heq]; rfl
      exact ⟨hview, heq⟩
    refine ⟨blocks.map (·.posView), ?_, ?_⟩
    · refine List.forall₂_iff_get.mpr ⟨by simp; omega, fun i hi hi' => ?_⟩
      simp only [List.length_zip, Nat.lt_min, List.length_map] at hi hi'
      simpa using (hspec i hi' hi.1 hi.2).1
    · refine List.ext_getElem (by simp [bareBlocks]; omega) fun i hi hi' => ?_
      have hi' : i < input.blocks.length := by simpa [bareBlocks] using hi'
      rw [(hspec i hi hi' (by omega)).2]
      simp [bareBlocks, hi]
  · rintro ⟨views, hviews, rfl⟩
    obtain ⟨hviewsLen, hviews⟩ := List.forall₂_iff_get.mp hviews
    rw [List.length_zip, hlen, Nat.min_self] at hviewsLen
    refine List.forall₂_iff_get.mpr ⟨by simp [bareBlocks]; omega, fun i hi hi' => ?_⟩
    have hi' : i < input.blocks.length := by simpa [bareBlocks] using hi'
    have hview := hviews i (by simp; omega) (by omega)
    simp only [List.get_eq_getElem, List.getElem_zip, List.getElem_zipIdx, Nat.zero_add] at hview ⊢
    refine (hround i (by omega) hi' (by omega) _).mpr ⟨_, hview, ?_⟩
    have hviewLt : i < views.length := by omega
    simp [bareBlocks, hviewLt]

end Records

/-! ## The epochs -/

/-- A bit that does not tell of a payload. -/
theorem other_bits (flag : UInt8) (h : flag &&& (flagHasTransactions ||| flagTxCompressed) = 0) :
    ~~~(flagHasTransactions ||| flagTxCompressed) &&& flag = flag ∧
      flagHasTransactions &&& flag = 0 ∧ (flagHasTransactions ||| flagTxCompressed) &&& flag = 0 := by
  have hall : ∀ f : Fin 256, UInt8.ofNat f &&& (flagHasTransactions ||| flagTxCompressed) = 0 →
      ~~~(flagHasTransactions ||| flagTxCompressed) &&& UInt8.ofNat f = UInt8.ofNat f ∧
        flagHasTransactions &&& UInt8.ofNat f = 0 ∧
          (flagHasTransactions ||| flagTxCompressed) &&& UInt8.ofNat f = 0 := by decide +kernel
  simpa using hall ⟨flag.toNat, flag.toNat_lt⟩ (by simpa using h)

/-- The flags of a record keep the bits that do not tell of a payload. -/
theorem recordFlags_and (block : Block T) (txPayload : Bytes) {flag : UInt8}
    (h : flag &&& (flagHasTransactions ||| flagTxCompressed) = 0) :
    recordFlags block txPayload &&& flag = block.flags &&& flag := by
  obtain ⟨hkept, hhas, hcompressed⟩ := other_bits flag h
  have hpayload : payloadFlags txPayload &&& flag = 0 := by
    unfold payloadFlags
    split_ifs
    · exact UInt8.zero_and
    · exact hcompressed
    · exact hhas
  rw [recordFlags, uint8_or_and, hpayload, UInt8.or_zero, UInt8.and_assoc, hkept]

/-- A block with the epoch of another. -/
def Block.withEpochOf (decoded block : Block T) : Block T := { decoded with epoch := block.epoch }

theorem map_eq_zipWith_of_epoch {R : Block T → Block T → Prop} {decoded blocks : List (Block T)}
    {height : UInt64} (h : List.Forall₂ R decoded blocks)
    (hepoch : ∀ block ∈ blocks, block.epoch = height) :
    (decoded.map fun block => { block with epoch := height }) =
      List.zipWith Block.withEpochOf decoded blocks := by
  induction h with
  | nil => rfl
  | cons _ _ ih =>
    obtain ⟨hfirst, hrest⟩ := List.forall_mem_cons.mp hepoch
    rw [List.map_cons, List.zipWith_cons_cons, ih hrest, Block.withEpochOf, hfirst]

/-- **The epochs are found again**, from the pivots and their heights. -/
theorem assignEpochFromPivots_of_valid {input : Packet T} (hvalid : ValidInput input)
    {decoded : List (Block T)}
    (h : List.Forall₂ (fun (b block : Block T) => b.has flagPivot = block.has flagPivot ∧
      b.height = block.height) decoded input.blocks) :
    assignEpochFromPivots decoded = .ok (List.zipWith Block.withEpochOf decoded input.blocks) := by
  obtain ⟨hgroups, hrest⟩ := List.groups_rel (fun _ _ hb => hb.1) h
  rw [hvalid.complete, List.forall₂_nil_right_iff] at hrest
  have hdecoded := List.ungroup_groups (fun b : Block T => b.has flagPivot) decoded
  have hinput := List.ungroup_groups (fun b : Block T => b.has flagPivot) input.blocks
  have hepochs := hvalid.epoch
  rw [hrest, List.append_nil] at hdecoded
  rw [hvalid.complete, List.append_nil] at hinput
  rw [assignEpochFromPivots, ensure_of hrest, Except.ok_bind, ← hinput]
  refine congrArg Except.ok ?_
  conv_rhs => rw [← hdecoded]
  clear hrest hdecoded hinput h hvalid
  generalize (List.groups (fun b : Block T => b.has flagPivot) decoded).1 = gs at *
  generalize (List.groups (fun b : Block T => b.has flagPivot) input.blocks).1 = gs' at *
  induction hgroups with
  | nil => rfl
  | @cons group group' _ _ hgroup _ ih =>
    obtain ⟨hfirst, hnext⟩ := List.forall_mem_cons.mp hepochs
    obtain ⟨hmembers, hlast⟩ := hgroup
    have hrun : List.Forall₂ (fun (b block : Block T) => b.has flagPivot = block.has flagPivot ∧
        b.height = block.height) (group.1 ++ [group.2]) (group'.1 ++ [group'.2]) :=
      List.rel_append hmembers (.cons hlast .nil)
    rw [List.flatMap_cons, ih hnext, hlast.2, map_eq_zipWith_of_epoch hrun hfirst,
      ← List.zipWith_append hrun.length_eq]
    simp

/-! ## The payloads -/

/-- What is read of a block. -/
def Block.readBack (block : Block T) (index : ℕ) (flags : UInt8) (view : Option UInt64)
    (txs : List (SignedTransaction T)) (refs : List (Option (ℕ × ℕ))) : Block T :=
  { block with
    index
    flags
    deferredStateRoot := truncateHash block.deferredStateRoot
    deferredReceiptsRoot := truncateHash block.deferredReceiptsRoot
    deferredLogsBloomHash := truncateHash block.deferredLogsBloomHash
    transactions := txs
    transactionRefs := refs
    posView := view }

section Payloads

variable {input : Packet T} {b : Bytes} {txPayloads records : List Bytes} {txSegment : Bytes}
  {offsets : List ℕ} {block : Block T} {earlier : List (List (SignedTransaction T))}

/-- The payload of a block without one has no transactions. -/
theorem readBack_of_isBare (hbare : block.IsBare) (index : ℕ) (flags : UInt8)
    (view : Option UInt64) : (block.ofRecord index flags view).withEpochOf block =
      block.readBack index flags view [] [] := by
  obtain ⟨-, hrewards, hunlocks⟩ := hbare
  unfold Block.withEpochOf Block.ofRecord Block.truncated Block.readBack
  rw [hrewards, hunlocks]

/-- **What a payload is decoded to.** -/
theorem IsPayload.decodeTransactions_eq_ok {written : List (Written (SignedTransaction T))}
    {txPayload : Bytes} {record : DecodedRecord} {index : ℕ} {view : Option UInt64}
    (h : IsPayload crates input block written txPayload) (hlawful : crates.Lawful)
    (hfit : TablesFit input) (hwritten : written.length = block.transactions.length)
    (harea : BlockArea b (choosePrefixSize records) records txSegment offsets)
    (hsize : b.length < UInt64.size)
    (hstored : txPayload ≠ [] → StoredAt crates txPayload txSegment record.txOffsetUnits)
    {block' : Block T} {decodedTxs : List (List (SignedTransaction T))} :
    (decodeTransactions crates b (offsets.getD 7 0) input.addresses input.gasPrices
        input.senderBaseNonces (record, (block.ofRecord index (recordFlags block txPayload)
          view).withEpochOf block)).run earlier = .ok (block', decodedTxs) ↔
      ∃ txs, ReadsTxs crates input earlier written txs ∧
        block' = block.readBack index (recordFlags block txPayload) view txs
          (written.map (·.position?)) ∧ decodedTxs = earlier ++ [txs] := by
  have hhas : (((block.ofRecord index (recordFlags block txPayload) view).withEpochOf block).has
      flagHasTransactions = true) ↔ txPayload ≠ [] := by
    rw [← recordFlags_hasTransactions block txPayload]
    exact decide_eq_true_iff
  rw [Cfxpack.decodeTransactions_eq_ok, PayloadDecoded]
  rcases h with ⟨hbare, rfl⟩ | ⟨hbare, items, hitems, rfl⟩
  -- a bare block has no payload: its flag is clear, and nothing is read
  · have hempty : written = [] := List.eq_nil_of_length_eq_zero (by rw [hwritten, hbare.1]; rfl)
    subst hempty
    rw [readBack_of_isBare hbare] at hhas ⊢
    have hnot := mt hhas.mp (not_not.mpr rfl)
    constructor
    · rintro ⟨⟨-, rfl⟩ | ⟨hflag, -⟩, rfl⟩
      · exact ⟨[], .nil, rfl, rfl⟩
      · exact absurd hflag hnot
    · rintro ⟨txs, htxs, rfl, rfl⟩
      obtain rfl := List.forall₂_nil_left_iff.mp htxs
      exact ⟨.inl ⟨hnot, rfl⟩, rfl⟩
  -- a payload is the encoding of a list that is not empty, stored in the segment
  · have hlen := hlawful.rlp.length_items_le (blockItems block items)
    have hpos : crates.rlp.encode (.list (blockItems block items)) ≠ [] := by
      have hitemsLen := hitems.length_eq
      intro hempty
      rw [hempty, List.length_nil, blockItems] at hlen
      simp only [List.length_append, List.length_map] at hlen
      refine hbare ⟨?_, ?_, ?_⟩ <;> refine List.eq_nil_of_length_eq_zero ?_ <;> omega
    have hread := harea.readTxPayload_eq hlawful.snap hsize (hstored hpos)
      (recordFlags_txCompressed block _)
    have hreadable : Readable crates.rlp (.list (blockItems block items)) := by
      obtain ⟨payload, _, _, hpayload, -⟩ := hstored hpos
      exact (length_lt_of_storedPayload hlawful.snap hpayload).trans (by decide)
    have hdecode : ∀ decoded, decodeTxPayload crates b (offsets.getD 7 0) record.txOffsetUnits
        (recordFlags block (crates.rlp.encode (.list (blockItems block items)))) block.epoch
        input.addresses input.gasPrices input.senderBaseNonces earlier = .ok decoded ↔ _ :=
      fun decoded => decodeTxPayload_isPayload hlawful hfit hitems hreadable hread
    have hlists : ∀ txs, ReadsTxs crates input earlier written txs →
        ((block.ofRecord index (recordFlags block (crates.rlp.encode (.list (blockItems block
          items)))) view).withEpochOf block).withPayload (block.payloadItems written txs) =
        block.readBack index (recordFlags block (crates.rlp.encode (.list (blockItems block items))))
          view txs (written.map (·.position?)) := fun txs htxs =>
      withPayload_payloadItems htxs.length_eq.symm _
    constructor
    · rintro ⟨⟨hno, -⟩ | ⟨-, decoded, rfl, hdecoded⟩, rfl⟩
      · exact absurd (hhas.mpr hpos) hno
      · obtain ⟨txs, htxs, rfl⟩ := (hdecode decoded).mp hdecoded
        rw [hlists txs htxs]
        exact ⟨txs, htxs, rfl, rfl⟩
    · rintro ⟨txs, htxs, rfl, rfl⟩
      refine ⟨.inr ⟨hhas.mpr hpos, _, (hlists txs htxs).symm, ?_⟩, rfl⟩
      exact (hdecode _).mpr ⟨txs, htxs, rfl⟩

end Payloads

/-! ## The packet -/

/-- What is read of a packet. -/
def Packet.readBack (crates : Crates T) (input : Packet T) (txPayloads : List Bytes)
    (views : List (Option UInt64)) (txs : List (List (SignedTransaction T))) : Packet T :=
  { input with
    minPosHeight := input.storedMinPosHeight
    blocks := input.blocks.zipIdx.map fun entry =>
      entry.1.readBack entry.2 (recordFlags entry.1 (txPayloads.getD entry.2 []))
        (views.getD entry.2 none) (txs.getD entry.2 [])
        (((input.written crates).getD entry.2 []).map (·.position?)) }

section Packet

variable {input : Packet T} {b : Bytes} {txPayloads records : List Bytes} {txSegment : Bytes}
  {offsets : List ℕ} {height : UInt64}

/-- The decoder, after the header, the tables and the search for the records. -/
theorem decodePacketExt_eq (hhead : HeadReads b input offsets)
    (harea : BlockArea b (choosePrefixSize records) records txSegment offsets)
    {decoded : List DecodedRecord}
    (hdecoded : decodeBlockRecords crates.toProfile b (offsets.getD 5 0) (offsets.getD 6 0)
      (offsets.getD 7 0) (choosePrefixSize records) = .ok decoded) :
    decodePacketExt crates b height = (do
      let blocks ← decoded.zipIdx.mapM fun entry => decodeBlockRecord crates.toProfile
        entry.1.bytes entry.2 input.minTimestamp input.minHeight input.storedMinPosHeight height
        input.addresses input.difficulties
      let blocks ← assignEpochFromPivots blocks
      let result ← ((decoded.zip blocks).mapM (decodeTransactions crates b (offsets.getD 7 0)
        input.addresses input.gasPrices input.senderBaseNonces)).run []
      pure { input with minPosHeight := input.storedMinPosHeight, blocks := result.1 }) := by
  obtain ⟨_, haddresses, haddressesRead⟩ := hhead.addresses
  obtain ⟨_, hposEntries, hposEntriesRead⟩ := hhead.posEntries
  obtain ⟨_, hdifficulties, hdifficultiesRead⟩ := hhead.difficulties
  obtain ⟨_, hsenders, hsendersRead⟩ := hhead.senderBaseNonces
  obtain ⟨_, hgasPrices, hgasPricesRead⟩ := hhead.gasPrices
  have hmem : choosePrefixSize records ∈ [64, 72, 80, 88, 96] := harea.prefixSize_mem
  simp only [decodePacketExt, ensure_of harea.headerLen_le, hhead.prevLastHash,
    hhead.prevLastDeferredStateRoot, hhead.firstBlockNumber, hhead.minTimestamp, hhead.minHeight,
    hhead.minPosHeight, harea.prefixSize, harea.toNat_prefixSize, ensure_of hmem, harea.readOffsets,
    harea.ensureOffsets, haddresses, haddressesRead, hposEntries, hposEntriesRead, hdifficulties,
    hdifficultiesRead, hsenders, hsendersRead, hgasPrices, hgasPricesRead, hdecoded,
    H256.fromSlice_asBytes, Except.ok_bind]
  rfl

/-- The blocks of a packet, with their epochs and before their payloads. -/
def assignedBlocks (input : Packet T) (txPayloads : List Bytes) (views : List (Option UInt64)) :
    List (Block T) :=
  input.blocks.zipIdx.map fun entry =>
    (entry.1.ofRecord entry.2 (recordFlags entry.1 (txPayloads.getD entry.2 []))
      (views.getD entry.2 none)).withEpochOf entry.1

theorem assignEpochFromPivots_bareBlocks (hvalid : ValidInput input) (txPayloads : List Bytes)
    (views : List (Option UInt64)) :
    assignEpochFromPivots (bareBlocks input txPayloads views) =
      .ok (assignedBlocks input txPayloads views) := by
  have hpivot : flagPivot &&& (flagHasTransactions ||| flagTxCompressed) = 0 := by decide
  rw [assignEpochFromPivots_of_valid hvalid]
  · refine congrArg Except.ok (List.ext_getElem (by simp [bareBlocks, assignedBlocks]) ?_)
    intro i hi hi'
    simp [bareBlocks, assignedBlocks]
  · refine List.forall₂_iff_get.mpr ⟨by simp [bareBlocks], fun i hi hi' => ?_⟩
    have hflags := recordFlags_and input.blocks[i] (txPayloads.getD i []) hpivot
    refine ⟨?_, by simp [bareBlocks, Block.ofRecord, Block.truncated]⟩
    simp only [bareBlocks, List.get_eq_getElem, List.getElem_map, List.getElem_zipIdx, Nat.zero_add]
    unfold Block.has Block.ofRecord Block.truncated
    rw [hflags]

/-- What is read of one block, after the transactions of the earlier ones. -/
theorem IsEncoding.decodeTransactions_eq_ok
    (h : IsEncoding crates input b txPayloads records txSegment) (hlawful : crates.Lawful)
    (hhead : HeadReads b input offsets)
    (harea : BlockArea b (choosePrefixSize records) records txSegment offsets)
    (hsize : b.length < UInt64.size) {i : ℕ} {block : Block T} {record : DecodedRecord}
    {written : List (Written (SignedTransaction T))} {stored : Bytes}
    (hblock : input.blocks[i]? = some block) (hwritten : (input.written crates)[i]? = some written)
    (hstored : records[i]? = some stored)
    (hbytes : record.bytes = paddedRecord (choosePrefixSize records) stored)
    (hunits : peekTxOffsetUnits record.bytes = .ok record.txOffsetUnits) (view : Option UInt64)
    {earlier decodedTxs : List (List (SignedTransaction T))} {block' : Block T} :
    (decodeTransactions crates b (offsets.getD 7 0) input.addresses input.gasPrices
        input.senderBaseNonces (record, (block.ofRecord i
          (recordFlags block (txPayloads.getD i [])) view).withEpochOf block)).run earlier =
            .ok (block', decodedTxs) ↔
      ∃ txs, ReadsTxs crates input earlier written txs ∧
        block' = block.readBack i (recordFlags block (txPayloads.getD i [])) view txs
          (written.map (·.position?)) ∧ decodedTxs = earlier ++ [txs] := by
  obtain ⟨block₁, txPayload, fields, units, hblock₁, hpayload, hfields, heq, hat⟩ :=
    h.exists_record hstored
  obtain rfl := Option.some.inj (hblock.symm.trans hblock₁)
  have hpeek : peekTxOffsetUnits record.bytes = .ok units := by
    rw [hbytes, paddedRecord_eq_append]
    generalize zeroFill (choosePrefixSize records) stored = zeros
    rw [heq, List.append_assoc, List.cons_append]
    exact peekTxOffsetUnits_toBytes hfields.reads
  obtain rfl := Except.ok.inj (hpeek.symm.trans hunits)
  have hlen : written.length = block.transactions.length := by
    obtain ⟨block₂, hblock₂, rfl⟩ := getElem?_writtenBlocks hwritten
    obtain rfl := Option.some.inj (hblock.symm.trans hblock₂)
    simp [Block.written]
  have hget : txPayloads.getD i [] = txPayload := by
    rw [List.getD_eq_getElem?_getD, hpayload, Option.getD_some]
  rw [hget]
  exact (h.isPayload hblock hwritten hpayload).decodeTransactions_eq_ok hlawful
    ⟨hhead.addresses_lt, hhead.gasPrices_lt⟩ hlen harea hsize hat

/-- The transactions of what is read of a packet. -/
theorem map_transactions_readBack {txs : List (List (SignedTransaction T))}
    (hlen : txs.length = input.blocks.length) (txPayloads : List Bytes)
    (views : List (Option UInt64)) :
    (input.readBack crates txPayloads views txs).blocks.map (·.transactions) = txs := by
  refine List.ext_getElem (by simp [Packet.readBack, hlen]) fun i hi hi' => ?_
  simp [Packet.readBack, Block.readBack, hi']

/-- **What the payloads are decoded to.** -/
theorem IsEncoding.rounds_decodeTransactions
    (h : IsEncoding crates input b txPayloads records txSegment) (hlawful : crates.Lawful)
    (hhead : HeadReads b input offsets)
    (harea : BlockArea b (choosePrefixSize records) records txSegment offsets)
    (hsize : b.length < UInt64.size) {decoded : List DecodedRecord}
    (hbytes : decoded.map (·.bytes) = records.map (paddedRecord (choosePrefixSize records)))
    (hunits : ∀ record ∈ decoded, peekTxOffsetUnits record.bytes = .ok record.txOffsetUnits)
    (views : List (Option UInt64)) {blocks : List (Block T)}
    {decodedTxs : List (List (SignedTransaction T))} :
    Rounds (decodeTransactions crates b (offsets.getD 7 0) input.addresses input.gasPrices
        input.senderBaseNonces) [] (decoded.zip (assignedBlocks input txPayloads views)) blocks
          decodedTxs ↔
      Resolves (readTx crates input) (input.written crates) decodedTxs ∧
        blocks = (input.readBack crates txPayloads views decodedTxs).blocks := by
  -- a round appends the transactions of its block and changes nothing else
  have happends : ∀ a s b' s', (decodeTransactions crates b (offsets.getD 7 0) input.addresses
      input.gasPrices input.senderBaseNonces a).run s = .ok (b', s') →
        s' = s ++ [b'.transactions] := by
    rintro ⟨record, block⟩ s b' s' hrun
    exact (Cfxpack.decodeTransactions_eq_ok.mp hrun).2
  have hrecords := h.length_records
  have hwritten : (input.written crates).length = input.blocks.length := by
    simpa using (sameShape_written input).length_eq
  have hdecoded : decoded.length = records.length := by simpa using congrArg List.length hbytes
  have hround : ∀ i (hi : i < input.blocks.length)
      (hi' : i < (decoded.zip (assignedBlocks input txPayloads views)).length)
      (hi'' : i < (input.written crates).length) (earlier decodedTxs : _) (block' : Block T),
      (decodeTransactions crates b (offsets.getD 7 0) input.addresses input.gasPrices
        input.senderBaseNonces (decoded.zip (assignedBlocks input txPayloads views))[i]).run earlier =
          .ok (block', decodedTxs) ↔
        ∃ txs, ReadsTxs crates input earlier (input.written crates)[i] txs ∧
          block' = (input.blocks[i]).readBack i
            (recordFlags input.blocks[i] (txPayloads.getD i [])) (views.getD i none) txs
            ((input.written crates)[i].map (·.position?)) ∧ decodedTxs = earlier ++ [txs] := by
    intro i hi hi' hi'' earlier decodedTxs block'
    have hentry : (decoded.zip (assignedBlocks input txPayloads views))[i] =
        (decoded[i], ((input.blocks[i]).ofRecord i
          (recordFlags input.blocks[i] (txPayloads.getD i [])) (views.getD i none)).withEpochOf
            input.blocks[i]) := by
      simp [assignedBlocks]
    rw [hentry]
    have hget : decoded[i].bytes = paddedRecord (choosePrefixSize records) records[i] := by
      have heq := congrArg (·[i]?) hbytes
      have hlt : i < decoded.length := by omega
      have hlt' : i < records.length := by omega
      simpa [hlt, hlt'] using heq
    exact h.decodeTransactions_eq_ok hlawful hhead harea hsize (List.getElem?_eq_getElem hi)
      (List.getElem?_eq_getElem hi'') (List.getElem?_eq_getElem (by omega)) hget
      (hunits _ (List.getElem_mem _)) _
  -- so the whole loop is a statement about each block and the blocks before it
  rw [Rounds.iff_of_appends happends]
  have hzip : (decoded.zip (assignedBlocks input txPayloads views)).length =
      input.blocks.length := by
    simp [assignedBlocks]
    omega
  constructor
  · rintro ⟨hlen, rfl, hall⟩
    rw [hzip] at hlen
    have hspec : ∀ i (hi : i < input.blocks.length) (hi' : i < blocks.length)
        (hi'' : i < (input.written crates).length),
        ReadsTxs crates input ((blocks.map (·.transactions)).take i) (input.written crates)[i]
            blocks[i].transactions ∧
          blocks[i] = (input.blocks[i]).readBack i
            (recordFlags input.blocks[i] (txPayloads.getD i [])) (views.getD i none)
            blocks[i].transactions ((input.written crates)[i].map (·.position?)) := by
      intro i hi hi' hi''
      have hrun := hall i _ _ (List.getElem?_eq_getElem (hzip ▸ hi)) (List.getElem?_eq_getElem hi')
      obtain ⟨txs, htxs, hblock, -⟩ := (hround i hi (hzip ▸ hi) hi'' _ _ _).mp hrun
      obtain rfl : blocks[i].transactions = txs := by rw [hblock]; rfl
      rw [List.nil_append, List.map_take] at htxs
      exact ⟨htxs, hblock⟩
    refine ⟨⟨by simp; omega, fun i w v hw hv => ?_⟩, ?_⟩
    · obtain ⟨hi'', rfl⟩ := List.getElem?_eq_some_iff.mp hw
      obtain ⟨hi', rfl⟩ := List.getElem?_eq_some_iff.mp hv
      rw [List.nil_append, List.length_map] at hi'
      simpa [ReadsTxs] using (hspec i (by omega) hi' hi'').1
    · refine List.ext_getElem (by simp [Packet.readBack, hlen]) fun i hi hi' => ?_
      have hi' : i < input.blocks.length := by omega
      have hi'' : i < (input.written crates).length := by omega
      rw [(hspec i hi' hi hi'').2]
      simp [Packet.readBack, hi, hi'']
  · rintro ⟨hresolves, rfl⟩
    have hlen := hresolves.length_eq
    have hmap : (input.readBack crates txPayloads views decodedTxs).blocks.map (·.transactions) =
        decodedTxs := map_transactions_readBack (hlen.trans hwritten) txPayloads views
    refine ⟨by simp [Packet.readBack, hzip], by rw [hmap, List.nil_append],
      fun i entry block hentry hblock => ?_⟩
    obtain ⟨hi, rfl⟩ := List.getElem?_eq_some_iff.mp hentry
    have hi' : i < input.blocks.length := by omega
    have hi'' : i < (input.written crates).length := by omega
    have hlt : i < decodedTxs.length := by omega
    rw [List.map_take, List.map_take, hmap, List.nil_append, List.nil_append]
    refine (hround i hi' hi hi'' _ _ _).mpr ⟨decodedTxs[i], ?_, ?_, ?_⟩
    · exact hresolves.block i _ _ (List.getElem?_eq_getElem hi'') (List.getElem?_eq_getElem hlt)
    · refine Option.some.inj (hblock.symm.trans ?_)
      simp [Packet.readBack, hi', hi'', hlt]
    · rw [List.take_append_getElem]

/-- **What a packet is decoded to**, at any height. -/
theorem IsEncoding.decodePacketExt_eq_ok
    (h : IsEncoding crates input b txPayloads records txSegment) (hlawful : crates.Lawful)
    (hsize : b.length < UInt64.size) {packet : Packet T} :
    decodePacketExt crates b height = .ok packet ↔
      ∃ views txs, ReadsViews input height records views ∧
        Resolves (readTx crates input) (input.written crates) txs ∧
        packet = input.readBack crates txPayloads views txs := by
  obtain ⟨offsets, hhead, harea⟩ := h.exists_offsets
  obtain ⟨decoded, hbytes, hunits, hdecoded⟩ := h.exists_decodedRecords harea crates.toProfile
  simp only [decodePacketExt_eq hhead harea hdecoded, Except.bind_eq_ok,
    h.mapM_decodeBlockRecord_eq_ok hhead crates.toProfile hbytes, Except.pure_def, Except.ok.injEq,
    Prod.exists, mapM_run_eq_ok]
  constructor
  · rintro ⟨_, ⟨views, hviews, rfl⟩, assigned, hassigned, blocks, txs, hrounds, rfl⟩
    rw [assignEpochFromPivots_bareBlocks h.valid] at hassigned
    obtain rfl := Except.ok.inj hassigned
    obtain ⟨hresolves, rfl⟩ :=
      (h.rounds_decodeTransactions hlawful hhead harea hsize hbytes hunits views).mp hrounds
    exact ⟨views, txs, hviews, hresolves, rfl⟩
  · rintro ⟨views, txs, hviews, hresolves, rfl⟩
    exact ⟨_, ⟨views, hviews, rfl⟩, _, assignEpochFromPivots_bareBlocks h.valid txPayloads views, _,
      txs, (h.rounds_decodeTransactions hlawful hhead harea hsize hbytes hunits views).mpr
        ⟨hresolves, rfl⟩, rfl⟩

end Packet

end Cfxpack
