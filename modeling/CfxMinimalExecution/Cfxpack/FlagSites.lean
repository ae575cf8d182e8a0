import CfxMinimalExecution.Cfxpack.BlockRecords
import CfxMinimalExecution.Library.Marks

/-!
# The places of the flags

## Main definitions

* `Packet.withZeroReward`: a packet with the zero-reward flag set on some of its blocks
* `flagSites`: the places of the flags of a packet

## Main results

* `IsEncoding.blockFlagSites_eq`: the places that are found in what the encoder writes
* `IsEncoding.withZeroReward`, `exists_siteList`: with the flag set, the encoder writes the same
  bytes but for the flags at their places
-/

namespace Cfxpack

variable {T : PrimitiveTypes} {crates : Crates T}

/-- The places of the flags of blocks whose records start at `bodyOffset`, and their hashes. -/
def flagSites (bodyOffset n : ℕ) (blocks : List (Block T)) : List (ℕ × H256) :=
  blocks.zipIdx.map fun entry => (bodyOffset + entry.2 * n + 44, entry.1.hash)

namespace BlockArea

variable {data : Bytes} {n : ℕ} {records : List Bytes} {txSegment : Bytes} {offsets : List ℕ}
  (h : BlockArea data n records txSegment offsets)

include h

theorem toNat_prefixSize : (UInt8.ofNat n).toNat = n := by
  have hbounds := prefixSize_bounds h.prefixSize_mem
  rw [UInt8.toNat_ofNat']
  omega

theorem toNat_blockCount : (UInt32.ofNat records.length).toNat = records.length :=
  UInt32.toNat_ofNat_of_lt' h.length_lt

theorem prefixArea_le : offsets.getD 6 0 + records.length * n ≤ offsets.getD 7 0 := by
  have hle := h.packed.le_txSegmentOffset
  rw [List.length_append, length_flatMap_of_length (length_prefixPart n)] at hle
  omega

theorem checkedMul_eq : checkedMul records.length n = some (records.length * n) := by
  have hle := h.prefixArea_le
  have hlt := h.packed.txSegmentOffset_lt
  exact if_pos (by omega)

/-- The hash of a record. -/
theorem slice_hash {i : ℕ} {head rest : Bytes} (hrecord : records[i]? = some (head ++ rest))
    (hhead : head.length = 32) :
    slice data (offsets.getD 6 0 + i * n) (offsets.getD 6 0 + i * n + 32) = .ok head := by
  obtain ⟨hi, hget⟩ := List.getElem?_eq_some_iff.mp hrecord
  have hbounds := prefixSize_bounds h.prefixSize_mem
  have hslice := slice_eq_ok.mp (h.packed.slice_prefixPart hi)
  rw [hget] at hslice
  obtain ⟨⟨-, hle⟩, hpart⟩ := hslice
  have hsucc : (i + 1) * n = i * n + n := Nat.succ_mul i n
  rw [slice_eq_ok]
  refine ⟨⟨by omega, by omega⟩, ?_⟩
  have htake := congrArg (List.take 32) hpart
  rw [List.drop_take, List.take_take] at htake
  rw [List.drop_take, Nat.add_sub_cancel_left,
    show min 32 (offsets.getD 6 0 + (i + 1) * n - (offsets.getD 6 0 + i * n)) = 32 by omega] at *
  rw [htake, prefixPart, List.take_append_of_le_length, List.take_take,
    List.take_append_of_le_length, List.take_of_length_le] <;> simp [hhead] <;> omega

end BlockArea

namespace IsEncoding

variable {input : Packet T} {b : Bytes} {txPayloads records : List Bytes} {txSegment : Bytes}
  {offsets : List ℕ} (h : IsEncoding crates input b txPayloads records txSegment)
  (harea : BlockArea b (choosePrefixSize records) records txSegment offsets)

include h harea

/-- **The places of the flags** in what the encoder writes. -/
theorem blockFlagSites_eq : blockFlagSites b =
    .ok (flagSites (offsets.getD 6 0) (choosePrefixSize records) input.blocks) := by
  have hlen := h.length_records
  have hmem : (UInt8.ofNat (choosePrefixSize records)).toNat ∈ [64, 72, 80, 88, 96] := by
    rw [harea.toNat_prefixSize]
    exact harea.prefixSize_mem
  have hsites : flagSites (offsets.getD 6 0) (choosePrefixSize records) input.blocks =
      (List.range records.length).map fun i =>
        (offsets.getD 6 0 + i * choosePrefixSize records + 44,
          ((input.blocks[i]?).map (·.hash)).getD (H256.fromSlice [])) := by
    refine List.ext_getElem? fun i => ?_
    rcases Nat.lt_or_ge i input.blocks.length with hi | hi
    · simp [flagSites, hlen, hi]
    · simp [flagSites, hlen, hi]
  have hround : ∀ i ∈ List.range records.length, (do
      let record := offsets.getD 6 0 + i * choosePrefixSize records
      let hash ← slice b record (record + 32)
      pure (record + 44, H256.fromSlice hash) : Result (ℕ × H256)) =
        .ok (offsets.getD 6 0 + i * choosePrefixSize records + 44,
          ((input.blocks[i]?).map (·.hash)).getD (H256.fromSlice [])) := by
    intro i hi
    obtain ⟨block, rest, hblock, hrecord, -⟩ :=
      h.exists_block (List.getElem?_eq_getElem (List.mem_range.mp hi))
    rw [recordHead, List.append_assoc, List.append_assoc, List.append_assoc] at hrecord
    have hhash := harea.slice_hash ((List.getElem?_eq_getElem (List.mem_range.mp hi)).trans
      (congrArg some hrecord)) (H256.length_asBytes block.hash)
    simp only [hblock, hhash, Except.ok_bind, H256.fromSlice_asBytes]
    rfl
  rw [hsites, ← mapM_eq_ok hround]
  simp only [blockFlagSites, ensure_of harea.headerLen_le, harea.prefixSize, ensure_of hmem,
    harea.readOffsets, harea.ensureOffsets, harea.blockCount, harea.toNat_blockCount,
    okOr, Except.ok_bind]
  rw [harea.toNat_prefixSize, harea.checkedMul_eq]
  simp only [ensure_of harea.prefixArea_le, Except.ok_bind]

/-- The flags of a block stand at its site, with the flags that tell of its payload. -/
theorem flags_at {i : ℕ} {block : Block T} (hblock : input.blocks[i]? = some block) :
    ∃ flags, b[offsets.getD 6 0 + i * choosePrefixSize records + 44]? = some flags ∧
      flags &&& ~~~(flagHasTransactions ||| flagTxCompressed) =
        block.flags &&& ~~~(flagHasTransactions ||| flagTxCompressed) := by
  have hbounds := prefixSize_bounds harea.prefixSize_mem
  have hi : i < records.length := by
    rw [h.length_records]
    exact (List.getElem?_eq_some_iff.mp hblock).1
  obtain ⟨⟨block', txPayload⟩, _, _, hentry, hround⟩ :=
    h.rounds.exists_round (List.getElem?_eq_getElem hi)
  obtain ⟨txSegmentOffset, fields, -, -, hrecord⟩ := encodeBlock_eq_ok.mp hround
  obtain rfl : block = block' := by
    rw [(List.getElem?_zip_eq_some.mp hentry).1] at hblock
    exact (Option.some.inj hblock).symm
  have hslice := slice_eq_ok.mp (harea.packed.slice_prefixPart hi)
  have hget := congrArg (·[44]?) hslice.2
  have hsucc : (i + 1) * choosePrefixSize records = i * choosePrefixSize records +
      choosePrefixSize records := Nat.succ_mul _ _
  rw [List.getElem?_drop, List.getElem?_take_of_lt (by omega), prefixPart,
    List.getElem?_append_left (by simp [hrecord]; omega), List.getElem?_take_of_lt (by omega),
    hrecord, List.getElem?_append_right (by simp)] at hget
  simp only [length_recordHead, Nat.sub_self, List.getElem?_cons_zero] at hget
  refine ⟨_, hget, ?_⟩
  have hpayload : payloadFlags txPayload &&& ~~~(flagHasTransactions ||| flagTxCompressed) = 0 := by
    unfold payloadFlags
    split_ifs <;> decide
  rw [uint8_or_and, hpayload, UInt8.or_zero, UInt8.and_assoc, UInt8.and_self]

end IsEncoding

/-! ## The zero-reward flag -/

section ZeroReward

variable (zeroReward : H256 → Bool)

def Block.withZeroReward (block : Block T) : Block T :=
  { block with
    flags := if zeroReward block.hash then block.flags ||| flagZeroTotalReward else block.flags }

def Packet.withZeroReward (input : Packet T) : Packet T :=
  { input with blocks := input.blocks.map (·.withZeroReward zeroReward) }

/-- The sites of the blocks to flag. -/
def zeroRewardSites (sites : List (ℕ × H256)) : List ℕ :=
  (sites.filter fun site => zeroReward site.2).map (·.1)

variable {zeroReward}

/-- The other flags stay. -/
theorem withZeroReward_and (block : Block T) {flag : UInt8} (hflag : flagZeroTotalReward &&& flag = 0) :
    (block.withZeroReward zeroReward).flags &&& flag = block.flags &&& flag := by
  unfold Block.withZeroReward
  split
  · rw [uint8_or_and, hflag, UInt8.or_zero]
  · rfl

theorem withZeroReward_has (block : Block T) {flag : UInt8}
    (hflag : flagZeroTotalReward &&& flag = 0) :
    (block.withZeroReward zeroReward).has flag = block.has flag := by
  unfold Block.has
  rw [withZeroReward_and block hflag]

theorem validInput_withZeroReward {input : Packet T} (h : ValidInput input) :
    ValidInput (input.withZeroReward zeroReward) := by
  have hpivot : ∀ block : Block T,
      (block.withZeroReward zeroReward).has flagPivot = block.has flagPivot :=
    fun block => withZeroReward_has block (by decide)
  have hgroups : List.groups (·.has flagPivot) (input.blocks.map (·.withZeroReward zeroReward)) =
      ((List.groups (·.has flagPivot) input.blocks).1.map fun group =>
        (group.1.map (·.withZeroReward zeroReward), group.2.withZeroReward zeroReward),
        (List.groups (·.has flagPivot) input.blocks).2.map (·.withZeroReward zeroReward)) :=
    List.groups_map hpivot input.blocks
  have hblocks : (input.withZeroReward zeroReward).blocks =
      input.blocks.map (·.withZeroReward zeroReward) := rfl
  constructor
  · simpa [hblocks] using h.nonempty
  · intro first hfirst
    rw [hblocks, List.head?_map] at hfirst
    obtain ⟨first, hmem, rfl⟩ := Option.mem_map.mp hfirst
    exact h.first_lt first hmem
  · intro i block hblock
    rw [hblocks, List.getElem?_map] at hblock
    obtain ⟨block, hget, rfl⟩ := Option.map_eq_some_iff.mp hblock
    exact h.index i block hget
  · intro block hblock
    obtain ⟨block, hmem, rfl⟩ := List.mem_map.mp hblock
    rw [withZeroReward_and block (by decide)]
    exact h.reserved block hmem
  · intro group hgroup
    rw [hblocks, hgroups] at hgroup
    obtain ⟨group, hmem, rfl⟩ := List.mem_map.mp hgroup
    intro block hblock
    have hmembers : group.1.map (·.withZeroReward zeroReward) ++
        [group.2.withZeroReward zeroReward] =
          (group.1 ++ [group.2]).map (·.withZeroReward zeroReward) := by simp
    rw [hmembers] at hblock
    obtain ⟨block, hmem', rfl⟩ := List.mem_map.mp hblock
    exact h.epoch group hmem block hmem'
  · rw [hblocks, hgroups, h.complete]
    rfl

theorem rounds_payloads_withZeroReward {addressIndex : Assoc Address ℕ}
    {gasPriceIndex : Assoc U256 ℕ} {senderNonceIndex : Assoc ℕ UInt64} {seenTxs seenTxs' : SeenTxs}
    {blocks : List (Block T)} {txPayloads : List Bytes}
    (h : Rounds (encodeTxPayload crates addressIndex gasPriceIndex senderNonceIndex) seenTxs blocks
      txPayloads seenTxs') :
    Rounds (encodeTxPayload crates addressIndex gasPriceIndex senderNonceIndex) seenTxs
      (blocks.map (·.withZeroReward zeroReward)) txPayloads seenTxs' := by
  induction h with
  | nil => exact .nil _
  | cons hround _ ih => exact .cons hround ih

/-- A record with the flag set. -/
def setZeroReward (record : Bytes) : Bytes :=
  record.mark (· = 44) (· ||| flagZeroTotalReward)

/-- **The record of a flagged block** is the record of the block with the flag set. -/
theorem encodeBlock_withZeroReward {input : Packet T} {addressIndex : Assoc Address ℕ}
    {difficultyIndex : Assoc U256 ℕ} {block : Block T} {txPayload segment segment' record : Bytes}
    (h : (encodeBlock crates input addressIndex difficultyIndex (block, txPayload)).run segment =
      .ok (record, segment')) :
    (encodeBlock crates (input.withZeroReward zeroReward) addressIndex difficultyIndex
        (block.withZeroReward zeroReward, txPayload)).run segment =
      .ok (if zeroReward block.hash then setZeroReward record else record, segment') := by
  rw [encodeBlock_eq_ok] at h ⊢
  obtain ⟨txSegmentOffset, fields, happended, hfields, rfl⟩ := h
  refine ⟨txSegmentOffset, fields, happended, ?_, ?_⟩
  · exact ⟨hfields.author, hfields.minTimestamp_le, hfields.difficulty, hfields.gasLimit,
      hfields.basePriceCore, hfields.basePriceEspace, hfields.minHeight_le, hfields.baseReward⟩
  · have hhead : recordHead (block.withZeroReward zeroReward) = recordHead block := rfl
    have hbytes : fields.toBytes (input.withZeroReward zeroReward)
        (block.withZeroReward zeroReward) txSegmentOffset =
          fields.toBytes input block txSegmentOffset := rfl
    rw [hhead, hbytes]
    split
    -- the flag is in the byte 44, right after the head
    case isTrue hzero =>
      have hmark : ∀ (flags : UInt8) rest, setZeroReward (recordHead block ++ flags :: rest) =
          recordHead block ++ (flags ||| flagZeroTotalReward) :: rest := by
        intro flags rest
        rw [setZeroReward, List.mark_append, List.mark_cons, length_recordHead, if_pos rfl,
          List.mark_eq_self fun i hi => ?_, List.mark_eq_self fun i hi => ?_]
        · omega
        · rw [length_recordHead] at hi
          omega
      have hflags : (block.withZeroReward zeroReward).flags &&&
            ~~~(flagHasTransactions ||| flagTxCompressed) ||| payloadFlags txPayload =
          (block.flags &&& ~~~(flagHasTransactions ||| flagTxCompressed) |||
            payloadFlags txPayload) ||| flagZeroTotalReward := by
        have hkeep : flagZeroTotalReward &&& ~~~(flagHasTransactions ||| flagTxCompressed) =
            flagZeroTotalReward := by decide
        rw [Block.withZeroReward, if_pos hzero, uint8_or_and, hkeep, UInt8.or_assoc, UInt8.or_assoc,
          UInt8.or_comm flagZeroTotalReward]
      rw [hmark, hflags]
    case isFalse hzero => simp [Block.withZeroReward, hzero]

/-- Records with the flag set on some of them. -/
def flagRecords (marks : List Bool) (records : List Bytes) : List Bytes :=
  List.zipWith (fun flagged record => if flagged then setZeroReward record else record) marks records

theorem rounds_withZeroReward (zeroReward : H256 → Bool) {input : Packet T} {addressIndex : Assoc Address ℕ}
    {difficultyIndex : Assoc U256 ℕ} {entries : List (Block T × Bytes)} {segment segment' : Bytes}
    {records : List Bytes}
    (h : Rounds (encodeBlock crates input addressIndex difficultyIndex) segment entries records
      segment') :
    Rounds (encodeBlock crates (input.withZeroReward zeroReward) addressIndex difficultyIndex)
      segment (entries.map fun entry => (entry.1.withZeroReward zeroReward, entry.2))
      (flagRecords (entries.map fun entry => zeroReward entry.1.hash) records) segment' := by
  induction h with
  | nil => exact .nil _
  | cons hround _ ih => exact .cons (encodeBlock_withZeroReward hround) ih

@[simp] theorem length_setZeroReward (record : Bytes) :
    (setZeroReward record).length = record.length := by simp [setZeroReward]

theorem map_length_flagRecords {marks : List Bool} {records : List Bytes}
    (h : marks.length = records.length) :
    (flagRecords marks records).map List.length = records.map List.length := by
  induction records generalizing marks with
  | nil => simp [flagRecords]
  | cons record records ih =>
    cases marks with
    | nil => simp at h
    | cons flagged marks =>
      have hrest := ih (show marks.length = records.length by simpa using h)
      rw [flagRecords, List.zipWith_cons_cons, List.map_cons, List.map_cons, ← flagRecords, hrest]
      split <;> simp

/-! ## The layout depends on the lengths of the records -/

theorem choosePrefixSize_congr {records records' : List Bytes}
    (h : records.map List.length = records'.map List.length) :
    choosePrefixSize records = choosePrefixSize records' := by
  have hlen : records.length = records'.length := by simpa using congrArg List.length h
  have hfit : ∀ n, (records.filter fun record => record.length ≤ n).length =
      (records'.filter fun record => record.length ≤ n).length := by
    intro n
    have hcount := congrArg (List.countP (· ≤ n)) h
    rw [List.countP_map, List.countP_map, List.countP_eq_length_filter,
      List.countP_eq_length_filter] at hcount
    exact hcount
  have hrounds : ∀ rounds n,
      choosePrefixSizeFrom records rounds n = choosePrefixSizeFrom records' rounds n := by
    intro rounds
    induction rounds with
    | zero => exact fun n => rfl
    | succ rounds ih =>
      intro n
      simp only [choosePrefixSizeFrom, hfit, hlen, ih]
  exact hrounds 4 64

theorem extensionBitmap_congr {records records' : List Bytes}
    (h : records.map List.length = records'.map List.length) (n k : ℕ) {body body' : BlockBody}
    (hbody : body.extensionBitmap = body'.extensionBitmap) :
    ((records.zipIdx k).foldl (packRecord n) body).extensionBitmap =
      ((records'.zipIdx k).foldl (packRecord n) body').extensionBitmap := by
  induction records generalizing records' k body body' with
  | nil =>
    obtain rfl : records' = [] := by simpa using h.symm
    exact hbody
  | cons record records ih =>
    cases records' with
    | nil => simp at h
    | cons record' records' =>
      obtain ⟨hhead, hrest⟩ : record.length = record'.length ∧
        records.map List.length = records'.map List.length := by simpa using h
      rw [List.zipIdx_cons, List.zipIdx_cons, List.foldl_cons, List.foldl_cons]
      exact ih hrest (k + 1) (by simp only [packRecord, hhead, hbody])

theorem packBlockBody_snd_congr {records records' : List Bytes}
    (h : records.map List.length = records'.map List.length) (n : ℕ) :
    (packBlockBody records n).2 = (packBlockBody records' n).2 := by
  have hlen : records.length = records'.length := by simpa using congrArg List.length h
  exact extensionBitmap_congr h n 0 (by rw [hlen])

/-! ## The bytes -/

theorem prefixPart_setZeroReward {n : ℕ} {record : Bytes} (hn : 44 < n)
    (hrecord : 44 < record.length) :
    prefixPart n (setZeroReward record) =
      (prefixPart n record).mark (· = 44) (· ||| flagZeroTotalReward) := by
  rw [prefixPart, prefixPart, length_setZeroReward, setZeroReward, List.take_mark, List.mark_append]
  congr 1
  refine (List.mark_eq_self fun i _ hi => ?_).symm
  rw [List.length_take] at hi
  omega

theorem overflowPart_setZeroReward {n : ℕ} {record : Bytes} (hn : 44 < n) :
    overflowPart n (setZeroReward record) = overflowPart n record := by
  have hdrop : (setZeroReward record).drop n = record.drop n := by
    rw [setZeroReward, List.drop_mark, List.mark_eq_self fun i _ hi => by omega]
  rw [overflowPart, overflowPart, length_setZeroReward, hdrop]

theorem flatMap_overflowPart_flagRecords {n : ℕ} {marks : List Bool} {records : List Bytes}
    (h : marks.length = records.length) (hn : 44 < n) :
    (flagRecords marks records).flatMap (overflowPart n) = records.flatMap (overflowPart n) := by
  induction records generalizing marks with
  | nil => simp [flagRecords]
  | cons record records ih =>
    cases marks with
    | nil => simp at h
    | cons flagged marks =>
      have hrest := ih (show marks.length = records.length by simpa using h)
      rw [flagRecords, List.zipWith_cons_cons, List.flatMap_cons, List.flatMap_cons, ← flagRecords,
        hrest]
      split
      · rw [overflowPart_setZeroReward hn]
      · rfl

/-- The prefix area of flagged records. -/
theorem flatMap_prefixPart_flagRecords {n : ℕ} {marks : List Bool} {records : List Bytes}
    (h : marks.length = records.length) (hn : 44 < n) (hrecords : ∀ record ∈ records, 44 < record.length) :
    (flagRecords marks records).flatMap (prefixPart n) =
      (records.flatMap (prefixPart n)).mark
        (fun k => k % n = 44 ∧ marks.getD (k / n) false = true) (· ||| flagZeroTotalReward) := by
  -- induction on the records, each `n` bytes long in the prefix area
  induction records generalizing marks with
  | nil => simp [flagRecords, List.mark]
  | cons record records ih =>
    cases marks with
    | nil => simp at h
    | cons flagged marks =>
      have hrest := ih (show marks.length = records.length by simpa using h)
        fun record hrecord => hrecords record (List.mem_cons_of_mem _ hrecord)
      have hrecord := hrecords record List.mem_cons_self
      rw [flagRecords, List.zipWith_cons_cons, List.flatMap_cons, List.flatMap_cons, ← flagRecords,
        hrest, List.mark_append, length_prefixPart]
      congr 1
      · have hpos : ∀ i < n, (i % n = 44 ∧ (flagged :: marks).getD (i / n) false = true) ↔
            i = 44 ∧ flagged = true := by
          intro i hi
          rw [Nat.mod_eq_of_lt hi, Nat.div_eq_of_lt hi]
          rfl
        split
        case isTrue hflagged =>
          rw [prefixPart_setZeroReward hn hrecord]
          refine List.mark_congr fun i hi => ?_
          rw [length_prefixPart] at hi
          rw [hpos i hi]
          simp [hflagged]
        case isFalse hflagged =>
          refine (List.mark_eq_self fun i hi => ?_).symm
          rw [length_prefixPart] at hi
          rw [hpos i hi]
          simp [hflagged]
      · refine List.mark_congr fun i _ => ?_
        have hpos : 0 < n := by omega
        rw [Nat.add_mod_left, Nat.add_div_left _ hpos, List.getD_cons_succ]

/-- Another body of the same length takes the place of the body. -/
theorem assemblePacket_body (zeroReward : H256 → Bool) {input : Packet T} {prefixSize blockCount : ℕ}
    {extensionBitmap blockBody blockBody' txSegment b : Bytes}
    (hlen : blockBody'.length = blockBody.length)
    (h : assemblePacket input prefixSize blockCount extensionBitmap blockBody txSegment = .ok b) :
    ∃ pre post, b = pre ++ blockBody ++ post ∧
      pre.length = sectionOffset headerLen
        (packetSections input blockCount extensionBitmap blockBody txSegment) 6 ∧
      pre.length = sectionOffset headerLen (packetSections (input.withZeroReward zeroReward)
        blockCount extensionBitmap blockBody' txSegment) 6 ∧
      assemblePacket (input.withZeroReward zeroReward) prefixSize blockCount extensionBitmap
        blockBody' txSegment = .ok (pre ++ blockBody' ++ post) := by
  obtain ⟨hlt, rfl⟩ := assemblePacket_eq_ok.mp h
  have hlengths : (packetSections (input.withZeroReward zeroReward) blockCount extensionBitmap
      blockBody' txSegment).map List.length =
        (packetSections input blockCount extensionBitmap blockBody txSegment).map List.length := by
    simp only [packetSections, List.map_append, List.map_cons, List.map_nil, blockBodySection,
      List.length_append, hlen]
    rfl
  have hoffsets := sectionOffset_congr headerLen hlengths
  have hheader : packetHeader (fixedHeader (input.withZeroReward zeroReward) prefixSize)
      (packetSections (input.withZeroReward zeroReward) blockCount extensionBitmap blockBody'
        txSegment) =
      packetHeader (fixedHeader input prefixSize)
        (packetSections input blockCount extensionBitmap blockBody txSegment) := by
    unfold packetHeader
    simp only [hoffsets]
    rfl
  let blockHeaderOffset := gasPriceOffset input + (gasPriceSection input).length
  let blockHeader := blockHeaderSection blockHeaderOffset blockCount extensionBitmap
  let front := tableSections input ++ [gasPriceSection input, blockHeader]
  have hpad : blockBodySection (blockHeaderOffset + blockHeader.length) blockBody' = blockBody' ++
      padding (blockHeaderOffset + blockHeader.length + blockBody.length) 64 := by
    rw [blockBodySection, hlen]
  have hfront : (packetHeader (fixedHeader input prefixSize)
      (packetSections input blockCount extensionBitmap blockBody txSegment) ++
        front.flatten).length = sectionOffset headerLen
          (packetSections input blockCount extensionBitmap blockBody txSegment) 6 := by
    rw [List.length_append, length_packetHeader (length_fixedHeader input prefixSize)]
    rfl
  refine ⟨packetHeader (fixedHeader input prefixSize)
      (packetSections input blockCount extensionBitmap blockBody txSegment) ++ front.flatten,
    padding (blockHeaderOffset + blockHeader.length + blockBody.length) 64 ++ txSegment,
    ?_, hfront, hfront.trans (hoffsets 6).symm, ?_⟩
  · have hsections : (packetSections input blockCount extensionBitmap blockBody txSegment).flatten =
        front.flatten ++ (blockBodySection (blockHeaderOffset + blockHeader.length) blockBody ++
          txSegment) := by
      simp [packetSections, front, blockHeaderOffset, blockHeader]
    rw [hsections, blockBodySection]
    simp only [List.append_assoc]
  · have hsections : (packetSections (input.withZeroReward zeroReward) blockCount extensionBitmap
        blockBody' txSegment).flatten =
        front.flatten ++ (blockBodySection (blockHeaderOffset + blockHeader.length) blockBody' ++
          txSegment) := by
      simp [packetSections, front, blockHeaderOffset, blockHeader]
      rfl
    rw [assemblePacket_eq_ok, hheader, hsections, hpad]
    refine ⟨fun i hi => (hoffsets i).trans_lt (hlt i hi), ?_⟩
    simp only [List.append_assoc]

theorem mem_zeroRewardSites {bodyOffset n : ℕ} {blocks : List (Block T)} {k : ℕ} :
    k ∈ zeroRewardSites zeroReward (flagSites bodyOffset n blocks) ↔
      ∃ i block, blocks[i]? = some block ∧ zeroReward block.hash = true ∧
        bodyOffset + i * n + 44 = k := by
  simp only [zeroRewardSites, flagSites, List.mem_map, List.mem_filter, Prod.exists]
  constructor
  · rintro ⟨_, _, ⟨⟨block, i, hblock, heq⟩, hzero⟩, rfl⟩
    obtain ⟨rfl, rfl⟩ := Prod.mk.inj heq
    exact ⟨i, block, List.mem_zipIdx_iff_getElem?.mp hblock, hzero, rfl⟩
  · rintro ⟨i, block, hblock, hzero, rfl⟩
    exact ⟨_, _, ⟨⟨block, i, List.mem_zipIdx_iff_getElem?.mpr hblock, rfl⟩, hzero⟩, rfl⟩

/-- The sites, one in each record of the prefix area. -/
theorem add_mem_zeroRewardSites {bodyOffset n : ℕ} (hn : 44 < n) {blocks : List (Block T)} (k : ℕ) :
    bodyOffset + k ∈ zeroRewardSites zeroReward (flagSites bodyOffset n blocks) ↔
      k % n = 44 ∧ (blocks.map fun block => zeroReward block.hash).getD (k / n) false = true := by
  have hpos : 0 < n := by omega
  rw [mem_zeroRewardSites]
  constructor
  · rintro ⟨i, block, hblock, hzero, heq⟩
    obtain rfl : k = 44 + n * i := by rw [Nat.mul_comm]; omega
    rw [Nat.add_mul_mod_self_left, Nat.mod_eq_of_lt hn, Nat.add_mul_div_left _ _ hpos,
      Nat.div_eq_of_lt hn, Nat.zero_add]
    exact ⟨rfl, by simp [List.getD_eq_getElem?_getD, hblock, hzero]⟩
  · rintro ⟨hmod, hget⟩
    rw [List.getD_eq_getElem?_getD, List.getElem?_map] at hget
    cases hblock : blocks[k / n]? with
    | none => simp [hblock] at hget
    | some block =>
      have hdiv := Nat.div_add_mod k n
      refine ⟨k / n, block, hblock, by simpa [hblock] using hget, ?_⟩
      rw [Nat.mul_comm (k / n)]
      omega

theorem bounds_of_mem_zeroRewardSites {bodyOffset n k : ℕ} (hn : 44 < n) {blocks : List (Block T)}
    (h : k ∈ zeroRewardSites zeroReward (flagSites bodyOffset n blocks)) :
    bodyOffset ≤ k ∧ k < bodyOffset + blocks.length * n := by
  obtain ⟨i, block, hblock, -, rfl⟩ := mem_zeroRewardSites.mp h
  have hi := (List.getElem?_eq_some_iff.mp hblock).1
  have hmul : (i + 1) * n ≤ blocks.length * n := Nat.mul_le_mul_right n hi
  rw [Nat.succ_mul] at hmul
  omega

/-- The sites depend on the hashes only. -/
theorem flagSites_withZeroReward (bodyOffset n : ℕ) (input : Packet T) :
    flagSites bodyOffset n (input.withZeroReward zeroReward).blocks =
      flagSites bodyOffset n input.blocks := by
  simp [flagSites, Packet.withZeroReward, List.zipIdx_map, Function.comp_def, Block.withZeroReward]

/-- **With the flag set on some blocks**, the encoder writes the same bytes but for the flags, at
the same sites. -/
theorem IsEncoding.withZeroReward (zeroReward : H256 → Bool) {input : Packet T} {b : Bytes} {txPayloads records : List Bytes}
    {txSegment : Bytes} (h : IsEncoding crates input b txPayloads records txSegment) :
    ∃ offsets b', BlockArea b (choosePrefixSize records) records txSegment offsets ∧
      b' = b.mark (· ∈ zeroRewardSites zeroReward
        (flagSites (offsets.getD 6 0) (choosePrefixSize records) input.blocks))
          (· ||| flagZeroTotalReward) ∧
      encodePacket crates (input.withZeroReward zeroReward) = .ok b' ∧
      blockFlagSites b' =
        .ok (flagSites (offsets.getD 6 0) (choosePrefixSize records) input.blocks) := by
  have hlen := h.length_records
  have hmem := choosePrefixSize_mem records
  have hn : 44 < choosePrefixSize records := by
    have hbounds := prefixSize_bounds hmem
    omega
  let marks := input.blocks.map fun block => zeroReward block.hash
  have hmarks : marks.length = records.length := by simp [marks, hlen]
  have hlengths := map_length_flagRecords hmarks
  -- the flag byte of a record is in its prefix part, which is longer than 44 bytes
  have hrecords : ∀ record ∈ records, 44 < record.length := by
    intro record hrecord
    obtain ⟨i, hi, rfl⟩ := List.getElem_of_mem hrecord
    obtain ⟨block, rest, -, heq, hrest⟩ := h.exists_block (List.getElem?_eq_getElem hi)
    have hpos := List.length_pos_of_ne_nil hrest
    rw [heq, List.length_append, length_recordHead]
    omega
  -- so setting flags changes the prefix area alone, and leaves every overflow where it was
  have hbody := packBlockBody_fst records (choosePrefixSize records)
  have hbody' := packBlockBody_fst (flagRecords marks records) (choosePrefixSize records)
  rw [flatMap_prefixPart_flagRecords hmarks hn hrecords,
    flatMap_overflowPart_flagRecords hmarks hn] at hbody'
  have hbodies : (packBlockBody (flagRecords marks records) (choosePrefixSize records)).1.length =
      (packBlockBody records (choosePrefixSize records)).1.length := by
    rw [hbody, hbody']
    simp
  obtain ⟨pre, post, rfl, hpre, hpre', hassembled⟩ :=
    assemblePacket_body zeroReward hbodies h.assembled
  have hflagged : pre ++ (packBlockBody (flagRecords marks records) (choosePrefixSize records)).1 ++
      post = (pre ++ (packBlockBody records (choosePrefixSize records)).1 ++ post).mark
        (· ∈ zeroRewardSites zeroReward
          (flagSites pre.length (choosePrefixSize records) input.blocks))
        (· ||| flagZeroTotalReward) := by
    have harea := length_flatMap_of_length (length_prefixPart (choosePrefixSize records)) records
    have hinside : ∀ i, i ∈ zeroRewardSites zeroReward
        (flagSites pre.length (choosePrefixSize records) input.blocks) → pre.length ≤ i ∧
          i < pre.length + (records.flatMap (prefixPart (choosePrefixSize records))).length := by
      intro i hi
      rw [harea, hlen]
      exact bounds_of_mem_zeroRewardSites hn hi
    have hmiddle := List.mark_middle pre
      (records.flatMap (overflowPart (choosePrefixSize records)) ++ post)
      (f := (· ||| flagZeroTotalReward)) hinside
    rw [List.mark_congr fun i _ => add_mem_zeroRewardSites hn i] at hmiddle
    rw [hbody, hbody']
    simp only [List.append_assoc] at hmiddle ⊢
    exact hmiddle.symm
  -- lengths decide the prefix size and the overflow bits, and the lengths are unchanged
  have hsize := choosePrefixSize_congr hlengths
  have hbits := packBlockBody_snd_congr hlengths (choosePrefixSize records)
  have hcount : (flagRecords marks records).length = records.length := by
    simpa using congrArg List.length hlengths
  rw [← hbits, ← hcount, ← hsize] at hassembled hpre'
  have hencoding : IsEncoding crates (input.withZeroReward zeroReward)
      (pre ++ (packBlockBody (flagRecords marks records)
        (choosePrefixSize (flagRecords marks records))).1 ++ post) txPayloads
      (flagRecords marks records) txSegment := by
    refine ⟨validInput_withZeroReward h.valid, ?_, ?_, hassembled⟩
    · obtain ⟨seenTxs, hpayloads⟩ := h.payloads
      exact ⟨seenTxs, rounds_payloads_withZeroReward hpayloads⟩
    · have hrounds := rounds_withZeroReward zeroReward h.rounds
      have hzip : (input.blocks.zip txPayloads).map
          (fun entry => (entry.1.withZeroReward zeroReward, entry.2)) =
            (input.blocks.map (·.withZeroReward zeroReward)).zip txPayloads := by
        rw [List.zip_map_left]
        rfl
      have hfirst : (input.blocks.zip txPayloads).map (fun entry => zeroReward entry.1.hash) =
          marks := by
        have hmap := congrArg (List.map fun block => zeroReward block.hash)
          (List.map_fst_zip h.length_payloads.ge)
        rwa [List.map_map] at hmap
      rw [hzip, hfirst] at hrounds
      exact hrounds
  have hsites := hencoding.blockFlagSites_eq
    (blockArea_of_assemblePacket (choosePrefixSize_mem _) hassembled)
  rw [getD_offsets _ (by decide), ← hpre', flagSites_withZeroReward, hsize] at hsites
  refine ⟨_, _, blockArea_of_assemblePacket hmem h.assembled, ?_,
    encodePacket_iff.mpr ⟨_, _, _, hencoding⟩, ?_⟩
  · rw [getD_offsets _ (by decide), ← hpre, hsize]
    exact hflagged
  · rw [getD_offsets _ (by decide), ← hpre, hsize]
    exact hsites

/-- The bytes of a packet with the flag set at some of its sites. -/
def setFlags (zeroReward : H256 → Bool) (sites : List (ℕ × H256)) (b : Bytes) : Bytes :=
  b.mark (· ∈ zeroRewardSites zeroReward sites) (· ||| flagZeroTotalReward)

@[simp] theorem length_setFlags (sites : List (ℕ × H256)) (b : Bytes) :
    (setFlags zeroReward sites b).length = b.length := List.length_mark b

/-- The sites of a packet: one for each block, at the byte that has its flags. -/
structure SiteList (input : Packet T) (b : Bytes) (sites : List (ℕ × H256)) : Prop where
  blockFlagSites_eq : blockFlagSites b = .ok sites
  hashes : sites.map (·.2) = input.blocks.map (·.hash)
  flags : ∀ (i : ℕ) (site : ℕ × H256) (block : Block T), sites[i]? = some site →
    input.blocks[i]? = some block →
    ∃ flags, b[site.1]? = some flags ∧
      flags &&& ~~~(flagHasTransactions ||| flagTxCompressed) =
        block.flags &&& ~~~(flagHasTransactions ||| flagTxCompressed)

theorem SiteList.lt_length {input : Packet T} {b : Bytes} {sites : List (ℕ × H256)}
    (h : SiteList input b sites) : ∀ site ∈ sites, site.1 < b.length := by
  intro site hsite
  obtain ⟨i, hi, rfl⟩ := List.getElem_of_mem hsite
  have hlen : sites.length = input.blocks.length := by simpa using congrArg List.length h.hashes
  obtain ⟨flags, hflags, -⟩ := h.flags i _ _ (List.getElem?_eq_getElem hi)
    (List.getElem?_eq_getElem (hlen ▸ hi))
  exact (List.getElem?_eq_some_iff.mp hflags).1

/-- **The sites of a packet that the encoder writes**, and the packet with the flag set. -/
theorem exists_siteList (zeroReward : H256 → Bool) {input : Packet T} {b : Bytes}
    (h : encodePacket crates input = .ok b) :
    ∃ sites, SiteList input b sites ∧
      encodePacket crates (input.withZeroReward zeroReward) = .ok (setFlags zeroReward sites b) ∧
      blockFlagSites (setFlags zeroReward sites b) = .ok sites := by
  obtain ⟨txPayloads, records, txSegment, hencoding⟩ := encodePacket_iff.mp h
  obtain ⟨offsets, b', harea, hb', hflagged, hsites⟩ :=
    hencoding.withZeroReward zeroReward
  subst hb'
  refine ⟨_, ⟨hencoding.blockFlagSites_eq harea, ?_, ?_⟩, hflagged, hsites⟩
  · refine List.ext_getElem? fun i => ?_
    rw [flagSites, List.map_map, List.getElem?_map, List.getElem?_map, List.getElem?_zipIdx]
    cases input.blocks[i]? <;> rfl
  · intro i site block hsite hblock
    have hsite' : (flagSites (offsets.getD 6 0) (choosePrefixSize records) input.blocks)[i]? =
        some (offsets.getD 6 0 + i * choosePrefixSize records + 44, block.hash) := by
      simp [flagSites, hblock]
    obtain rfl := Option.some.inj (hsite.symm.trans hsite')
    exact hencoding.flags_at harea hblock

end ZeroReward

end Cfxpack
