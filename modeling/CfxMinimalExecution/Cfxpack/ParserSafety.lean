import CfxMinimalExecution.Cfxpack.Agreement
import CfxMinimalExecution.Cfxpack.GracefulRecords
import CfxMinimalExecution.Cfxpack.PlainCrates

/-!
# Parser safety

The decoder does not check the end of the bitmap, and neither parser checks a sum of a stored number
and its base. Everything else is checked before it is used. The sums that cannot overflow, of a
position within the packet and a small constant or of two numbers of 32 bits, are computed in ℕ.

## Main definitions

* `readHead`, `readVerifyHead`: what the parsers read before the records
* `DecoderFits`, `VerifierFits`: the reads and sums that a parser reaches fit

## Main results

* `graceful_decodePacketExt`, `graceful_verifyPacket`: exactly when a parser returns
* `parserSafety_iff`: exactly when both do
-/

namespace Cfxpack

variable {T : PrimitiveTypes} {crates : Crates T} {data : Bytes}

/-! ## The head of a packet -/

/-- What the decoder reads before the blocks. -/
structure PacketHead where
  prevLastHash : H256
  prevLastDeferredStateRoot : H256
  firstBlockNumber : UInt64
  minTimestamp : UInt64
  minHeight : UInt64
  minPosHeight : UInt64
  blockPrefixSize : ℕ
  offsets : List ℕ
  addresses : List Address
  posEntries : List PosLookupEntry
  difficulties : List U256
  senderBaseNonces : List SenderBaseNonce
  gasPrices : List U256

namespace PacketHead

variable (head : PacketHead)

def blockHeaderOffset : ℕ := head.offsets.getD 5 0

def blockBodyOffset : ℕ := head.offsets.getD 6 0

def txSegmentOffset : ℕ := head.offsets.getD 7 0

/-- The records under the head. -/
def records (profile : Profile) (data : Bytes) : Result (List DecodedRecord) :=
  decodeBlockRecords profile data head.blockHeaderOffset head.blockBodyOffset head.txSegmentOffset
    head.blockPrefixSize

/-- The block of a record at a place, without its payload. -/
def block (profile : Profile) (posReferenceEnableHeight : UInt64) (entry : DecodedRecord × ℕ) :
    Result (Block T) :=
  decodeBlockRecord profile entry.1.bytes entry.2 head.minTimestamp head.minHeight head.minPosHeight
    posReferenceEnableHeight head.addresses head.difficulties

/-- The payload of a block. -/
def payload (crates : Crates T) (data : Bytes) (entry : DecodedRecord × Block T) :
    StateT (List (List (SignedTransaction T))) Result (Block T) :=
  decodeTransactions crates data head.txSegmentOffset head.addresses head.gasPrices
    head.senderBaseNonces entry

end PacketHead

def readHead (data : Bytes) : Result PacketHead := do
  ensure (headerLen ≤ data.length) "packet shorter than header"
  let prevLastHash := H256.fromSlice (← slice data 0 32)
  let prevLastDeferredStateRoot := H256.fromSlice (← slice data 32 64)
  let firstBlockNumber ← readU64Le data 64
  let minTimestamp ← readU64Le data 72
  let minHeight ← readU64Le data 80
  let minPosHeight := (← readU32Le data 88).toUInt64
  let blockPrefixSize := (← indexAt data 92).toNat
  ensure (blockPrefixSize ∈ [64, 72, 80, 88, 96]) "invalid block_prefix_size"
  let offsets ← readOffsets data
  ensureOffsets offsets data.length
  let offset := fun i => offsets.getD i 0
  let addresses ← decodeAddresses (← slice data (offset 0) (offset 1))
  let posEntries ← decodePosEntries (← slice data (offset 1) (offset 2))
  let difficulties ← decodeU256Table (← slice data (offset 2) (offset 3))
  let senderBaseNonces ← decodeSenderBaseNonces (← slice data (offset 3) (offset 4))
  let gasPrices ← decodeU256Table (← slice data (offset 4) (offset 5))
  pure
    { prevLastHash, prevLastDeferredStateRoot, firstBlockNumber, minTimestamp, minHeight,
      minPosHeight, blockPrefixSize, offsets, addresses, posEntries, difficulties, senderBaseNonces,
      gasPrices }

/-- The rest of the decoder. -/
def decodeBlocks (crates : Crates T) (data : Bytes) (posReferenceEnableHeight : UInt64)
    (head : PacketHead) : Result (Packet T) := do
  let blockRecords ← head.records crates.toProfile data
  let blocks ← blockRecords.zipIdx.mapM (head.block crates.toProfile posReferenceEnableHeight)
  let blocks ← assignEpochFromPivots blocks
  let (blocks, _) ← ((blockRecords.zip blocks).mapM (head.payload crates data)).run []
  pure
    { prevLastHash := head.prevLastHash
      prevLastDeferredStateRoot := head.prevLastDeferredStateRoot
      firstBlockNumber := head.firstBlockNumber
      minTimestamp := head.minTimestamp
      minHeight := head.minHeight
      minPosHeight := head.minPosHeight
      addresses := head.addresses
      posEntries := head.posEntries
      difficulties := head.difficulties
      senderBaseNonces := head.senderBaseNonces
      gasPrices := head.gasPrices
      blocks }

theorem decodePacketExt_eq_bind (crates : Crates T) (data : Bytes) (height : UInt64) :
    decodePacketExt crates data height = readHead data >>= decodeBlocks crates data height := by
  simp only [decodePacketExt, readHead, bind_assoc, pure_bind]
  rfl

/-- The places of the tables are in order and within the packet, so that the head is read
gracefully. -/
theorem graceful_readHead (data : Bytes) : Graceful (readHead data) := by
  unfold readHead
  refine (graceful_step (graceful_ensure _ _)).mpr fun _ hlen => ?_
  have hlen : 125 ≤ data.length := ensure_eq_ok.mp hlen
  refine (graceful_step (graceful_slice.mpr (by omega))).mpr fun _ _ => ?_
  refine (graceful_step (graceful_slice.mpr (by omega))).mpr fun _ _ => ?_
  refine (graceful_step (graceful_readU64Le _ _)).mpr fun _ _ => ?_
  refine (graceful_step (graceful_readU64Le _ _)).mpr fun _ _ => ?_
  refine (graceful_step (graceful_readU64Le _ _)).mpr fun _ _ => ?_
  refine (graceful_step (graceful_readU32Le _ _)).mpr fun _ _ => ?_
  refine (graceful_step (graceful_indexAt.mpr (by omega))).mpr fun _ _ => ?_
  refine (graceful_step (graceful_ensure _ _)).mpr fun _ _ => ?_
  refine (graceful_step (graceful_readOffsets _)).mpr fun offsets hoffsets => ?_
  refine (graceful_step (graceful_ensureOffsets _ _)).mpr fun _ hordered => ?_
  have hslice : ∀ i < 7, Graceful (slice data (offsets.getD i 0) (offsets.getD (i + 1) 0)) :=
    fun i hi => graceful_slice.mpr (ensureOffsets_eq_ok hoffsets hordered (by omega) (by
      show i + 1 < 8
      omega))
  refine (graceful_step (hslice 0 (by omega))).mpr fun _ _ => ?_
  refine (graceful_step (graceful_decodeAddresses _)).mpr fun _ _ => ?_
  refine (graceful_step (hslice 1 (by omega))).mpr fun _ _ => ?_
  refine (graceful_step (graceful_decodePosEntries _)).mpr fun _ _ => ?_
  refine (graceful_step (hslice 2 (by omega))).mpr fun _ _ => ?_
  refine (graceful_step (graceful_decodeU256Table _)).mpr fun _ _ => ?_
  refine (graceful_step (hslice 3 (by omega))).mpr fun _ _ => ?_
  refine (graceful_step (graceful_decodeSenderBaseNonces _)).mpr fun _ _ => ?_
  refine (graceful_step (hslice 4 (by omega))).mpr fun _ _ => ?_
  exact (graceful_step (graceful_decodeU256Table _)).mpr fun _ _ => graceful_ok _

/-- What the head of a packet says about the places of its parts. -/
structure PacketHead.Sound (head : PacketHead) (data : Bytes) : Prop where
  prefixSize_lt : head.blockPrefixSize < UInt32.size
  txSegment_le : head.txSegmentOffset ≤ data.length

theorem sound_of_readHead {head : PacketHead} (h : readHead data = .ok head) : head.Sound data := by
  simp only [readHead, Except.bind_eq_ok, Except.pure_def, Except.ok.injEq, ensure_eq_ok] at h
  obtain ⟨-, -, -, -, -, -, -, -, -, -, -, -, -, -, n, -, -, -, offsets, hoffsets, _, hordered, -, -,
    -, -, -, -, -, -, -, -, -, -, -, -, -, -, -, -, -, -, rfl⟩ := h
  constructor
  · exact n.toNat_lt.trans (by decide)
  · exact (ensureOffsets_eq_ok hoffsets hordered (Nat.le_refl 7) (by decide)).2

/-! ## The blocks of a packet -/

theorem graceful_assignEpochFromPivots (blocks : List (Block T)) :
    Graceful (assignEpochFromPivots blocks) :=
  graceful_bind.mpr ⟨graceful_ensure _ _, fun _ _ => graceful_ok _⟩

theorem graceful_decodeTransactions (hchecked : crates.overflowChecks = true)
    {txSegmentOffset : ℕ} {addresses : List Address} {gasPrices : List U256}
    {senderBaseNonces : List SenderBaseNonce} {entry : DecodedRecord × Block T}
    {decodedTxs : List (List (SignedTransaction T))} :
    Graceful ((decodeTransactions crates data txSegmentOffset addresses gasPrices senderBaseNonces
        entry).run decodedTxs) ↔
      (entry.2.has flagHasTransactions → PayloadFits crates data txSegmentOffset
        entry.1.txOffsetUnits entry.2.flags entry.2.epoch addresses gasPrices senderBaseNonces
        decodedTxs) := by
  unfold decodeTransactions
  dsimp only
  rw [graceful_run_get_bind]
  by_cases hflag : entry.2.has flagHasTransactions
  · rw [if_pos hflag, forall_prop_of_true hflag, ← graceful_decodeTxPayload hchecked]
    rw [graceful_run_liftM_bind, graceful_bind]
    exact and_iff_left fun items _ => graceful_ok _
  · rw [if_neg hflag]
    exact iff_of_true (graceful_ok _) fun h => absurd h hflag

/-- The payload of a block fits, where it has one. -/
def PacketHead.PayloadFits (head : PacketHead) (crates : Crates T) (data : Bytes)
    (entry : DecodedRecord × Block T) (decodedTxs : List (List (SignedTransaction T))) : Prop :=
  entry.2.has flagHasTransactions → Cfxpack.PayloadFits crates data head.txSegmentOffset
    entry.1.txOffsetUnits entry.2.flags entry.2.epoch head.addresses head.gasPrices
    head.senderBaseNonces decodedTxs

/-- The records of a packet, the sums for its blocks and the payloads that are reached fit. -/
def BlocksFit (crates : Crates T) (data : Bytes) (posReferenceEnableHeight : UInt64)
    (head : PacketHead) : Prop :=
  RecordsFit crates.toProfile data head.blockHeaderOffset head.blockBodyOffset head.txSegmentOffset
      head.blockPrefixSize ∧
  ∀ records, head.records crates.toProfile data = .ok records →
    (∀ done entry rest blocks, records.zipIdx = done ++ entry :: rest →
      done.mapM (head.block (T := T) crates.toProfile posReferenceEnableHeight) = .ok blocks →
        SumsFit head.minTimestamp head.minHeight head.minPosHeight posReferenceEnableHeight
          head.addresses head.difficulties entry.1.bytes) ∧
    ∀ blocks, records.zipIdx.mapM (head.block crates.toProfile posReferenceEnableHeight) = .ok blocks →
    ∀ assigned, assignEpochFromPivots blocks = .ok assigned →
      ∀ done entry rest decoded decodedTxs, records.zip assigned = done ++ entry :: rest →
        Rounds (head.payload crates data) [] done decoded decodedTxs →
          head.PayloadFits crates data entry decodedTxs

theorem graceful_decodeBlocks (hchecked : crates.overflowChecks = true) {height : UInt64}
    {head : PacketHead} (hsound : head.Sound data) :
    Graceful (decodeBlocks crates data height head) ↔ BlocksFit crates data height head := by
  unfold decodeBlocks BlocksFit
  have hrecords : Graceful (head.records crates.toProfile data) ↔ _ :=
    graceful_decodeBlockRecords hchecked hsound.prefixSize_lt hsound.txSegment_le
  refine graceful_bind.trans (and_congr hrecords (forall₂_congr fun records _ => ?_))
  refine graceful_bind.trans (and_congr ?_ (forall₂_congr fun blocks _ => ?_))
  · rw [graceful_mapM]
    refine forall_congr' fun done => forall_congr' fun entry => forall_congr' fun rest =>
      forall₃_congr fun blocks _ _ => ?_
    exact graceful_decodeBlockRecord hchecked
  · refine (graceful_step (graceful_assignEpochFromPivots _)).trans <|
      forall₂_congr fun assigned _ => ?_
    refine graceful_bind.trans ((and_iff_left fun _ _ => graceful_ok _).trans ?_)
    rw [graceful_mapM_run]
    refine forall_congr' fun done => forall_congr' fun entry => forall_congr' fun rest =>
      forall_congr' fun decoded => forall₃_congr fun decodedTxs _ _ => ?_
    exact graceful_decodeTransactions hchecked

/-- The blocks of a packet fit, when its head is read. -/
def DecoderFits (crates : Crates T) (data : Bytes) (posReferenceEnableHeight : UInt64) : Prop :=
  ∀ head, readHead data = .ok head → BlocksFit crates data posReferenceEnableHeight head

theorem graceful_decodePacketExt (hchecked : crates.overflowChecks = true) {height : UInt64} :
    Graceful (decodePacketExt crates data height) ↔ DecoderFits crates data height := by
  rw [decodePacketExt_eq_bind, graceful_step (graceful_readHead data)]
  exact forall₂_congr fun head hhead => graceful_decodeBlocks hchecked (sound_of_readHead hhead)

/-! ## The verifier -/

/-- What the verifier reads before the records. -/
structure VerifyHead where
  firstBlockNumber : UInt64
  minTimestamp : UInt64
  minHeight : UInt64
  minPosHeight : UInt32
  blockPrefixSize : UInt8
  blockBodyOffset : ℕ
  txSegmentOffset : ℕ
  blockCount : ℕ
  bitmap : Bytes

def readVerifyHead (data : Bytes) : Result VerifyHead := do
  ensure (headerLen ≤ data.length) "packet shorter than header"
  let firstBlockNumber ← readU64Le data 64
  let minTimestamp ← readU64Le data 72
  let minHeight ← readU64Le data 80
  let minPosHeight ← readU32Le data 88
  let blockPrefixSize ← indexAt data 92
  let prefixSize := blockPrefixSize.toNat
  ensure (prefixSize ∈ [64, 72, 80, 88, 96])
    s!"invalid block_prefix_size {blockPrefixSize}"
  let offsets ← readOffsets data
  ensureOffsets offsets data.length
  let blockHeaderOffset := offsets.getD 5 0
  let blockBodyOffset := offsets.getD 6 0
  let txSegmentOffset := offsets.getD 7 0
  ensure (blockHeaderOffset % 32 = 0) "block header offset is not 32-byte aligned"
  ensure (txSegmentOffset % 64 = 0) "tx segment offset is not 64-byte aligned"
  ensure (blockHeaderOffset + 4 ≤ data.length) "missing block_count"
  let blockCount := (← readU32Le data blockHeaderOffset).toNat
  let bitmapLen := (blockCount + 7) / 8
  ensure (blockHeaderOffset + 4 + bitmapLen ≤ blockBodyOffset)
    "block extension bitmap exceeds block body offset"
  let bitmap ← slice data (blockHeaderOffset + 4) (blockHeaderOffset + 4 + bitmapLen)
  let prefixTotal ← okOr "block prefix size overflow" (checkedMul blockCount prefixSize)
  ensure (blockBodyOffset + prefixTotal ≤ txSegmentOffset) "block prefix area exceeds tx segment"
  pure
    { firstBlockNumber, minTimestamp, minHeight, minPosHeight, blockPrefixSize, blockBodyOffset,
      txSegmentOffset, blockCount, bitmap }

namespace VerifyHead

variable (head : VerifyHead)

/-- The records under the head. -/
def records (profile : Profile) (data : Bytes) : Result (List Bytes) :=
  collectBlockRecords profile data head.blockBodyOffset head.txSegmentOffset head.blockCount
    head.blockPrefixSize.toNat head.bitmap

def report (data : Bytes) (counts : UInt32 × UInt32) : VerifyReport where
  packetBytes := data.length
  firstBlockNumber := head.firstBlockNumber
  minTimestamp := head.minTimestamp
  minHeight := head.minHeight
  minPosHeight := head.minPosHeight
  blockPrefixSize := head.blockPrefixSize
  blockCount := UInt32.ofNat head.blockCount
  transactionBlocks := counts.1
  transactionItems := counts.2

end VerifyHead

/-- The rest of the verifier. -/
def verifyRecords (crates : Crates T) (data : Bytes) (head : VerifyHead) : Result VerifyReport := do
  let blockRecords ← head.records crates.toProfile data
  let counts ← countTransactions crates data blockRecords head.txSegmentOffset
  pure (head.report data counts)

theorem verifyPacket_eq_bind (crates : Crates T) (data : Bytes) :
    verifyPacket crates data = readVerifyHead data >>= verifyRecords crates data := by
  simp only [verifyPacket, readVerifyHead, bind_assoc, pure_bind]
  rfl

/-- The verifier checks the end of the bitmap. -/
theorem graceful_readVerifyHead (data : Bytes) : Graceful (readVerifyHead data) := by
  unfold readVerifyHead
  refine (graceful_step (graceful_ensure _ _)).mpr fun _ hlen => ?_
  have hlen : 125 ≤ data.length := ensure_eq_ok.mp hlen
  refine (graceful_step (graceful_readU64Le _ _)).mpr fun _ _ => ?_
  refine (graceful_step (graceful_readU64Le _ _)).mpr fun _ _ => ?_
  refine (graceful_step (graceful_readU64Le _ _)).mpr fun _ _ => ?_
  refine (graceful_step (graceful_readU32Le _ _)).mpr fun _ _ => ?_
  refine (graceful_step (graceful_indexAt.mpr (by omega))).mpr fun _ _ => ?_
  refine (graceful_step (graceful_ensure _ _)).mpr fun _ _ => ?_
  refine (graceful_step (graceful_readOffsets _)).mpr fun offsets hoffsets => ?_
  refine (graceful_step (graceful_ensureOffsets _ _)).mpr fun _ hordered => ?_
  refine (graceful_step (graceful_ensure _ _)).mpr fun _ _ => ?_
  refine (graceful_step (graceful_ensure _ _)).mpr fun _ _ => ?_
  refine (graceful_step (graceful_ensure _ _)).mpr fun _ _ => ?_
  refine (graceful_step (graceful_readU32Le _ _)).mpr fun blockCount _ => ?_
  refine (graceful_step (graceful_ensure _ _)).mpr fun _ hbitmap => ?_
  rw [ensure_eq_ok] at hbitmap
  have hbody := (ensureOffsets_eq_ok hoffsets hordered (Nat.le_refl 6) (by decide)).2
  refine (graceful_step (graceful_slice.mpr (by omega))).mpr fun _ _ => ?_
  refine (graceful_step (graceful_okOr _ _)).mpr fun _ _ => ?_
  exact (graceful_step (graceful_ensure _ _)).mpr fun _ _ => graceful_ok _

/-- What the verifier has checked before the records. -/
structure VerifyHead.Sound (head : VerifyHead) (data : Bytes) : Prop where
  blockCount_lt : head.blockCount < UInt32.size
  length_bitmap : head.bitmap.length = (head.blockCount + 7) / 8
  prefixes_le : head.blockBodyOffset + head.blockCount * head.blockPrefixSize.toNat ≤
    head.txSegmentOffset
  txSegment_le : head.txSegmentOffset ≤ data.length

theorem sound_of_readVerifyHead {head : VerifyHead} (h : readVerifyHead data = .ok head) :
    head.Sound data := by
  simp only [readVerifyHead, Except.bind_eq_ok, Except.pure_def, Except.ok.injEq, ensure_eq_ok,
    okOr_eq_ok, checkedMul_eq_some] at h
  obtain ⟨-, -, _, -, _, -, _, -, _, -, n, -, -, -, offsets, hoffsets, _, hordered, -, -, -, -, -, -,
    blockCount, -, -, -, bitmap, hbitmap, _, ⟨-, rfl⟩, -, hprefixes, rfl⟩ := h
  constructor
  · exact blockCount.toNat_lt
  · exact length_of_slice hbitmap
  · exact hprefixes
  · exact (ensureOffsets_eq_ok hoffsets hordered (Nat.le_refl 7) (by decide)).2

/-- The payload of a record fits, and so does its number of items on top of those counted. -/
def CountFits (crates : Crates T) (data : Bytes) (txSegmentOffset : ℕ) (items : UInt32)
    (record : Bytes) : Prop :=
  45 ≤ record.length →
  ∀ flags, indexAt record 44 = .ok flags → flags &&& flagHasTransactions ≠ 0 →
  ∀ txOffsetUnits, skipToTxOffset record = .ok txOffsetUnits →
    StoredFits data txSegmentOffset txOffsetUnits.toNat ∧
    ∀ decoded, readTxPayload crates data txSegmentOffset txOffsetUnits.toNat flags = .ok decoded →
    ∀ count, passOn (crates.rlp.itemCount decoded) = .ok count →
      items.toNat + (UInt32.ofNat count).toNat < UInt32.size

theorem graceful_countRecord (hchecked : crates.overflowChecks = true) {txSegmentOffset : ℕ}
    {counts : UInt32 × UInt32} {record : Bytes} (hblocks : counts.1.toNat + 1 < UInt32.size) :
    Graceful (countRecord crates data txSegmentOffset counts record) ↔
      CountFits crates data txSegmentOffset counts.2 record := by
  unfold countRecord CountFits
  rw [graceful_step (graceful_ensure _ _)]
  simp only [ensure_eq_ok, forall_const]
  refine forall_congr' fun hlen => ?_
  refine (graceful_step (graceful_indexAt.mpr (by omega))).trans <| forall₂_congr fun flags _ => ?_
  split
  case isTrue hflag => exact iff_of_true (graceful_ok _) fun h => absurd hflag h
  case isFalse hflag =>
    have hone : counts.1.toNat + (1 : UInt32).toNat < UInt32.size := hblocks
    rw [graceful_addU32_bind hchecked, and_iff_right hone, forall_prop_of_true hflag]
    refine (graceful_step (graceful_skipToTxOffset _)).trans <| forall₂_congr fun units _ => ?_
    rw [graceful_bind, graceful_readTxPayload hchecked]
    refine and_congr_right fun _ => forall₂_congr fun decoded _ => ?_
    rw [graceful_step (graceful_context.mpr (graceful_passOn _))]
    simp only [context_eq_ok]
    refine forall₂_congr fun count _ => ?_
    rw [graceful_addU32_bind hchecked]
    exact and_iff_left (graceful_ok _)

/-- There are no more blocks with transactions than blocks. -/
theorem transactionBlocks_le {txSegmentOffset : ℕ} {records : List Bytes}
    {counts counts' : UInt32 × UInt32}
    (h : records.foldlM (countRecord crates data txSegmentOffset) counts = .ok counts') :
    counts'.1.toNat ≤ counts.1.toNat + records.length := by
  induction records generalizing counts with
  | nil =>
    obtain rfl := Except.ok.inj h
    exact Nat.le_refl _
  | cons record records ih =>
    rw [List.foldlM_cons, Except.bind_eq_ok] at h
    obtain ⟨middle, hround, hrest⟩ := h
    have hlen : 45 ≤ record.length := by
      obtain ⟨_, hlen, -⟩ := Except.bind_eq_ok.mp hround
      exact ensure_eq_ok.mp hlen
    have hmiddle : middle.1.toNat ≤ counts.1.toNat + 1 := by
      have hflags : record[44]? = some record[44] := List.getElem?_eq_getElem (by omega)
      rcases countRecord_eq_ok hflags hround with ⟨-, rfl⟩ | ⟨-, _, _, _, -, -, -, rfl⟩
      · exact Nat.le_succ _
      · rw [UInt32.toNat_add]
        exact Nat.mod_le _ _
    have hlast := ih hrest
    rw [List.length_cons]
    omega

/-- The records of the verifier fit, and so does what it counts. -/
def VerifierFits (crates : Crates T) (data : Bytes) : Prop :=
  ∀ head, readVerifyHead data = .ok head →
    OverflowsFit (reassembleRecord crates.toProfile data head.bitmap head.blockBodyOffset
        head.txSegmentOffset head.blockPrefixSize.toNat) data head.bitmap
      (head.blockBodyOffset + head.blockCount * head.blockPrefixSize.toNat) head.blockCount ∧
    ∀ records, head.records crates.toProfile data = .ok records →
      ∀ done record rest counts, records = done ++ record :: rest →
        countTransactions crates data done head.txSegmentOffset = .ok counts →
          CountFits crates data head.txSegmentOffset counts.2 record

theorem graceful_verifyPacket (hchecked : crates.overflowChecks = true) :
    Graceful (verifyPacket crates data) ↔ VerifierFits crates data := by
  rw [verifyPacket_eq_bind, graceful_step (graceful_readVerifyHead data)]
  refine forall₂_congr fun head hhead => ?_
  have hsound := sound_of_readVerifyHead hhead
  unfold verifyRecords
  refine graceful_bind.trans (and_congr ?_ (forall₂_congr fun records hrecords => ?_))
  · refine graceful_bind.trans ((and_iff_left fun _ _ => ?_).trans ?_)
    · exact (graceful_step (graceful_ensure _ _)).mpr fun _ _ => graceful_ok _
    · exact graceful_records (fun i overflowOffset hbody hbit =>
        graceful_reassembleRecord hchecked hbody hbit hsound.txSegment_le) hsound.prefixes_le
        hsound.length_bitmap hsound.txSegment_le
  · have hcount : records.length = head.blockCount := by
      simp only [VerifyHead.records, collectBlockRecords, Except.bind_eq_ok, Except.pure_def,
        Except.ok.injEq, Prod.exists, mapM_run_eq_ok] at hrecords
      obtain ⟨_, stop, hrounds, -, -, rfl⟩ := hrecords
      rw [hrounds.length_eq, List.length_range]
    refine graceful_bind.trans ((and_iff_left fun _ _ => graceful_ok _).trans ?_)
    unfold countTransactions
    rw [graceful_foldlM]
    refine forall_congr' fun done => forall_congr' fun record => forall_congr' fun rest =>
      forall₃_congr fun counts hrecords hcounts => graceful_countRecord hchecked ?_
    have hle := transactionBlocks_le hcounts
    have hlt := hsound.blockCount_lt
    rw [← hcount, hrecords, List.length_append, List.length_cons] at hlt
    have hzero : ((0, 0) : UInt32 × UInt32).1.toNat = 0 := rfl
    omega

/-! ## Any input -/

/-- The crates, in a build with overflow checks, where an operation that does not fit its word shows. -/
def Crates.checked (crates : Crates T) : Crates T := { crates with overflowChecks := true }

/-- **The parsers are safe** exactly on the inputs whose reads and sums fit: no index is out of range
and no word operation overflows. -/
theorem parserSafety_iff (crates : Crates T) (data : Bytes) (posReferenceEnableHeight : UInt64) :
    (Graceful (decodePacketExt crates.checked data posReferenceEnableHeight) ∧
        Graceful (verifyPacket crates.checked data)) ↔
      DecoderFits crates.checked data posReferenceEnableHeight ∧
        VerifierFits crates.checked data :=
  and_congr (graceful_decodePacketExt rfl) (graceful_verifyPacket rfl)

/-- A packet that ends after its block count. -/
def bitmapBeyondEnd : Bytes :=
  List.replicate 92 0 ++ [64] ++ (List.replicate 8 [125, 0, 0, 0]).flatten ++ [1, 0, 0, 0]

/-- The bitmap of its one block lies behind its end. -/
theorem not_parserSafety_bitmapBeyondEnd :
    ¬ ∀ (data : Bytes) (posReferenceEnableHeight : UInt64),
      Graceful (decodePacketExt plainCrates.checked data posReferenceEnableHeight) ∧
        Graceful (verifyPacket plainCrates.checked data) :=
  fun h => absurd (h bitmapBeyondEnd 0) (by decide +kernel)

end Cfxpack
