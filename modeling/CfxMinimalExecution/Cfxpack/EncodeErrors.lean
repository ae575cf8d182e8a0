import CfxMinimalExecution.Cfxpack.Layout
import CfxMinimalExecution.Cfxpack.PayloadItems

/-!
# The errors of the encoder

## Main definitions

* `Encodable`: everything that the encoder looks up is there
* `RangeError`: a number is too large for its encoding, an offset for its word, or a payload for its
  compression

## Main results

* `encodePacket_eq_error`: nothing else fails for an encodable packet
-/

namespace Cfxpack

variable {T : PrimitiveTypes} {crates : Crates T}

/-! ## Numbers -/

/-- A number has as many bits as it needs. -/
theorem two_pow_le_of_bitLen {bytes : Bytes} {n : ℕ} (hhead : bytes.head? ≠ some 0)
    (h : n < bitLen bytes) : 2 ^ n ≤ beNat bytes := by
  cases bytes with
  | nil => simp [bitLen] at h
  | cons first rest =>
    have hfirst : first ≠ 0 := by simpa using hhead
    have hnat : first.toNat ≠ 0 := fun hzero => hfirst (UInt8.toNat_inj.mp hzero)
    have hlog : first.toNat.log2 < 8 := (Nat.log2_lt hnat).mpr first.toNat_lt
    have hbits : n ≤ rest.length * 8 + first.toNat.log2 := by
      simp only [bitLen, leadingZeros, if_neg hfirst] at h
      omega
    have hdigits : 256 ^ rest.length = 2 ^ (rest.length * 8) := by
      rw [Nat.mul_comm, Nat.pow_mul]
    calc 2 ^ n ≤ 2 ^ (rest.length * 8 + first.toNat.log2) := Nat.pow_le_pow_right (by omega) hbits
      _ = 256 ^ rest.length * 2 ^ first.toNat.log2 := by rw [Nat.pow_add, hdigits]
      _ ≤ 256 ^ rest.length * first.toNat := Nat.mul_le_mul_left _ (Nat.log2_self_le hnat)
      _ ≤ beNat (first :: rest) := by
        rw [beNat_cons]
        exact Nat.le_add_left _ _

/-- The two high bits of a payload are free. -/
theorem payload_bits {compact : Bytes} {totalLen maxBits : ℕ} {first : UInt8} {rest : Bytes}
    (hhead : compact.head? ≠ some 0) (hmax : maxBits + 2 = 8 * totalLen)
    (hbits : bitLen compact ≤ maxBits)
    (hpayload : List.replicate (totalLen - compact.length) 0 ++ compact = first :: rest) :
    first &&& 0xc0 = 0 := by
  have hlt : first.toNat < 64 := by
    rcases Nat.eq_zero_or_pos (totalLen - compact.length) with hzero | hpos
    · rw [hzero, List.replicate_zero, List.nil_append] at hpayload
      subst hpayload
      have hfirst : first ≠ 0 := by simpa using hhead
      have hnat : first.toNat ≠ 0 := fun hzero => hfirst (UInt8.toNat_inj.mp hzero)
      simp only [bitLen, leadingZeros, if_neg hfirst, List.length_cons] at hbits hzero
      have hlog : first.toNat.log2 < 6 := by omega
      exact (Nat.log2_lt hnat).mp hlog
    · obtain ⟨k, hk⟩ := Nat.exists_eq_succ_of_ne_zero hpos.ne'
      rw [hk, List.replicate_succ, List.cons_append] at hpayload
      obtain ⟨rfl, -⟩ := List.cons.inj hpayload
      decide
  have hall : ∀ b : Fin 64, UInt8.ofNat b &&& 0xc0 = 0 := by decide
  simpa using hall ⟨first.toNat, hlt⟩

/-- A number fails to be put in a mode only when no mode has room for it. -/
theorem putModes_eq_error {bits exceeds : String} {compact : Bytes} {modes : List (UInt8 × ℕ × ℕ)}
    {e : Failure} (hmodes : ModesFit modes) (hhead : compact.head? ≠ some 0)
    (h : putModes bits exceeds compact modes = .error e) :
    e = .error exceeds ∧ ∀ m ∈ modes, m.2.2 < bitLen compact := by
  induction modes with
  | nil => exact ⟨(Except.error.inj h).symm, fun m hm => by cases hm⟩
  | cons m modes ih =>
    obtain ⟨mode, totalLen, maxBits⟩ := m
    obtain ⟨-, hpos, hmax⟩ := hmodes _ List.mem_cons_self
    rw [putModes] at h
    split at h
    case isTrue hbits =>
      -- a mode that has room does not fail
      have hlen : compact.length ≤ totalLen :=
        length_mul_lt_of_bitLen_le hhead (by simp only at hmax; omega)
      rcases hp : List.replicate (totalLen - compact.length) 0 ++ compact with _ | ⟨first, rest⟩
      · have htotal := congrArg List.length hp
        simp only [List.length_append, List.length_replicate, List.length_nil] at htotal hpos
        omega
      · have hzero := payload_bits hhead hmax hbits hp
        have hfirst : indexAt (first :: rest) 0 = .ok first := rfl
        simp [hp, hfirst, ensure_of hzero] at h
    case isFalse hbits =>
      obtain ⟨he, hrest⟩ := ih (fun m hm => hmodes m (List.mem_cons_of_mem _ hm)) h
      refine ⟨he, fun m hm => ?_⟩
      rcases List.mem_cons.mp hm with rfl | hm
      · exact Nat.not_le.mp hbits
      · exact hrest m hm

theorem putQc8_eq_error {out : Bytes} {value : U256} {e : Failure} (h : putQc8 out value = .error e) :
    e = .error s!"qc8 value exceeds 86 bits: {value.toNat}" ∧ 2 ^ 86 ≤ value.toNat := by
  simp only [putQc8, Except.bind_eq_error, Except.pure_def, reduceCtorEq, and_false, exists_false,
    or_false] at h
  obtain ⟨he, hbits⟩ := putModes_eq_error (by simp [ModesFit]) (head?_compactBytes value) h
  refine ⟨he, ?_⟩
  have hlast := hbits (3, 11, 86) (by simp)
  rw [← beNat_compactBytes]
  exact two_pow_le_of_bitLen (head?_compactBytes value) hlast

theorem putQc5e_eq_error {out : Bytes} {value : U256} {enumValue : Option UInt8} {e : Failure}
    (henum : ∀ v ∈ enumValue, v < 64) (h : putQc5e out value enumValue = .error e) :
    e = .error s!"qc5e value exceeds 54 bits: {value.toNat}" ∧ 2 ^ 54 ≤ value.toNat := by
  cases enumValue with
  | some v =>
    rw [putQc5e, ensure_of (henum v rfl)] at h
    cases h
  | none =>
    simp only [putQc5e, Except.bind_eq_error, Except.pure_def, reduceCtorEq, and_false,
      exists_false, or_false] at h
    obtain ⟨he, hbits⟩ := putModes_eq_error (by simp [ModesFit]) (head?_compactBytes value) h
    refine ⟨he, ?_⟩
    have hlast := hbits (3, 7, 54) (by simp)
    rw [← beNat_compactBytes]
    exact two_pow_le_of_bitLen (head?_compactBytes value) hlast

theorem qc5eGasLimitEnum_lt (value : U256) : ∀ v ∈ qc5eGasLimitEnum value, v < 64 := by
  unfold qc5eGasLimitEnum
  split_ifs <;> simp

theorem qc5eBasePriceEnum_lt (value : U256) (espace : Bool) :
    ∀ v ∈ qc5eBasePriceEnum value espace, v < 64 := by
  simp only [qc5eBasePriceEnum]
  split_ifs <;> simp

/-! ## Packets -/

/-- Everything that the encoder looks up is there. -/
structure Encodable (crates : Crates T) (input : Packet T) : Prop where
  valid : ValidInput input
  author : ∀ block ∈ input.blocks, block.author ∈ input.addresses
  sender : ∀ block ∈ input.blocks, ∀ tx ∈ block.transactions, tx.sender ∈ input.addresses
  target : ∀ block ∈ input.blocks, ∀ tx ∈ block.transactions, ∀ address,
    (crates.primitives.fields tx.unsigned).action = .call address → address ∈ input.addresses
  difficulty : ∀ block ∈ input.blocks, block.difficulty ∈ input.difficulties
  minTimestamp_le : ∀ block ∈ input.blocks, input.minTimestamp ≤ block.timestamp
  minHeight_le : ∀ block ∈ input.blocks, input.minHeight ≤ block.height
  transactionRefs : ∀ block ∈ input.blocks, block.transactionRefs = []

/-- A number of a block is too large for its encoding. -/
def BlockRangeError (block : Block T) (e : Failure) : Prop :=
  (e = .error s!"qc8 value exceeds 86 bits: {block.baseReward.toNat}" ∧
      2 ^ 86 ≤ block.baseReward.toNat) ∨
    ∃ value ∈ [block.gasLimit, block.basePriceCore, block.basePriceEspace],
      e = .error s!"qc5e value exceeds 54 bits: {value.toNat}" ∧ 2 ^ 54 ≤ value.toNat

/-- The payloads of the blocks of a packet. -/
def txPayloadsOf (crates : Crates T) (input : Packet T) : Result (List Bytes) := do
  let (txPayloads, _) ← (input.blocks.mapM (encodeTxPayload crates
    (Assoc.indexOf input.addresses) (Assoc.indexOf input.gasPrices) (senderNonceIndex input))).run []
  pure txPayloads

/-- The offsets of a packet with these records, in the order of the header. -/
def offsetsOf (input : Packet T) (records : List Bytes) (txSegment : Bytes) : List ℕ :=
  let (blockBody, extensionBitmap) := packBlockBody records (choosePrefixSize records)
  (List.range headerOffsetCount).map (sectionOffset headerLen
    (packetSections input records.length extensionBitmap blockBody txSegment))

/-- An offset of the packet is no word of 32 bits. -/
def OffsetRangeError (crates : Crates T) (input : Packet T) (e : Failure) : Prop :=
  e = .error "packet offset exceeds u32" ∧ ∃ records txSegment,
    encodeBlocks crates input (Assoc.indexOf input.addresses) (Assoc.indexOf input.gasPrices)
      (senderNonceIndex input) (Assoc.indexOf input.difficulties) = .ok (records, txSegment) ∧
      ∃ offset ∈ offsetsOf input records txSegment, UInt32.size ≤ offset

/-- A payload that has to be compressed is refused. -/
def PayloadRangeError (crates : Crates T) (txPayload : Bytes) (e : Failure) : Prop :=
  e = .error "snappy-compress tx payload" ∧ 512 < txPayload.length ∧
    ∃ message, crates.snap.compressVec txPayload = .error message

/-- A number of the packet is too large for its encoding, one of its offsets for its word, or one of
its payloads for its compression. -/
def RangeError (crates : Crates T) (input : Packet T) (e : Failure) : Prop :=
  OffsetRangeError crates input e ∨
    (∃ txPayloads, txPayloadsOf crates input = .ok txPayloads ∧
      ∃ txPayload ∈ txPayloads, PayloadRangeError crates txPayload e) ∨
    ∃ block ∈ input.blocks, BlockRangeError block e

/-! ## Payloads -/

/-- A loop whose rounds all return. -/
theorem exists_rounds {σ α β : Type} {f : α → StateT σ Result β} {l : List α}
    (h : ∀ a ∈ l, ∀ s, ∃ b s', (f a).run s = .ok (b, s')) (s : σ) : ∃ bs s', Rounds f s l bs s' := by
  induction l generalizing s with
  | nil => exact ⟨[], s, .nil s⟩
  | cons a l ih =>
    obtain ⟨b, s', hround⟩ := h a List.mem_cons_self s
    obtain ⟨bs, s'', hrest⟩ := ih (fun a' ha' => h a' (List.mem_cons_of_mem a ha')) s'
    exact ⟨b :: bs, s'', .cons hround hrest⟩

/-- The layout fails only on an offset. -/
theorem assemblePacket_eq_error {input : Packet T} {prefixSize blockCount : ℕ}
    {extensionBitmap blockBody txSegment : Bytes} {e : Failure}
    (h : assemblePacket input prefixSize blockCount extensionBitmap blockBody txSegment = .error e) :
    e = .error "packet offset exceeds u32" ∧ ∃ i < headerOffsetCount,
      UInt32.size ≤ sectionOffset headerLen
        (packetSections input blockCount extensionBitmap blockBody txSegment) i := by
  constructor
  · have hoffset : ∀ offset, putOffset offset = .error e →
        e = .error "packet offset exceeds u32" := by
      intro offset hput
      unfold putOffset at hput
      split at hput
      · cases hput
      · exact (Except.error.inj hput).symm
    unfold assemblePacket at h
    simp only [Except.bind_eq_error, ensure_eq_error] at h
    rcases h with ⟨hcount, -⟩ | ⟨_, -, hoffsets | ⟨_, -, hlast⟩⟩
    · exact absurd rfl hcount
    · obtain ⟨offset, -, hput⟩ := exists_of_mapM_eq_error hoffsets
      exact hoffset offset hput
    · cases hlast
  · by_contra hnone
    have hall : ∀ i < headerOffsetCount, sectionOffset headerLen
        (packetSections input blockCount extensionBitmap blockBody txSegment) i < UInt32.size :=
      fun i hi => Nat.lt_of_not_le fun hle => hnone ⟨i, hi, hle⟩
    -- words for all the offsets are a packet
    cases h.symm.trans (assemblePacket_eq_ok.mpr ⟨hall, rfl⟩)

namespace Encodable

variable {input : Packet T} (h : Encodable crates input) {block : Block T}

include h

theorem exists_txItem (hblock : block ∈ input.blocks) {entry : SignedTransaction T × ℕ}
    (hentry : entry ∈ block.transactions.zipIdx) (seenTxs : SeenTxs) :
    ∃ item seenTxs', IsTxItem crates block block.encodedRefs (Assoc.indexOf input.addresses)
      (Assoc.indexOf input.gasPrices) (senderNonceIndex input) seenTxs entry item seenTxs' := by
  have htx : entry.1 ∈ block.transactions := by
    obtain ⟨tx, i⟩ := entry
    exact List.mem_of_getElem? (List.mem_zipIdx_iff_getElem?.mp hentry)
  have hrefs : block.encodedRefs = none := by
    rw [Block.encodedRefs, h.transactionRefs block hblock, if_neg]
    exact fun hlen => List.not_mem_nil (List.eq_nil_of_length_eq_zero hlen.symm ▸ htx)
  rw [hrefs]
  cases hseen : seenTxs.get (crates.primitives.hash entry.1) with
  | some ref => exact ⟨_, _, .ref (congrArg Except.ok hseen)⟩
  | none =>
    obtain ⟨senderIndex, hsender⟩ := Assoc.exists_get_indexOf (h.sender block hblock _ htx)
    obtain ⟨action, haction⟩ : ∃ action : RlpItem T,
        actionItem (crates.primitives.fields entry.1.unsigned).action
          (Assoc.indexOf input.addresses) = some action := by
      cases haction : (crates.primitives.fields entry.1.unsigned).action with
      | create => exact ⟨_, rfl⟩
      | call address =>
        obtain ⟨index, hindex⟩ :=
          Assoc.exists_get_indexOf (h.target block hblock _ htx address haction)
        exact ⟨_, by rw [actionItem, hindex, Option.map_some]⟩
    exact ⟨_, _, .tx (congrArg Except.ok hseen) hsender haction⟩

/-- **A payload is encoded.** -/
theorem exists_txPayload (hblock : block ∈ input.blocks) (seenTxs : SeenTxs) :
    ∃ txPayload seenTxs', (encodeTxPayload crates (Assoc.indexOf input.addresses)
      (Assoc.indexOf input.gasPrices) (senderNonceIndex input) block).run seenTxs =
        .ok (txPayload, seenTxs') := by
  by_cases hbare : block.IsBare
  · exact ⟨_, _, encodeTxPayload_eq_ok.mpr (.inl ⟨hbare, rfl, rfl⟩)⟩
  · obtain ⟨streams, seenTxs', hrounds⟩ : ∃ streams seenTxs',
        Rounds (appendTransaction crates block block.encodedRefs (Assoc.indexOf input.addresses)
          (Assoc.indexOf input.gasPrices) (senderNonceIndex input)) seenTxs
            block.transactions.zipIdx streams seenTxs' := by
      refine exists_rounds (fun entry hentry s => ?_) seenTxs
      obtain ⟨item, s', hitem⟩ := h.exists_txItem hblock hentry s
      exact ⟨_, s', appendTransaction_eq_ok.mpr ⟨item, hitem, rfl⟩⟩
    obtain ⟨items, hitems, -⟩ := rounds_appendTransaction.mp hrounds
    exact ⟨_, _, encodeTxPayload_eq_ok.mpr (.inr ⟨hbare, items, hitems, rfl⟩)⟩

/-! ## Records -/

/-- A record fails only on a number. -/
theorem encodeBlockRecord_eq_error (hblock : block ∈ input.blocks) {flags : UInt8}
    {txSegmentOffset : UInt64} {e : Failure}
    (he : encodeBlockRecord input (Assoc.indexOf input.addresses)
      (Assoc.indexOf input.difficulties) block flags txSegmentOffset = .error e) :
    BlockRangeError block e := by
  obtain ⟨author, hauthor⟩ := Assoc.exists_get_indexOf (h.author block hblock)
  obtain ⟨difficulty, hdifficulty⟩ := Assoc.exists_get_indexOf (h.difficulty block hblock)
  have htimestamp : checkedSub block.timestamp input.minTimestamp = _ :=
    checkedSub_eq_some.mpr ⟨h.minTimestamp_le block hblock, rfl⟩
  have hheight : checkedSub block.height input.minHeight = _ :=
    checkedSub_eq_some.mpr ⟨h.minHeight_le block hblock, rfl⟩
  simp only [encodeBlockRecord, hauthor, hdifficulty, htimestamp, hheight, okOr, Except.ok_bind,
    Except.bind_eq_error] at he
  rcases he with hgas | ⟨_, -, hcore | ⟨_, -, hespace | ⟨_, -, hreward | ⟨_, -, hlast⟩⟩⟩⟩
  · exact .inr ⟨block.gasLimit, by simp, putQc5e_eq_error (qc5eGasLimitEnum_lt _) hgas⟩
  · exact .inr ⟨block.basePriceCore, by simp, putQc5e_eq_error (qc5eBasePriceEnum_lt _ _) hcore⟩
  · exact .inr ⟨block.basePriceEspace, by simp,
      putQc5e_eq_error (qc5eBasePriceEnum_lt _ _) hespace⟩
  · exact .inl (putQc8_eq_error hreward)
  · cases hpos : block.posView <;> rw [hpos] at hlast <;> cases hlast

/-- **What the encoder writes for a block** fails only on a range. -/
theorem encodeBlock_eq_error (hblock : block ∈ input.blocks) {txPayload segment : Bytes}
    {e : Failure} (he : (encodeBlock crates input (Assoc.indexOf input.addresses)
      (Assoc.indexOf input.difficulties) (block, txPayload)).run segment = .error e) :
    PayloadRangeError crates txPayload e ∨ BlockRangeError block e := by
  simp only [encodeBlock, StateT.run_bind, Except.bind_eq_error, Prod.exists] at he
  rcases he with hpayload | ⟨flags, txSegmentOffset, segment', -, hrecord⟩
  · refine .inl ?_
    unfold appendTxPayload at hpayload
    by_cases hempty : txPayload = []
    · simp [hempty] at hpayload
    · by_cases hlong : 512 < txPayload.length
      · cases hcompress : crates.snap.compressVec txPayload with
        | ok payload => simp [hempty, hlong, hcompress, context] at hpayload
        | error message =>
          simp [hempty, hlong, hcompress, context, passOn] at hpayload
          exact ⟨hpayload.symm, hlong, message, hcompress⟩
      · simp [hempty, hlong] at hpayload
  · cases hrun : encodeBlockRecord input (Assoc.indexOf input.addresses)
        (Assoc.indexOf input.difficulties) block flags txSegmentOffset with
    | ok record => simp [hrun] at hrecord
    | error e' =>
      obtain rfl : e' = e := by simpa [hrun] using hrecord
      exact .inr (h.encodeBlockRecord_eq_error hblock hrun)

/-! ## Packets -/

/-- **Nothing but a range fails.** -/
theorem encodePacket_eq_error {e : Failure} (he : encodePacket crates input = .error e) :
    RangeError crates input e := by
  obtain ⟨txPayloads, seenTxs, hpayloads⟩ := exists_rounds
    (fun block hblock seenTxs => h.exists_txPayload hblock seenTxs) ([] : SeenTxs)
  have hvalid : validateInput crates input = .ok () := validateInput_eq_ok.mpr h.valid
  have hrun := mapM_run_eq_ok.mpr hpayloads
  unfold encodePacket at he
  simp only [hvalid, Except.ok_bind, Except.bind_eq_error, Prod.exists] at he
  rcases he with hblocks | ⟨records, txSegment, hblocks, hassemble⟩
  · have hpayloadsOf : txPayloadsOf crates input = .ok txPayloads := by
      rw [txPayloadsOf, hrun]
      rfl
    unfold senderNonceIndex at hrun
    simp only [encodeBlocks, hrun, Except.ok_bind] at hblocks
    obtain ⟨done, ⟨block, txPayload⟩, rest, records, segment, hsplit, -, hround⟩ :=
      mapM_run_eq_error.mp hblocks
    have hentry : (block, txPayload) ∈ input.blocks.zip txPayloads := by
      rw [hsplit]
      simp
    have hmem := List.of_mem_zip hentry
    rcases h.encodeBlock_eq_error hmem.1 hround with hpayload | hblock
    · exact .inr (.inl ⟨txPayloads, hpayloadsOf, txPayload, hmem.2, hpayload⟩)
    · exact .inr (.inr ⟨block, hmem.1, hblock⟩)
  · obtain ⟨htext, i, hi, hsize⟩ := assemblePacket_eq_error hassemble
    exact .inl ⟨htext, records, txSegment, hblocks, _,
      List.mem_map_of_mem (List.mem_range.mpr hi), hsize⟩

end Encodable

end Cfxpack
