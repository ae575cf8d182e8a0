import CfxMinimalExecution.Cfxpack.BlockRecords

/-!
# The header and the tables are read back

## Main definitions

* `HeadReads data input offsets`: what the decoder makes of the header and of the tables

## Main results

* `decodeAddresses_addressTable`, `decodePosEntries_posTable`, `decodeU256Table_append`,
  `decodeSenderBaseNonces_senderTable`: the tables are read back
* `IsEncoding.exists_offsets`: the head and the block area of what the encoder assembles
-/

namespace Cfxpack

variable {T : PrimitiveTypes} {crates : Crates T}

/-! ## Entries of one length -/

/-- The chunks of entries of one length are the entries. -/
theorem chunksExact_flatMap {α β : Type} {f : α → List β} {n : ℕ} (hf : ∀ a, (f a).length = n)
    (hn : 0 < n) (l : List α) : chunksExact n (l.flatMap f) = l.map f := by
  have hlen := length_flatMap_of_length hf l
  unfold chunksExact
  rw [hlen, Nat.mul_div_cancel _ hn]
  apply List.ext_getElem
  · simp
  · intro i hi hi'
    have hi : i < l.length := by simpa using hi
    rw [List.getElem_map, List.getElem_map, List.getElem_range, drop_flatMap_of_length hf,
      List.drop_eq_getElem_cons hi, List.flatMap_cons]
    exact List.take_left' (hf _)

theorem map_eq_self {α : Type} {f : α → α} {l : List α} (h : ∀ a, f a = a) : l.map f = l := by
  rw [List.map_congr_left fun a _ => h a, List.map_id']

theorem decodeAddresses_addressTable (input : Packet T) :
    decodeAddresses (addressTable input) = .ok input.addresses := by
  have hlen := length_flatMap_of_length Address.length_asBytes input.addresses
  have hmod : (addressTable input).length % 20 = 0 := by
    rw [addressTable, hlen]
    exact Nat.mul_mod_left _ _
  have hchunks := chunksExact_flatMap Address.length_asBytes (by omega) input.addresses
  rw [decodeAddresses, ensure_of hmod, Except.ok_bind, addressTable, hchunks, List.map_map]
  exact congrArg Except.ok (map_eq_self Address.fromSlice_asBytes)

theorem decodePosEntries_posTable (input : Packet T) :
    decodePosEntries (posTable input) = .ok input.posEntries := by
  have hentry : ∀ entry : PosLookupEntry,
      (entry.hash.asBytes ++ leBytes 2 entry.heightOffset.toNat).length = 34 := fun entry => by simp
  have hlen := length_flatMap_of_length hentry input.posEntries
  have hmod : (posTable input).length % 34 = 0 := by
    rw [posTable, hlen]
    exact Nat.mul_mod_left _ _
  have hchunks := chunksExact_flatMap hentry (by omega) input.posEntries
  rw [decodePosEntries, ensure_of hmod, Except.ok_bind, posTable, hchunks, List.map_map]
  refine congrArg Except.ok (map_eq_self fun entry => ?_)
  have hhash : entry.hash.asBytes.length = 32 := H256.length_asBytes _
  simp [List.take_left' hhash, List.drop_left' hhash]

theorem fromBigEndian_u256ToBe (value : U256) : U256.fromBigEndian (u256ToBe value) = value := by
  refine fromBigEndian_of_beNat ?_
  rw [u256ToBe, beNat_beBytes]
  exact value.isLt.trans_le (by norm_num)

@[simp] theorem length_u256ToBe (value : U256) : (u256ToBe value).length = 32 := length_beBytes _ _

theorem length_u256Table (values : List U256) : (u256Table values).length = values.length * 32 :=
  length_flatMap_of_length length_u256ToBe values

/-- **A table of numbers is read back**, with the zeros that align what follows it. -/
theorem decodeU256Table_append (values : List U256) {k : ℕ} (hk : k < 32) :
    decodeU256Table (u256Table values ++ List.replicate k 0) = .ok values := by
  have hlen := length_u256Table values
  have htotal : (u256Table values ++ List.replicate k 0).length = values.length * 32 + k := by
    rw [List.length_append, List.length_replicate, hlen]
  have hmod : (values.length * 32 + k) % 32 = k := by omega
  have htrim : trimZeroPadding (u256Table values ++ List.replicate k 0) 32 =
      .ok (u256Table values) := by
    unfold trimZeroPadding
    simp only [htotal, hmod, Nat.add_sub_cancel]
    split
    case isTrue h => simp [h]
    case isFalse =>
      rw [List.drop_left' hlen, List.take_left' hlen, ensure_of (by simp)]
      rfl
  have hzero : (u256Table values).length % 32 = 0 := by omega
  have hchunks := chunksExact_flatMap length_u256ToBe (by omega) values
  rw [decodeU256Table, htrim, Except.ok_bind, ensure_of hzero, Except.ok_bind, u256Table, hchunks,
    List.map_map]
  exact congrArg Except.ok (map_eq_self fromBigEndian_u256ToBe)

/-! ## The base nonces -/

/-- The rounds of the loop end with the data, and there are enough of them. -/
theorem run_senderBaseNonceRounds {data : Bytes} {entries : List SenderBaseNonce}
    {offset rounds : ℕ} (hrounds : entries.length ≤ rounds)
    (h : data.drop offset = entries.flatMap fun entry =>
      uleb128 entry.senderIndex ++ uleb128 entry.baseNonce) :
    ∃ stop, (senderBaseNonceRounds data rounds).run offset = .ok (entries, stop) := by
  induction entries generalizing offset rounds with
  | nil =>
    have hend : ¬ offset < data.length := by
      rw [List.flatMap_nil, List.drop_eq_nil_iff] at h
      omega
    cases rounds with
    | zero => exact ⟨offset, rfl⟩
    | succ rounds => exact ⟨offset, by simp [senderBaseNonceRounds, hend]⟩
  | cons entry entries ih =>
    rw [List.length_cons] at hrounds
    obtain ⟨rounds, rfl⟩ : ∃ k, rounds = k + 1 := ⟨rounds - 1, by omega⟩
    rw [List.flatMap_cons, List.append_assoc] at h
    have hlt : offset < data.length := by
      have hle := add_length_le_of_drop_eq h (uleb128_ne_nil _)
      have hpos := List.length_pos_of_ne_nil (uleb128_ne_nil entry.senderIndex)
      omega
    have hindex := reads_uleb128 data entry.senderIndex offset _ h
    have hdrop := drop_add_of_drop_eq h
    have hnonce := reads_uleb128 data entry.baseNonce _ _ hdrop
    obtain ⟨stop, hrest⟩ := ih (Nat.le_of_succ_le_succ hrounds) (drop_add_of_drop_eq hdrop)
    exact ⟨stop, by simp [senderBaseNonceRounds, hlt, hindex, hnonce, hrest]⟩

theorem decodeSenderBaseNonces_senderTable (input : Packet T) :
    decodeSenderBaseNonces (senderTable input) = .ok input.senderBaseNonces := by
  have hentries : ∀ entries : List SenderBaseNonce, entries.length ≤ (entries.flatMap fun entry =>
      uleb128 entry.senderIndex ++ uleb128 entry.baseNonce).length := by
    intro entries
    induction entries with
    | nil => simp
    | cons entry entries ih =>
      have hpos := List.length_pos_of_ne_nil (uleb128_ne_nil entry.senderIndex)
      rw [List.flatMap_cons, List.length_append, List.length_append, List.length_cons]
      omega
  obtain ⟨stop, hrun⟩ := run_senderBaseNonceRounds (hentries input.senderBaseNonces) List.drop_zero
  rw [decodeSenderBaseNonces, StateT.run'_eq, senderTable, hrun]
  rfl

/-! ## The head of a packet -/

/-- What the decoder makes of the header and of the tables. The base of the PoS heights is the only
word that is cut. -/
structure HeadReads (data : Bytes) (input : Packet T) (offsets : List ℕ) : Prop where
  prevLastHash : slice data 0 32 = .ok input.prevLastHash.asBytes
  prevLastDeferredStateRoot : slice data 32 64 = .ok input.prevLastDeferredStateRoot.asBytes
  firstBlockNumber : readU64Le data 64 = .ok input.firstBlockNumber
  minTimestamp : readU64Le data 72 = .ok input.minTimestamp
  minHeight : readU64Le data 80 = .ok input.minHeight
  minPosHeight : readU32Le data 88 = .ok input.minPosHeight.toUInt32
  addresses : ∃ x, slice data (offsets.getD 0 0) (offsets.getD 1 0) = .ok x ∧
    decodeAddresses x = .ok input.addresses
  posEntries : ∃ x, slice data (offsets.getD 1 0) (offsets.getD 2 0) = .ok x ∧
    decodePosEntries x = .ok input.posEntries
  difficulties : ∃ x, slice data (offsets.getD 2 0) (offsets.getD 3 0) = .ok x ∧
    decodeU256Table x = .ok input.difficulties
  senderBaseNonces : ∃ x, slice data (offsets.getD 3 0) (offsets.getD 4 0) = .ok x ∧
    decodeSenderBaseNonces x = .ok input.senderBaseNonces
  gasPrices : ∃ x, slice data (offsets.getD 4 0) (offsets.getD 5 0) = .ok x ∧
    decodeU256Table x = .ok input.gasPrices
  addresses_lt : input.addresses.length < UInt64.size
  difficulties_lt : input.difficulties.length < UInt64.size
  gasPrices_lt : input.gasPrices.length < UInt64.size

/-- **The head of what the encoder assembles.** -/
theorem headReads_of_assemblePacket {input : Packet T} {n blockCount : ℕ}
    {extensionBitmap blockBody txSegment b : Bytes}
    (h : assemblePacket input n blockCount extensionBitmap blockBody txSegment = .ok b) :
    HeadReads b input ((List.range headerOffsetCount).map (sectionOffset headerLen
      (packetSections input blockCount extensionBitmap blockBody txSegment))) := by
  have hpacket := isPacket_of_assemblePacket h
  generalize hsections :
    packetSections input blockCount extensionBitmap blockBody txSegment = sections at *
  -- the tables stand in the first five sections
  have hget : ∀ i x, (packetSections input blockCount extensionBitmap blockBody txSegment)[i]? =
      some x → i < 7 → slice b
        (((List.range headerOffsetCount).map (sectionOffset headerLen sections)).getD i 0)
        (((List.range headerOffsetCount).map (sectionOffset headerLen sections)).getD (i + 1) 0) =
          .ok x ∧ x.length < UInt32.size := by
    intro i x hx hi
    rw [hsections] at hx
    have hcount : headerOffsetCount = 8 := rfl
    have hlt := hpacket.offset_lt (i + 1) (by omega)
    rw [sectionOffset_succ_of_getElem? hx] at hlt
    rw [getD_offsets sections (by omega), getD_offsets sections (by omega)]
    exact ⟨hpacket.slice_offset hx, by omega⟩
  -- the bytes of each section, which end before the next one starts
  obtain ⟨haddresses, haddressesLt⟩ := hget 0 (addressTable input) rfl (by omega)
  obtain ⟨hposEntries, -⟩ := hget 1 (posTable input) rfl (by omega)
  obtain ⟨hdifficulties, hdifficultiesLt⟩ := hget 2 (u256Table input.difficulties) rfl (by omega)
  obtain ⟨hsenders, -⟩ := hget 3 (senderTable input) rfl (by omega)
  obtain ⟨hgasPrices, hgasPricesLt⟩ := hget 4 (gasPriceSection input) rfl (by omega)
  -- the padding of the gas prices is too short for one more of them
  have hword : UInt32.size < UInt64.size := by decide
  have hpad := Nat.mod_lt (32 - (gasPriceOffset input + (u256Table input.gasPrices).length) % 32)
    (show 0 < 32 by omega)
  rw [addressTable, length_flatMap_of_length Address.length_asBytes] at haddressesLt
  rw [length_u256Table] at hdifficultiesLt
  rw [gasPriceSection, List.length_append, length_u256Table] at hgasPricesLt
  -- the words of the header, each after those before it
  obtain ⟨rest, hhash⟩ : ∃ rest, b.drop 0 = input.prevLastHash.asBytes ++
      (input.prevLastDeferredStateRoot.asBytes ++ (leBytes 8 input.firstBlockNumber.toNat ++
        (leBytes 8 input.minTimestamp.toNat ++ (leBytes 8 input.minHeight.toNat ++
          (leBytes 4 input.minPosHeight.toUInt32.toNat ++ rest))))) := by
    obtain ⟨rest, hrest⟩ := @IsPacket.drop_fixed _ _ _ hpacket [] (fixedHeader input n) []
      (by rw [List.nil_append, List.append_nil])
    rw [List.length_nil] at hrest
    exact ⟨[UInt8.ofNat n] ++ rest, by rw [hrest, fixedHeader]; simp only [List.append_assoc]⟩
  have hroot := drop_add_of_drop_eq hhash
  rw [H256.length_asBytes] at hroot
  have hnumber := drop_add_of_drop_eq hroot
  rw [H256.length_asBytes] at hnumber
  have htimestamp := drop_add_of_drop_eq hnumber
  rw [length_leBytes] at htimestamp
  have hheight := drop_add_of_drop_eq htimestamp
  rw [length_leBytes] at hheight
  have hposHeight := drop_add_of_drop_eq hheight
  rw [length_leBytes] at hposHeight
  constructor
  · exact slice_of_drop_eq hhash (H256.length_asBytes _) (by omega)
  · exact slice_of_drop_eq hroot (H256.length_asBytes _) (by omega)
  · exact readU64Le_of_drop hnumber
  · exact readU64Le_of_drop htimestamp
  · exact readU64Le_of_drop hheight
  · exact readU32Le_of_drop hposHeight
  · exact ⟨_, haddresses, decodeAddresses_addressTable input⟩
  · exact ⟨_, hposEntries, decodePosEntries_posTable input⟩
  · refine ⟨_, hdifficulties, ?_⟩
    rw [← List.append_nil (u256Table _)]
    exact decodeU256Table_append input.difficulties (show 0 < 32 by omega)
  · exact ⟨_, hsenders, decodeSenderBaseNonces_senderTable input⟩
  · exact ⟨_, hgasPrices, decodeU256Table_append input.gasPrices hpad⟩
  · omega
  · omega
  · omega

theorem IsEncoding.exists_offsets {input : Packet T} {b : Bytes} {txPayloads records : List Bytes}
    {txSegment : Bytes} (h : IsEncoding crates input b txPayloads records txSegment) :
    ∃ offsets, HeadReads b input offsets ∧
      BlockArea b (choosePrefixSize records) records txSegment offsets :=
  ⟨_, headReads_of_assemblePacket h.assembled,
    blockArea_of_assemblePacket (choosePrefixSize_mem records) h.assembled⟩

end Cfxpack
