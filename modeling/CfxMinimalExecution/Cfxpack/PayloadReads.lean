import CfxMinimalExecution.Cfxpack.RecordReads

/-!
# The payloads are read back

## Main definitions

* `StoredAt`: where a payload stands in the transaction segment

## Main results

* `IsEncoding.exists_record`: the record of a block, and where its payload stands
* `BlockArea.readTxPayload_eq`: a payload is read back
-/

namespace Cfxpack

variable {T : PrimitiveTypes} {crates : Crates T}

/-! ## The flags -/

theorem flag_bits (flags : UInt8) : (flags &&& ~~~(flagHasTransactions ||| flagTxCompressed)) &&&
    flagHasTransactions = 0 ∧ (flags &&& ~~~(flagHasTransactions ||| flagTxCompressed)) &&&
      flagTxCompressed = 0 := by
  have hhas : ~~~(flagHasTransactions ||| flagTxCompressed) &&& flagHasTransactions = 0 := by decide
  have hcompressed : ~~~(flagHasTransactions ||| flagTxCompressed) &&& flagTxCompressed = 0 := by
    decide
  rw [UInt8.and_assoc, UInt8.and_assoc, hhas, hcompressed]
  exact ⟨UInt8.and_zero, UInt8.and_zero⟩

/-- The flags of a block as its record has them. -/
def recordFlags (block : Block T) (txPayload : Bytes) : UInt8 :=
  block.flags &&& ~~~(flagHasTransactions ||| flagTxCompressed) ||| payloadFlags txPayload

/-- The flag tells of a payload. -/
theorem recordFlags_hasTransactions (block : Block T) (txPayload : Bytes) :
    recordFlags block txPayload &&& flagHasTransactions ≠ 0 ↔ txPayload ≠ [] := by
  rw [recordFlags, uint8_or_and, (flag_bits block.flags).1, UInt8.zero_or, payloadFlags]
  split_ifs with hempty
  · simp [hempty]
  · simp only [ne_eq, hempty, not_false_eq_true, iff_true]
    decide
  · simp only [ne_eq, hempty, not_false_eq_true, iff_true]
    decide

/-- The flag tells of a compressed payload. -/
theorem recordFlags_txCompressed (block : Block T) (txPayload : Bytes) :
    recordFlags block txPayload &&& flagTxCompressed ≠ 0 ↔ 512 < txPayload.length := by
  rw [recordFlags, uint8_or_and, (flag_bits block.flags).2, UInt8.zero_or, payloadFlags]
  split_ifs with hempty hlong
  · simp [hempty]
  · simp only [hlong, iff_true]
    decide
  · simp only [hlong, iff_false, ne_eq, not_not]
    decide

/-! ## The segment -/

/-- Where a payload stands in the segment, in units of four bytes. -/
def StoredAt (crates : Crates T) (txPayload txSegment : Bytes) (units : UInt64) : Prop :=
  ∃ payload pre post : Bytes, storedPayload crates txPayload = .ok payload ∧
    txSegment = pre ++ (uleb128 (UInt64.ofNat payload.length) ++ payload) ++ post ∧
    pre.length % 4 = 0 ∧ units = UInt64.ofNat (pre.length / 4)

/-- The segment grows at its end. -/
theorem Appended.exists_append {txPayload segment segment' : Bytes} {units : UInt64}
    (h : Appended crates txPayload segment units segment') : ∃ x, segment' = segment ++ x := by
  rcases h with ⟨-, -, rfl⟩ | ⟨-, payload, -, -, rfl⟩
  · exact ⟨[], (List.append_nil _).symm⟩
  · exact ⟨_, by rw [alignTo_eq, List.append_assoc]⟩

theorem exists_append_of_rounds {input : Packet T} {addressIndex : Assoc Address ℕ}
    {difficultyIndex : Assoc U256 ℕ} {entries : List (Block T × Bytes)} {segment segment' : Bytes}
    {records : List Bytes}
    (h : Rounds (encodeBlock crates input addressIndex difficultyIndex) segment entries records
      segment') : ∃ x, segment' = segment ++ x := by
  induction h with
  | nil => exact ⟨[], (List.append_nil _).symm⟩
  | cons hround _ ih =>
    obtain ⟨_, _, happended, -, -⟩ := encodeBlock_eq_ok.mp hround
    obtain ⟨x, rfl⟩ := happended.exists_append
    obtain ⟨y, rfl⟩ := ih
    exact ⟨x ++ y, List.append_assoc _ _ _⟩

/-- **The record of a block**, and where its payload stands. -/
theorem IsEncoding.exists_record {input : Packet T} {b : Bytes} {txPayloads records : List Bytes}
    {txSegment record : Bytes} {i : ℕ}
    (h : IsEncoding crates input b txPayloads records txSegment) (hrecord : records[i]? = some record) :
    ∃ block txPayload fields units, input.blocks[i]? = some block ∧
      txPayloads[i]? = some txPayload ∧
      RecordFields input (Assoc.indexOf input.addresses) (Assoc.indexOf input.difficulties) block
        fields ∧
      record = recordHead block ++
        recordFlags block txPayload :: fields.toBytes input block units ∧
      (txPayload ≠ [] → StoredAt crates txPayload txSegment units) := by
  obtain ⟨⟨block, txPayload⟩, segment, segment', hentry, -, hround, hrest⟩ :=
    h.rounds.exists_split hrecord
  obtain ⟨hblock, hpayload⟩ := List.getElem?_zip_eq_some.mp hentry
  obtain ⟨units, fields, happended, hfields, rfl⟩ := encodeBlock_eq_ok.mp hround
  refine ⟨block, txPayload, fields, units, hblock, hpayload, hfields, rfl, fun hne => ?_⟩
  obtain ⟨post, rfl⟩ := exists_append_of_rounds hrest
  rcases happended with ⟨hempty, -, -⟩ | ⟨-, payload, hstored, hunits, rfl⟩
  · exact absurd hempty hne
  · exact ⟨payload, alignTo segment 4, post, hstored, rfl,
      by rw [alignTo_eq, List.length_append]; exact mod_add_length_padding (by omega), hunits⟩

/-! ## Reading a payload -/

/-- A payload that the encoder stores is shorter than 4 GiB. -/
theorem length_lt_of_storedPayload (hsnap : crates.snap.Lawful) {txPayload payload : Bytes}
    (h : storedPayload crates txPayload = .ok payload) : txPayload.length < UInt32.size := by
  unfold storedPayload at h
  split at h
  case isTrue =>
    rw [context_eq_ok, passOn_eq_ok] at h
    exact (hsnap.length_compressVec _ _ h).1
  case isFalse hshort =>
    have hsize : UInt32.size = 4294967296 := rfl
    omega

/-- The stored payload is the payload, in the form that the flag tells. -/
theorem decompress_storedPayload (hsnap : crates.snap.Lawful) {txPayload payload : Bytes}
    {flags : UInt8} (hflags : flags &&& flagTxCompressed ≠ 0 ↔ 512 < txPayload.length)
    (h : storedPayload crates txPayload = .ok payload) :
    (if flags &&& flagTxCompressed ≠ 0 then
      context "snappy-decompress tx payload" (passOn (crates.snap.decompressVec payload))
    else pure payload) = .ok txPayload := by
  unfold storedPayload at h
  by_cases hlong : 512 < txPayload.length
  · rw [if_pos hlong, context_eq_ok, passOn_eq_ok] at h
    rw [if_pos (hflags.mpr hlong), context_eq_ok, passOn_eq_ok]
    exact hsnap.decompressVec_compressVec _ _ h
  · rw [if_neg hlong] at h
    rw [if_neg (mt hflags.mp hlong)]
    exact congrArg Except.ok (Except.ok.inj h).symm

/-- **A payload is read back.** -/
theorem BlockArea.readTxPayload_eq {data : Bytes} {n : ℕ} {records : List Bytes}
    {txSegment txPayload : Bytes} {offsets : List ℕ} {units : UInt64} {flags : UInt8}
    (h : BlockArea data n records txSegment offsets) (hsnap : crates.snap.Lawful)
    (hsize : data.length < UInt64.size) (hstored : StoredAt crates txPayload txSegment units)
    (hflags : flags &&& flagTxCompressed ≠ 0 ↔ 512 < txPayload.length) :
    readTxPayload crates data (offsets.getD 7 0) units.toNat flags = .ok txPayload := by
  obtain ⟨payload, pre, post, hpayload, hsegment, hmod, rfl⟩ := hstored
  -- the length of the payload, then the payload
  have hdrop : data.drop (offsets.getD 7 0 + pre.length) =
      uleb128 (UInt64.ofNat payload.length) ++ (payload ++ post) := by
    rw [← List.drop_drop, h.drop_txSegment, hsegment, List.append_assoc, List.drop_left,
      List.append_assoc]
  have hread := reads_uleb128 data _ _ _ hdrop
  have hdrop' := drop_add_of_drop_eq hdrop
  have hpos := List.length_pos_of_ne_nil (uleb128_ne_nil (UInt64.ofNat payload.length))
  have hstop : offsets.getD 7 0 + pre.length + (uleb128 (UInt64.ofNat payload.length)).length +
      payload.length ≤ data.length := by
    have hlen := congrArg List.length hdrop
    simp only [List.length_drop, List.length_append] at hlen
    omega
  -- none of the sums and products wraps
  generalize (uleb128 (UInt64.ofNat payload.length)).length = width at *
  have hunits : (UInt64.ofNat (pre.length / 4)).toNat = pre.length / 4 :=
    UInt64.toNat_ofNat_of_lt' (by omega)
  have hlength : (UInt64.ofNat payload.length).toNat = payload.length :=
    UInt64.toNat_ofNat_of_lt' (by omega)
  have hmul : crates.mulUsize (pre.length / 4) 4 = .ok pre.length := by
    have heq : pre.length / 4 * 4 = pre.length := by omega
    rw [Profile.mulUsize_of_lt (by omega), heq]
  have habsolute : crates.addUsize (offsets.getD 7 0) pre.length =
      .ok (offsets.getD 7 0 + pre.length) := Profile.addUsize_of_lt (by omega)
  have hadd : crates.addUsize (offsets.getD 7 0 + pre.length + width) payload.length =
      .ok (offsets.getD 7 0 + pre.length + width + payload.length) :=
    Profile.addUsize_of_lt (by omega)
  have hinside : offsets.getD 7 0 + pre.length < data.length := by omega
  have hslice : slice data (offsets.getD 7 0 + pre.length + width)
      (offsets.getD 7 0 + pre.length + width + payload.length) = .ok payload := by
    rw [slice_eq_ok, List.drop_take, hdrop', Nat.add_sub_cancel_left, List.take_left]
    exact ⟨⟨by omega, hstop⟩, rfl⟩
  -- so the reader ends with the stored payload, which is decompressed if the flag says so
  simp only [readTxPayload, hunits, hmul, habsolute, ensure_of hinside, hread, hlength, hadd,
    ensure_of hstop, hslice, Except.ok_bind]
  exact decompress_storedPayload hsnap hflags hpayload

end Cfxpack
