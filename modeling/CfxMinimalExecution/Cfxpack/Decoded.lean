import CfxMinimalExecution.Cfxpack.Verify

/-!
# Runs of the decoder and of the verifier

## Main definitions

* `RecordsAt`: the records of the blocks, as both find them

## Main results

* `skipToTxOffset_eq_ok`: the walks of the verifier and of the decoder over a record
* `exists_rounds_of_decodePacketExt`: a run of the decoder, from the records to the blocks
* `exists_counts_of_verifyPacket`: a run of the verifier
* `RecordsAt.unique`: the decoder and the verifier find the same records
-/

namespace Cfxpack

variable {T : PrimitiveTypes} {crates : Crates T}

/-! ## The walk over a record -/

theorem skipUleb_eq_ok {data : Bytes} {offset stop : ℕ} {u : Unit} :
    (skipUleb data).run offset = .ok (u, stop) ↔
      ∃ value, (readUleb128 data).run offset = .ok (value, stop) := by
  simp only [skipUleb, StateT.run_bind, Except.bind_eq_ok, StateT.run_pure, Except.pure_def,
    Except.ok.injEq, Prod.mk.injEq, Prod.exists, true_and, exists_eq_right]

/-- The verifier skips what the decoder reads. -/
theorem skipQc5e_eq_ok {data : Bytes} {offset stop : ℕ} {u : Unit} :
    (skipQc5e data).run offset = .ok (u, stop) ↔
      ∃ value, (readQc5e data).run offset = .ok (value, stop) := by
  by_cases hlt : offset < data.length
  · have hfirst : indexAt data offset = .ok data[offset] :=
      indexAt_eq_ok.mpr (List.getElem?_eq_getElem hlt)
    by_cases hmode : data[offset] >>> 6 = 0
    · have hle : offset + 1 ≤ data.length := hlt
      simp only [ExceptT.stM_eq, skipQc5e, readQc5e, StateT.run_bind, StateT.run_get,
        Except.pure_def, StateT.run_monadLift, monadLift_self, StateT.run_set, bind_assoc,
        Except.ok_bind, ensure_of hlt, hfirst, hmode, if_true, ensure_of hle, bind_pure_comp,
        StateT.run_map, Except.map_ok, Except.ok.injEq, Prod.mk.injEq, true_and]
      constructor
      · intro hstop
        exact ⟨_, rfl, hstop⟩
      · rintro ⟨_, -, hstop⟩
        exact hstop
    · simp only [ExceptT.stM_eq, skipQc5e, readQc5e, StateT.run_bind, StateT.run_get,
        Except.pure_def, StateT.run_monadLift, monadLift_self, StateT.run_set, bind_assoc,
        Except.ok_bind, ensure_of hlt, hfirst, hmode, if_false, bind_pure_comp, StateT.run_map,
        Except.map_ok]
      generalize (if data[offset] >>> 6 = 1 then 5 else if data[offset] >>> 6 = 2 then 6 else 7) = len
      simp only [Except.bind_eq_ok, ensure_eq_ok, slice_eq_ok, Except.ok.injEq, Prod.mk.injEq]
      constructor
      · rintro ⟨_, hle, -, rfl⟩
        exact ⟨_, (), hle, _, ⟨⟨by omega, hle⟩, rfl⟩, rfl, rfl⟩
      · rintro ⟨_, _, hle, _, _, -, rfl⟩
        exact ⟨(), hle, trivial, rfl⟩
  · have hfail : ∀ message, ensure (offset < data.length) message = .error (.error message) :=
      fun message => if_neg hlt
    simp [skipQc5e, readQc5e, hfail]

/-- **The two walks end at the same offset.** -/
theorem skipToTxOffset_eq_ok {record : Bytes} {units : UInt64} :
    skipToTxOffset record = .ok units ↔ peekTxOffsetUnits record = .ok units := by
  simp only [skipToTxOffset, peekTxOffsetUnits, Cursor.times, StateT.run'_eq, Except.map_eq_ok,
    StateT.run_bind, Except.bind_eq_ok, Prod.exists, skipUleb_eq_ok, skipQc5e_eq_ok,
    StateT.run_pure, Except.pure_def, Except.ok.injEq, Prod.mk.injEq]
  constructor
  · rintro ⟨_, stop, ⟨-, p₁, ⟨v₁, h₁⟩, -, p₂, ⟨v₂, h₂⟩, -, p₃, ⟨v₃, h₃⟩, -, p₄, ⟨v₄, h₄⟩,
      -, p₅, ⟨v₅, h₅⟩, -, p₆, ⟨v₆, h₆⟩, -, p₇, ⟨v₇, h₇⟩, -, p₈, ⟨v₈, h₈⟩, -, p₉, ⟨v₉, h₉⟩, h⟩, rfl⟩
    exact ⟨_, stop, ⟨(), p₃, ⟨v₁, p₁, h₁, v₂, p₂, h₂, v₃, p₃, h₃, trivial, rfl⟩,
      (), p₆, ⟨v₄, p₄, h₄, v₅, p₅, h₅, v₆, p₆, h₆, trivial, rfl⟩,
      (), p₉, ⟨v₇, p₇, h₇, v₈, p₈, h₈, v₉, p₉, h₉, trivial, rfl⟩, h⟩, rfl⟩
  · rintro ⟨_, stop, ⟨-, _, ⟨v₁, p₁, h₁, v₂, p₂, h₂, v₃, p₃, h₃, -, rfl⟩,
      -, _, ⟨v₄, p₄, h₄, v₅, p₅, h₅, v₆, p₆, h₆, -, rfl⟩,
      -, _, ⟨v₇, p₇, h₇, v₈, p₈, h₈, v₉, p₉, h₉, -, rfl⟩, h⟩, rfl⟩
    exact ⟨_, stop, ⟨(), p₁, ⟨v₁, h₁⟩, (), p₂, ⟨v₂, h₂⟩, (), p₃, ⟨v₃, h₃⟩, (), p₄, ⟨v₄, h₄⟩,
      (), p₅, ⟨v₅, h₅⟩, (), p₆, ⟨v₆, h₆⟩, (), p₇, ⟨v₇, h₇⟩, (), p₈, ⟨v₈, h₈⟩, (), p₉, ⟨v₉, h₉⟩, h⟩,
      rfl⟩

/-! ## The records of the blocks -/

/-- The records of the blocks, from the header on. -/
def RecordsAt (profile : Profile) (data : Bytes) (records : List Bytes) (txSegmentOffset : ℕ) :
    Prop :=
  ∃ (n : UInt8) (offsets : List ℕ) (blockCount : UInt32) (bitmap : Bytes) (stop : ℕ),
    indexAt data 92 = .ok n ∧ readOffsets data = .ok offsets ∧
    offsets.getD 7 0 = txSegmentOffset ∧
    readU32Le data (offsets.getD 5 0) = .ok blockCount ∧
    slice data (offsets.getD 5 0 + 4) (offsets.getD 5 0 + 4 + (blockCount.toNat + 7) / 8) =
      .ok bitmap ∧
    Rounds (reassembleRecord profile data bitmap (offsets.getD 6 0) txSegmentOffset n.toNat)
      (offsets.getD 6 0 + blockCount.toNat * n.toNat) (List.range blockCount.toNat) records stop

theorem checkedMul_eq_some {a b c : ℕ} : checkedMul a b = some c ↔ a * b < UInt64.size ∧ a * b = c := by
  unfold checkedMul
  split <;> simp_all

namespace RecordsAt

variable {profile : Profile} {data : Bytes} {records records' : List Bytes}
  {txSegmentOffset txSegmentOffset' : ℕ}

/-- **There is one list of records.** -/
theorem unique (h : RecordsAt profile data records txSegmentOffset)
    (h' : RecordsAt profile data records' txSegmentOffset') :
    records = records' ∧ txSegmentOffset = txSegmentOffset' := by
  obtain ⟨n, offsets, blockCount, bitmap, stop, hn, hoffsets, rfl, hcount, hbitmap, hrounds⟩ := h
  obtain ⟨n', offsets', blockCount', bitmap', stop', hn', hoffsets', rfl, hcount', hbitmap',
    hrounds'⟩ := h'
  obtain rfl := Except.ok.inj (hn.symm.trans hn')
  obtain rfl := Except.ok.inj (hoffsets.symm.trans hoffsets')
  obtain rfl := Except.ok.inj (hcount.symm.trans hcount')
  obtain rfl := Except.ok.inj (hbitmap.symm.trans hbitmap')
  have heq := (mapM_run_eq_ok.mpr hrounds).symm.trans (mapM_run_eq_ok.mpr hrounds')
  exact ⟨(Prod.mk.inj (Except.ok.inj heq)).1, rfl⟩

end RecordsAt

/-- The decoder also looks up the offset of the payload in every record. -/
theorem rounds_decodeRecord {profile : Profile} {data bitmap : Bytes}
    {blockBodyOffset txSegmentOffset n start stop : ℕ} {indices : List ℕ}
    {records : List DecodedRecord}
    (h : Rounds (decodeRecord profile data bitmap blockBodyOffset txSegmentOffset n) start indices
      records stop) :
    Rounds (reassembleRecord profile data bitmap blockBodyOffset txSegmentOffset n) start indices
      (records.map (·.bytes)) stop ∧
    ∀ record ∈ records, peekTxOffsetUnits record.bytes = .ok record.txOffsetUnits := by
  induction h with
  | nil => exact ⟨.nil _, by simp⟩
  | cons hround _ ih =>
    simp only [decodeRecord, StateT.run_bind, Except.bind_eq_ok, Prod.exists, run_liftM_eq_ok,
      StateT.run_pure, Except.pure_def, Except.ok.injEq, Prod.mk.injEq] at hround
    obtain ⟨bytes, middle, hbytes, units, _, ⟨hunits, rfl⟩, rfl, rfl⟩ := hround
    exact ⟨.cons hbytes ih.1, List.forall_mem_cons.mpr ⟨hunits, ih.2⟩⟩

/-! ## The decoder -/

/-- A decoded block has the index of its record and the flags that stand there. It has no payload
yet. -/
theorem decodeBlockRecord_spec {profile : Profile} {record : Bytes} {index : ℕ}
    {minTimestamp minHeight minPosHeight height : UInt64} {addresses : List Address}
    {difficulties : List U256} {block : Block T}
    (h : decodeBlockRecord profile record index minTimestamp minHeight minPosHeight height addresses
      difficulties = .ok block) :
    record[44]? = some block.flags ∧ block.transactions = [] ∧ block.posRewards = [] ∧
      block.unlockEvents = [] := by
  simp only [decodeBlockRecord, StateT.run'_eq, Except.bind_eq_ok, Except.map_eq_ok, Prod.exists,
    indexAt_eq_ok] at h
  obtain ⟨-, -, _, -, _, -, _, -, _, -, flags, hflags, _, stop, hrun, rfl⟩ := h
  refine (?_ : Returns _ fun block : Block T => record[44]? = some block.flags ∧
    block.transactions = [] ∧ block.posRewards = [] ∧ block.unlockEvents = []) 45 _ stop hrun
  repeat' first
    | exact Returns.pure ⟨hflags, rfl, rfl, rfl⟩
    | refine Returns.bind fun _ => ?_
    | split

/-- The epochs leave the flags and the payloads. -/
theorem assignEpochFromPivots_spec {blocks assigned : List (Block T)}
    (h : assignEpochFromPivots blocks = .ok assigned) :
    List.Forall₂ (fun block block' => ∃ epoch, block' = { block with epoch := epoch })
      blocks assigned := by
  simp only [assignEpochFromPivots, Except.bind_eq_ok, ensure_eq_ok, Except.pure_def,
    Except.ok.injEq] at h
  obtain ⟨-, hcomplete, rfl⟩ := h
  have hblocks := List.ungroup_groups (fun block : Block T => block.has flagPivot) blocks
  rw [hcomplete, List.append_nil] at hblocks
  generalize (List.groups (fun block : Block T => block.has flagPivot) blocks).1 = epochGroups at *
  rw [← hblocks]
  refine List.rel_flatMap (List.forall₂_same.mpr fun _ _ => rfl) ?_
  rintro group _ rfl
  rw [List.forall₂_map_right_iff]
  exact List.forall₂_same.mpr fun block _ => ⟨_, rfl⟩

/-- A block without a payload, with the flags of its record. -/
def IsBlockOf (record : DecodedRecord) (block : Block T) : Prop :=
  record.bytes[44]? = some block.flags ∧ block.transactions = [] ∧ block.posRewards = [] ∧
    block.unlockEvents = []

theorem forall₂_decodeBlockRecord {profile : Profile} {minTimestamp minHeight minPosHeight height : UInt64}
    {addresses : List Address} {difficulties : List U256} {records : List DecodedRecord}
    {blocks : List (Block T)} {k : ℕ}
    (h : List.Forall₂ (fun (entry : DecodedRecord × ℕ) block => decodeBlockRecord profile
      entry.1.bytes entry.2 minTimestamp minHeight minPosHeight height addresses difficulties =
        .ok block) (records.zipIdx k) blocks) : List.Forall₂ IsBlockOf records blocks := by
  induction records generalizing k blocks with
  | nil =>
    obtain rfl := List.forall₂_nil_left_iff.mp h
    exact .nil
  | cons record records ih =>
    rw [List.zipIdx_cons] at h
    obtain ⟨block, blocks, hblock, hrest, rfl⟩ := List.forall₂_cons_left_iff.mp h
    exact .cons (decodeBlockRecord_spec hblock) (ih hrest)

theorem IsBlockOf.assign {records : List DecodedRecord} {blocks assigned : List (Block T)}
    (h : List.Forall₂ IsBlockOf records blocks) (hassign : assignEpochFromPivots blocks = .ok assigned) :
    List.Forall₂ IsBlockOf records assigned := by
  have hepochs := assignEpochFromPivots_spec hassign
  clear hassign
  induction h generalizing assigned with
  | nil =>
    obtain rfl := List.forall₂_nil_left_iff.mp hepochs
    exact .nil
  | cons hblock _ ih =>
    obtain ⟨_, rest, ⟨epoch, rfl⟩, hrest, rfl⟩ := List.forall₂_cons_left_iff.mp hepochs
    exact .cons hblock (ih hrest)

/-- **A run of the decoder**, from the records to the blocks. -/
theorem exists_rounds_of_decodePacketExt {data : Bytes} {height : UInt64} {packet : Packet T}
    (h : decodePacketExt crates data height = .ok packet) :
    ∃ (records : List DecodedRecord) (blocks : List (Block T)) (txSegmentOffset : ℕ)
        (addresses : List Address) (gasPrices : List U256) (senderBaseNonces : List SenderBaseNonce)
        (decodedTxs : List (List (SignedTransaction T))),
      RecordsAt crates.toProfile data (records.map (·.bytes)) txSegmentOffset ∧
      (∀ record ∈ records, peekTxOffsetUnits record.bytes = .ok record.txOffsetUnits) ∧
      List.Forall₂ IsBlockOf records blocks ∧
      Rounds (decodeTransactions crates data txSegmentOffset addresses gasPrices senderBaseNonces) []
        (records.zip blocks) packet.blocks decodedTxs := by
  simp only [decodePacketExt, Except.bind_eq_ok, Except.pure_def, Except.ok.injEq, Prod.exists] at h
  obtain ⟨-, -, _, -, _, -, _, -, _, -, _, -, _, -, n, hn, -, -, offsets, hoffsets, -, -, _, -,
    addresses, -, _, -, _, -, _, -, difficulties, -, _, -, senderBaseNonces, -, _, -, gasPrices, -,
    _, hrecords, blocks, hblocks, assigned, hassigned, final, decodedTxs, hfinal, rfl⟩ := h
  simp only [decodeBlockRecords, StateT.run'_eq, Except.bind_eq_ok, Except.map_eq_ok, Prod.exists,
    okOr_eq_ok, checkedMul_eq_some, mapM_run_eq_ok] at hrecords
  obtain ⟨blockCount, hcount, bitmap, hbitmap, _, ⟨-, rfl⟩, -, -, records, stop, hrounds,
    rfl⟩ := hrecords
  obtain ⟨hreassembled, hunits⟩ := rounds_decodeRecord hrounds
  refine ⟨records, assigned, _, addresses, gasPrices, senderBaseNonces, decodedTxs, ?_, hunits, ?_,
    mapM_run_eq_ok.mp hfinal⟩
  · exact ⟨n, offsets, blockCount, bitmap, stop, hn, hoffsets, rfl, hcount, hbitmap, hreassembled⟩
  · exact IsBlockOf.assign (forall₂_decodeBlockRecord (mapM_eq_ok_iff.mp hblocks)) hassigned

/-! ## The verifier -/

/-- **A run of the verifier.** -/
theorem exists_counts_of_verifyPacket {data : Bytes} {report : VerifyReport}
    (h : verifyPacket crates data = .ok report) :
    ∃ (records : List Bytes) (txSegmentOffset : ℕ),
      RecordsAt crates.toProfile data records txSegmentOffset ∧
      report.blockCount.toNat = records.length ∧
      countTransactions crates data records txSegmentOffset =
        .ok (report.transactionBlocks, report.transactionItems) := by
  simp only [verifyPacket, Except.bind_eq_ok, Except.pure_def, Except.ok.injEq, Prod.exists,
    okOr_eq_ok, checkedMul_eq_some] at h
  obtain ⟨-, -, _, -, _, -, _, -, _, -, n, hn, -, -, offsets, hoffsets, -, -, -, -, -, -, -, -,
    blockCount, hcount, -, -, bitmap, hbitmap, _, ⟨-, rfl⟩, -, -, _, hrecords,
    transactionBlocks, transactionItems, hcounts, rfl⟩ := h
  simp only [collectBlockRecords, Except.bind_eq_ok, Except.pure_def, Except.ok.injEq, Prod.exists,
    mapM_run_eq_ok] at hrecords
  obtain ⟨records, stop, hrounds, -, -, rfl⟩ := hrecords
  refine ⟨records, _, ?_, ?_, hcounts⟩
  · exact ⟨n, offsets, blockCount, bitmap, stop, hn, hoffsets, rfl, hcount, hbitmap, hrounds⟩
  · have hlen := hrounds.length_eq
    rw [List.length_range] at hlen
    rw [hlen, UInt32.ofNat_toNat]

end Cfxpack
