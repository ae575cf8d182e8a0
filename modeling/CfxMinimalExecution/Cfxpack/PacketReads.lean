import CfxMinimalExecution.Cfxpack.TableReads
import CfxMinimalExecution.Cfxpack.TxReads

/-!
# The records are read back, with any PoS view

The decoder expects PoS views from a height on, which may differ from where the encoder wrote them.

## Main definitions

* `viewRead`: what is read as the PoS view of a block
* `Block.ofRecord`: what is read of a record

## Main results

* `decodeBlockRecord_eq_ok`: what a record is decoded to
-/

namespace Cfxpack

variable {T : PrimitiveTypes} {crates : Crates T}

/-! ## The PoS view -/

/-- The base of the PoS heights, cut to the 32 bits that the header has for it. -/
def Packet.storedMinPosHeight (input : Packet T) : UInt64 := input.minPosHeight.toUInt32.toUInt64

/-- What is read as the PoS view of a block, when the decoder expects views from a height on. It
takes the zeros after a record for a view, and finds none when there are no zeros. -/
def viewRead (input : Packet T) (height : UInt64) (block : Block T) (zeros : Bytes) :
    Option (Option UInt64) :=
  if height ≤ block.height then
    match block.posView with
    | some posView =>
      some (some (input.storedMinPosHeight + saturatingSub posView input.minPosHeight))
    | none => if zeros = [] then none else some (some input.storedMinPosHeight)
  else some none

theorem toNat_saturatingSub (a b : UInt64) : (saturatingSub a b).toNat = a.toNat - b.toNat := by
  unfold saturatingSub
  split
  case isTrue h => exact UInt64.toNat_sub_of_le a b h
  case isFalse h =>
    rw [UInt64.le_iff_toNat_le] at h
    simp
    omega

theorem toNat_storedMinPosHeight (input : Packet T) :
    input.storedMinPosHeight.toNat = input.minPosHeight.toNat % UInt32.size := by
  simp [Packet.storedMinPosHeight]

/-- The sum that the decoder forms does not overflow. -/
theorem addU64_storedMinPosHeight (profile : Profile) (input : Packet T) (posView : UInt64) :
    profile.addU64 input.storedMinPosHeight (saturatingSub posView input.minPosHeight) =
      .ok (input.storedMinPosHeight + saturatingSub posView input.minPosHeight) := by
  apply Profile.addU64_of_lt
  have hbase := Nat.mod_le input.minPosHeight.toNat UInt32.size
  have hview := posView.toNat_lt
  have hmin := input.minPosHeight.toNat_lt
  rw [toNat_saturatingSub, toNat_storedMinPosHeight, UInt64.size]
  omega

/-- The reader of the PoS view. -/
def readView (profile : Profile) (record : Bytes) (base height blockHeight : UInt64) :
    Cursor (Option UInt64) :=
  if height ≤ blockHeight then do
    let posView ← profile.addU64 base (← readUleb128 record)
    pure (some posView)
  else pure none

theorem readUleb128_eq_error {data : Bytes} {offset : ℕ} (h : data.drop offset = []) :
    (readUleb128 data).run offset = .error (.error "uleb128 read out of bounds") := by
  have hend : ¬ offset < data.length := by
    rw [List.drop_eq_nil_iff] at h
    omega
  have hensure : ensure (offset < data.length) "uleb128 read out of bounds" =
    .error (.error "uleb128 read out of bounds") := if_neg hend
  simp [readUleb128, readUleb128Groups, hensure]

/-- **The PoS view is read**, or the zeros after the record. -/
theorem readView_eq_ok (profile : Profile) {input : Packet T} {block : Block T} {record : Bytes}
    {height : UInt64} {offset k : ℕ} {view : Option UInt64}
    (h : record.drop offset = posViewBytes input block ++ List.replicate k 0) :
    (∃ stop, (readView profile record input.storedMinPosHeight height block.height).run offset =
      .ok (view, stop)) ↔ viewRead input height block (List.replicate k 0) = some view := by
  unfold readView viewRead posViewBytes at *
  split
  case isFalse => simp [eq_comm]
  case isTrue =>
    cases hview : block.posView with
    | some posView =>
      rw [hview, Option.map_some, Option.getD_some] at h
      have hread := reads_uleb128 record _ _ _ h
      simp [hread, addU64_storedMinPosHeight]
    | none =>
      rw [hview, Option.map_none, Option.getD_none, List.nil_append] at h
      cases k with
      | zero =>
        have hread := readUleb128_eq_error h
        simp [hread]
      | succ k =>
        have hread := reads_uleb128 record 0 _ _ (h : _ = uleb128 0 ++ List.replicate k 0)
        have hadd : profile.addU64 input.storedMinPosHeight 0 = .ok input.storedMinPosHeight := by
          rw [Profile.addU64_of_lt (by simpa using input.storedMinPosHeight.toNat_lt)]
          simp
        simp [hread, hadd]

/-! ## The records -/

/-- The fields of a record before its PoS view. -/
def FieldBytes.fixedBytes (fields : FieldBytes) (input : Packet T) (block : Block T)
    (units : UInt64) : Bytes :=
  uleb128 (UInt64.ofNat fields.author) ++ (uleb128 (block.timestamp - input.minTimestamp) ++
    (uleb128 (UInt64.ofNat fields.difficulty) ++ (fields.gasLimit ++ (fields.basePriceCore ++
      (fields.basePriceEspace ++ (uleb128 (block.height - input.minHeight) ++
        (uleb128 block.blame ++ (uleb128 block.finalizedEpoch ++ (uleb128 units ++
          (fields.baseReward ++ []))))))))))

theorem FieldBytes.toBytes_eq (fields : FieldBytes) (input : Packet T) (block : Block T)
    (units : UInt64) : fields.toBytes input block units =
      fields.fixedBytes input block units ++ posViewBytes input block := by
  unfold FieldBytes.toBytes FieldBytes.fixedBytes
  simp only [List.append_assoc, List.nil_append]

/-- The decoder reads the fields of a record, and goes on to its PoS view. -/
theorem decodeBlockRecord_eq (profile : Profile) {input : Packet T} {block : Block T}
    {fields : FieldBytes} {flags : UInt8} {units height : UInt64} {index : ℕ} {zeros : Bytes}
    (h : RecordFields input (Assoc.indexOf input.addresses) (Assoc.indexOf input.difficulties) block
      fields)
    (haddresses : input.addresses.length < UInt64.size)
    (hdifficulties : input.difficulties.length < UInt64.size) {record : Bytes}
    (hrecord : record = recordHead block ++ flags :: (fields.toBytes input block units ++ zeros)) :
    record.drop (45 + (fields.fixedBytes input block units).length) =
        posViewBytes input block ++ zeros ∧
      decodeBlockRecord profile record index input.minTimestamp input.minHeight
        input.storedMinPosHeight height input.addresses input.difficulties =
          Prod.fst <$> (readView profile record input.storedMinPosHeight height block.height >>=
            fun view => pure { block.truncated index flags with posView := view }).run
              (45 + (fields.fixedBytes input block units).length) := by
  -- the record has its fixed fields, then the fields read one after the other
  have hdrop := drop_record block flags (fields.toBytes input block units ++ zeros)
  have hflags := getElem?_flags block flags (fields.toBytes input block units ++ zeros)
  obtain ⟨hhash, hstate, hreceipts, hlogs⟩ :=
    slice_recordHead block flags (fields.toBytes input block units ++ zeros)
  have hlen : 45 ≤ record.length := by
    rw [hrecord]
    simp
    omega
  rw [← hrecord] at hdrop hflags hhash hstate hreceipts hlogs
  obtain ⟨⟨gas, hgas, hgasLimit⟩, ⟨core, hcore, hbaseCore⟩, ⟨espace, hespace, hbaseEspace⟩, hreward⟩ :=
    h.reads record
  have huleb := reads_uleb128 record
  rw [FieldBytes.toBytes_eq, List.append_assoc] at hdrop
  refine ⟨drop_add_of_drop_eq hdrop, ?_⟩
  simp only [decodeBlockRecord, ensure_of hlen, hhash, hstate, hreceipts, hlogs,
    indexAt_eq_ok.mpr hflags, Except.ok_bind]
  -- the reads follow the order of the fields, up to the view
  refine congrArg (Prod.fst <$> ·)
    ((?_ : Follows record _ (fields.fixedBytes input block units) _) 45 _ hdrop)
  refine .bind (huleb _) (.lift_bind (tableGet_indexOf haddresses h.author) ?_)
  refine .bind (huleb _) (.lift_bind (addU64_sub h.minTimestamp_le) ?_)
  refine .bind (huleb _) (.lift_bind (tableGet_indexOf hdifficulties h.difficulty) ?_)
  refine .bind hgas (.bind hcore (.bind hespace ?_))
  refine .bind (huleb _) (.lift_bind (addU64_sub h.minHeight_le) ?_)
  refine .bind (huleb _) (.bind (huleb _) (.bind (huleb _) (.bind hreward ?_)))
  simp only [hgasLimit, hbaseCore, hbaseEspace, H256.fromSlice_asBytes]
  -- what is left is the view, which starts where the fixed bytes end
  unfold readView
  split
  · simp only [bind_assoc, pure_bind]
    exact .refl _
  · simp only [pure_bind]
    exact .refl _

/-- What is read of a record. -/
def Block.ofRecord (block : Block T) (index : ℕ) (flags : UInt8) (view : Option UInt64) : Block T :=
  { block.truncated index flags with posView := view }

/-- **What a record is decoded to**: its block, with what is read as its PoS view. -/
theorem decodeBlockRecord_eq_ok (profile : Profile) {input : Packet T} {block decoded : Block T}
    {fields : FieldBytes} {flags : UInt8} {units height : UInt64} {k index : ℕ}
    (h : RecordFields input (Assoc.indexOf input.addresses) (Assoc.indexOf input.difficulties) block
      fields)
    (haddresses : input.addresses.length < UInt64.size)
    (hdifficulties : input.difficulties.length < UInt64.size) :
    decodeBlockRecord profile (recordHead block ++
          flags :: (fields.toBytes input block units ++ List.replicate k 0)) index
        input.minTimestamp input.minHeight input.storedMinPosHeight height input.addresses
        input.difficulties = .ok decoded ↔
      ∃ view, viewRead input height block (List.replicate k 0) = some view ∧
        decoded = block.ofRecord index flags view := by
  obtain ⟨hdrop, hdecode⟩ := decodeBlockRecord_eq profile h haddresses hdifficulties rfl
  rw [hdecode]
  simp only [Except.map_eq_ok, StateT.run_bind, Except.bind_eq_ok, Prod.exists, StateT.run_pure,
    Except.pure_def, Except.ok.injEq, Prod.mk.injEq, ← readView_eq_ok profile hdrop]
  constructor
  · rintro ⟨_, _, ⟨view, stop, hview, rfl, rfl⟩, rfl⟩
    exact ⟨view, ⟨stop, hview⟩, rfl⟩
  · rintro ⟨view, ⟨stop, hview⟩, rfl⟩
    exact ⟨_, _, ⟨view, stop, hview, rfl, rfl⟩, rfl⟩

end Cfxpack
