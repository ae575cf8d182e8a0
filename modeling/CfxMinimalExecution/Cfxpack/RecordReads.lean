import CfxMinimalExecution.Cfxpack.BlockRecords
import CfxMinimalExecution.Cfxpack.Decode

/-!
# The records are read back

## Main definitions

* `Block.truncated`: what a record keeps of a block

## Main results

* `peekTxOffsetUnits_toBytes`: the offset of the payload is found in a record
-/

namespace Cfxpack

variable {T : PrimitiveTypes} {crates : Crates T}

/-! ## The fields -/

/-- What the bytes of the fields are read as. -/
structure FieldReads (data : Bytes) (block : Block T) (fields : FieldBytes) : Prop where
  gasLimit : ∃ q, Reads data (readQc5e data) fields.gasLimit q ∧ q.gasLimit = block.gasLimit
  basePriceCore : ∃ q, Reads data (readQc5e data) fields.basePriceCore q ∧
    q.basePrice false = block.basePriceCore
  basePriceEspace : ∃ q, Reads data (readQc5e data) fields.basePriceEspace q ∧
    q.basePrice true = block.basePriceEspace
  baseReward : Reads data (readQc8 data) fields.baseReward block.baseReward

theorem RecordFields.reads {input : Packet T} {addressIndex : Assoc Address ℕ}
    {difficultyIndex : Assoc U256 ℕ} {block : Block T} {fields : FieldBytes}
    (h : RecordFields input addressIndex difficultyIndex block fields) (data : Bytes) :
    FieldReads data block fields := by
  obtain ⟨_, hgas, hgasReads⟩ := reads_gasLimit h.gasLimit
  obtain ⟨_, hcore, hcoreReads⟩ := reads_basePrice h.basePriceCore
  obtain ⟨_, hespace, hespaceReads⟩ := reads_basePrice h.basePriceEspace
  obtain ⟨_, hreward, hrewardReads⟩ := putQc8_eq_ok h.baseReward
  rw [List.nil_append] at hgas hcore hespace hreward
  subst hgas hcore hespace hreward
  exact ⟨hgasReads data, hcoreReads data, hespaceReads data, hrewardReads data⟩

/-- The fields of a record start after its head and its flags. -/
theorem drop_record (block : Block T) (flags : UInt8) (rest : Bytes) :
    (recordHead block ++ flags :: rest).drop 45 = rest := by
  rw [List.append_cons]
  exact List.drop_left' (by simp)

theorem getElem?_flags (block : Block T) (flags : UInt8) (rest : Bytes) :
    (recordHead block ++ flags :: rest)[44]? = some flags := by
  rw [List.getElem?_append_right (by simp)]
  simp

/-- **The offset of the payload** is found in a record. -/
theorem peekTxOffsetUnits_toBytes {input : Packet T} {block : Block T} {fields : FieldBytes}
    {flags : UInt8} {units : UInt64} {zeros : Bytes}
    (h : ∀ data, FieldReads data block fields) :
    peekTxOffsetUnits (recordHead block ++ flags :: (fields.toBytes input block units ++ zeros)) =
      .ok units := by
  have hdrop := drop_record block flags (fields.toBytes input block units ++ zeros)
  generalize recordHead block ++ flags :: (fields.toBytes input block units ++ zeros) = record at *
  obtain ⟨⟨_, hgas, -⟩, ⟨_, hcore, -⟩, ⟨_, hespace, -⟩, -⟩ := h record
  have huleb := reads_uleb128 record
  have hreads : Reads record (do
      Cursor.times (readUleb128 record) 3
      Cursor.times (readQc5e record) 3
      Cursor.times (readUleb128 record) 3
      readUleb128 record : Cursor UInt64) _ units :=
    .bind (.bind (huleb (UInt64.ofNat fields.author)) (.bind
        (huleb (block.timestamp - input.minTimestamp)) (.bind
          (huleb (UInt64.ofNat fields.difficulty)) (.pure ()))))
      (.bind (.bind hgas (.bind hcore (.bind hespace (.pure ()))))
        (.bind (.bind (huleb (block.height - input.minHeight)) (.bind (huleb block.blame)
          (.bind (huleb block.finalizedEpoch) (.pure ())))) (huleb units)))
  have hrun := hreads 45 (fields.baseReward ++ posViewBytes input block ++ zeros) (by
    rw [hdrop, FieldBytes.toBytes]
    simp only [List.append_assoc, List.append_nil])
  rw [peekTxOffsetUnits, StateT.run'_eq, hrun]
  rfl

/-! ## The blocks -/

/-- What is left of a hash after its first four bytes. -/
def truncateHash (hash : H256) : H256 := h256Prefix (hash.asBytes.take 4)

/-- What a record keeps of a block. -/
def Block.truncated (block : Block T) (index : ℕ) (flags : UInt8) : Block T :=
  { block with
    epoch := 0
    index
    flags
    deferredStateRoot := truncateHash block.deferredStateRoot
    deferredReceiptsRoot := truncateHash block.deferredReceiptsRoot
    deferredLogsBloomHash := truncateHash block.deferredLogsBloomHash
    transactions := []
    transactionRefs := []
    posRewards := []
    unlockEvents := [] }

theorem slice_recordHead (block : Block T) (flags : UInt8) (rest : Bytes) :
    slice (recordHead block ++ flags :: rest) 0 32 = .ok block.hash.asBytes ∧
      slice (recordHead block ++ flags :: rest) 32 36 =
        .ok (block.deferredStateRoot.asBytes.take 4) ∧
      slice (recordHead block ++ flags :: rest) 36 40 =
        .ok (block.deferredReceiptsRoot.asBytes.take 4) ∧
      slice (recordHead block ++ flags :: rest) 40 44 =
        .ok (block.deferredLogsBloomHash.asBytes.take 4) := by
  have hhash : block.hash.asBytes.length = 32 := H256.length_asBytes _
  have hroot : ∀ hash : H256, (hash.asBytes.take 4).length = 4 := fun hash => by simp
  have hstate := hroot block.deferredStateRoot
  have hreceipts := hroot block.deferredReceiptsRoot
  have hlogs := hroot block.deferredLogsBloomHash
  simp only [recordHead, List.append_assoc]
  generalize block.hash.asBytes = hash at *
  generalize block.deferredStateRoot.asBytes.take 4 = state at *
  generalize block.deferredReceiptsRoot.asBytes.take 4 = receipts at *
  generalize block.deferredLogsBloomHash.asBytes.take 4 = logs at *
  generalize flags :: rest = post
  have hdrop32 : (hash ++ (state ++ (receipts ++ (logs ++ post)))).drop 32 =
      state ++ (receipts ++ (logs ++ post)) := List.drop_left' hhash
  have hdrop36 : (hash ++ (state ++ (receipts ++ (logs ++ post)))).drop 36 =
      receipts ++ (logs ++ post) := by
    rw [← List.append_assoc hash]
    exact List.drop_left' (by simp [hhash, hstate])
  have hdrop40 : (hash ++ (state ++ (receipts ++ (logs ++ post)))).drop 40 = logs ++ post := by
    rw [← List.append_assoc hash, ← List.append_assoc (hash ++ state)]
    exact List.drop_left' (by simp [hhash, hstate, hreceipts])
  exact ⟨slice_of_drop_eq rfl hhash (by omega), slice_of_drop_eq hdrop32 hstate (by omega),
    slice_of_drop_eq hdrop36 hreceipts (by omega), slice_of_drop_eq hdrop40 hlogs (by omega)⟩

/-- A value above a base is the base and what it is above. -/
theorem addU64_sub {profile : Profile} {a b : UInt64} (h : b ≤ a) :
    profile.addU64 b (a - b) = .ok a := by
  have hle := UInt64.le_iff_toNat_le.mp h
  have hlt := a.toNat_lt
  have hsub := UInt64.toNat_sub_of_le a b h
  rw [Profile.addU64_of_lt (by rw [hsub, UInt64.size]; omega)]
  refine congrArg Except.ok (UInt64.toNat_inj.mp ?_)
  rw [UInt64.toNat_add, hsub]
  omega

/-- An entry of a table, by the index that was written. -/
theorem tableGet_indexOf {α : Type} [DecidableEq α] {table : List α} {a : α} {i : ℕ}
    (hlen : table.length < UInt64.size) (h : (Assoc.indexOf table).get a = some i) :
    tableGet table (UInt64.ofNat i).toNat = .ok a := by
  have hget := Assoc.getElem?_of_get_indexOf h
  have hi := (List.getElem?_eq_some_iff.mp hget).1
  rw [UInt64.toNat_ofNat_of_lt' (hi.trans hlen), tableGet, hget]
  rfl

end Cfxpack
