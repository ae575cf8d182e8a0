import CfxMinimalExecution.Cfxpack.GracefulReads
import CfxMinimalExecution.Cfxpack.ItemReads

/-!
# The payloads that are read gracefully

## Main definitions

* `NonceFits`: the nonce of a transaction, added to its base, is a word
* `StoredFits`: the end of a stored payload is a word
* `PayloadFits`: so are the sums for a payload and its items

## Main results

* `graceful_decodeTxPayload`: exactly when a payload is read gracefully
-/

namespace Cfxpack

variable {T : PrimitiveTypes} {crates : Crates T}

/-! ## Items -/

@[simp] theorem graceful_passOn {α : Type} (r : Except String α) : Graceful (passOn r) := by
  cases r with
  | ok a => exact graceful_ok a
  | error message => exact graceful_error message

theorem graceful_valAt {α : Type} (rlp : Rlp T) (as : Bytes → Except String α) (item : Bytes) (i : ℕ) :
    Graceful (valAt rlp as item i) :=
  graceful_bind.mpr ⟨graceful_passOn _, fun _ _ => graceful_passOn _⟩

theorem graceful_decodeU256Bytes (bytes : Bytes) : Graceful (decodeU256Bytes bytes) :=
  graceful_bind.mpr ⟨graceful_ensure _ _, fun _ _ => graceful_ok _⟩

theorem graceful_optionalList {α : Type} (rlp : Rlp T) (as : Bytes → Except String (List α))
    (item : Bytes) (i : ℕ) : Graceful (optionalList rlp as item i) := by
  refine graceful_bind.mpr ⟨graceful_passOn _, fun _ _ => ?_⟩
  split
  · exact graceful_valAt _ _ _ _
  · exact graceful_ok _

theorem graceful_decodePosReward (rlp : Rlp T) (item : Bytes) : Graceful (decodePosReward rlp item) := by
  have haccount : ∀ rewards j, Graceful (decodePosRewardAccount rlp rewards j) := by
    intro rewards j
    simp [decodePosRewardAccount, graceful_bind, graceful_valAt, graceful_decodeU256Bytes]
  have hloop : ∀ rewards l, Graceful (List.mapM (decodePosRewardAccount rlp rewards) l) :=
    fun rewards l => graceful_mapM.mpr fun _ j _ _ _ _ => haccount rewards j
  simp [decodePosReward, graceful_bind, graceful_valAt, hloop]

theorem graceful_decodeUnlockEvent (rlp : Rlp T) (item : Bytes) :
    Graceful (decodeUnlockEvent rlp item) := by
  simp [decodeUnlockEvent, graceful_bind, graceful_valAt]

theorem graceful_decodePrice (rlp : Rlp T) (item : Bytes) (gasPrices : List U256) :
    Graceful (decodePrice rlp item gasPrices) := by
  refine graceful_bind.mpr ⟨graceful_valAt _ _ _ _, fun mode _ => ?_⟩
  split
  · simp [graceful_bind, graceful_valAt, graceful_tableGet]
  · split
    · simp [graceful_bind, graceful_valAt, graceful_decodeU256Bytes]
    · exact graceful_error _

theorem graceful_decodeAction (rlp : Rlp T) (item : Bytes) (addresses : List Address) :
    Graceful (decodeAction rlp item addresses) := by
  refine graceful_bind.mpr ⟨graceful_valAt _ _ _ _, fun mode _ => ?_⟩
  split
  · exact graceful_ok _
  · split
    · simp [graceful_bind, graceful_valAt, graceful_tableGet]
    · exact graceful_error _

theorem graceful_decodeNativeTx (item : Bytes) (typeId : UInt64) (sender : Address)
    (blockEpoch : UInt64) (fields : TxItem) :
    Graceful (decodeNativeTx crates item typeId sender blockEpoch fields) := by
  unfold decodeNativeTx
  simp only [graceful_bind, graceful_valAt, graceful_optionalList, true_and]
  intros
  split_ifs <;> simp

theorem graceful_decodeEthereumTx (item : Bytes) (typeId : UInt64) (sender : Address)
    (fields : TxItem) : Graceful (decodeEthereumTx crates item typeId sender fields) := by
  unfold decodeEthereumTx
  simp only [graceful_bind, graceful_valAt, graceful_optionalList, true_and]
  intros
  split_ifs <;> simp [graceful_bind, graceful_optionalList]

/-! ## Transactions -/

/-- The nonce of a transaction, added to the base nonce of its sender, is a word. -/
def NonceFits (crates : Crates T) (addresses : List Address)
    (senderBaseNonces : List SenderBaseNonce) (item : Bytes) : Prop :=
  ∀ spaceMarker, valAt crates.rlp crates.rlp.asU8 item 0 = .ok spaceMarker →
    ∀ typeId, valAt crates.rlp crates.rlp.asU64 item 1 = .ok typeId →
    ∀ senderIndex, valAt crates.rlp crates.rlp.asU64 item 2 = .ok senderIndex →
    ∀ sender, tableGet addresses senderIndex.toNat = .ok sender →
    ∀ offset, valAt crates.rlp crates.rlp.asU64 item 3 = .ok offset →
      (baseNonceOf senderBaseNonces senderIndex.toNat).toNat + offset.toNat < UInt64.size

theorem graceful_decodeTxItem (hchecked : crates.overflowChecks = true) {item : Bytes}
    {blockEpoch : UInt64} {addresses : List Address} {gasPrices : List U256}
    {senderBaseNonces : List SenderBaseNonce} :
    Graceful (decodeTxItem crates item blockEpoch addresses gasPrices senderBaseNonces) ↔
      NonceFits crates addresses senderBaseNonces item := by
  unfold decodeTxItem NonceFits
  refine (graceful_step (graceful_valAt _ _ _ _)).trans <| forall₂_congr fun spaceMarker _ => ?_
  refine (graceful_step (graceful_valAt _ _ _ _)).trans <| forall₂_congr fun typeId _ => ?_
  refine (graceful_step (graceful_valAt _ _ _ _)).trans <| forall₂_congr fun senderIndex _ => ?_
  refine (graceful_step (graceful_tableGet _ _)).trans <| forall₂_congr fun sender _ => ?_
  refine (graceful_step (graceful_valAt _ _ _ _)).trans <| forall₂_congr fun offset _ => ?_
  refine graceful_bind.trans ((and_iff_left fun nonce _ => ?_).trans (graceful_addU64 hchecked))
  -- after the sum, only errors are left
  simp only [graceful_bind, graceful_valAt, graceful_passOn, graceful_decodePrice,
    graceful_decodeAction, graceful_decodeU256Bytes, true_and]
  intros
  split_ifs
  · exact graceful_decodeNativeTx _ _ _ _ _
  · exact graceful_decodeEthereumTx _ _ _ _
  · exact graceful_error _

/-- So is the nonce of an item that is a transaction. -/
def ItemFits (crates : Crates T) (addresses : List Address)
    (senderBaseNonces : List SenderBaseNonce) (decoded : Bytes) (i : ℕ) : Prop :=
  ∀ item, passOn (crates.rlp.itemAt decoded i) = .ok item →
    ∀ marker, valAt crates.rlp crates.rlp.asU8 item 0 = .ok marker → marker ∉ [1, 3, 4] →
      NonceFits crates addresses senderBaseNonces item

theorem graceful_decodePayloadItem (hchecked : crates.overflowChecks = true) {decoded : Bytes}
    {blockEpoch : UInt64} {addresses : List Address} {gasPrices : List U256}
    {senderBaseNonces : List SenderBaseNonce}
    {previousBlocks : List (List (SignedTransaction T))} {i : ℕ} :
    Graceful (decodePayloadItem crates decoded blockEpoch addresses gasPrices senderBaseNonces
      previousBlocks i) ↔ ItemFits crates addresses senderBaseNonces decoded i := by
  unfold decodePayloadItem ItemFits
  refine (graceful_step (graceful_passOn _)).trans <| forall₂_congr fun item _ => ?_
  refine (graceful_step (graceful_valAt _ _ _ _)).trans <| forall₂_congr fun marker _ => ?_
  split_ifs with hduplicate hreward hunlock
  · refine iff_of_true ?_ fun hother => absurd hother (by simp [hduplicate])
    simp only [graceful_bind, graceful_valAt, graceful_okOr, graceful_pure, true_and, implies_true]
  · refine iff_of_true ?_ fun hother => absurd hother (by simp [hreward])
    simp only [graceful_bind, graceful_decodePosReward, graceful_pure, true_and, implies_true]
  · refine iff_of_true ?_ fun hother => absurd hother (by simp [hunlock])
    simp only [graceful_bind, graceful_decodeUnlockEvent, graceful_pure, true_and, implies_true]
  · have hother : marker ∉ [1, 3, 4] := by simp [hduplicate, hreward, hunlock]
    simp only [graceful_bind, graceful_decodeTxItem hchecked, graceful_pure, implies_true, and_true,
      hother, not_false_eq_true, true_imp_iff]

/-! ## Payloads -/

/-- The position of a stored payload is a word, and so is its end. -/
def StoredFits (data : Bytes) (txSegmentOffset txOffsetUnits : ℕ) : Prop :=
  txSegmentOffset + txOffsetUnits * 4 < UInt64.size ∧
    ∀ payloadLen offset,
      (readUleb128 data).run (txSegmentOffset + txOffsetUnits * 4) = .ok (payloadLen, offset) →
        offset + payloadLen.toNat < UInt64.size

theorem graceful_readTxPayload (hchecked : crates.overflowChecks = true) {data : Bytes}
    {txSegmentOffset txOffsetUnits : ℕ} {flags : UInt8} :
    Graceful (readTxPayload crates data txSegmentOffset txOffsetUnits flags) ↔
      StoredFits data txSegmentOffset txOffsetUnits := by
  unfold readTxPayload StoredFits
  rw [graceful_mulUsize_bind hchecked, graceful_addUsize_bind hchecked, ← and_assoc]
  refine and_congr ⟨fun h => h.2, fun h => ⟨by omega, h⟩⟩ ?_
  generalize txSegmentOffset + txOffsetUnits * 4 = absolute
  by_cases hlt : absolute < data.length
  · rw [ensure_of hlt, Except.ok_bind, graceful_step (graceful_readUleb128 data absolute), Prod.forall]
    refine forall₃_congr fun payloadLen offset hrun => ?_
    rw [graceful_addUsize_bind hchecked]
    refine and_iff_left ((graceful_step (graceful_ensure _ _)).mpr fun _ hle => ?_)
    rw [ensure_eq_ok] at hle
    refine graceful_bind.mpr ⟨graceful_slice.mpr ⟨Nat.le_add_right _ _, hle⟩, fun payload _ => ?_⟩
    split
    · exact graceful_context.mpr (graceful_passOn _)
    · exact graceful_ok payload
  · -- nothing is read behind the packet
    refine iff_of_true ?_ fun payloadLen offset hrun => ?_
    · rw [show ensure (absolute < data.length) _ = _ from if_neg hlt]
      exact graceful_error _
    · obtain ⟨hlt', hle⟩ := bounds_of_readUleb128 hrun
      omega

/-- A stored payload fits, and so does every item that is reached. -/
def PayloadFits (crates : Crates T) (data : Bytes) (txSegmentOffset : ℕ) (txOffsetUnits : UInt64)
    (flags : UInt8) (blockEpoch : UInt64) (addresses : List Address) (gasPrices : List U256)
    (senderBaseNonces : List SenderBaseNonce)
    (previousBlocks : List (List (SignedTransaction T))) : Prop :=
  StoredFits data txSegmentOffset txOffsetUnits.toNat ∧
    ∀ decoded, readTxPayload crates data txSegmentOffset txOffsetUnits.toNat flags = .ok decoded →
    ∀ count, passOn (crates.rlp.itemCount decoded) = .ok count →
    ∀ i < count, ∀ items, (List.range i).mapM (decodePayloadItem crates decoded blockEpoch addresses
      gasPrices senderBaseNonces previousBlocks) = .ok items →
        ItemFits crates addresses senderBaseNonces decoded i

theorem graceful_decodeTxPayload (hchecked : crates.overflowChecks = true) {data : Bytes}
    {txSegmentOffset : ℕ} {txOffsetUnits : UInt64} {flags : UInt8} {blockEpoch : UInt64}
    {addresses : List Address} {gasPrices : List U256} {senderBaseNonces : List SenderBaseNonce}
    {previousBlocks : List (List (SignedTransaction T))} :
    Graceful (decodeTxPayload crates data txSegmentOffset txOffsetUnits flags blockEpoch addresses
        gasPrices senderBaseNonces previousBlocks) ↔
      PayloadFits crates data txSegmentOffset txOffsetUnits flags blockEpoch addresses gasPrices
        senderBaseNonces previousBlocks := by
  unfold decodeTxPayload PayloadFits
  rw [graceful_bind, graceful_readTxPayload hchecked]
  refine and_congr_right fun _ => forall₂_congr fun decoded _ => ?_
  refine (graceful_step (graceful_passOn _)).trans <| forall₂_congr fun count _ => ?_
  rw [graceful_mapM_range]
  simp only [graceful_decodePayloadItem hchecked]

end Cfxpack
