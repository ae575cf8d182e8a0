import CfxMinimalExecution.Cfxpack.ItemReads
import CfxMinimalExecution.Cfxpack.PayloadReads
import CfxMinimalExecution.Cfxpack.WrittenTxs
import CfxMinimalExecution.Library.Related

/-!
# What the decoder makes of a payload

## Main definitions

* `readTx`: what is read of a transaction that is written in full
* `Source`: what an item of a payload is written for

## Main results

* `decodePayloadItem_eq_ok`: an item is read as what it is written for
* `decodeTxPayload_isPayload`: a payload is read as the transactions that it stands for, the rewards and
  the unlock events
-/

namespace Cfxpack

variable {T : PrimitiveTypes}

/-- What is read of a transaction that is written in full. There is nothing to read when its nonce
overflows in a build with overflow checks. -/
def readTx (crates : Crates T) (input : Packet T) (tx : SignedTransaction T) :
    Option (SignedTransaction T) := do
  let senderIndex ← (Assoc.indexOf input.addresses).get tx.sender
  let nonce ← (crates.addU64 (baseNonceOf input.senderBaseNonces senderIndex)
    (encodedNonce (senderNonceIndex input) senderIndex
      (lowU64 (crates.primitives.fields tx.unsigned).nonce))).toOption
  pure (tx.readBack crates nonce)

/-- What an item of a payload is written for. -/
inductive Source (T : PrimitiveTypes) where
  | transaction (written : Written (SignedTransaction T))
  | posReward (entry : PosRewardEntry)
  | unlockEvent (entry : UnlockEntry)

/-- What the items of a payload are written for. -/
def Block.sources (block : Block T) (written : List (Written (SignedTransaction T))) :
    List (Source T) :=
  written.map .transaction ++ (block.posRewards.map .posReward ++
    block.unlockEvents.map .unlockEvent)

/-- The item that is written. -/
inductive Source.Spells (crates : Crates T) (input : Packet T) (blockEpoch : UInt64) :
    Source T → RlpItem T → Prop
  | transaction {written : Written (SignedTransaction T)} {item : RlpItem T} :
    IsWrittenItem crates input blockEpoch written item →
      Spells crates input blockEpoch (.transaction written) item
  | posReward (entry : PosRewardEntry) :
    Spells crates input blockEpoch (.posReward entry) (posRewardItem entry)
  | unlockEvent (entry : UnlockEntry) :
    Spells crates input blockEpoch (.unlockEvent entry) (unlockItem entry)

/-- What is read, after the transactions of the earlier blocks. -/
inductive Source.Reads (crates : Crates T) (input : Packet T)
    (earlier : List (List (SignedTransaction T))) : Source T → PayloadItem T → Prop
  | transaction {written : Written (SignedTransaction T)} {tx : SignedTransaction T} :
    written.resolve (readTx crates input) earlier = some tx →
      Reads crates input earlier (.transaction written) (.transaction tx written.position?)
  | posReward (entry : PosRewardEntry) :
    Reads crates input earlier (.posReward entry) (.posReward entry)
  | unlockEvent (entry : UnlockEntry) :
    Reads crates input earlier (.unlockEvent entry) (.unlockEvent entry)

variable {crates : Crates T} {input : Packet T} {block : Block T}

theorem spells_sources {written : List (Written (SignedTransaction T))} {items : List (RlpItem T)}
    (h : List.Forall₂ (IsWrittenItem crates input block.epoch) written items) :
    List.Forall₂ (Source.Spells crates input block.epoch) (block.sources written)
      (blockItems block items) := by
  unfold Block.sources blockItems
  refine List.rel_append ?_ (List.rel_append ?_ ?_)
  · rw [List.forall₂_map_left_iff]
    exact h.imp fun _ _ => .transaction
  · rw [List.forall₂_map_left_iff, List.forall₂_map_right_iff]
    exact List.forall₂_same.mpr fun _ _ => .posReward _
  · rw [List.forall₂_map_left_iff, List.forall₂_map_right_iff]
    exact List.forall₂_same.mpr fun _ _ => .unlockEvent _

/-! ## The items -/

/-- The tables that the decoder reads have as many entries as a word can count. -/
structure TablesFit (input : Packet T) : Prop where
  addresses : input.addresses.length < UInt64.size
  gasPrices : input.gasPrices.length < UInt64.size

section Item

variable {items : List (RlpItem T)} {earlier : List (List (SignedTransaction T))} {i : ℕ}

/-- The first item of a transaction tells its space. -/
theorem exists_space (crates : Crates T) (blockEpoch : UInt64) (gasPriceIndex : Assoc U256 ℕ)
    (senderNonceIndex : Assoc ℕ UInt64) (tx : SignedTransaction T) (senderIndex : ℕ)
    (action : RlpItem T) : ∃ space rest, (space = 0 ∨ space = 2) ∧
      txItem crates blockEpoch gasPriceIndex senderNonceIndex tx senderIndex action =
        .list (.u8 space :: rest) := by
  unfold txItem
  cases tx.unsigned with
  | native native => exact ⟨0, _, .inl rfl, rfl⟩
  | ethereum ethereum => exact ⟨2, _, .inr rfl, rfl⟩

/-- What is read of a transaction, from the item it is written as. -/
theorem decodeTxItem_eq_ok (hlawful : crates.Lawful) (hfit : TablesFit input) {blockEpoch : UInt64}
    {tx tx' : SignedTransaction T} {senderIndex : ℕ} {action : RlpItem T}
    (hsender : (Assoc.indexOf input.addresses).get tx.sender = some senderIndex)
    (haction : actionItem (crates.primitives.fields tx.unsigned).action
      (Assoc.indexOf input.addresses) = some action)
    (h : Readable crates.rlp (txItem crates blockEpoch (Assoc.indexOf input.gasPrices)
      (senderNonceIndex input) tx senderIndex action)) :
    decodeTxItem crates (crates.rlp.encode (txItem crates blockEpoch (Assoc.indexOf input.gasPrices)
        (senderNonceIndex input) tx senderIndex action)) blockEpoch input.addresses input.gasPrices
          input.senderBaseNonces = .ok tx' ↔ readTx crates input tx = some tx' := by
  rw [decodeTxItem_txItem hlawful hfit.addresses hfit.gasPrices hsender haction h]
  simp only [readTx, hsender, Option.bind_eq_bind, Option.bind_some]
  generalize crates.addU64 _ _ = nonce
  cases nonce with
  | error e => simp [Except.toOption]
  | ok nonce => simp [Except.toOption]

/-- **An item is read as what it is written for.** -/
theorem decodePayloadItem_eq_ok (hlawful : crates.Lawful) (hfit : TablesFit input)
    (h : Readable crates.rlp (.list items)) {blockEpoch : UInt64} {source : Source T}
    {item : RlpItem T} {payloadItem : PayloadItem T} (hitem : items[i]? = some item)
    (hspells : source.Spells crates input blockEpoch item) :
    decodePayloadItem crates (crates.rlp.encode (.list items)) blockEpoch input.addresses
        input.gasPrices input.senderBaseNonces earlier i = .ok payloadItem ↔
      source.Reads crates input earlier payloadItem := by
  have hrlp := hlawful.rlp
  have hat := itemAt_encode hrlp h hitem
  have hread := h.item hrlp hitem
  unfold decodePayloadItem
  simp only [hat, Except.ok_bind]
  -- by cases on what the item spells, whose first value is the marker the reader branches on
  cases hspells with
  | posReward entry =>
    have hmarker : valAt crates.rlp crates.rlp.asU8 (crates.rlp.encode (posRewardItem entry)) 0 =
      .ok 3 := valAt_u8 hrlp hread rfl
    simp only [hmarker, decodePosReward_posRewardItem hlawful hread, Except.ok_bind,
      if_neg (show (3 : UInt8) ≠ 1 by decide), if_true, Except.pure_def, Except.ok.injEq]
    constructor
    · rintro rfl
      exact .posReward entry
    · rintro ⟨⟩
      rfl
  | unlockEvent entry =>
    have hmarker : valAt crates.rlp crates.rlp.asU8 (crates.rlp.encode (unlockItem entry)) 0 =
      .ok 4 := valAt_u8 hrlp hread rfl
    simp only [hmarker, decodeUnlockEvent_unlockItem hlawful hread, Except.ok_bind,
      if_neg (show (4 : UInt8) ≠ 1 by decide), if_neg (show (4 : UInt8) ≠ 3 by decide), if_true,
      Except.pure_def, Except.ok.injEq]
    constructor
    · rintro rfl
      exact .unlockEvent entry
    · rintro ⟨⟩
      rfl
  -- a transaction: a reference to an earlier one, or the transaction itself
  | transaction hwritten =>
    cases hwritten with
    | reference p =>
      have hmarker : valAt crates.rlp crates.rlp.asU8 (crates.rlp.encode (refItem p)) 0 = .ok 1 :=
        valAt_u8 hrlp hread rfl
      have hblock : valAt crates.rlp crates.rlp.asU64 (crates.rlp.encode (refItem p)) 1 =
        .ok (UInt64.ofNat p.1) := valAt_u64 hrlp hread rfl
      have hplace : valAt crates.rlp crates.rlp.asU64 (crates.rlp.encode (refItem p)) 2 =
        .ok (UInt64.ofNat p.2) := valAt_u64 hrlp hread rfl
      simp only [hmarker, hblock, hplace, Except.ok_bind, if_true, Except.bind_eq_ok, okOr_eq_ok,
        Except.pure_def, Except.ok.injEq]
      constructor
      · rintro ⟨tx, htx, rfl⟩
        exact @Source.Reads.transaction _ _ _ _ (.reference (wordPosition p)) _ htx
      · rintro ⟨htx⟩
        exact ⟨_, htx, rfl⟩
    -- the marker of a transaction is its space, which is none of the other markers
    | @value tx senderIndex action hsender haction =>
      obtain ⟨space, rest, hspace, heq⟩ := exists_space crates blockEpoch
        (Assoc.indexOf input.gasPrices) (senderNonceIndex input) tx senderIndex action
      have hmarker : valAt crates.rlp crates.rlp.asU8 (crates.rlp.encode (txItem crates blockEpoch
          (Assoc.indexOf input.gasPrices) (senderNonceIndex input) tx senderIndex action)) 0 =
            .ok space := by
        rw [heq] at hread ⊢
        exact valAt_u8 hrlp hread rfl
      have hne : space ≠ 1 ∧ space ≠ 3 ∧ space ≠ 4 := by
        rcases hspace with rfl | rfl <;> decide
      simp only [hmarker, Except.ok_bind, if_neg hne.1, if_neg hne.2.1, if_neg hne.2.2,
        Except.bind_eq_ok, decodeTxItem_eq_ok hlawful hfit hsender haction hread, Except.pure_def,
        Except.ok.injEq]
      constructor
      · rintro ⟨tx', hread', rfl⟩
        exact @Source.Reads.transaction _ _ _ _ (.value tx) _ hread'
      · rintro ⟨hread'⟩
        exact ⟨_, hread', rfl⟩

end Item

/-! ## The payloads -/

/-- What a payload is decoded to, with what is read of the transactions. -/
def Block.payloadItems (block : Block T) (written : List (Written (SignedTransaction T)))
    (txs : List (SignedTransaction T)) : List (PayloadItem T) :=
  (written.zip txs).map (fun entry => .transaction entry.2 entry.1.position?) ++
    (block.posRewards.map .posReward ++ block.unlockEvents.map .unlockEvent)

/-- What is read of the transactions of a block, after those of the earlier blocks. -/
def ReadsTxs (crates : Crates T) (input : Packet T) (earlier : List (List (SignedTransaction T)))
    (written : List (Written (SignedTransaction T))) (txs : List (SignedTransaction T)) : Prop :=
  List.Forall₂ (fun (w : Written (SignedTransaction T)) tx =>
    w.resolve (readTx crates input) earlier = some tx) written txs

section Payload

variable {earlier : List (List (SignedTransaction T))}
  {written : List (Written (SignedTransaction T))}

theorem reads_transactions {decoded : List (PayloadItem T)} :
    List.Forall₂ (Source.Reads crates input earlier) (written.map .transaction) decoded ↔
      ∃ txs, ReadsTxs crates input earlier written txs ∧
        decoded = (written.zip txs).map fun entry => .transaction entry.2 entry.1.position? := by
  constructor
  · intro h
    rw [List.forall₂_map_left_iff] at h
    induction h with
    | nil => exact ⟨[], .nil, rfl⟩
    | cons hread _ ih =>
      obtain ⟨txs, htxs, rfl⟩ := ih
      cases hread with
      | @transaction w tx htx => exact ⟨tx :: txs, .cons htx htxs, rfl⟩
  · rintro ⟨txs, htxs, rfl⟩
    induction htxs with
    | nil => exact .nil
    | cons htx _ ih => exact .cons (.transaction htx) ih

/-- What the items of a payload are read as. -/
theorem reads_sources {decoded : List (PayloadItem T)} :
    List.Forall₂ (Source.Reads crates input earlier) (block.sources written) decoded ↔
      ∃ txs, ReadsTxs crates input earlier written txs ∧
        decoded = block.payloadItems written txs := by
  constructor
  · intro h
    obtain ⟨decodedTxs, rest, rfl, hdecoded, hrest⟩ := h.exists_append
    obtain ⟨rewards, unlocks, rfl, hrewards, hunlocks⟩ := hrest.exists_append
    obtain ⟨txs, htxs, rfl⟩ := reads_transactions.mp hdecoded
    have hrewards : block.posRewards.map .posReward = rewards.map id := by
      refine (List.forall₂_map_left_iff.mp hrewards).map_eq_map ?_
      rintro entry _ ⟨⟩
      rfl
    have hunlocks : block.unlockEvents.map .unlockEvent = unlocks.map id := by
      refine (List.forall₂_map_left_iff.mp hunlocks).map_eq_map ?_
      rintro entry _ ⟨⟩
      rfl
    rw [List.map_id] at hrewards hunlocks
    exact ⟨txs, htxs, by rw [Block.payloadItems, hrewards, hunlocks]⟩
  · rintro ⟨txs, htxs, rfl⟩
    refine List.rel_append (reads_transactions.mpr ⟨txs, htxs, rfl⟩) (List.rel_append ?_ ?_)
    · rw [List.forall₂_map_left_iff, List.forall₂_map_right_iff]
      exact List.forall₂_same.mpr fun _ _ => .posReward _
    · rw [List.forall₂_map_left_iff, List.forall₂_map_right_iff]
      exact List.forall₂_same.mpr fun _ _ => .unlockEvent _

/-- **A payload is read as what it is written for.** -/
theorem decodeTxPayload_isPayload (hlawful : crates.Lawful) (hfit : TablesFit input)
    {items : List (RlpItem T)}
    (hitems : List.Forall₂ (IsWrittenItem crates input block.epoch) written items)
    (h : Readable crates.rlp (.list (blockItems block items))) {data : Bytes}
    {txSegmentOffset : ℕ} {units : UInt64} {flags : UInt8}
    (hpayload : readTxPayload crates data txSegmentOffset units.toNat flags =
      .ok (crates.rlp.encode (.list (blockItems block items)))) {decoded : List (PayloadItem T)} :
    decodeTxPayload crates data txSegmentOffset units flags block.epoch input.addresses
        input.gasPrices input.senderBaseNonces earlier = .ok decoded ↔
      ∃ txs, ReadsTxs crates input earlier written txs ∧
        decoded = block.payloadItems written txs := by
  have hspells := spells_sources hitems
  rw [decodeTxPayload, hpayload, Except.ok_bind, itemCount_encode hlawful.rlp h, Except.ok_bind,
    ← hspells.length_eq, ← reads_sources]
  refine mapM_range_eq_ok_iff fun i source payloadItem hsource => ?_
  obtain ⟨hi, rfl⟩ := List.getElem?_eq_some_iff.mp hsource
  have hi' : i < (blockItems block items).length := hspells.length_eq ▸ hi
  exact decodePayloadItem_eq_ok hlawful hfit h (List.getElem?_eq_getElem hi')
    ((List.forall₂_iff_get.mp hspells).2 i hi hi')

/-- The items of a payload, each in its list. -/
theorem withPayload_payloadItems {txs : List (SignedTransaction T)}
    (hlen : txs.length = written.length) (decoded : Block T) :
    decoded.withPayload (block.payloadItems written txs) =
      { decoded with
        transactions := txs
        transactionRefs := written.map (·.position?)
        posRewards := block.posRewards
        unlockEvents := block.unlockEvents } := by
  have hrefs : (written.zip txs).map (fun entry => entry.1.position?) =
      written.map (·.position?) := by
    calc (written.zip txs).map (fun entry => entry.1.position?)
        = ((written.zip txs).map Prod.fst).map (·.position?) := by rw [List.map_map]; rfl
      _ = written.map (·.position?) := by rw [List.map_fst_zip hlen.ge]
  have htxs : (written.zip txs).map (fun entry => entry.2) = txs := List.map_snd_zip hlen.le
  simp [Block.withPayload, Block.payloadItems, List.filterMap_append, List.filterMap_map,
    hrefs, htxs]

end Payload

end Cfxpack
