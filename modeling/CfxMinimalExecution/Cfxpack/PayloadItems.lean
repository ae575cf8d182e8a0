import CfxMinimalExecution.Cfxpack.BlockRecords

/-!
# The items of a payload

## Main definitions

* `txItem`, `refItem`, `posRewardItem`, `unlockItem`: the items that the encoder appends
* `IsTxItem`: the item of a transaction, in full or as a reference to an earlier one

## Main results

* `appendTx_eq_ok`, `appendTransaction_eq_ok`: what is appended spells items
* `encodeTxPayload_eq_ok`: a payload is empty or spells a list of items
-/

namespace Cfxpack

variable {T : PrimitiveTypes} {crates : Crates T}

@[simp] theorem opsList_nil : RlpItem.opsList ([] : List (RlpItem T)) = [] := by
  simp [RlpItem.opsList]

@[simp] theorem opsList_cons (item : RlpItem T) (items : List (RlpItem T)) :
    RlpItem.opsList (item :: items) = item.ops ++ RlpItem.opsList items := by
  simp [RlpItem.opsList]

@[simp] theorem opsList_append (items items' : List (RlpItem T)) :
    RlpItem.opsList (items ++ items') = RlpItem.opsList items ++ RlpItem.opsList items' := by
  induction items with
  | nil => simp
  | cons item items ih => simp [ih]

theorem opsList_map {ι : Type} (f : ι → RlpItem T) (l : List ι) :
    RlpItem.opsList (l.map f) = l.flatMap fun i => (f i).ops := by
  induction l with
  | nil => simp
  | cons i l ih => simp [ih]

/-! ## Transactions -/

def priceItem (value : U256) (gasPriceIndex : Assoc U256 ℕ) : RlpItem T :=
  match gasPriceIndex.get value with
  | some index => .list [.u8 0, .u64 (UInt64.ofNat index)]
  | none => .list [.u8 1, .bytes (u256ToBe value)]

theorem appendPrice_eq (value : U256) (gasPriceIndex : Assoc U256 ℕ) :
    (appendPrice value gasPriceIndex : RlpStream T) = (priceItem value gasPriceIndex).ops := by
  unfold appendPrice priceItem
  cases gasPriceIndex.get value <;> simp [RlpItem.ops]

def actionItem (action : Action) (addressIndex : Assoc Address ℕ) : Option (RlpItem T) :=
  match action with
  | .create => some (.list [.u8 0])
  | .call address =>
    (addressIndex.get address).map fun index => .list [.u8 1, .u64 (UInt64.ofNat index)]

theorem appendAction_eq_ok {action : Action} {addressIndex : Assoc Address ℕ} {s : RlpStream T} :
    appendAction action addressIndex = .ok s ↔
      ∃ item, actionItem action addressIndex = some item ∧ s = item.ops := by
  unfold appendAction actionItem
  cases action with
  | create =>
    simp only [Except.pure_def, Except.ok.injEq, Option.some.injEq]
    constructor
    · rintro rfl
      exact ⟨_, rfl, by simp [RlpItem.ops]⟩
    · rintro ⟨_, rfl, rfl⟩
      simp [RlpItem.ops]
  | call address =>
    simp only [Except.bind_eq_ok, okOr_eq_ok, Except.pure_def, Except.ok.injEq,
      Option.map_eq_some_iff]
    constructor
    · rintro ⟨index, hindex, rfl⟩
      exact ⟨_, ⟨index, hindex, rfl⟩, by simp [RlpItem.ops]⟩
    · rintro ⟨_, ⟨index, hindex, rfl⟩, rfl⟩
      exact ⟨index, hindex, by simp [RlpItem.ops]⟩

/-- The nonce, as an offset from the base of its sender when it has one. -/
def encodedNonce (senderNonceIndex : Assoc ℕ UInt64) (senderIndex : ℕ) (nonce : UInt64) : UInt64 :=
  ((senderNonceIndex.get senderIndex).map (saturatingSub nonce)).getD nonce

/-- The item of a transaction. -/
def txItem (crates : Crates T) (blockEpoch : UInt64) (gasPriceIndex : Assoc U256 ℕ)
    (senderNonceIndex : Assoc ℕ UInt64) (tx : SignedTransaction T) (senderIndex : ℕ)
    (action : RlpItem T) : RlpItem T :=
  let fields := crates.primitives.fields tx.unsigned
  let head : List (RlpItem T) := [.u64 fields.typeId.toUInt64, .u64 (UInt64.ofNat senderIndex),
    .u64 (encodedNonce senderNonceIndex senderIndex (lowU64 fields.nonce)),
    priceItem fields.gasPrice gasPriceIndex, priceItem fields.maxPriorityGasPrice gasPriceIndex,
    .u64 (lowU64 fields.gas), action, .bytes (u256ToBe fields.value)]
  match tx.unsigned with
  | .native native =>
    let epochDelta := (crates.primitives.epochHeight native).toInt64 - blockEpoch.toInt64
    .list (.u8 0 :: head ++ [.u64 (crates.primitives.storageLimit native),
      .u64 (zigzagEncode epochDelta), .bytes fields.data] ++
        (fields.accessList.map .accessList).toList)
  | .ethereum _ =>
    .list (.u8 2 :: head ++ [.bytes fields.data] ++ (fields.accessList.map .accessList).toList ++
      (fields.authorizationList.map .authorizationList).toList)

/-- What is appended for a transaction. -/
theorem appendTx_eq_ok {blockEpoch : UInt64} {tx : SignedTransaction T}
    {addressIndex : Assoc Address ℕ} {gasPriceIndex : Assoc U256 ℕ}
    {senderNonceIndex : Assoc ℕ UInt64} {s : RlpStream T} :
    appendTx crates blockEpoch tx addressIndex gasPriceIndex senderNonceIndex = .ok s ↔
      ∃ senderIndex action, addressIndex.get tx.sender = some senderIndex ∧
        actionItem (crates.primitives.fields tx.unsigned).action addressIndex = some action ∧
        s = (txItem crates blockEpoch gasPriceIndex senderNonceIndex tx senderIndex action).ops := by
  unfold appendTx txItem encodedNonce
  -- by cases on the space: the list of operations is the one of the item
  cases htx : tx.unsigned with
  | native native =>
    simp only [Except.bind_eq_ok, okOr_eq_ok, appendAction_eq_ok, Except.pure_def, Except.ok.injEq]
    constructor
    · rintro ⟨senderIndex, hsender, _, ⟨action, haction, rfl⟩, rfl⟩
      refine ⟨senderIndex, action, hsender, haction, ?_⟩
      cases (crates.primitives.fields (.native native)).accessList <;>
        simp [RlpItem.ops, appendPrice_eq]
    · rintro ⟨senderIndex, action, hsender, haction, rfl⟩
      refine ⟨senderIndex, hsender, _, ⟨action, haction, rfl⟩, ?_⟩
      cases (crates.primitives.fields (.native native)).accessList <;>
        simp [RlpItem.ops, appendPrice_eq]
  | ethereum ethereum =>
    simp only [Except.bind_eq_ok, okOr_eq_ok, appendAction_eq_ok, Except.pure_def, Except.ok.injEq]
    constructor
    · rintro ⟨senderIndex, hsender, _, ⟨action, haction, rfl⟩, rfl⟩
      refine ⟨senderIndex, action, hsender, haction, ?_⟩
      cases (crates.primitives.fields (.ethereum ethereum)).accessList <;>
        cases (crates.primitives.fields (.ethereum ethereum)).authorizationList <;>
          simp [RlpItem.ops, appendPrice_eq]
    · rintro ⟨senderIndex, action, hsender, haction, rfl⟩
      refine ⟨senderIndex, hsender, _, ⟨action, haction, rfl⟩, ?_⟩
      cases (crates.primitives.fields (.ethereum ethereum)).accessList <;>
        cases (crates.primitives.fields (.ethereum ethereum)).authorizationList <;>
          simp [RlpItem.ops, appendPrice_eq]

/-! ## References -/

def refItem (ref : ℕ × ℕ) : RlpItem T :=
  .list [.u8 1, .u64 (UInt64.ofNat ref.1), .u64 (UInt64.ofNat ref.2)]

/-- The earlier position of a transaction, from the references of the block or from the
transactions seen so far. -/
def duplicateRefOf (crates : Crates T) (encodedRefs : Option (List (Option (ℕ × ℕ))))
    (seenTxs : SeenTxs) (entry : SignedTransaction T × ℕ) : Result (Option (ℕ × ℕ)) :=
  match encodedRefs with
  | some refs => indexAt refs entry.2
  | none => .ok (seenTxs.get (crates.primitives.hash entry.1))

/-- The item of a transaction, and the transactions seen after it. -/
inductive IsTxItem (crates : Crates T) (block : Block T)
    (encodedRefs : Option (List (Option (ℕ × ℕ)))) (addressIndex : Assoc Address ℕ)
    (gasPriceIndex : Assoc U256 ℕ) (senderNonceIndex : Assoc ℕ UInt64) (seenTxs : SeenTxs)
    (entry : SignedTransaction T × ℕ) : RlpItem T → SeenTxs → Prop
  | ref {ref : ℕ × ℕ} : duplicateRefOf crates encodedRefs seenTxs entry = .ok (some ref) →
    IsTxItem crates block encodedRefs addressIndex gasPriceIndex senderNonceIndex seenTxs entry
      (refItem ref) seenTxs
  | tx {senderIndex : ℕ} {action : RlpItem T} :
    duplicateRefOf crates encodedRefs seenTxs entry = .ok none →
    addressIndex.get entry.1.sender = some senderIndex →
    actionItem (crates.primitives.fields entry.1.unsigned).action addressIndex = some action →
    IsTxItem crates block encodedRefs addressIndex gasPriceIndex senderNonceIndex seenTxs entry
      (txItem crates block.epoch gasPriceIndex senderNonceIndex entry.1 senderIndex action)
      (if encodedRefs.isNone then
        seenTxs.insert (crates.primitives.hash entry.1) (block.index, entry.2)
      else seenTxs)

section Transaction

variable {block : Block T} {encodedRefs : Option (List (Option (ℕ × ℕ)))}
  {addressIndex : Assoc Address ℕ} {gasPriceIndex : Assoc U256 ℕ}
  {senderNonceIndex : Assoc ℕ UInt64} {seenTxs seenTxs' : SeenTxs}
  {entry : SignedTransaction T × ℕ} {s : RlpStream T}

theorem appendTransaction_error {e : Failure}
    (h : duplicateRefOf crates encodedRefs seenTxs entry = .error e) :
    (appendTransaction crates block encodedRefs addressIndex gasPriceIndex senderNonceIndex
      entry).run seenTxs = .error e := by
  cases encodedRefs with
  | none => cases h
  | some refs =>
    have hindex : indexAt refs entry.2 = .error e := h
    simp [appendTransaction, hindex]

theorem appendTransaction_ref {ref : ℕ × ℕ}
    (h : duplicateRefOf crates encodedRefs seenTxs entry = .ok (some ref)) :
    (appendTransaction crates block encodedRefs addressIndex gasPriceIndex senderNonceIndex
      entry).run seenTxs = .ok ((refItem ref).ops, seenTxs) := by
  cases encodedRefs with
  | none =>
    have hget : seenTxs.get (crates.primitives.hash entry.1) = some ref := Except.ok.inj h
    simp [appendTransaction, hget, refItem, RlpItem.ops]
  | some refs =>
    have hindex : indexAt refs entry.2 = .ok (some ref) := h
    simp [appendTransaction, hindex, refItem, RlpItem.ops]

theorem appendTransaction_tx (h : duplicateRefOf crates encodedRefs seenTxs entry = .ok none) :
    (appendTransaction crates block encodedRefs addressIndex gasPriceIndex senderNonceIndex
      entry).run seenTxs = (·, if encodedRefs.isNone then
        seenTxs.insert (crates.primitives.hash entry.1) (block.index, entry.2) else seenTxs) <$>
          appendTx crates block.epoch entry.1 addressIndex gasPriceIndex senderNonceIndex := by
  cases encodedRefs with
  | none =>
    have hget : seenTxs.get (crates.primitives.hash entry.1) = none := Except.ok.inj h
    simp [appendTransaction, hget]
    rfl
  | some refs =>
    have hindex : indexAt refs entry.2 = .ok none := h
    simp [appendTransaction, hindex]
    rfl

/-- **What is appended for a transaction of a block.** -/
theorem appendTransaction_eq_ok :
    (appendTransaction crates block encodedRefs addressIndex gasPriceIndex senderNonceIndex
        entry).run seenTxs = .ok (s, seenTxs') ↔
      ∃ item, IsTxItem crates block encodedRefs addressIndex gasPriceIndex senderNonceIndex seenTxs
        entry item seenTxs' ∧ s = item.ops := by
  -- a reference out of bounds, a reference, or the transaction in full
  cases hdup : duplicateRefOf crates encodedRefs seenTxs entry with
  | error e =>
    rw [appendTransaction_error hdup]
    constructor
    · exact fun h => by cases h
    · rintro ⟨_, hitem, -⟩
      cases hitem <;> simp_all
  | ok duplicateRef =>
    cases duplicateRef with
    | some ref =>
      rw [appendTransaction_ref hdup]
      constructor
      · intro h
        obtain ⟨rfl, rfl⟩ := Prod.mk.inj (Except.ok.inj h)
        exact ⟨_, .ref hdup, rfl⟩
      · rintro ⟨_, hitem, rfl⟩
        cases hitem with
        | ref href =>
          obtain rfl := Option.some.inj (Except.ok.inj (hdup.symm.trans href))
          rfl
        | tx hnone => cases hdup.symm.trans hnone
    | none =>
      rw [appendTransaction_tx hdup, Except.map_eq_ok]
      simp only [appendTx_eq_ok, Prod.mk.injEq]
      constructor
      · rintro ⟨_, ⟨senderIndex, action, hsender, haction, rfl⟩, rfl, rfl⟩
        exact ⟨_, .tx hdup hsender haction, rfl⟩
      · rintro ⟨_, hitem, rfl⟩
        cases hitem with
        | ref href => cases hdup.symm.trans href
        | tx _ hsender haction => exact ⟨_, ⟨_, _, hsender, haction, rfl⟩, rfl, rfl⟩

end Transaction

/-! ## Rewards and unlock events -/

def accountItem (r : PosRewardAccount) : RlpItem T :=
  .list [.bytes r.address.asBytes, .bytes r.posIdentifier.asBytes, .bytes (u256ToBe r.reward)]

def posRewardItem (entry : PosRewardEntry) : RlpItem T :=
  .list [.u8 3, .list (entry.accountRewards.map accountItem),
    .bytes entry.executionEpochHash.asBytes]

def unlockItem (entry : UnlockEntry) : RlpItem T :=
  .list [.u8 4, .bytes entry.identifier.asBytes, .u64 entry.unlocked]

theorem appendPosReward_eq (entry : PosRewardEntry) :
    (appendPosReward entry : RlpStream T) = (posRewardItem entry).ops := by
  simp [appendPosReward, posRewardItem, RlpItem.ops, opsList_map, accountItem]

theorem appendUnlockEvent_eq (entry : UnlockEntry) :
    (appendUnlockEvent entry : RlpStream T) = (unlockItem entry).ops := by
  simp [appendUnlockEvent, unlockItem, RlpItem.ops]

/-! ## Payloads -/

section Payload

variable {block : Block T} {addressIndex : Assoc Address ℕ} {gasPriceIndex : Assoc U256 ℕ}
  {senderNonceIndex : Assoc ℕ UInt64}

/-- The items of the transactions of a block, one after the other. -/
inductive TxItems (crates : Crates T) (block : Block T) (addressIndex : Assoc Address ℕ)
    (gasPriceIndex : Assoc U256 ℕ) (senderNonceIndex : Assoc ℕ UInt64) :
    SeenTxs → List (SignedTransaction T × ℕ) → List (RlpItem T) → SeenTxs → Prop
  | nil (seenTxs : SeenTxs) :
    TxItems crates block addressIndex gasPriceIndex senderNonceIndex seenTxs [] [] seenTxs
  | cons {seenTxs seenTxs' seenTxs'' : SeenTxs} {entry : SignedTransaction T × ℕ} {item : RlpItem T}
      {entries : List (SignedTransaction T × ℕ)} {items : List (RlpItem T)} :
    IsTxItem crates block block.encodedRefs addressIndex gasPriceIndex senderNonceIndex seenTxs entry
      item seenTxs' →
    TxItems crates block addressIndex gasPriceIndex senderNonceIndex seenTxs' entries items
      seenTxs'' →
    TxItems crates block addressIndex gasPriceIndex senderNonceIndex seenTxs (entry :: entries)
      (item :: items) seenTxs''

theorem TxItems.length_eq {seenTxs seenTxs' : SeenTxs} {entries : List (SignedTransaction T × ℕ)}
    {items : List (RlpItem T)} (h : TxItems crates block addressIndex gasPriceIndex senderNonceIndex
      seenTxs entries items seenTxs') : items.length = entries.length := by
  induction h with
  | nil => rfl
  | cons _ _ ih => simp [ih]

theorem rounds_appendTransaction {seenTxs seenTxs' : SeenTxs}
    {entries : List (SignedTransaction T × ℕ)} {streams : List (RlpStream T)} :
    Rounds (appendTransaction crates block block.encodedRefs addressIndex gasPriceIndex
        senderNonceIndex) seenTxs entries streams seenTxs' ↔
      ∃ items, TxItems crates block addressIndex gasPriceIndex senderNonceIndex seenTxs entries
        items seenTxs' ∧ streams = items.map (·.ops) := by
  constructor
  · intro h
    induction h with
    | nil => exact ⟨[], .nil _, rfl⟩
    | cons hround _ ih =>
      obtain ⟨item, hitem, rfl⟩ := appendTransaction_eq_ok.mp hround
      obtain ⟨items, hitems, rfl⟩ := ih
      exact ⟨item :: items, .cons hitem hitems, rfl⟩
  · rintro ⟨items, hitems, rfl⟩
    induction hitems with
    | nil => exact .nil _
    | cons hitem _ ih => exact .cons (appendTransaction_eq_ok.mpr ⟨_, hitem, rfl⟩) ih

/-- The items of a block, from those of its transactions. -/
def blockItems (block : Block T) (items : List (RlpItem T)) : List (RlpItem T) :=
  items ++ (block.posRewards.map posRewardItem ++ block.unlockEvents.map unlockItem)

/-- A block without a payload. -/
def Block.IsBare (block : Block T) : Prop :=
  block.transactions = [] ∧ block.posRewards = [] ∧ block.unlockEvents = []

/-- **A payload is empty or spells a list of items.** -/
theorem encodeTxPayload_eq_ok {seenTxs seenTxs' : SeenTxs} {txPayload : Bytes} :
    (encodeTxPayload crates addressIndex gasPriceIndex senderNonceIndex block).run seenTxs =
        .ok (txPayload, seenTxs') ↔
      (block.IsBare ∧ txPayload = [] ∧ seenTxs' = seenTxs) ∨
        (¬ block.IsBare ∧ ∃ items, TxItems crates block addressIndex gasPriceIndex senderNonceIndex
          seenTxs block.transactions.zipIdx items seenTxs' ∧
            txPayload = crates.rlp.encode (.list (blockItems block items))) := by
  -- the operations of the payload are those of its items, one after the other
  have hops : ∀ items : List (RlpItem T), items.length = block.transactions.length →
      (RlpItem.list (blockItems block items)).ops =
        .beginList (block.transactions.length + block.posRewards.length +
          block.unlockEvents.length) :: (items.map (·.ops)).flatten ++
            block.posRewards.flatMap appendPosReward ++
              block.unlockEvents.flatMap appendUnlockEvent := by
    intro items hlen
    have hflatten : RlpItem.opsList items = (items.map (·.ops)).flatten := by
      rw [← List.flatMap_def, ← opsList_map, List.map_id']
    simp [RlpItem.ops, blockItems, hlen, hflatten, opsList_map, Nat.add_assoc,
      ← appendPosReward_eq, ← appendUnlockEvent_eq]
  unfold encodeTxPayload
  by_cases hbare : block.IsBare
  · rw [if_pos (show block.transactions = [] ∧ block.posRewards = [] ∧ block.unlockEvents = [] from
      hbare)]
    simp [hbare, eq_comm]
  · rw [if_neg (show ¬ (block.transactions = [] ∧ block.posRewards = [] ∧ block.unlockEvents = [])
      from hbare)]
    simp only [StateT.run_bind, Except.bind_eq_ok, Prod.exists, mapM_run_eq_ok,
      rounds_appendTransaction, StateT.run_pure, Except.pure_def, Except.ok.injEq, Prod.mk.injEq,
      hbare, false_and, false_or, not_false_eq_true, true_and]
    constructor
    · rintro ⟨_, _, ⟨items, hitems, rfl⟩, rfl, rfl⟩
      have hlen := hitems.length_eq
      rw [List.length_zipIdx] at hlen
      exact ⟨items, hitems, by rw [Rlp.encode, hops items hlen]⟩
    · rintro ⟨items, hitems, rfl⟩
      have hlen := hitems.length_eq
      rw [List.length_zipIdx] at hlen
      exact ⟨_, _, ⟨items, hitems, rfl⟩, by rw [Rlp.encode, hops items hlen], rfl⟩

end Payload

end Cfxpack
