import CfxMinimalExecution.Cfxpack.PayloadItems
import CfxMinimalExecution.Cfxpack.RecordReads
import CfxMinimalExecution.Cfxpack.TableReads

/-!
# The items of a payload are read back

## Main definitions

* `Readable rlp item`: the bytes of an item can be addressed
* `SignedTransaction.readBack`: what is read of a transaction

## Main results

* `decodeTxItem_txItem`: a transaction is read back, but for its signature and its chain id; its
  nonce is computed
* `decodePosReward_posRewardItem`, `decodeUnlockEvent_unlockItem`: rewards and unlock events
-/

namespace Cfxpack

variable {T : PrimitiveTypes} {crates : Crates T}

/-! ## Lists -/

/-- The length of the bytes of an item is a word. -/
def Readable (rlp : Rlp T) (item : RlpItem T) : Prop := (rlp.encode item).length < UInt64.size

section Lists

variable {rlp : Rlp T} {items : List (RlpItem T)} {i : ℕ}

theorem Readable.item (hlawful : rlp.Lawful) (h : Readable rlp (.list items)) {item : RlpItem T}
    (hitem : items[i]? = some item) : Readable rlp item :=
  (hlawful.length_item_le items item (List.mem_of_getElem? hitem)).trans_lt h

theorem itemAt_encode (hlawful : rlp.Lawful) (h : Readable rlp (.list items)) {item : RlpItem T}
    (hitem : items[i]? = some item) :
    passOn (rlp.itemAt (rlp.encode (.list items)) i) = .ok (rlp.encode item) := by
  obtain ⟨hi, rfl⟩ := List.getElem?_eq_some_iff.mp hitem
  rw [hlawful.itemAt_encode items i hi h, passOn_ok]

theorem itemCount_encode (hlawful : rlp.Lawful) (h : Readable rlp (.list items)) :
    passOn (rlp.itemCount (rlp.encode (.list items))) = .ok items.length := by
  rw [hlawful.itemCount_encode items h, passOn_ok]

/-- An item of a list, read as what it is. -/
theorem valAt_encode {α : Type} {as : Bytes → Except String α} {a : α} (hlawful : rlp.Lawful)
    (h : Readable rlp (.list items)) {item : RlpItem T} (hitem : items[i]? = some item)
    (has : Readable rlp item → as (rlp.encode item) = .ok a) :
    valAt rlp as (rlp.encode (.list items)) i = .ok a := by
  rw [valAt, itemAt_encode hlawful h hitem, Except.ok_bind, has (h.item hlawful hitem), passOn_ok]

theorem valAt_u8 (hlawful : rlp.Lawful) (h : Readable rlp (.list items)) {value : UInt8}
    (hitem : items[i]? = some (.u8 value)) :
    valAt rlp rlp.asU8 (rlp.encode (.list items)) i = .ok value :=
  valAt_encode hlawful h hitem fun _ => hlawful.asU8_encode value

theorem valAt_u64 (hlawful : rlp.Lawful) (h : Readable rlp (.list items)) {value : UInt64}
    (hitem : items[i]? = some (.u64 value)) :
    valAt rlp rlp.asU64 (rlp.encode (.list items)) i = .ok value :=
  valAt_encode hlawful h hitem fun _ => hlawful.asU64_encode value

theorem valAt_bytes (hlawful : rlp.Lawful) (h : Readable rlp (.list items)) {value : Bytes}
    (hitem : items[i]? = some (.bytes value)) :
    valAt rlp rlp.asBytes (rlp.encode (.list items)) i = .ok value :=
  valAt_encode hlawful h hitem (hlawful.asBytes_encode value)

/-- A list that may be missing at the end. -/
theorem optionalList_encode {α : Type} {as : Bytes → Except String (List α)}
    {of : List α → RlpItem T} (hlawful : rlp.Lawful) (h : Readable rlp (.list items))
    (has : ∀ value, Readable rlp (of value) → as (rlp.encode (of value)) = .ok value)
    {value : Option (List α)} (hitem : items[i]? = value.map of) :
    optionalList rlp as (rlp.encode (.list items)) i = .ok (value.getD []) := by
  rw [optionalList, itemCount_encode hlawful h, Except.ok_bind]
  cases value with
  | none =>
    rw [if_neg (Nat.not_lt.mpr (List.getElem?_eq_none_iff.mp hitem))]
    rfl
  | some value =>
    rw [if_pos (List.getElem?_eq_some_iff.mp hitem).1]
    exact valAt_encode hlawful h hitem (has value)

end Lists

/-! ## Prices, actions and numbers -/

theorem decodeU256Bytes_u256ToBe (value : U256) : decodeU256Bytes (u256ToBe value) = .ok value := by
  rw [decodeU256Bytes, ensure_of (length_u256ToBe value).le, Except.ok_bind,
    fromBigEndian_u256ToBe]
  rfl

/-- A price is read back, from the table or in full. -/
theorem decodePrice_priceItem {rlp : Rlp T} (hlawful : rlp.Lawful) {gasPrices : List U256}
    (hlen : gasPrices.length < UInt64.size) {value : U256}
    (h : Readable rlp (priceItem value (Assoc.indexOf gasPrices))) :
    decodePrice rlp (rlp.encode (priceItem value (Assoc.indexOf gasPrices))) gasPrices =
      .ok value := by
  unfold priceItem at *
  cases hindex : (Assoc.indexOf gasPrices).get value with
  | some index =>
    rw [hindex] at h
    have hmode : valAt rlp rlp.asU8 _ 0 = _ := valAt_u8 hlawful h rfl
    have hvalue : valAt rlp rlp.asU64 _ 1 = _ := valAt_u64 hlawful h rfl
    simp only [decodePrice, hmode, hvalue, Except.ok_bind, if_true]
    exact tableGet_indexOf hlen hindex
  | none =>
    rw [hindex] at h
    have hmode : valAt rlp rlp.asU8 _ 0 = _ := valAt_u8 hlawful h rfl
    have hvalue : valAt rlp rlp.asBytes _ 1 = _ := valAt_bytes hlawful h rfl
    have hne : (1 : UInt8) ≠ 0 := by decide
    simp only [decodePrice, hmode, hvalue, Except.ok_bind, if_neg hne, if_true]
    exact decodeU256Bytes_u256ToBe value

theorem decodeAction_actionItem {rlp : Rlp T} (hlawful : rlp.Lawful) {addresses : List Address}
    (hlen : addresses.length < UInt64.size) {action : Action} {item : RlpItem T}
    (hitem : actionItem action (Assoc.indexOf addresses) = some item) (h : Readable rlp item) :
    decodeAction rlp (rlp.encode item) addresses = .ok action := by
  cases action with
  | create =>
    obtain rfl := Option.some.inj hitem
    have hmode : valAt rlp rlp.asU8 _ 0 = _ := valAt_u8 hlawful h rfl
    simp only [decodeAction, hmode, Except.ok_bind, if_true, Except.pure_def]
  | call address =>
    obtain ⟨index, hindex, rfl⟩ := Option.map_eq_some_iff.mp hitem
    have hmode : valAt rlp rlp.asU8 _ 0 = _ := valAt_u8 hlawful h rfl
    have hvalue : valAt rlp rlp.asU64 _ 1 = _ := valAt_u64 hlawful h rfl
    have hne : (1 : UInt8) ≠ 0 := by decide
    simp only [decodeAction, hmode, hvalue, Except.ok_bind, if_neg hne, if_true,
      tableGet_indexOf hlen hindex, Except.pure_def]

/-! ## Transactions -/

/-- A transaction with another nonce and another amount of gas, and without its chain id. -/
def Transaction.recoded (nonce gas : U256) : Transaction T → Transaction T
  | .native (.cip155 tx) => .native (.cip155 { tx with nonce, gas, chainId := 0 })
  | .native (.cip2930 tx) => .native (.cip2930 { tx with nonce, gas, chainId := 0 })
  | .native (.cip1559 tx) => .native (.cip1559 { tx with nonce, gas, chainId := 0 })
  | .ethereum (.eip155 tx) => .ethereum (.eip155 { tx with nonce, gas, chainId := none })
  | .ethereum (.eip2930 tx) => .ethereum (.eip2930 { tx with nonce, gas, chainId := 0 })
  | .ethereum (.eip1559 tx) => .ethereum (.eip1559 { tx with nonce, gas, chainId := 0 })
  | .ethereum (.eip7702 tx) => .ethereum (.eip7702 { tx with nonce, gas, chainId := 0 })

def Transaction.space : Transaction T → Space
  | .native _ => .native
  | .ethereum _ => .ethereum

def U256.ofU64 (value : UInt64) : U256 := BitVec.ofNat 256 value.toNat

/-- What is read of a transaction, with the nonce that is computed for it. -/
def SignedTransaction.readBack (crates : Crates T) (tx : SignedTransaction T) (nonce : UInt64) :
    SignedTransaction T :=
  crates.primitives.fakeSignRpc
    (tx.unsigned.recoded (U256.ofU64 nonce)
      (U256.ofU64 (lowU64 (crates.primitives.fields tx.unsigned).gas)))
    tx.sender tx.unsigned.space

/-- The base nonce of a sender, of which the first entry counts. -/
def baseNonceOf (senderBaseNonces : List SenderBaseNonce) (senderIndex : ℕ) : UInt64 :=
  ((senderBaseNonces.find? (·.senderIndex.toNat = senderIndex)).map (·.baseNonce)).getD 0

/-- The fields that the two spaces decode alike. -/
def headItems (crates : Crates T) (gasPriceIndex : Assoc U256 ℕ)
    (senderNonceIndex : Assoc ℕ UInt64) (tx : SignedTransaction T) (senderIndex : ℕ)
    (action : RlpItem T) : List (RlpItem T) :=
  let fields := crates.primitives.fields tx.unsigned
  [.u64 fields.typeId.toUInt64, .u64 (UInt64.ofNat senderIndex),
    .u64 (encodedNonce senderNonceIndex senderIndex (lowU64 fields.nonce)),
    priceItem fields.gasPrice gasPriceIndex, priceItem fields.maxPriorityGasPrice gasPriceIndex,
    .u64 (lowU64 fields.gas), action, .bytes (u256ToBe fields.value)]

section Transaction

variable {addresses : List Address} {gasPrices : List U256} {senderBaseNonces : List SenderBaseNonce}
  {senderNonceIndex : Assoc ℕ UInt64} {tx : SignedTransaction T} {senderIndex : ℕ}
  {action : RlpItem T} {blockEpoch : UInt64}

/-- The fields that the two spaces decode alike are read back, before what the space adds. -/
theorem decodeTxItem_headItems (hlawful : crates.Lawful) (blockEpoch : UInt64)
    (senderBaseNonces : List SenderBaseNonce)
    (haddresses : addresses.length < UInt64.size) (hgasPrices : gasPrices.length < UInt64.size)
    (hsender : (Assoc.indexOf addresses).get tx.sender = some senderIndex)
    (haction : actionItem (crates.primitives.fields tx.unsigned).action (Assoc.indexOf addresses) =
      some action) {space : UInt8} {rest : List (RlpItem T)}
    (h : Readable crates.rlp (.list (.u8 space :: headItems crates (Assoc.indexOf gasPrices)
      senderNonceIndex tx senderIndex action ++ rest))) :
    let fields := crates.primitives.fields tx.unsigned
    let item := crates.rlp.encode (.list (.u8 space :: headItems crates (Assoc.indexOf gasPrices)
      senderNonceIndex tx senderIndex action ++ rest))
    decodeTxItem crates item blockEpoch addresses gasPrices senderBaseNonces = (do
      let nonce ← crates.addU64 (baseNonceOf senderBaseNonces senderIndex)
        (encodedNonce senderNonceIndex senderIndex (lowU64 fields.nonce))
      let txFields : TxItem :=
        { nonce := U256.ofU64 nonce, gasPrice := fields.gasPrice,
          priorityPrice := fields.maxPriorityGasPrice, gas := U256.ofU64 (lowU64 fields.gas),
          action := fields.action, value := fields.value }
      if space = 0 then
        decodeNativeTx crates item fields.typeId.toUInt64 tx.sender blockEpoch txFields
      else if space = 2 then
        decodeEthereumTx crates item fields.typeId.toUInt64 tx.sender txFields
      else throw (.error s!"unsupported tx space marker {space}")) := by
  intro fields item
  have hrlp := hlawful.rlp
  have hindex : (UInt64.ofNat senderIndex).toNat = senderIndex := by
    have hlt := (List.getElem?_eq_some_iff.mp (Assoc.getElem?_of_get_indexOf hsender)).1
    exact UInt64.toNat_ofNat_of_lt' (hlt.trans haddresses)
  have htable := tableGet_indexOf haddresses hsender
  -- what is read at each place of the item
  have h0 : valAt crates.rlp crates.rlp.asU8 item 0 = _ := valAt_u8 hrlp h rfl
  have h1 : valAt crates.rlp crates.rlp.asU64 item 1 = _ := valAt_u64 hrlp h rfl
  have h2 : valAt crates.rlp crates.rlp.asU64 item 2 = _ := valAt_u64 hrlp h rfl
  have h3 : valAt crates.rlp crates.rlp.asU64 item 3 = _ := valAt_u64 hrlp h rfl
  have h4 : passOn (crates.rlp.itemAt item 4) = _ := itemAt_encode hrlp h rfl
  have h5 : passOn (crates.rlp.itemAt item 5) = _ := itemAt_encode hrlp h rfl
  have h6 : valAt crates.rlp crates.rlp.asU64 item 6 = _ := valAt_u64 hrlp h rfl
  have h7 : passOn (crates.rlp.itemAt item 7) = _ := itemAt_encode hrlp h rfl
  have h8 : valAt crates.rlp crates.rlp.asBytes item 8 = _ := valAt_bytes hrlp h rfl
  have hprice := decodePrice_priceItem hrlp hgasPrices (h.item hrlp (i := 4) rfl)
  have hpriority := decodePrice_priceItem hrlp hgasPrices (h.item hrlp (i := 5) rfl)
  have hcall := decodeAction_actionItem hrlp haddresses haction (h.item hrlp (i := 7) rfl)
  rw [hindex] at htable
  simp only [decodeTxItem, h0, h1, h2, h3, h4, h5, h6, h7, h8, hindex, htable, hprice, hpriority,
    hcall, decodeU256Bytes_u256ToBe, Except.ok_bind, baseNonceOf]
  rfl

/-- What may stand at the end of a list. -/
theorem getElem?_toList {α : Type} {l : List α} {n : ℕ} (hn : l.length = n) (o : Option α) :
    (l ++ o.toList)[n]? = o := by
  subst hn
  rw [List.getElem?_append_right (Nat.le_refl _), Nat.sub_self]
  cases o <;> rfl

/-- What a native transaction adds. -/
def nativeItems (crates : Crates T) (blockEpoch : UInt64) (native : TypedNativeTransaction T) :
    List (RlpItem T) :=
  let fields := crates.primitives.fields (.native native)
  [.u64 (crates.primitives.storageLimit native),
    .u64 (zigzagEncode ((crates.primitives.epochHeight native).toInt64 - blockEpoch.toInt64)),
    .bytes fields.data] ++ (fields.accessList.map .accessList).toList

/-- The height of a native transaction is an offset from the epoch of its block. -/
theorem epochHeight_eq (blockEpoch height : UInt64) :
    (blockEpoch.toInt64 + zigzagDecode (zigzagEncode (height.toInt64 - blockEpoch.toInt64))).toUInt64 =
      height := by
  rw [zigzagDecode_encode, Int64.add_comm, Int64.sub_add_cancel]
  simp

/-- What a native transaction adds is read back. -/
theorem decodeNativeTx_nativeItems (hlawful : crates.Lawful) {head : List (RlpItem T)}
    (hhead : head.length = 9) {native : TypedNativeTransaction T} (sender : Address)
    (nonce gas : U256)
    (h : Readable crates.rlp (.list (head ++ nativeItems crates blockEpoch native))) :
    let fields := crates.primitives.fields (.native native)
    decodeNativeTx crates (crates.rlp.encode (.list (head ++ nativeItems crates blockEpoch native)))
        fields.typeId.toUInt64 sender blockEpoch
        { nonce, gasPrice := fields.gasPrice, priorityPrice := fields.maxPriorityGasPrice, gas,
          action := fields.action, value := fields.value } =
      .ok (crates.primitives.fakeSignRpc ((Transaction.native native).recoded nonce gas) sender
        .native) := by
  intro fields
  have hrlp := hlawful.rlp
  -- the fields of the space come after the nine of the head
  have hget : ∀ k, (head ++ nativeItems crates blockEpoch native)[9 + k]? =
      (nativeItems crates blockEpoch native)[k]? := by
    intro k
    rw [List.getElem?_append_right (by omega), hhead, Nat.add_sub_cancel_left]
  have h9 := valAt_u64 hrlp h (hget 0)
  have h10 := valAt_u64 hrlp h (hget 1)
  have h11 := valAt_bytes hrlp h (hget 2)
  have h12 := optionalList_encode hrlp h hrlp.asAccessList_encode
    ((hget 3).trans (getElem?_toList rfl _))
  have hheight := epochHeight_eq blockEpoch (crates.primitives.epochHeight native)
  have hprimitives := hlawful.primitives
  simp only [decodeNativeTx, h9, h10, h11, h12, hheight, Except.ok_bind]
  -- each kind of transaction has its own fields
  cases native with
  | cip155 tx =>
    have hfields := hprimitives.fields_cip155 tx
    simp [fields, hfields, hprimitives.storageLimit_cip155, hprimitives.epochHeight_cip155,
      Transaction.recoded]
  | cip2930 tx =>
    have hfields := hprimitives.fields_cip2930 tx
    simp [fields, hfields, hprimitives.storageLimit_cip2930, hprimitives.epochHeight_cip2930,
      Transaction.recoded]
  | cip1559 tx =>
    have hfields := hprimitives.fields_cip1559 tx
    simp [fields, hfields, hprimitives.storageLimit_cip1559, hprimitives.epochHeight_cip1559,
      Transaction.recoded]

/-- What a transaction of the other space adds. -/
def ethereumItems (crates : Crates T) (ethereum : EthereumTransaction T) : List (RlpItem T) :=
  let fields := crates.primitives.fields (.ethereum ethereum)
  .bytes fields.data :: ((fields.accessList.map .accessList).toList ++
    (fields.authorizationList.map .authorizationList).toList)

/-- What a transaction of the other space adds is read back. -/
theorem decodeEthereumTx_ethereumItems (hlawful : crates.Lawful) {head : List (RlpItem T)}
    (hhead : head.length = 9) {ethereum : EthereumTransaction T} (sender : Address)
    (nonce gas : U256) (h : Readable crates.rlp (.list (head ++ ethereumItems crates ethereum))) :
    let fields := crates.primitives.fields (.ethereum ethereum)
    decodeEthereumTx crates (crates.rlp.encode (.list (head ++ ethereumItems crates ethereum)))
        fields.typeId.toUInt64 sender
        { nonce, gasPrice := fields.gasPrice, priorityPrice := fields.maxPriorityGasPrice, gas,
          action := fields.action, value := fields.value } =
      .ok (crates.primitives.fakeSignRpc ((Transaction.ethereum ethereum).recoded nonce gas) sender
        .ethereum) := by
  intro fields
  have hrlp := hlawful.rlp
  have hprimitives := hlawful.primitives
  have hget : ∀ k, (head ++ ethereumItems crates ethereum)[9 + k]? =
      (ethereumItems crates ethereum)[k]? := by
    intro k
    rw [List.getElem?_append_right (by omega), hhead, Nat.add_sub_cancel_left]
  have h9 := valAt_bytes hrlp h (hget 0)
  -- the access list is the next field, if the kind has one
  have hlist : ∀ value : Option (List T.AccessListItem),
      (ethereumItems crates ethereum)[1]? = value.map .accessList →
        optionalList crates.rlp crates.rlp.asAccessList
          (crates.rlp.encode (.list (head ++ ethereumItems crates ethereum))) 10 =
            .ok (value.getD []) := fun value hvalue =>
    optionalList_encode hrlp h hrlp.asAccessList_encode ((hget 1).trans hvalue)
  cases ethereum with
  | eip155 tx =>
    have hfields := hprimitives.fields_eip155 tx
    have h10 := hlist none (by simp [ethereumItems, hfields])
    simp [fields, decodeEthereumTx, h9, h10, hfields, Transaction.recoded]
  | eip2930 tx =>
    have hfields := hprimitives.fields_eip2930 tx
    have h10 := hlist (some tx.accessList) (by simp [ethereumItems, hfields])
    simp [fields, decodeEthereumTx, h9, h10, hfields, Transaction.recoded]
  | eip1559 tx =>
    have hfields := hprimitives.fields_eip1559 tx
    have h10 := hlist (some tx.accessList) (by simp [ethereumItems, hfields])
    simp [fields, decodeEthereumTx, h9, h10, hfields, Transaction.recoded]
  -- and the authorizations are the last one
  | eip7702 tx =>
    have hfields := hprimitives.fields_eip7702 tx
    have h10 := hlist (some tx.accessList) (by simp [ethereumItems, hfields])
    have h11 : optionalList crates.rlp crates.rlp.asAuthorizationList _ 11 =
        .ok ((some tx.authorizationList).getD []) :=
      optionalList_encode hrlp h hrlp.asAuthorizationList_encode
        ((hget 2).trans (by simp [ethereumItems, hfields]))
    simp [fields, decodeEthereumTx, h9, h10, h11, hfields, Transaction.recoded]

/-- **A transaction is read back**, but for its signature and its chain id. Its nonce is the sum of
the base of its sender and of what was written. -/
theorem decodeTxItem_txItem (hlawful : crates.Lawful)
    (haddresses : addresses.length < UInt64.size) (hgasPrices : gasPrices.length < UInt64.size)
    (hsender : (Assoc.indexOf addresses).get tx.sender = some senderIndex)
    (haction : actionItem (crates.primitives.fields tx.unsigned).action (Assoc.indexOf addresses) =
      some action)
    (h : Readable crates.rlp (txItem crates blockEpoch (Assoc.indexOf gasPrices) senderNonceIndex tx
      senderIndex action)) :
    decodeTxItem crates (crates.rlp.encode (txItem crates blockEpoch (Assoc.indexOf gasPrices)
        senderNonceIndex tx senderIndex action)) blockEpoch addresses gasPrices senderBaseNonces =
      tx.readBack crates <$> crates.addU64 (baseNonceOf senderBaseNonces senderIndex)
        (encodedNonce senderNonceIndex senderIndex
          (lowU64 (crates.primitives.fields tx.unsigned).nonce)) := by
  unfold SignedTransaction.readBack
  -- by cases on the space, of which the marker tells
  cases htx : tx.unsigned with
  | native native =>
    have hitem : txItem crates blockEpoch (Assoc.indexOf gasPrices) senderNonceIndex tx senderIndex
        action = .list (.u8 0 :: headItems crates (Assoc.indexOf gasPrices) senderNonceIndex tx
          senderIndex action ++ nativeItems crates blockEpoch native) := by
      unfold txItem headItems nativeItems
      rw [htx]
      simp only [List.append_assoc]
    rw [hitem] at h ⊢
    have hhead := decodeTxItem_headItems hlawful blockEpoch senderBaseNonces haddresses hgasPrices
      hsender haction h
    have hrest : ∀ nonce gas, _ := fun nonce gas =>
      decodeNativeTx_nativeItems hlawful rfl tx.sender nonce gas h
    rw [hhead, htx]
    simp only [if_true, hrest]
    rfl
  | ethereum ethereum =>
    have hitem : txItem crates blockEpoch (Assoc.indexOf gasPrices) senderNonceIndex tx senderIndex
        action = .list (.u8 2 :: headItems crates (Assoc.indexOf gasPrices) senderNonceIndex tx
          senderIndex action ++ ethereumItems crates ethereum) := by
      unfold txItem headItems ethereumItems
      rw [htx]
      simp only [List.cons_append, List.nil_append]
    rw [hitem] at h ⊢
    have hhead := decodeTxItem_headItems hlawful blockEpoch senderBaseNonces haddresses hgasPrices
      hsender haction h
    have hrest : ∀ nonce gas, _ := fun nonce gas =>
      decodeEthereumTx_ethereumItems hlawful rfl tx.sender nonce gas h
    have hspace : (2 : UInt8) ≠ 0 := by decide
    rw [hhead, htx]
    simp only [if_neg hspace, if_true, hrest]
    rfl

end Transaction

/-! ## Rewards and unlock events -/

theorem decodePosRewardAccount_accountItem (hlawful : crates.Lawful) {accounts : List PosRewardAccount}
    (h : Readable crates.rlp (.list (accounts.map accountItem))) {j : ℕ} {account : PosRewardAccount}
    (haccount : accounts[j]? = some account) :
    decodePosRewardAccount crates.rlp (crates.rlp.encode (.list (accounts.map accountItem))) j =
      .ok account := by
  have hrlp := hlawful.rlp
  have hitem : (accounts.map (accountItem (T := T)))[j]? = some (accountItem account) := by
    rw [List.getElem?_map, haccount]
    rfl
  have haccountRead := h.item hrlp hitem
  have hat := itemAt_encode hrlp h hitem
  have h0 : valAt crates.rlp crates.rlp.asBytes _ 0 = _ := valAt_bytes hrlp haccountRead rfl
  have h1 : valAt crates.rlp crates.rlp.asBytes _ 1 = _ := valAt_bytes hrlp haccountRead rfl
  have h2 : valAt crates.rlp crates.rlp.asBytes _ 2 = _ := valAt_bytes hrlp haccountRead rfl
  simp only [decodePosRewardAccount, hat, accountItem, h0, h1, h2, Except.ok_bind,
    ensure_of (Address.length_asBytes _), ensure_of (H256.length_asBytes _),
    decodeU256Bytes_u256ToBe, Address.fromSlice_asBytes, H256.fromSlice_asBytes, Except.pure_def]

theorem decodePosReward_posRewardItem (hlawful : crates.Lawful) {entry : PosRewardEntry}
    (h : Readable crates.rlp (posRewardItem entry)) :
    decodePosReward crates.rlp (crates.rlp.encode (posRewardItem entry)) = .ok entry := by
  have hrlp := hlawful.rlp
  have hrewards := itemAt_encode (i := 1) hrlp h rfl
  have hread := h.item (i := 1) hrlp rfl
  have hcount := itemCount_encode hrlp hread
  have h2 : valAt crates.rlp crates.rlp.asBytes _ 2 = _ := valAt_bytes hrlp h rfl
  rw [List.length_map] at hcount
  have haccounts : (List.range entry.accountRewards.length).mapM (decodePosRewardAccount crates.rlp
      (crates.rlp.encode (.list (entry.accountRewards.map accountItem)))) =
        .ok entry.accountRewards := by
    rw [mapM_eq_ok_iff, List.forall₂_iff_get]
    refine ⟨by simp, fun j hj hj' => ?_⟩
    rw [List.get_eq_getElem, List.getElem_range]
    exact decodePosRewardAccount_accountItem hlawful hread (List.getElem?_eq_getElem hj')
  simp only [decodePosReward, posRewardItem, hrewards, hcount, haccounts, h2, Except.ok_bind,
    ensure_of (H256.length_asBytes _), H256.fromSlice_asBytes, Except.pure_def]

theorem decodeUnlockEvent_unlockItem (hlawful : crates.Lawful) {entry : UnlockEntry}
    (h : Readable crates.rlp (unlockItem entry)) :
    decodeUnlockEvent crates.rlp (crates.rlp.encode (unlockItem entry)) = .ok entry := by
  have hrlp := hlawful.rlp
  have h1 : valAt crates.rlp crates.rlp.asBytes _ 1 = _ := valAt_bytes hrlp h rfl
  have h2 : valAt crates.rlp crates.rlp.asU64 _ 2 = _ := valAt_u64 hrlp h rfl
  simp only [decodeUnlockEvent, unlockItem, h1, h2, Except.ok_bind,
    ensure_of (H256.length_asBytes _), H256.fromSlice_asBytes, Except.pure_def]

end Cfxpack
