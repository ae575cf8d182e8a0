import CfxMinimalExecution.Cfxpack.Codec
import CfxMinimalExecution.Library.Lookup

/-!
# Packets, and the crates the packet layer calls

The transaction types are those of the crate `primitives`. What this crate, `rlp` and `snap` compute
is a parameter, with the laws the packet layer relies on.

## Main definitions

* `Transaction`, `SignedTransaction`: the transaction types
* `Block`, `Packet`: the decoded form of a packet
* `Primitives`, `Rlp`, `Snap`, `Crates`: the functions of the crates
* `Crates.Lawful`: their laws
-/

namespace Cfxpack

/-- A 20-byte value. -/
structure Address where
  bytes : Vector UInt8 20
deriving DecidableEq

namespace Address

def asBytes (a : Address) : Bytes := a.bytes.toList

def fromSlice (b : Bytes) : Address := ⟨Vector.ofFn fun i => b.getD i 0⟩

def zero : Address := ⟨Vector.replicate 20 0⟩

@[simp] theorem length_asBytes (a : Address) : a.asBytes.length = 20 := by simp [asBytes]

@[simp] theorem fromSlice_asBytes (a : Address) : fromSlice a.asBytes = a := by
  obtain ⟨v⟩ := a
  refine congrArg Address.mk (Vector.ext fun i hi => ?_)
  simp [asBytes]

end Address

/-! ## Transactions -/

/-- The types of `primitives` that a packet only carries along. -/
structure PrimitiveTypes where
  AccessListItem : Type
  AuthorizationListItem : Type
  /-- The signature of a signed transaction, with the key and the hash that are cached there. -/
  Signature : Type

inductive Action where
  | create
  | call (address : Address)
deriving DecidableEq

inductive Space where
  | native
  | ethereum
deriving DecidableEq

structure NativeTransaction where
  nonce : U256
  gasPrice : U256
  gas : U256
  action : Action
  value : U256
  storageLimit : UInt64
  epochHeight : UInt64
  chainId : UInt32
  data : Bytes

variable (T : PrimitiveTypes)

structure Cip2930Transaction where
  nonce : U256
  gasPrice : U256
  gas : U256
  action : Action
  value : U256
  storageLimit : UInt64
  epochHeight : UInt64
  chainId : UInt32
  data : Bytes
  accessList : List T.AccessListItem

structure Cip1559Transaction where
  nonce : U256
  maxPriorityFeePerGas : U256
  maxFeePerGas : U256
  gas : U256
  action : Action
  value : U256
  storageLimit : UInt64
  epochHeight : UInt64
  chainId : UInt32
  data : Bytes
  accessList : List T.AccessListItem

inductive TypedNativeTransaction where
  | cip155 (tx : NativeTransaction)
  | cip2930 (tx : Cip2930Transaction T)
  | cip1559 (tx : Cip1559Transaction T)

structure Eip155Transaction where
  nonce : U256
  gasPrice : U256
  gas : U256
  action : Action
  value : U256
  chainId : Option UInt32
  data : Bytes

structure Eip2930Transaction where
  chainId : UInt32
  nonce : U256
  gasPrice : U256
  gas : U256
  action : Action
  value : U256
  data : Bytes
  accessList : List T.AccessListItem

structure Eip1559Transaction where
  chainId : UInt32
  nonce : U256
  maxPriorityFeePerGas : U256
  maxFeePerGas : U256
  gas : U256
  action : Action
  value : U256
  data : Bytes
  accessList : List T.AccessListItem

structure Eip7702Transaction where
  chainId : UInt32
  nonce : U256
  maxPriorityFeePerGas : U256
  maxFeePerGas : U256
  gas : U256
  destination : Address
  value : U256
  data : Bytes
  accessList : List T.AccessListItem
  authorizationList : List T.AuthorizationListItem

inductive EthereumTransaction where
  | eip155 (tx : Eip155Transaction)
  | eip2930 (tx : Eip2930Transaction T)
  | eip1559 (tx : Eip1559Transaction T)
  | eip7702 (tx : Eip7702Transaction T)

inductive Transaction where
  | native (tx : TypedNativeTransaction T)
  | ethereum (tx : EthereumTransaction T)

structure SignedTransaction where
  unsigned : Transaction T
  sender : Address
  signature : T.Signature

/-! ## Packets -/

def packetEpochs : UInt64 := 2000

def headerFixedLen : ℕ := 93

def headerOffsetCount : ℕ := 8

def headerLen : ℕ := headerFixedLen + headerOffsetCount * 4

def flagAdaptive : UInt8 := (1 : UInt8) <<< 0
def flagPivot : UInt8 := (1 : UInt8) <<< 1
def flagEspace : UInt8 := (1 : UInt8) <<< 2
def flagHasTransactions : UInt8 := (1 : UInt8) <<< 3
def flagTxCompressed : UInt8 := (1 : UInt8) <<< 4
def flagSkippedExecution : UInt8 := (1 : UInt8) <<< 5
def flagZeroTotalReward : UInt8 := (1 : UInt8) <<< 6

structure PosLookupEntry where
  hash : H256
  heightOffset : UInt16

/-- A `usize` of the entry is a word of 64 bits. -/
structure SenderBaseNonce where
  senderIndex : UInt64
  baseNonce : UInt64

structure PosRewardAccount where
  address : Address
  posIdentifier : H256
  reward : U256
deriving DecidableEq

structure PosRewardEntry where
  accountRewards : List PosRewardAccount
  executionEpochHash : H256
deriving DecidableEq

structure UnlockEntry where
  identifier : H256
  unlocked : UInt64
deriving DecidableEq

structure Block where
  epoch : UInt64
  index : ℕ
  hash : H256
  deferredStateRoot : H256
  deferredReceiptsRoot : H256
  deferredLogsBloomHash : H256
  flags : UInt8
  author : Address
  timestamp : UInt64
  difficulty : U256
  gasLimit : U256
  basePriceCore : U256
  basePriceEspace : U256
  height : UInt64
  blame : UInt64
  finalizedEpoch : UInt64
  baseReward : U256
  transactions : List (SignedTransaction T)
  transactionRefs : List (Option (ℕ × ℕ))
  posRewards : List PosRewardEntry
  unlockEvents : List UnlockEntry
  posView : Option UInt64

structure Packet where
  prevLastHash : H256
  prevLastDeferredStateRoot : H256
  firstBlockNumber : UInt64
  minTimestamp : UInt64
  minHeight : UInt64
  minPosHeight : UInt64
  addresses : List Address
  posEntries : List PosLookupEntry
  difficulties : List U256
  senderBaseNonces : List SenderBaseNonce
  gasPrices : List U256
  blocks : List (Block T)

variable {T}

/-- Whether a flag is set. -/
def Block.has (block : Block T) (flag : UInt8) : Bool := block.flags &&& flag ≠ 0

/-! ## The crate `primitives` -/

variable (T)

/-- What a transaction answers about its fields. -/
structure TxFields where
  typeId : UInt8
  nonce : U256
  gasPrice : U256
  maxPriorityGasPrice : U256
  gas : U256
  action : Action
  value : U256
  data : Bytes
  accessList : Option (List T.AccessListItem)
  authorizationList : Option (List T.AuthorizationListItem)

structure Primitives where
  fields : Transaction T → TxFields T
  storageLimit : TypedNativeTransaction T → UInt64
  epochHeight : TypedNativeTransaction T → UInt64
  hash : SignedTransaction T → H256
  space : SignedTransaction T → Space
  fakeSignRpc : Transaction T → Address → Space → SignedTransaction T

variable {T}

/-- The accessors answer with the fields of the transaction's type; a legacy transaction has no
access list, its priority price is its gas price, and an EIP-7702 transaction calls its
destination. A fake signature has the sender it is made for. -/
structure Primitives.Lawful (primitives : Primitives T) : Prop where
  fields_cip155 : ∀ tx, primitives.fields (.native (.cip155 tx)) =
    ⟨0, tx.nonce, tx.gasPrice, tx.gasPrice, tx.gas, tx.action, tx.value, tx.data, none, none⟩
  fields_cip2930 : ∀ tx, primitives.fields (.native (.cip2930 tx)) =
    ⟨1, tx.nonce, tx.gasPrice, tx.gasPrice, tx.gas, tx.action, tx.value, tx.data,
      some tx.accessList, none⟩
  fields_cip1559 : ∀ tx, primitives.fields (.native (.cip1559 tx)) =
    ⟨2, tx.nonce, tx.maxFeePerGas, tx.maxPriorityFeePerGas, tx.gas, tx.action, tx.value, tx.data,
      some tx.accessList, none⟩
  fields_eip155 : ∀ tx, primitives.fields (.ethereum (.eip155 tx)) =
    ⟨0, tx.nonce, tx.gasPrice, tx.gasPrice, tx.gas, tx.action, tx.value, tx.data, none, none⟩
  fields_eip2930 : ∀ tx, primitives.fields (.ethereum (.eip2930 tx)) =
    ⟨1, tx.nonce, tx.gasPrice, tx.gasPrice, tx.gas, tx.action, tx.value, tx.data,
      some tx.accessList, none⟩
  fields_eip1559 : ∀ tx, primitives.fields (.ethereum (.eip1559 tx)) =
    ⟨2, tx.nonce, tx.maxFeePerGas, tx.maxPriorityFeePerGas, tx.gas, tx.action, tx.value, tx.data,
      some tx.accessList, none⟩
  fields_eip7702 : ∀ tx, primitives.fields (.ethereum (.eip7702 tx)) =
    ⟨4, tx.nonce, tx.maxFeePerGas, tx.maxPriorityFeePerGas, tx.gas, .call tx.destination, tx.value,
      tx.data, some tx.accessList, some tx.authorizationList⟩
  storageLimit_cip155 : ∀ tx, primitives.storageLimit (.cip155 tx) = tx.storageLimit
  storageLimit_cip2930 : ∀ tx, primitives.storageLimit (.cip2930 tx) = tx.storageLimit
  storageLimit_cip1559 : ∀ tx, primitives.storageLimit (.cip1559 tx) = tx.storageLimit
  epochHeight_cip155 : ∀ tx, primitives.epochHeight (.cip155 tx) = tx.epochHeight
  epochHeight_cip2930 : ∀ tx, primitives.epochHeight (.cip2930 tx) = tx.epochHeight
  epochHeight_cip1559 : ∀ tx, primitives.epochHeight (.cip1559 tx) = tx.epochHeight
  unsigned_fakeSignRpc : ∀ tx sender space,
    (primitives.fakeSignRpc tx sender space).unsigned = tx
  sender_fakeSignRpc : ∀ tx sender space, (primitives.fakeSignRpc tx sender space).sender = sender

/-! ## The crate `rlp` -/

variable (T)

/-- A call that appends to a stream. -/
inductive RlpOp where
  | beginList (len : ℕ)
  | u8 (value : UInt8)
  | u64 (value : UInt64)
  | bytes (value : Bytes)
  | accessList (value : List T.AccessListItem)
  | authorizationList (value : List T.AuthorizationListItem)

/-- A stream is the calls that have been made on it. -/
abbrev RlpStream := List (RlpOp T)

/-- What a finished stream spells. -/
inductive RlpItem where
  | u8 (value : UInt8)
  | u64 (value : UInt64)
  | bytes (value : Bytes)
  | accessList (value : List T.AccessListItem)
  | authorizationList (value : List T.AuthorizationListItem)
  | list (items : List RlpItem)

/-- The reading functions work on the bytes of an item. -/
structure Rlp where
  out : RlpStream T → Bytes
  itemCount : Bytes → Except String ℕ
  itemAt : Bytes → ℕ → Except String Bytes
  asU8 : Bytes → Except String UInt8
  asU64 : Bytes → Except String UInt64
  asBytes : Bytes → Except String Bytes
  asAccessList : Bytes → Except String (List T.AccessListItem)
  asAuthorizationList : Bytes → Except String (List T.AuthorizationListItem)

variable {T}

mutual

/-- The calls that spell an item. -/
def RlpItem.ops : RlpItem T → RlpStream T
  | .u8 value => [.u8 value]
  | .u64 value => [.u64 value]
  | .bytes value => [.bytes value]
  | .accessList value => [.accessList value]
  | .authorizationList value => [.authorizationList value]
  | .list items => .beginList items.length :: RlpItem.opsList items

def RlpItem.opsList : List (RlpItem T) → RlpStream T
  | [] => []
  | item :: items => item.ops ++ RlpItem.opsList items

end

/-- The bytes of an item. -/
def Rlp.encode (rlp : Rlp T) (item : RlpItem T) : Bytes := rlp.out item.ops

/-- What was appended is read back, for items whose length is a word. -/
structure Rlp.Lawful (rlp : Rlp T) : Prop where
  itemCount_encode : ∀ items, (rlp.encode (.list items)).length < UInt64.size →
    rlp.itemCount (rlp.encode (.list items)) = .ok items.length
  itemAt_encode : ∀ items i (h : i < items.length),
    (rlp.encode (.list items)).length < UInt64.size →
      rlp.itemAt (rlp.encode (.list items)) i = .ok (rlp.encode items[i])
  asU8_encode : ∀ value, rlp.asU8 (rlp.encode (.u8 value)) = .ok value
  asU64_encode : ∀ value, rlp.asU64 (rlp.encode (.u64 value)) = .ok value
  asBytes_encode : ∀ value, (rlp.encode (.bytes value)).length < UInt64.size →
    rlp.asBytes (rlp.encode (.bytes value)) = .ok value
  asAccessList_encode : ∀ value, (rlp.encode (.accessList value)).length < UInt64.size →
    rlp.asAccessList (rlp.encode (.accessList value)) = .ok value
  asAuthorizationList_encode : ∀ value,
    (rlp.encode (.authorizationList value)).length < UInt64.size →
      rlp.asAuthorizationList (rlp.encode (.authorizationList value)) = .ok value
  length_items_le : ∀ items, items.length ≤ (rlp.encode (.list items)).length
  length_item_le : ∀ items, ∀ item ∈ items,
    (rlp.encode item).length ≤ (rlp.encode (.list items)).length

/-! ## The crate `snap` -/

structure Snap where
  compressVec : Bytes → Except String Bytes
  decompressVec : Bytes → Except String Bytes

/-- Compression takes inputs below 4 GiB and its output has a documented bound. -/
structure Snap.Lawful (snap : Snap) : Prop where
  decompressVec_compressVec : ∀ x y, snap.compressVec x = .ok y → snap.decompressVec y = .ok x
  length_compressVec : ∀ x y, snap.compressVec x = .ok y →
    x.length < UInt32.size ∧ y.length ≤ 32 + x.length + x.length / 6

/-! ## The environment of the packet layer -/

variable (T)

/-- The crates, and the profile the program is built with. -/
structure Crates extends Profile where
  primitives : Primitives T
  rlp : Rlp T
  snap : Snap

variable {T}

structure Crates.Lawful (crates : Crates T) : Prop where
  primitives : crates.primitives.Lawful
  rlp : crates.rlp.Lawful
  snap : crates.snap.Lawful

/-- The error of a crate, passed on with `?`. -/
def passOn {α : Type} : Except String α → Result α
  | .ok a => .ok a
  | .error message => .error (.error message)

@[simp] theorem passOn_ok {α : Type} (a : α) : passOn (.ok a) = .ok a := rfl

@[simp] theorem passOn_eq_ok {α : Type} {r : Except String α} {a : α} :
    passOn r = .ok a ↔ r = .ok a := by
  cases r <;> simp [passOn]

end Cfxpack
