import CfxMinimalExecution.Cfxpack.Encode

/-!
# Crates that obey the laws

The laws the packet layer relies on can be met: transactions without access lists, streams with a
tag for every call, and payloads that are stored as they are.

## Main definitions

* `plainOut`, `readItem`: a stream as bytes, and the item it spells
* `plainCrates`: the crates
* `plainPacket`, `transferPacket`: a packet of an empty block, and one of two blocks with transfers

## Main results

* `readItem_plainOut`: what was appended is read back
* `plainCrates_lawful`: the laws hold
-/

namespace Cfxpack

/-- There are no items of access lists, and a signature says nothing. -/
def plainTypes : PrimitiveTypes := ⟨Empty, Empty, Unit⟩

/-! ## Streams -/

/-- A number as ones up to a zero. -/
def unary (n : ℕ) : Bytes := List.replicate n 1 ++ [0]

def readUnary (b : Bytes) : ℕ × Bytes :=
  let n := (b.takeWhile (· = 1)).length
  (n, b.drop (n + 1))

def opBytes : RlpOp plainTypes → Bytes
  | .beginList len => 0 :: unary len
  | .u8 value => [1, value]
  | .u64 value => 2 :: leBytes 8 value.toNat
  | .bytes value => 3 :: (unary value.length ++ value)
  | .accessList _ => [4]
  | .authorizationList _ => [5]

def plainOut (stream : RlpStream plainTypes) : Bytes := stream.flatMap opBytes

/-- Items one after the other. -/
def readItems (readItem : Bytes → Option (RlpItem plainTypes × Bytes)) :
    ℕ → Bytes → Option (List (RlpItem plainTypes) × Bytes)
  | 0, b => some ([], b)
  | n + 1, b => do
    let (item, b) ← readItem b
    let (items, b) ← readItems readItem n b
    pure (item :: items, b)

/-- The item that is spelled at the start, nested up to a depth, and the bytes after it. -/
def readItem : ℕ → Bytes → Option (RlpItem plainTypes × Bytes)
  | depth + 1, 0 :: b => do
    let (len, b) := readUnary b
    let (items, b) ← readItems (readItem depth) len b
    pure (.list items, b)
  | _ + 1, 1 :: value :: b => some (.u8 value, b)
  | _ + 1, 2 :: b => some (.u64 (UInt64.ofNat (leNat (b.take 8))), b.drop 8)
  | _ + 1, 3 :: b =>
    let (len, b) := readUnary b
    some (.bytes (b.take len), b.drop len)
  | _ + 1, 4 :: b => some (.accessList [], b)
  | _ + 1, 5 :: b => some (.authorizationList [], b)
  | _, _ => none

@[simp] theorem readUnary_unary (n : ℕ) (rest : Bytes) : readUnary (unary n ++ rest) = (n, rest) := by
  have hones : ∀ b ∈ List.replicate n (1 : UInt8), decide (b = 1) = true := by
    intro b hb
    simp [List.eq_of_mem_replicate hb]
  have hlen : ((unary n ++ rest).takeWhile (· = 1)).length = n := by
    rw [unary, List.append_assoc, List.takeWhile_append_of_pos hones]
    simp
  rw [readUnary, hlen, unary, List.append_assoc]
  refine congrArg (n, ·) ?_
  rw [← List.drop_drop, List.drop_left' (by simp)]
  rfl

theorem plainOut_list (items : List (RlpItem plainTypes)) : plainOut (RlpItem.list items).ops =
    0 :: (unary items.length ++ plainOut (RlpItem.opsList items)) := by
  simp [RlpItem.ops, plainOut, opBytes]

theorem plainOut_opsList_cons (item : RlpItem plainTypes) (items : List (RlpItem plainTypes)) :
    plainOut (RlpItem.opsList (item :: items)) =
      plainOut item.ops ++ plainOut (RlpItem.opsList items) := by
  simp [RlpItem.opsList, plainOut]

theorem length_plainOut_le {items : List (RlpItem plainTypes)} {item : RlpItem plainTypes}
    (h : item ∈ items) : (plainOut item.ops).length ≤ (plainOut (RlpItem.opsList items)).length := by
  induction items with
  | nil => simp at h
  | cons other items ih =>
    rw [plainOut_opsList_cons, List.length_append]
    rcases List.mem_cons.mp h with rfl | h
    · omega
    · have hle := ih h
      omega

theorem readItems_plainOut {read : Bytes → Option (RlpItem plainTypes × Bytes)}
    {items : List (RlpItem plainTypes)}
    (h : ∀ item ∈ items, ∀ rest, read (plainOut item.ops ++ rest) = some (item, rest)) (rest : Bytes) :
    readItems read items.length (plainOut (RlpItem.opsList items) ++ rest) = some (items, rest) := by
  induction items with
  | nil => rfl
  | cons item items ih =>
    have hrest := ih fun item hitem => h item (List.mem_cons_of_mem _ hitem)
    rw [plainOut_opsList_cons, List.append_assoc, List.length_cons, readItems,
      h item List.mem_cons_self]
    simp [hrest]

/-- **What was appended is read back.** -/
theorem readItem_plainOut (depth : ℕ) (item : RlpItem plainTypes) (rest : Bytes)
    (h : (plainOut item.ops).length ≤ depth) :
    readItem depth (plainOut item.ops ++ rest) = some (item, rest) := by
  induction depth generalizing item rest with
  | zero => cases item <;> simp [RlpItem.ops, plainOut, opBytes] at h
  | succ depth ih =>
    cases item with
    | list items =>
      rw [plainOut_list] at h ⊢
      have hitems : ∀ item ∈ items, ∀ rest,
          readItem depth (plainOut item.ops ++ rest) = some (item, rest) := by
        intro item hitem rest
        have hle := length_plainOut_le hitem
        rw [List.length_cons, List.length_append] at h
        exact ih item rest (by omega)
      rw [List.cons_append, List.append_assoc, readItem, readUnary_unary]
      simp [readItems_plainOut hitems]
    | u8 value => rfl
    | u64 value =>
      have hlen : (leBytes 8 value.toNat).length = 8 := length_leBytes _ _
      simp [RlpItem.ops, plainOut, opBytes, readItem, List.take_left' hlen, List.drop_left' hlen]
    | bytes value => simp [RlpItem.ops, plainOut, opBytes, readItem]
    | accessList value =>
      cases value with
      | nil => rfl
      | cons item => exact item.elim
    | authorizationList value =>
      cases value with
      | nil => rfl
      | cons item => exact item.elim

/-- The item that bytes spell. -/
def itemOf (b : Bytes) : Option (RlpItem plainTypes) := (readItem b.length b).map (·.1)

@[simp] theorem itemOf_plainOut (item : RlpItem plainTypes) : itemOf (plainOut item.ops) = some item := by
  have hread := readItem_plainOut _ item [] (Nat.le_refl _)
  rw [List.append_nil] at hread
  rw [itemOf, hread]
  rfl

def expected {α : Type} (as : RlpItem plainTypes → Option α) (b : Bytes) : Except String α :=
  match (itemOf b).bind as with
  | some a => .ok a
  | none => .error "unexpected item"

def plainRlp : Rlp plainTypes where
  out := plainOut
  itemCount := expected fun
    | .list items => some items.length
    | _ => none
  itemAt b i := expected (fun
    | .list items => items[i]?.map fun item => plainOut item.ops
    | _ => none) b
  asU8 := expected fun
    | .u8 value => some value
    | _ => none
  asU64 := expected fun
    | .u64 value => some value
    | _ => none
  asBytes := expected fun
    | .bytes value => some value
    | _ => none
  asAccessList := expected fun
    | .accessList value => some value
    | _ => none
  asAuthorizationList := expected fun
    | .authorizationList value => some value
    | _ => none

theorem plainRlp_lawful : plainRlp.Lawful where
  itemCount_encode items _ := by simp [plainRlp, Rlp.encode, expected]
  itemAt_encode items i h _ := by simp [plainRlp, Rlp.encode, expected, h]
  asU8_encode value := by simp [plainRlp, Rlp.encode, expected]
  asU64_encode value := by simp [plainRlp, Rlp.encode, expected]
  asBytes_encode value _ := by simp [plainRlp, Rlp.encode, expected]
  asAccessList_encode value _ := by simp [plainRlp, Rlp.encode, expected]
  asAuthorizationList_encode value _ := by simp [plainRlp, Rlp.encode, expected]
  length_items_le items := by
    simp only [plainRlp, Rlp.encode, plainOut_list, unary, List.length_cons, List.length_append,
      List.length_replicate]
    omega
  length_item_le items item hitem := by
    have hle := length_plainOut_le hitem
    simp only [plainRlp, Rlp.encode, plainOut_list, List.length_cons, List.length_append]
    omega

/-! ## The crates -/

/-- Payloads are stored as they are. -/
def plainSnap : Snap where
  compressVec x := if x.length < UInt32.size then .ok x else .error "input too large"
  decompressVec := .ok

theorem plainSnap_eq_ok {x y : Bytes} :
    plainSnap.compressVec x = .ok y ↔ x.length < UInt32.size ∧ x = y := by
  rw [show plainSnap.compressVec x =
    if x.length < UInt32.size then .ok x else .error "input too large" from rfl]
  split <;> simp [*]

theorem plainSnap_lawful : plainSnap.Lawful where
  decompressVec_compressVec x y h := by
    obtain ⟨-, rfl⟩ := plainSnap_eq_ok.mp h
    rfl
  length_compressVec x y h := by
    obtain ⟨hlt, rfl⟩ := plainSnap_eq_ok.mp h
    exact ⟨hlt, by omega⟩

def plainPrimitives : Primitives plainTypes where
  fields
    | .native (.cip155 tx) =>
      ⟨0, tx.nonce, tx.gasPrice, tx.gasPrice, tx.gas, tx.action, tx.value, tx.data, none, none⟩
    | .native (.cip2930 tx) =>
      ⟨1, tx.nonce, tx.gasPrice, tx.gasPrice, tx.gas, tx.action, tx.value, tx.data,
        some tx.accessList, none⟩
    | .native (.cip1559 tx) =>
      ⟨2, tx.nonce, tx.maxFeePerGas, tx.maxPriorityFeePerGas, tx.gas, tx.action, tx.value, tx.data,
        some tx.accessList, none⟩
    | .ethereum (.eip155 tx) =>
      ⟨0, tx.nonce, tx.gasPrice, tx.gasPrice, tx.gas, tx.action, tx.value, tx.data, none, none⟩
    | .ethereum (.eip2930 tx) =>
      ⟨1, tx.nonce, tx.gasPrice, tx.gasPrice, tx.gas, tx.action, tx.value, tx.data,
        some tx.accessList, none⟩
    | .ethereum (.eip1559 tx) =>
      ⟨2, tx.nonce, tx.maxFeePerGas, tx.maxPriorityFeePerGas, tx.gas, tx.action, tx.value, tx.data,
        some tx.accessList, none⟩
    | .ethereum (.eip7702 tx) =>
      ⟨4, tx.nonce, tx.maxFeePerGas, tx.maxPriorityFeePerGas, tx.gas, .call tx.destination, tx.value,
        tx.data, some tx.accessList, some tx.authorizationList⟩
  storageLimit
    | .cip155 tx => tx.storageLimit
    | .cip2930 tx => tx.storageLimit
    | .cip1559 tx => tx.storageLimit
  epochHeight
    | .cip155 tx => tx.epochHeight
    | .cip2930 tx => tx.epochHeight
    | .cip1559 tx => tx.epochHeight
  hash tx := H256.fromSlice tx.sender.asBytes
  space tx := match tx.unsigned with
    | .native _ => .native
    | .ethereum _ => .ethereum
  fakeSignRpc tx sender _ := ⟨tx, sender, ()⟩

theorem plainPrimitives_lawful : plainPrimitives.Lawful := by
  constructor <;> intros <;> rfl

/-- The crates, in a build with overflow checks. -/
def plainCrates : Crates plainTypes where
  overflowChecks := true
  primitives := plainPrimitives
  rlp := plainRlp
  snap := plainSnap

theorem plainCrates_lawful : plainCrates.Lawful :=
  ⟨plainPrimitives_lawful, plainRlp_lawful, plainSnap_lawful⟩

/-! ## Two packets -/

/-- A pivot without transactions. -/
def plainBlock : Block plainTypes where
  epoch := 5
  index := 0
  hash := H256.fromSlice [7]
  deferredStateRoot := H256.fromSlice []
  deferredReceiptsRoot := H256.fromSlice []
  deferredLogsBloomHash := H256.fromSlice []
  flags := flagPivot
  author := Address.zero
  timestamp := 9
  difficulty := 1
  gasLimit := 0
  basePriceCore := 0
  basePriceEspace := 0
  height := 5
  blame := 0
  finalizedEpoch := 0
  baseReward := 0
  transactions := []
  transactionRefs := []
  posRewards := []
  unlockEvents := []
  posView := none

/-- A packet of one block. -/
def plainPacket : Packet plainTypes where
  prevLastHash := H256.fromSlice []
  prevLastDeferredStateRoot := H256.fromSlice []
  firstBlockNumber := 0
  minTimestamp := 9
  minHeight := 5
  minPosHeight := 0
  addresses := [Address.zero]
  posEntries := []
  difficulties := [1]
  senderBaseNonces := []
  gasPrices := []
  blocks := [plainBlock]

def plainBytes : Bytes :=
  match encodePacket plainCrates plainPacket with
  | .ok b => b
  | .error _ => []

set_option maxRecDepth 4000 in
theorem encodePacket_plainPacket : encodePacket plainCrates plainPacket = .ok plainBytes := rfl

set_option maxRecDepth 4000 in
theorem length_plainBytes : plainBytes.length = 320 := by decide +kernel

/-- A transfer with a nonce. -/
def plainTransfer (sender target : Address) (nonce : UInt64) : SignedTransaction plainTypes where
  unsigned := .native (.cip155
    { nonce := BitVec.ofNat 256 nonce.toNat, gasPrice := 0, gas := 0, action := .call target, value := 0,
      storageLimit := 0, epochHeight := 0, chainId := 0, data := [] })
  sender
  signature := ()

/-- Another account than the zero address. -/
def otherAddress : Address := Address.fromSlice (List.replicate 20 1)

/-- A pivot with transactions and a PoS view, the deferred hashes of which have no zeros. -/
def transferBlock (index : ℕ) (height posView : UInt64)
    (transactions : List (SignedTransaction plainTypes)) : Block plainTypes :=
  { plainBlock with
    epoch := height
    index
    hash := H256.fromSlice [height.toUInt8]
    deferredStateRoot := H256.fromSlice (List.replicate 32 1)
    deferredReceiptsRoot := H256.fromSlice (List.replicate 32 2)
    deferredLogsBloomHash := H256.fromSlice (List.replicate 32 3)
    height
    transactions
    posView := some posView }

/-- The second block repeats the transfer of the first one, and has one of another sender. The first
sender has a base nonce. -/
def transferPacket (posView : UInt64) : Packet plainTypes :=
  let first := plainTransfer Address.zero otherAddress 7
  let second := plainTransfer otherAddress Address.zero 3
  { plainPacket with
    minHeight := 6
    minPosHeight := 10
    addresses := [Address.zero, otherAddress]
    senderBaseNonces := [⟨0, 5⟩]
    gasPrices := [0]
    blocks := [transferBlock 0 6 posView [first], transferBlock 1 7 posView [first, second]] }

theorem noRefs_transferPacket (posView : UInt64) :
    ∀ block ∈ (transferPacket posView).blocks, block.transactionRefs = [] := by
  simp [transferPacket, transferBlock, plainBlock]

/-- The bytes of the packet whose views are the base. -/
def transferBytes : Bytes :=
  match encodePacket plainCrates (transferPacket 10) with
  | .ok b => b
  | .error _ => []

set_option maxRecDepth 4000 in
theorem encodePacket_transferPacket :
    encodePacket plainCrates (transferPacket 10) = .ok transferBytes := rfl

set_option maxRecDepth 4000 in
theorem length_transferBytes : transferBytes.length = 850 := by decide +kernel

end Cfxpack
