import CfxMinimalExecution.Extractor.RawBlocks
import Mathlib.Data.List.Sort

/-!
# The tables of a packet

## Main definitions

* `Frequency`: counts, in the order in which the values are first seen
* `buildTables`: the tables of the blocks
-/

namespace Extractor

open Cfxpack

/-! ## Frequencies -/

/-- Counts: every value with its count and its order. -/
structure Frequency (α : Type) where
  counts : Assoc α (ℕ × ℕ)
  nextOrder : ℕ

namespace Frequency

variable {α : Type} [DecidableEq α]

def default : Frequency α := ⟨[], 0⟩

def add (stats : Frequency α) (value : α) : Frequency α :=
  match stats.counts.get value with
  | some (count, order) => { stats with counts := stats.counts.insert value (count + 1, order) }
  | none =>
    { counts := stats.counts.insert value (1, stats.nextOrder), nextOrder := stats.nextOrder + 1 }

/-- Larger counts come first, and of equal counts the one first seen. -/
def Before (a b : α × ℕ × ℕ) : Prop := b.2.1 < a.2.1 ∨ (a.2.1 = b.2.1 ∧ a.2.2 ≤ b.2.2)

instance (a b : α × ℕ × ℕ) : Decidable (Before a b) := inferInstanceAs (Decidable (_ ∨ _))

/-- The orders are distinct, so that the order in which a hash map is walked does not matter. -/
def intoSortedWithCounts (stats : Frequency α) : List (α × ℕ) :=
  (stats.counts.entries.insertionSort Before).map fun entry => (entry.1, entry.2.1)

def intoSorted (stats : Frequency α) : List α := stats.intoSortedWithCounts.map Prod.fst

end Frequency

variable {T : PrimitiveTypes} (primitives : Primitives T)

/-! ## The tables -/

/-- The addresses of a transaction that are looked up: its sender, and what it calls. -/
def txAddresses (tx : SignedTransaction T) : List Address :=
  match (primitives.fields tx.unsigned).action with
  | .call address => [tx.sender, address]
  | .create => [tx.sender]

def blockAddresses (block : RawBlock T) : List Address :=
  block.header.author :: block.body.flatMap (txAddresses primitives)

def buildAddressTable (blocks : List (RawBlock T)) : List Address :=
  ((blocks.flatMap (blockAddresses primitives)).foldl Frequency.add Frequency.default).intoSorted

/-- The values of a list where they are first seen. -/
def firstSeen {α : Type} [DecidableEq α] (values : List α) : List α :=
  values.foldl (fun out value => if value ∈ out then out else out ++ [value]) []

def buildDifficultyTable (blocks : List (RawBlock T)) : List U256 :=
  firstSeen (blocks.map (·.header.difficulty))

/-- The prices of a block: those of its header and those of its transactions. -/
def blockPrices (block : RawBlock T) : List U256 :=
  (block.header.basePrice.toList.flatMap fun base => [base.1, base.2]) ++
    block.body.flatMap fun tx =>
      let fields := primitives.fields tx.unsigned
      [fields.gasPrice, fields.maxPriorityGasPrice]

def buildGasPriceTable (blocks : List (RawBlock T)) : List U256 :=
  let stats := (blocks.flatMap (blockPrices primitives)).foldl Frequency.add Frequency.default
  ((stats.intoSortedWithCounts.filter fun entry => 3 < entry.2).take 16).map Prod.fst

/-- One round of the loop over the transactions. -/
def pushNonce (addressIndex : Assoc Address ℕ) (nonces : Assoc ℕ (List UInt64))
    (tx : SignedTransaction T) : Assoc ℕ (List UInt64) :=
  match addressIndex.get tx.sender with
  | some senderIndex =>
    nonces.insert senderIndex ((nonces.get senderIndex).getD [] ++
      [lowU64 (primitives.fields tx.unsigned).nonce])
  | none => nonces

def minNonce : List UInt64 → UInt64
  | [] => 0
  | nonce :: nonces => nonces.foldl minU64 nonce

/-- What a base saves of the lengths of the nonces. -/
def nonceSaving (baseNonce : UInt64) (values : List UInt64) : ℤ :=
  values.foldl (fun saving nonce => saving +
    ((uleb128Len nonce : ℤ) - (uleb128Len (saturatingSub nonce baseNonce) : ℤ))) 0

def buildSenderBaseNonceTable (blocks : List (RawBlock T)) (addressIndex : Assoc Address ℕ) :
    List SenderBaseNonce :=
  let nonces := (blocks.flatMap (·.body)).foldl (pushNonce primitives addressIndex) []
  let out := nonces.entries.filterMap fun entry =>
    let baseNonce := minNonce entry.2
    if 16 ≤ nonceSaving baseNonce entry.2 then
      some { senderIndex := UInt64.ofNat entry.1, baseNonce : SenderBaseNonce }
    else none
  out.insertionSort fun a b => a.senderIndex ≤ b.senderIndex

/-- One round of the loop over the blocks. -/
def pushPosEntry (posBlocks : Assoc H256 CommittedBlock) (minPosHeight : UInt64)
    (posReferenceEnableHeight : UInt64) (out : List PosLookupEntry) (block : RawBlock T) :
    Result (List PosLookupEntry) :=
  match effectivePosReference block.header posReferenceEnableHeight with
  | none => pure out
  | some posRef => do
    if posRef ∈ out.map (·.hash) then pure out
    else do
      let committed ← okOr "missing cached committed block" (posBlocks.get posRef)
      let heightOffset ← okOr "PoS view below min_pos_height"
        (checkedSub committed.view minPosHeight)
      ensure (heightOffset.toNat < UInt16.size) "PoS height offset exceeds u16"
      pure (out ++ [{ hash := posRef, heightOffset := heightOffset.toUInt16 }])

def buildPosLookup (blocks : List (RawBlock T)) (posBlocks : Assoc H256 CommittedBlock)
    (minPosHeight posReferenceEnableHeight : UInt64) : Result (List PosLookupEntry) :=
  blocks.foldlM (pushPosEntry posBlocks minPosHeight posReferenceEnableHeight) []

structure Tables where
  addresses : List Address
  posEntries : List PosLookupEntry
  difficulties : List U256
  senderBaseNonces : List SenderBaseNonce
  gasPrices : List U256

def buildTables (blocks : List (RawBlock T)) (posBlocks : Assoc H256 CommittedBlock)
    (minPosHeight posReferenceEnableHeight : UInt64) : Result Tables := do
  let addresses := buildAddressTable primitives blocks
  let addressIndex := Assoc.indexOf addresses
  let difficulties := buildDifficultyTable blocks
  let gasPrices := buildGasPriceTable primitives blocks
  let senderBaseNonces := buildSenderBaseNonceTable primitives blocks addressIndex
  let posEntries ← buildPosLookup blocks posBlocks minPosHeight posReferenceEnableHeight
  pure { addresses, posEntries, difficulties, senderBaseNonces, gasPrices }

end Extractor
