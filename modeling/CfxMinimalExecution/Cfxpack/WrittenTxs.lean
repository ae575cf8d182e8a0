import CfxMinimalExecution.Cfxpack.PayloadItems
import CfxMinimalExecution.Library.BackReferences

/-!
# What the encoder writes for the transactions

A transaction is written in full, or as the position of an earlier one with the same hash.

## Main definitions

* `Block.earlierPosition`: the position that is written for a transaction
* `Packet.written`: what is written for the transactions of a packet
* `IsPayload`: the payload of a block, from what is written for its transactions

## Main results

* `IsEncoding.isPayload`: the payloads of a run of the encoder
-/

namespace Cfxpack

variable {T : PrimitiveTypes}

/-- A position, as two words. -/
def wordPosition (p : ℕ × ℕ) : ℕ × ℕ := ((UInt64.ofNat p.1).toNat, (UInt64.ofNat p.2).toNat)

section

variable (crates : Crates T)

/-- The positions of the transactions of a block, by hash, when it has no references. -/
def Block.hashPositions (block : Block T) : List (H256 × (ℕ × ℕ)) :=
  if block.encodedRefs.isNone then
    block.transactions.zipIdx.map fun entry =>
      (crates.primitives.hash entry.1, (block.index, entry.2))
  else []

/-- The position that is written for a transaction: the reference that the block has for it, or the
first position with its hash, after the positions of the earlier blocks. -/
def Block.earlierPosition (before : List (H256 × (ℕ × ℕ))) (block : Block T)
    (entry : SignedTransaction T × ℕ) : Option (ℕ × ℕ) :=
  match block.encodedRefs with
  | some refs => refs.getD entry.2 none
  | none => (before ++ (block.hashPositions crates).take entry.2).lookup
      (crates.primitives.hash entry.1)

def Block.writtenTx (before : List (H256 × (ℕ × ℕ))) (block : Block T)
    (entry : SignedTransaction T × ℕ) : Written (SignedTransaction T) :=
  match block.earlierPosition crates before entry with
  | some p => .reference (wordPosition p)
  | none => .value entry.1

def Block.written (before : List (H256 × (ℕ × ℕ))) (block : Block T) :
    List (Written (SignedTransaction T)) :=
  block.transactions.zipIdx.map (block.writtenTx crates before)

def writtenBlocks (before : List (H256 × (ℕ × ℕ))) :
    List (Block T) → List (List (Written (SignedTransaction T)))
  | [] => []
  | block :: blocks =>
    block.written crates before :: writtenBlocks (before ++ block.hashPositions crates) blocks

/-- What is written for the transactions of a packet. -/
def Packet.written (input : Packet T) : List (List (Written (SignedTransaction T))) :=
  writtenBlocks crates [] input.blocks

end

/-- What is written for a transaction, spelled by an item. -/
inductive IsWrittenItem (crates : Crates T) (input : Packet T) (blockEpoch : UInt64) :
    Written (SignedTransaction T) → RlpItem T → Prop
  | reference (p : ℕ × ℕ) :
    IsWrittenItem crates input blockEpoch (.reference (wordPosition p)) (refItem p)
  | value {tx : SignedTransaction T} {senderIndex : ℕ} {action : RlpItem T} :
    (Assoc.indexOf input.addresses).get tx.sender = some senderIndex →
    actionItem (crates.primitives.fields tx.unsigned).action (Assoc.indexOf input.addresses) =
      some action →
    IsWrittenItem crates input blockEpoch (.value tx)
      (txItem crates blockEpoch (Assoc.indexOf input.gasPrices) (senderNonceIndex input) tx
        senderIndex action)

/-- The payload of a block, from what is written for its transactions. -/
def IsPayload (crates : Crates T) (input : Packet T) (block : Block T)
    (written : List (Written (SignedTransaction T))) (txPayload : Bytes) : Prop :=
  (block.IsBare ∧ txPayload = []) ∨
    (¬ block.IsBare ∧ ∃ items, List.Forall₂ (IsWrittenItem crates input block.epoch) written items ∧
      txPayload = crates.rlp.encode (.list (blockItems block items)))

variable {crates : Crates T} {input : Packet T} {block : Block T} {before : List (H256 × (ℕ × ℕ))}

@[simp] theorem refItem_wordPosition (p : ℕ × ℕ) : (refItem (wordPosition p) : RlpItem T) = refItem p := by
  simp only [refItem, wordPosition, UInt64.ofNat_toNat]

theorem wordPosition_of_lt {p : ℕ × ℕ} (h₁ : p.1 < UInt64.size) (h₂ : p.2 < UInt64.size) :
    wordPosition p = p := by
  rw [wordPosition, UInt64.toNat_ofNat_of_lt' h₁, UInt64.toNat_ofNat_of_lt' h₂]

/-! ## The transactions of a block -/

theorem hashPositions_of_refs {refs : List (Option (ℕ × ℕ))} (h : block.encodedRefs = some refs) :
    block.hashPositions crates = [] := by simp [Block.hashPositions, h]

theorem hashPositions_of_none (h : block.encodedRefs = none) :
    block.hashPositions crates = block.transactions.zipIdx.map fun entry =>
      (crates.primitives.hash entry.1, (block.index, entry.2)) := by
  simp [Block.hashPositions, h]

theorem take_hashPositions (h : block.encodedRefs = none) {entry : SignedTransaction T × ℕ}
    (hentry : block.transactions[entry.2]? = some entry.1) :
    (block.hashPositions crates).take (entry.2 + 1) = (block.hashPositions crates).take entry.2 ++
      [(crates.primitives.hash entry.1, (block.index, entry.2))] := by
  rw [List.take_add_one, hashPositions_of_none h, List.getElem?_map, List.getElem?_zipIdx, hentry]
  simp

theorem lookup_concat {κ ν : Type} [DecidableEq κ] (l : List (κ × ν)) (k k' : κ) (v : ν) :
    (l ++ [(k, v)]).lookup k' = (l.lookup k').or (if k' = k then some v else none) := by
  rw [List.lookup_append, List.lookup_cons]
  split <;> simp_all

/-- The transactions seen so far are looked up like a list of positions. -/
def SeenAs (seenTxs : SeenTxs) (positions : List (H256 × (ℕ × ℕ))) : Prop :=
  ∀ hash, seenTxs.get hash = positions.lookup hash

/-- The references of a block are as many as its transactions. -/
theorem length_refs {refs : List (Option (ℕ × ℕ))} (h : block.encodedRefs = some refs) :
    refs.length = block.transactions.length := by
  unfold Block.encodedRefs at h
  split at h
  · rename_i hlen
    obtain rfl := Option.some.inj h
    exact hlen
  · cases h

/-- The earlier position is what the loop finds. -/
theorem duplicateRefOf_eq {seenTxs : SeenTxs} {entry : SignedTransaction T × ℕ}
    (hentry : block.transactions[entry.2]? = some entry.1)
    (hseen : SeenAs seenTxs (before ++ (block.hashPositions crates).take entry.2)) :
    duplicateRefOf crates block.encodedRefs seenTxs entry =
      .ok (block.earlierPosition crates before entry) := by
  unfold duplicateRefOf Block.earlierPosition
  cases hrefs : block.encodedRefs with
  | some refs =>
    have hlt := (List.getElem?_eq_some_iff.mp hentry).1
    rw [← length_refs hrefs] at hlt
    simp only [indexAt_eq_ok, List.getD_eq_getElem?_getD, List.getElem?_eq_getElem hlt,
      Option.getD_some]
  | none => exact congrArg Except.ok (hseen _)

/-- **The item of a transaction**, and the positions seen after it. -/
theorem IsTxItem.isWrittenItem {seenTxs seenTxs' : SeenTxs} {entry : SignedTransaction T × ℕ}
    {item : RlpItem T}
    (h : IsTxItem crates block block.encodedRefs (Assoc.indexOf input.addresses)
      (Assoc.indexOf input.gasPrices) (senderNonceIndex input) seenTxs entry item seenTxs')
    (hentry : block.transactions[entry.2]? = some entry.1)
    (hseen : SeenAs seenTxs (before ++ (block.hashPositions crates).take entry.2)) :
    IsWrittenItem crates input block.epoch (block.writtenTx crates before entry) item ∧
      SeenAs seenTxs' (before ++ (block.hashPositions crates).take (entry.2 + 1)) := by
  have hdup := duplicateRefOf_eq hentry hseen
  have hlookup : block.encodedRefs = none → block.earlierPosition crates before entry =
      (before ++ (block.hashPositions crates).take entry.2).lookup
        (crates.primitives.hash entry.1) := by
    intro hnone
    rw [Block.earlierPosition, hnone]
  -- either a reference is written, or the transaction
  unfold Block.writtenTx
  cases h with
  | @ref ref href =>
    rw [href] at hdup
    rw [← Except.ok.inj hdup]
    refine ⟨?_, fun hash => ?_⟩
    · exact .reference ref
    · -- the hash has been seen before
      -- references given by the caller do not look at what has been seen
      cases hrefs : block.encodedRefs with
      | some refs =>
        have hold := hseen hash
        rw [hashPositions_of_refs hrefs, List.take_nil] at hold ⊢
        exact hold
      -- otherwise the hash has its first position
      | none =>
        have hfound := hlookup hrefs
        rw [← Except.ok.inj hdup] at hfound
        rw [hseen hash, take_hashPositions hrefs hentry, ← List.append_assoc, lookup_concat]
        split
        case isTrue heq =>
          rw [heq, ← hfound]
          rfl
        case isFalse => rw [Option.or_none]
  | @tx senderIndex action hnone hsender haction =>
    rw [hnone] at hdup
    rw [← Except.ok.inj hdup]
    refine ⟨.value hsender haction, fun hash => ?_⟩
    cases hrefs : block.encodedRefs with
    | some refs =>
      have hold := hseen hash
      rw [hashPositions_of_refs hrefs, List.take_nil] at hold ⊢
      exact hold
    -- a transaction that is written has not been seen before, and is seen from here on
    | none =>
      have hmissing := hlookup hrefs
      rw [← Except.ok.inj hdup] at hmissing
      rw [Option.isNone_none, if_pos rfl, Assoc.get_insert, take_hashPositions hrefs hentry,
        ← List.append_assoc, lookup_concat]
      split
      case isTrue heq =>
        rw [heq, ← hmissing]
        rfl
      case isFalse => rw [Option.or_none, hseen hash]

theorem TxItems.isWrittenItem {seenTxs seenTxs' : SeenTxs} {txs : List (SignedTransaction T)} {k : ℕ}
    {items : List (RlpItem T)}
    (h : TxItems crates block (Assoc.indexOf input.addresses) (Assoc.indexOf input.gasPrices)
      (senderNonceIndex input) seenTxs (txs.zipIdx k) items seenTxs')
    (htxs : block.transactions.drop k = txs)
    (hseen : SeenAs seenTxs (before ++ (block.hashPositions crates).take k)) :
    List.Forall₂ (IsWrittenItem crates input block.epoch)
        ((txs.zipIdx k).map (block.writtenTx crates before)) items ∧
      SeenAs seenTxs' (before ++ block.hashPositions crates) := by
  induction txs generalizing k seenTxs items with
  | nil =>
    cases h
    refine ⟨.nil, ?_⟩
    have hlen : (block.hashPositions crates).length ≤ k := by
      rw [List.drop_eq_nil_iff] at htxs
      unfold Block.hashPositions
      split
      · simpa using htxs
      · simp
    rwa [List.take_of_length_le hlen] at hseen
  | cons tx txs ih =>
    rw [List.zipIdx_cons] at h ⊢
    cases h with
    | cons hitem hrest =>
      obtain ⟨hwritten, hseen'⟩ :=
        hitem.isWrittenItem (getElem?_of_drop_eq htxs).2 hseen
      obtain ⟨hitems, hlast⟩ := ih hrest (drop_add_of_drop_eq (x := [tx]) htxs) hseen'
      exact ⟨.cons hwritten hitems, hlast⟩

/-! ## The payloads -/

/-- **The payload of a block.** -/
theorem isPayload_of_encodeTxPayload {seenTxs seenTxs' : SeenTxs} {txPayload : Bytes}
    (h : (encodeTxPayload crates (Assoc.indexOf input.addresses) (Assoc.indexOf input.gasPrices)
      (senderNonceIndex input) block).run seenTxs = .ok (txPayload, seenTxs'))
    (hseen : SeenAs seenTxs before) :
    IsPayload crates input block (block.written crates before) txPayload ∧
      SeenAs seenTxs' (before ++ block.hashPositions crates) := by
  rcases encodeTxPayload_eq_ok.mp h with ⟨hbare, rfl, rfl⟩ | ⟨hbare, items, hitems, rfl⟩
  · have hpositions : block.hashPositions crates = [] := by simp [Block.hashPositions, hbare.1]
    rw [hpositions, List.append_nil]
    exact ⟨.inl ⟨hbare, rfl⟩, hseen⟩
  · have hstart : SeenAs seenTxs (before ++ (block.hashPositions crates).take 0) := by
      rwa [List.take_zero, List.append_nil]
    obtain ⟨hwritten, hlast⟩ := hitems.isWrittenItem rfl hstart
    exact ⟨.inr ⟨hbare, items, hwritten, rfl⟩, hlast⟩

theorem getElem?_writtenBlocks {blocks : List (Block T)} {i : ℕ}
    {written : List (Written (SignedTransaction T))}
    (h : (writtenBlocks crates before blocks)[i]? = some written) :
    ∃ block, blocks[i]? = some block ∧ written = block.written crates
      (before ++ (blocks.take i).flatMap (·.hashPositions crates)) := by
  induction blocks generalizing before i with
  | nil => simp [writtenBlocks] at h
  | cons block blocks ih =>
    cases i with
    | zero =>
      obtain rfl : block.written crates before = written := by simpa [writtenBlocks] using h
      exact ⟨block, rfl, by simp⟩
    | succ i =>
      obtain ⟨block', hblock', rfl⟩ := ih (by simpa [writtenBlocks] using h)
      exact ⟨block', by simpa using hblock', by simp [List.append_assoc]⟩

/-- As much is written as there are transactions. -/
theorem sameShape_written (input : Packet T) :
    List.SameShape (input.written crates) (input.blocks.map (·.transactions)) := by
  unfold Packet.written
  generalize input.blocks = blocks
  generalize ([] : List (H256 × (ℕ × ℕ))) = before
  induction blocks generalizing before with
  | nil => exact .nil
  | cons block blocks ih => exact .cons (by simp [Block.written]) (ih _)

/-- What is written at a position, for the transaction there. -/
theorem atPosition_written {p : ℕ × ℕ} {e : Written (SignedTransaction T)}
    (h : (input.written crates).atPosition p = some e) :
    ∃ block tx, input.blocks[p.1]? = some block ∧ block.transactions[p.2]? = some tx ∧
      e = block.writtenTx crates ((input.blocks.take p.1).flatMap (·.hashPositions crates))
        (tx, p.2) := by
  obtain ⟨written, hwritten, he⟩ := List.atPosition_eq_some.mp h
  obtain ⟨block, hblock, rfl⟩ := getElem?_writtenBlocks hwritten
  rw [Block.written, List.getElem?_map, List.getElem?_zipIdx, Option.map_eq_some_iff] at he
  obtain ⟨entry, hentry, rfl⟩ := he
  obtain ⟨tx, htx, rfl⟩ := Option.map_eq_some_iff.mp hentry
  exact ⟨block, tx, hblock, htx, by rw [Nat.zero_add, List.nil_append]⟩

/-- A transaction in full stands for itself. -/
theorem atPosition_of_written_value {p : ℕ × ℕ} {tx : SignedTransaction T}
    (h : (input.written crates).atPosition p = some (.value tx)) :
    (input.blocks.map (·.transactions)).atPosition p = some tx := by
  obtain ⟨block, tx', hblock, htx', he⟩ := atPosition_written h
  obtain rfl : tx = tx' := by
    unfold Block.writtenTx at he
    split at he
    · cases he
    · cases he
      rfl
  refine List.atPosition_eq_some.mpr ⟨block.transactions, ?_, htx'⟩
  rw [List.getElem?_map, hblock, Option.map_some]

theorem isPayload_of_rounds {blocks : List (Block T)} {seenTxs seenTxs' : SeenTxs}
    {txPayloads : List Bytes}
    (h : Rounds (encodeTxPayload crates (Assoc.indexOf input.addresses)
      (Assoc.indexOf input.gasPrices) (senderNonceIndex input)) seenTxs blocks txPayloads seenTxs')
    (hseen : SeenAs seenTxs before) {i : ℕ} {written : List (Written (SignedTransaction T))}
    {txPayload : Bytes} (hblock : blocks[i]? = some block)
    (hwritten : (writtenBlocks crates before blocks)[i]? = some written)
    (hpayload : txPayloads[i]? = some txPayload) : IsPayload crates input block written txPayload := by
  induction h generalizing before i with
  | nil => simp at hblock
  | cons hround _ ih =>
    obtain ⟨hfirst, hnext⟩ := isPayload_of_encodeTxPayload hround hseen
    cases i with
    | zero =>
      obtain rfl := Option.some.inj hblock
      obtain rfl := Option.some.inj hwritten
      obtain rfl := Option.some.inj hpayload
      exact hfirst
    | succ i => exact ih hnext hblock hwritten hpayload

/-- **The payloads of a run of the encoder.** -/
theorem IsEncoding.isPayload {b : Bytes} {txPayloads records : List Bytes} {txSegment : Bytes}
    (h : IsEncoding crates input b txPayloads records txSegment) {i : ℕ}
    {written : List (Written (SignedTransaction T))} {txPayload : Bytes}
    (hblock : input.blocks[i]? = some block) (hwritten : (input.written crates)[i]? = some written)
    (hpayload : txPayloads[i]? = some txPayload) : IsPayload crates input block written txPayload := by
  obtain ⟨seenTxs, hrounds⟩ := h.payloads
  exact isPayload_of_rounds hrounds (fun _ => rfl) hblock hwritten hpayload

end Cfxpack
