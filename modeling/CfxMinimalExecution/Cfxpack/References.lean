import CfxMinimalExecution.Cfxpack.DecodeEncoded
import CfxMinimalExecution.Cfxpack.TxReadBack

/-!
# References to repeated transactions

## Main definitions

* `NoRefs`, `DistinctHashes`: packets as they come from a block list
* `Packet.firstPosition`: the first position of a hash

## Main results

* `earlierPosition_eq`: a repeated transaction is written as the first position of its hash
* `pointBackwards_written`: which is in an earlier block
-/

namespace Cfxpack

variable {T : PrimitiveTypes} {crates : Crates T} {input : Packet T}

/-- The blocks have no references. -/
def NoRefs (input : Packet T) : Prop := ∀ block ∈ input.blocks, block.transactionRefs = []

/-- No block has two transactions with the same hash. -/
def DistinctHashes (crates : Crates T) (input : Packet T) : Prop :=
  ∀ block ∈ input.blocks, (block.transactions.map crates.primitives.hash).Nodup

/-- The transactions, block by block. -/
abbrev Packet.txs (input : Packet T) : List (List (SignedTransaction T)) :=
  input.blocks.map (·.transactions)

/-- The positions of all transactions, by hash. -/
def Packet.positions (crates : Crates T) (input : Packet T) : List (H256 × (ℕ × ℕ)) :=
  input.blocks.zipIdx.flatMap fun entry =>
    entry.1.transactions.zipIdx.map fun tx => (crates.primitives.hash tx.1, (entry.2, tx.2))

/-- The first position of a hash. -/
def Packet.firstPosition (crates : Crates T) (input : Packet T) (hash : H256) : Option (ℕ × ℕ) :=
  (input.positions crates).lookup hash

/-- A block without transactions repeats none. -/
theorem noRefs_distinctHashes_of_single {block : Block T}
    (hblocks : input.blocks = [block]) (htxs : block.transactions = [])
    (hrefs : block.transactionRefs = []) : NoRefs input ∧ DistinctHashes crates input := by
  constructor
  · intro other hother
    rw [hblocks, List.mem_singleton] at hother
    rw [hother, hrefs]
  · intro other hother
    rw [hblocks, List.mem_singleton] at hother
    rw [hother, htxs]
    exact List.nodup_nil

/-! ## The positions before a transaction -/

theorem encodedRefs_of_noRefs {block : Block T} (hrefs : block.transactionRefs = [])
    {k : ℕ} {tx : SignedTransaction T} (htx : block.transactions[k]? = some tx) :
    block.encodedRefs = none := by
  have hlt := (List.getElem?_eq_some_iff.mp htx).1
  rw [Block.encodedRefs, hrefs, if_neg]
  rw [List.length_nil]
  omega

theorem hashPositions_of_noRefs {block : Block T} (hrefs : block.transactionRefs = []) :
    block.hashPositions crates = block.transactions.zipIdx.map fun entry =>
      (crates.primitives.hash entry.1, (block.index, entry.2)) := by
  rcases htxs : block.transactions with _ | ⟨tx, txs⟩
  · simp [Block.hashPositions, htxs]
  · rw [← htxs]
    exact hashPositions_of_none (encodedRefs_of_noRefs hrefs (by rw [htxs]; rfl : _[0]? = some tx))

/-- The positions before a transaction. -/
def Packet.positionsBefore (crates : Crates T) (input : Packet T) (block : Block T) (p : ℕ × ℕ) :
    List (H256 × (ℕ × ℕ)) :=
  (input.blocks.take p.1).flatMap (·.hashPositions crates) ++
    (block.hashPositions crates).take p.2

section Before

variable (hvalid : ValidInput input) (hrefs : NoRefs input)

include hvalid hrefs

theorem flatMap_hashPositions {blocks : List (Block T)} {i : ℕ}
    (hblocks : ∀ j block, blocks[j]? = some block → input.blocks[i + j]? = some block) :
    blocks.flatMap (·.hashPositions crates) = (blocks.zipIdx i).flatMap fun entry =>
      entry.1.transactions.zipIdx.map fun tx => (crates.primitives.hash tx.1, (entry.2, tx.2)) := by
  induction blocks generalizing i with
  | nil => rfl
  | cons block blocks ih =>
    have hblock := hblocks 0 block rfl
    have hnext : ∀ j other, blocks[j]? = some other → input.blocks[i + 1 + j]? = some other := by
      intro j other hother
      rw [Nat.add_assoc, Nat.add_comm 1 j]
      exact hblocks (j + 1) other (by simpa using hother)
    rw [List.flatMap_cons, List.zipIdx_cons, List.flatMap_cons, ih hnext,
      hashPositions_of_noRefs (hrefs block (List.mem_of_getElem? hblock)),
      hvalid.index _ block hblock, Nat.add_zero]

/-- All positions are those before a transaction, its own and the later ones. -/
theorem positions_eq {block : Block T} {p : ℕ × ℕ} {tx : SignedTransaction T}
    (hblock : input.blocks[p.1]? = some block) (htx : block.transactions[p.2]? = some tx) :
    ∃ later, input.positions crates =
      input.positionsBefore crates block p ++ (crates.primitives.hash tx, p) :: later := by
  have hall : input.positions crates = input.blocks.flatMap (·.hashPositions crates) :=
    (flatMap_hashPositions hvalid hrefs fun j block hj => by rwa [Nat.zero_add]).symm
  obtain ⟨hi, rfl⟩ := List.getElem?_eq_some_iff.mp hblock
  obtain ⟨hk, rfl⟩ := List.getElem?_eq_some_iff.mp htx
  have hown : (input.blocks[p.1]).hashPositions crates = _ :=
    hashPositions_of_noRefs (hrefs _ (List.getElem_mem hi))
  rw [hvalid.index p.1 _ hblock] at hown
  have hlen : p.2 < ((input.blocks[p.1]).hashPositions crates).length := by
    rw [hown]
    simpa using hk
  have hget : ((input.blocks[p.1]).hashPositions crates)[p.2] =
      (crates.primitives.hash (input.blocks[p.1]).transactions[p.2], p) := by
    simp only [hown, List.getElem_map, List.getElem_zipIdx, Nat.zero_add]
  refine ⟨((input.blocks[p.1]).hashPositions crates).drop (p.2 + 1) ++
    (input.blocks.drop (p.1 + 1)).flatMap (·.hashPositions crates), ?_⟩
  calc input.positions crates
      = (input.blocks.take p.1).flatMap (·.hashPositions crates) ++
          ((input.blocks[p.1]).hashPositions crates ++
            (input.blocks.drop (p.1 + 1)).flatMap (·.hashPositions crates)) := by
        rw [hall, ← List.flatMap_cons, ← List.drop_eq_getElem_cons hi, ← List.flatMap_append,
          List.take_append_drop]
    _ = _ := by
        conv_lhs => rw [← List.take_append_drop p.2 ((input.blocks[p.1]).hashPositions crates),
          List.drop_eq_getElem_cons hlen, hget]
        simp [Packet.positionsBefore]

/-- What stands at a position before a transaction. -/
theorem of_mem_positionsBefore {block : Block T} {p q : ℕ × ℕ} {hash : H256}
    (hblock : input.blocks[p.1]? = some block)
    (h : (hash, q) ∈ input.positionsBefore crates block p) :
    (q.1 < p.1 ∨ q.1 = p.1 ∧ q.2 < p.2) ∧
      ∃ tx, input.txs.atPosition q = some tx ∧ crates.primitives.hash tx = hash := by
  -- an entry of a block is at its own position, and its hash is that of a transaction
  have hentry : ∀ i block, input.blocks[i]? = some block →
      ∀ j, (block.hashPositions crates)[j]? = some (hash, q) → q = (i, j) ∧
        ∃ tx, input.txs.atPosition q = some tx ∧ crates.primitives.hash tx = hash := by
    intro i block hblock j hj
    rw [hashPositions_of_noRefs (hrefs block (List.mem_of_getElem? hblock)), List.getElem?_map,
      List.getElem?_zipIdx, Option.map_eq_some_iff] at hj
    obtain ⟨entry, hentry, heq⟩ := hj
    obtain ⟨tx, htx, rfl⟩ := Option.map_eq_some_iff.mp hentry
    rw [Nat.zero_add, hvalid.index i block hblock] at heq
    obtain ⟨rfl, rfl⟩ := Prod.mk.inj heq
    refine ⟨rfl, tx, List.atPosition_eq_some.mpr ⟨_, ?_, htx⟩, rfl⟩
    rw [List.getElem?_map, hblock, Option.map_some]
  -- an entry of an earlier block, or an earlier one of the same block
  rcases List.mem_append.mp h with hmem | hmem
  · obtain ⟨block', hblock', hq⟩ := List.mem_flatMap.mp hmem
    obtain ⟨i, hi⟩ := List.getElem?_of_mem hblock'
    obtain ⟨j, hj⟩ := List.getElem?_of_mem hq
    rw [List.getElem?_take] at hi
    split at hi
    case isFalse => cases hi
    case isTrue hlt =>
      obtain ⟨rfl, htx⟩ := hentry i block' hi j hj
      exact ⟨.inl hlt, htx⟩
  · obtain ⟨j, hj⟩ := List.getElem?_of_mem hmem
    rw [List.getElem?_take] at hj
    split at hj
    case isFalse => cases hj
    case isTrue hlt =>
      obtain ⟨rfl, htx⟩ := hentry p.1 block hblock j hj
      exact ⟨.inr ⟨rfl, hlt⟩, htx⟩

omit hvalid in
/-- What is looked up for a transaction. -/
theorem earlierPosition_eq_lookup {block : Block T} {p : ℕ × ℕ} {tx : SignedTransaction T}
    (hblock : input.blocks[p.1]? = some block) (htx : block.transactions[p.2]? = some tx) :
    block.earlierPosition crates ((input.blocks.take p.1).flatMap (·.hashPositions crates))
        (tx, p.2) =
      (input.positionsBefore crates block p).lookup (crates.primitives.hash tx) := by
  rw [Block.earlierPosition,
    encodedRefs_of_noRefs (hrefs block (List.mem_of_getElem? hblock)) htx]
  rfl

/-- **A repeated transaction is written as the first position of its hash.** -/
theorem earlierPosition_eq {block : Block T} {p : ℕ × ℕ} {tx : SignedTransaction T}
    (hblock : input.blocks[p.1]? = some block) (htx : block.transactions[p.2]? = some tx) :
    block.earlierPosition crates ((input.blocks.take p.1).flatMap (·.hashPositions crates))
        (tx, p.2) =
      if input.firstPosition crates (crates.primitives.hash tx) = some p then none
      else input.firstPosition crates (crates.primitives.hash tx) := by
  obtain ⟨later, hall⟩ : ∃ later, input.positions crates =
      input.positionsBefore crates block p ++ (crates.primitives.hash tx, p) :: later :=
    positions_eq hvalid hrefs hblock htx
  rw [earlierPosition_eq_lookup hrefs hblock htx, Packet.firstPosition, hall,
    List.lookup_append, List.lookup_cons]
  cases hbefore : (input.positionsBefore crates block p).lookup (crates.primitives.hash tx) with
  | none => simp
  | some q =>
    obtain ⟨l₁, l₂, heq, -⟩ := List.lookup_eq_some_iff.mp hbefore
    have hmem : (crates.primitives.hash tx, q) ∈ input.positionsBefore crates block p := by
      rw [heq]
      simp
    have hne : q ≠ p := by
      rintro rfl
      rcases (of_mem_positionsBefore hvalid hrefs hblock hmem).1 with hlt | ⟨-, hlt⟩ <;> omega
    simp [hne]

/-- The position of a repeated transaction, when no block repeats one. -/
theorem of_earlierPosition (hdistinct : DistinctHashes crates input) {block : Block T}
    {p q : ℕ × ℕ} {tx : SignedTransaction T} (hblock : input.blocks[p.1]? = some block)
    (htx : block.transactions[p.2]? = some tx)
    (h : block.earlierPosition crates ((input.blocks.take p.1).flatMap (·.hashPositions crates))
      (tx, p.2) = some q) :
    q.1 < p.1 ∧ ∃ tx', input.txs.atPosition q = some tx' ∧
      crates.primitives.hash tx' = crates.primitives.hash tx := by
  rw [earlierPosition_eq_lookup hrefs hblock htx] at h
  obtain ⟨l₁, l₂, heq, -⟩ := List.lookup_eq_some_iff.mp h
  have hmem : (crates.primitives.hash tx, q) ∈ input.positionsBefore crates block p := by
    rw [heq]
    simp
  obtain ⟨hbefore, tx', htx', hhash⟩ := of_mem_positionsBefore hvalid hrefs hblock hmem
  refine ⟨?_, tx', htx', hhash⟩
  rcases hbefore with hlt | ⟨hsame, hlt⟩
  · exact hlt
  · -- a block does not repeat a hash
    exfalso
    obtain ⟨txs, htxs, htx'⟩ := List.atPosition_eq_some.mp htx'
    rw [hsame, List.getElem?_map, hblock, Option.map_some] at htxs
    obtain rfl := Option.some.inj htxs
    obtain ⟨hj, rfl⟩ := List.getElem?_eq_some_iff.mp htx
    obtain ⟨hj', rfl⟩ := List.getElem?_eq_some_iff.mp htx'
    have hnodup := List.nodup_iff_injective_getElem.mp
      (hdistinct block (List.mem_of_getElem? hblock))
    have hinj := @hnodup ⟨q.2, by simpa using hj'⟩ ⟨p.2, by simpa using hj⟩ (by simpa using hhash)
    have heq : q.2 = p.2 := congrArg Fin.val hinj
    omega

end Before

/-! ## Resolving the references -/

section Resolving

variable {b : Bytes} {txPayloads records : List Bytes} {txSegment : Bytes}

/-- A position in a packet has words for its block and its place there. -/
theorem IsEncoding.wordPosition_eq (h : IsEncoding crates input b txPayloads records txSegment)
    (hlawful : crates.Lawful) {p : ℕ × ℕ} {tx : SignedTransaction T}
    (htx : input.txs.atPosition p = some tx) : wordPosition p = p := by
  obtain ⟨txs, htxs, hget⟩ := List.atPosition_eq_some.mp htx
  rw [List.getElem?_map, Option.map_eq_some_iff] at htxs
  obtain ⟨block, hblock, rfl⟩ := htxs
  have hi := (List.getElem?_eq_some_iff.mp hblock).1
  have hk := (List.getElem?_eq_some_iff.mp hget).1
  have hrecords := h.length_records
  have hwords : UInt32.size < UInt64.size := by decide
  -- both words hold the position: there are fewer blocks than bytes, and fewer items than bytes
  apply wordPosition_of_lt
  · obtain ⟨offsets, harea⟩ := h.blockArea
    have hlt := harea.length_lt
    omega
  · have hrecord : records[p.1]? = some records[p.1] := List.getElem?_eq_getElem (by omega)
    obtain ⟨block', txPayload, _, units, hblock', hpayload, -, -, hstored⟩ := h.exists_record hrecord
    obtain rfl := Option.some.inj (hblock.symm.trans hblock')
    have hwrittenLen : (input.written crates).length = input.blocks.length := by
      simpa using (sameShape_written input).length_eq
    have hwritten : (input.written crates)[p.1]? = some (input.written crates)[p.1] :=
      List.getElem?_eq_getElem (by omega)
    have hsame : (input.written crates)[p.1].length = block.transactions.length := by
      obtain ⟨block₁, hblock₁, heq⟩ := getElem?_writtenBlocks hwritten
      obtain rfl := Option.some.inj (hblock.symm.trans hblock₁)
      rw [heq, Block.written, List.length_map, List.length_zipIdx]
    rcases h.isPayload hblock hwritten hpayload with ⟨hbare, -⟩ | ⟨-, items, hitems, rfl⟩
    · rw [hbare.1, List.length_nil] at hk
      omega
    · -- every item of the payload has a byte of its own
      have hlen := hlawful.rlp.length_items_le (blockItems block items)
      have hitemsLen := hitems.length_eq
      have hle : items.length ≤ (blockItems block items).length := by simp [blockItems]
      obtain ⟨payload, _, _, hpayload, -⟩ := hstored (by
        intro hempty
        rw [hempty, List.length_nil] at hlen
        omega)
      have hlt := length_lt_of_storedPayload hlawful.snap hpayload
      omega

/-- What is written for a transaction: the first position of its hash, when it has one before. -/
theorem IsEncoding.atPosition_written_eq (h : IsEncoding crates input b txPayloads records txSegment)
    (hlawful : crates.Lawful) (hrefs : NoRefs input) (hdistinct : DistinctHashes crates input)
    {p : ℕ × ℕ} {tx : SignedTransaction T} (htx : input.txs.atPosition p = some tx) :
    ((input.written crates).atPosition p = some (.value tx) ∧
        input.firstPosition crates (crates.primitives.hash tx) = some p) ∨
      ∃ q tx', (input.written crates).atPosition p = some (.reference q) ∧
        input.firstPosition crates (crates.primitives.hash tx) = some q ∧ q.1 < p.1 ∧
        input.txs.atPosition q = some tx' ∧
        crates.primitives.hash tx' = crates.primitives.hash tx := by
  obtain ⟨e, he⟩ := (sameShape_written input).symm.exists_atPosition htx
  obtain ⟨block, tx₁, hblock, htx₁, rfl⟩ := atPosition_written he
  obtain rfl : tx = tx₁ := by
    obtain ⟨txs, htxs, hget⟩ := List.atPosition_eq_some.mp htx
    rw [List.getElem?_map, hblock, Option.map_some] at htxs
    obtain rfl := Option.some.inj htxs
    exact Option.some.inj (hget.symm.trans htx₁)
  have hfirst : block.earlierPosition crates
      ((input.blocks.take p.1).flatMap (·.hashPositions crates)) (tx, p.2) = _ :=
    earlierPosition_eq h.valid hrefs hblock htx₁
  -- either the transaction is the first with its hash, or it has an earlier position
  rw [Block.writtenTx] at he
  cases hearlier : block.earlierPosition crates
      ((input.blocks.take p.1).flatMap (·.hashPositions crates)) (tx, p.2) with
  | none =>
    rw [hearlier] at he hfirst
    refine .inl ⟨he, ?_⟩
    obtain ⟨later, hall⟩ : ∃ later, input.positions crates =
        input.positionsBefore crates block p ++ (crates.primitives.hash tx, p) :: later :=
      positions_eq h.valid hrefs hblock htx₁
    by_contra hne
    rw [if_neg hne, Packet.firstPosition, hall, List.lookup_append, List.lookup_cons] at hfirst
    simp at hfirst
  | some q =>
    obtain ⟨hlt, tx', htx', hhash⟩ :=
      of_earlierPosition h.valid hrefs hdistinct hblock htx₁ hearlier
    simp only [hearlier, h.wordPosition_eq hlawful htx'] at he
    rw [hearlier] at hfirst
    refine .inr ⟨q, tx', he, ?_, hlt, htx', hhash⟩
    split at hfirst
    · cases hfirst
    · exact hfirst.symm

/-- **The references lead to earlier blocks.** -/
theorem IsEncoding.pointBackwards_written
    (h : IsEncoding crates input b txPayloads records txSegment) (hlawful : crates.Lawful)
    (hrefs : NoRefs input) (hdistinct : DistinctHashes crates input) :
    PointBackwards (input.written crates) := by
  intro p r he
  obtain ⟨tx, htx⟩ := (sameShape_written input).exists_atPosition he
  rcases h.atPosition_written_eq hlawful hrefs hdistinct htx with
    ⟨hvalue, -⟩ | ⟨q, tx', hreference, -, hlt, htx', -⟩
  · cases he.symm.trans hvalue
  · cases he.symm.trans hreference
    exact ⟨hlt, (sameShape_written input).symm.exists_atPosition htx'⟩

end Resolving

end Cfxpack
