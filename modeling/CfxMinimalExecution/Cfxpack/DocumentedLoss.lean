import CfxMinimalExecution.Cfxpack.RoundTrip

/-!
# The packet round trip

A packet with values that have an encoding is decoded to itself, less what the format drops: the
ends of the deferred hashes, the signatures and the chain ids.

## Main definitions

* `Restorable`: packets as they come from a block list, with values that have an encoding
* `Packet.lossy`: what is left of a packet

## Main results

* `packet_roundtrip`: a packet is decoded to what is left of it, which is encoded to the same bytes
-/

namespace Cfxpack

variable {T : PrimitiveTypes}

/-! ## The loss -/

def Transaction.withoutChainId : Transaction T → Transaction T
  | .native (.cip155 tx) => .native (.cip155 { tx with chainId := 0 })
  | .native (.cip2930 tx) => .native (.cip2930 { tx with chainId := 0 })
  | .native (.cip1559 tx) => .native (.cip1559 { tx with chainId := 0 })
  | .ethereum (.eip155 tx) => .ethereum (.eip155 { tx with chainId := none })
  | .ethereum (.eip2930 tx) => .ethereum (.eip2930 { tx with chainId := 0 })
  | .ethereum (.eip1559 tx) => .ethereum (.eip1559 { tx with chainId := 0 })
  | .ethereum (.eip7702 tx) => .ethereum (.eip7702 { tx with chainId := 0 })

/-- A transaction without its signature and its chain id. -/
def SignedTransaction.lossy (crates : Crates T) (tx : SignedTransaction T) : SignedTransaction T :=
  crates.primitives.fakeSignRpc tx.unsigned.withoutChainId tx.sender tx.unsigned.space

/-- The references of a block: the first position of every transaction that stands earlier. -/
def Packet.repeats (crates : Crates T) (input : Packet T) (block : Block T) (i : ℕ) :
    List (Option (ℕ × ℕ)) :=
  block.transactions.zipIdx.map fun entry =>
    if input.firstPosition crates (crates.primitives.hash entry.1) = some (i, entry.2) then none
    else input.firstPosition crates (crates.primitives.hash entry.1)

/-- What is left of a block with its payload. -/
def Block.lossy (crates : Crates T) (input : Packet T) (block : Block T) (i : ℕ)
    (txPayload : Bytes) : Block T :=
  { block with
    deferredStateRoot := truncateHash block.deferredStateRoot
    deferredReceiptsRoot := truncateHash block.deferredReceiptsRoot
    deferredLogsBloomHash := truncateHash block.deferredLogsBloomHash
    flags := recordFlags block txPayload
    transactions := block.transactions.map (·.lossy crates)
    transactionRefs := input.repeats crates block i }

/-- What is left of a packet with the payloads of its blocks. -/
def Packet.lossy (crates : Crates T) (input : Packet T) (txPayloads : List Bytes) : Packet T :=
  { input with
    blocks := input.blocks.zipIdx.map fun entry =>
      entry.1.lossy crates input entry.2 (txPayloads.getD entry.2 []) }

/-- The nonces of a sender are not below its base nonce. -/
def BasesBelow (crates : Crates T) (input : Packet T) : Prop :=
  ∀ entry ∈ input.senderBaseNonces, ∀ block ∈ input.blocks, ∀ tx ∈ block.transactions,
    (Assoc.indexOf input.addresses).get tx.sender = some entry.senderIndex.toNat →
      entry.baseNonce.toNat ≤ (tx.nonceAndGas crates).1.toNat

/-- Packets as they come from a block list, with values that have an encoding. -/
structure Restorable (crates : Crates T) (input : Packet T) (height : UInt64) : Prop where
  noRefs : NoRefs input
  hash_inj : ∀ block ∈ input.blocks, ∀ tx ∈ block.transactions, ∀ block' ∈ input.blocks,
    ∀ tx' ∈ block'.transactions, crates.primitives.hash tx = crates.primitives.hash tx' → tx = tx'
  distinct : DistinctHashes crates input
  senders : UniqueSenders input
  bases : BasesBelow crates input
  words : ∀ block ∈ input.blocks, ∀ tx ∈ block.transactions,
    (tx.nonceAndGas crates).1.toNat < UInt64.size ∧ (tx.nonceAndGas crates).2.toNat < UInt64.size
  heights : RepresentableViews input
  views : HasViewsFrom input height

/-! ## The transactions -/

variable {crates : Crates T} {input : Packet T}

theorem recoded_self (hlawful : crates.primitives.Lawful) (tx : Transaction T) :
    tx.recoded (crates.primitives.fields tx).nonce (crates.primitives.fields tx).gas =
      tx.withoutChainId := by
  rcases tx with (_ | _ | _) | (_ | _ | _ | _) <;>
    simp only [Transaction.recoded, Transaction.withoutChainId, hlawful.fields_cip155,
      hlawful.fields_cip2930, hlawful.fields_cip1559, hlawful.fields_eip155, hlawful.fields_eip2930,
      hlawful.fields_eip1559, hlawful.fields_eip7702]

/-- A transaction that keeps its nonce and its gas limit is read without its chain id. -/
theorem readTx_eq_lossy (hlawful : crates.primitives.Lawful) {tx tx' : SignedTransaction T}
    (h : readTx crates input tx = some tx') (hkeeps : KeepsNonceAndGas crates input tx) :
    tx' = tx.lossy crates := by
  obtain ⟨senderIndex, nonce, hsender, hnonce, rfl⟩ := readTx_eq_some.mp h
  have hsameNonce : U256.ofU64 nonce = (crates.primitives.fields tx.unsigned).nonce :=
    (nonce_eq_iff hnonce).mpr (hkeeps.1 senderIndex hsender)
  have hsameGas : U256.ofU64 (lowU64 (crates.primitives.fields tx.unsigned).gas) =
      (crates.primitives.fields tx.unsigned).gas := U256.ofU64_lowU64_eq_iff.mpr hkeeps.2
  rw [SignedTransaction.readBack, SignedTransaction.lossy, hsameNonce, hsameGas,
    recoded_self hlawful]

theorem exists_block_of_atPosition {p : ℕ × ℕ} {tx : SignedTransaction T}
    (h : input.txs.atPosition p = some tx) :
    ∃ block ∈ input.blocks, input.blocks[p.1]? = some block ∧ block.transactions[p.2]? = some tx := by
  obtain ⟨txs, htxs, htx⟩ := List.atPosition_eq_some.mp h
  rw [List.getElem?_map, Option.map_eq_some_iff] at htxs
  obtain ⟨block, hblock, rfl⟩ := htxs
  exact ⟨block, List.mem_of_getElem? hblock, hblock, htx⟩

/-- A transaction of a packet with one base nonce below it keeps its nonce. -/
theorem Restorable.keepsNonceAndGas {height : UInt64} (h : Restorable crates input height)
    {block : Block T} (hblock : block ∈ input.blocks) {tx : SignedTransaction T}
    (htx : tx ∈ block.transactions) : KeepsNonceAndGas crates input tx := by
  obtain ⟨hnonce, hgas⟩ := h.words block hblock tx htx
  refine ⟨fun senderIndex hsender => ⟨hnonce, fun first last hfirst hlast => .inl ?_⟩, hgas⟩
  have hlen := h.senders.length_baseNonces_le senderIndex
  obtain ⟨entry, hentry, hindex, rfl⟩ : ∃ entry ∈ input.senderBaseNonces,
      entry.senderIndex.toNat = senderIndex ∧ entry.baseNonce = last := by
    obtain ⟨entry, hentry, rfl⟩ := List.mem_map.mp (List.mem_of_getLast? hlast)
    obtain ⟨hmem, hindex⟩ := List.mem_filter.mp hentry
    exact ⟨entry, hmem, of_decide_eq_true hindex, rfl⟩
  refine ⟨h.bases entry hentry block hblock tx htx (by rw [hindex, hsender]), ?_⟩
  generalize input.baseNonces senderIndex = bases at *
  rcases bases with _ | ⟨base, _ | ⟨_, _⟩⟩
  · cases hfirst
  · exact (Option.some.inj hfirst).symm.trans (Option.some.inj hlast)
  · simp at hlen

section RoundTrip

variable {b : Bytes} {txPayloads records : List Bytes} {txSegment : Bytes} {height : UInt64}
  {txs : List (List (SignedTransaction T))}

/-- What is read of the transactions. -/
theorem Restorable.txs_eq (h : Restorable crates input height) (hlawful : crates.Lawful)
    (hencoding : IsEncoding crates input b txPayloads records txSegment)
    (hresolves : Resolves (readTx crates input) (input.written crates) txs) :
    txs = input.txs.map (·.map (·.lossy crates)) := by
  have hshape : List.SameShape (input.written crates) input.txs := sameShape_written input
  have hmap : txs.map (·.map id) = input.txs.map (·.map (·.lossy crates)) := by
    rw [(hresolves.sameShape.symm.trans hshape).map_map_eq_iff, hresolves.agrees_iff hshape]
    constructor
    · intro p tx tx' tx'' he hread htx''
      obtain rfl := Option.some.inj ((atPosition_of_written_value he).symm.trans htx'')
      obtain ⟨block, hblock, -, htx⟩ := exists_block_of_atPosition htx''
      exact readTx_eq_lossy hlawful.primitives hread
        (h.keepsNonceAndGas hblock (List.mem_of_getElem? htx))
    · intro p r tx tx' he htx htx'
      -- the transaction there has the same hash
      rcases hencoding.atPosition_written_eq hlawful h.noRefs h.distinct htx with
        ⟨hvalue, -⟩ | ⟨q, tx₁, hreference, -, -, htx₁, hhash⟩
      · cases he.symm.trans hvalue
      · cases he.symm.trans hreference
        obtain rfl := Option.some.inj (htx'.symm.trans htx₁)
        obtain ⟨block, hblock, -, hmem⟩ := exists_block_of_atPosition htx
        obtain ⟨block', hblock', -, hmem'⟩ := exists_block_of_atPosition htx'
        rw [h.hash_inj block' hblock' _ (List.mem_of_getElem? hmem') block hblock _
          (List.mem_of_getElem? hmem) hhash]
  rw [← hmap]
  simp

/-- The references that are written. -/
theorem Restorable.positions_eq (h : Restorable crates input height) (hlawful : crates.Lawful)
    (hencoding : IsEncoding crates input b txPayloads records txSegment) {i : ℕ} {block : Block T}
    (hblock : input.blocks[i]? = some block) :
    ((input.written crates).getD i []).map (·.position?) = input.repeats crates block i := by
  have hi := (List.getElem?_eq_some_iff.mp hblock).1
  have hwrittenLen : (input.written crates).length = input.blocks.length := by
    simpa using (sameShape_written input).length_eq
  have hwritten : (input.written crates)[i]? = some (input.written crates)[i] :=
    List.getElem?_eq_getElem (by omega)
  obtain ⟨block', hblock', heq⟩ := getElem?_writtenBlocks hwritten
  obtain rfl := Option.some.inj (hblock.symm.trans hblock')
  rw [List.getD_eq_getElem?_getD, hwritten, Option.getD_some]
  refine List.ext_getElem (by rw [heq]; simp [Block.written, Packet.repeats]) fun k hk hk' => ?_
  rw [List.length_map] at hk
  have hlt : k < block.transactions.length := by simpa [Packet.repeats] using hk'
  -- the transaction `k` of block `i`
  have htx : input.txs.atPosition (i, k) = some block.transactions[k] := by
    refine List.atPosition_eq_some.mpr ⟨block.transactions, ?_, List.getElem?_eq_getElem hlt⟩
    rw [List.getElem?_map, hblock, Option.map_some]
  have hget : (input.written crates).atPosition (i, k) =
      some (input.written crates)[i][k] :=
    List.atPosition_eq_some.mpr ⟨_, hwritten, List.getElem?_eq_getElem hk⟩
  have hrepeat : (input.repeats crates block i)[k] =
      if input.firstPosition crates (crates.primitives.hash block.transactions[k]) = some (i, k)
        then none
      else input.firstPosition crates (crates.primitives.hash block.transactions[k]) := by
    simp [Packet.repeats]
  rw [List.getElem_map, hrepeat]
  -- it is written in full at the first position of its hash, and as a reference elsewhere
  rcases hencoding.atPosition_written_eq hlawful h.noRefs h.distinct htx with
    ⟨hvalue, hfirst⟩ | ⟨q, _, hreference, hfirst, hbefore, -⟩
  · rw [Option.some.inj (hget.symm.trans hvalue), if_pos hfirst]
    rfl
  · have hne : q ≠ (i, k) := by
      rintro rfl
      exact Nat.lt_irrefl _ hbefore
    rw [Option.some.inj (hget.symm.trans hreference), hfirst, if_neg (by simpa using hne)]
    rfl

/-- What is read of a packet is what is left of it. -/
theorem Restorable.readBack_eq (h : Restorable crates input height) (hlawful : crates.Lawful)
    (hencoding : IsEncoding crates input b txPayloads records txSegment)
    (hresolves : Resolves (readTx crates input) (input.written crates) txs) :
    input.readBack crates txPayloads
        (input.blocks.map fun block => block.posView.map input.viewBack) txs =
      input.lossy crates txPayloads := by
  obtain ⟨hmin, hviews⟩ := views_unaltered_iff.mpr h.heights
  obtain rfl := h.txs_eq hlawful hencoding hresolves
  have hblocks : (input.readBack crates txPayloads (input.blocks.map (·.posView))
      (input.txs.map (·.map (·.lossy crates)))).blocks = (input.lossy crates txPayloads).blocks := by
    -- block by block, what is read is what is left
    refine List.ext_getElem (by simp [Packet.readBack, Packet.lossy]) fun i hi hi' => ?_
    have hi : i < input.blocks.length := by simpa [Packet.readBack] using hi
    have hblock : input.blocks[i]? = some input.blocks[i] := List.getElem?_eq_getElem hi
    have hindex := hencoding.valid.index i _ hblock
    have hrefs := h.positions_eq hlawful hencoding hblock
    simp only [Packet.readBack, Packet.lossy, List.getElem_map, List.getElem_zipIdx, Nat.zero_add,
      hrefs, Block.readBack, Block.lossy]
    simp [hi, hindex]
  rw [hviews]
  unfold Packet.readBack Packet.lossy at *
  rw [hmin]
  exact congrArg (fun blocks => { input with blocks }) hblocks

end RoundTrip

/-- **The packet round trip.** A packet is decoded to what is left of it, which is encoded to the
same bytes. -/
theorem packet_roundtrip (hlawful : crates.Lawful) {height : UInt64} {b : Bytes}
    (hsize : b.length < UInt64.size) (h : Restorable crates input height)
    (hencode : encodePacket crates input = .ok b) :
    ∃ txPayloads seenTxs, (input.blocks.mapM (encodeTxPayload crates
        (Assoc.indexOf input.addresses) (Assoc.indexOf input.gasPrices)
          (senderNonceIndex input))).run [] = .ok (txPayloads, seenTxs) ∧
      decodePacketExt crates b height = .ok (input.lossy crates txPayloads) ∧
      encodePacket crates (input.lossy crates txPayloads) = .ok b := by
  obtain ⟨txPayloads, records, txSegment, hencoding⟩ := encodePacket_iff.mp hencode
  obtain ⟨seenTxs, hpayloads⟩ := hencoding.payloads
  obtain ⟨txs, hresolves⟩ := hencoding.exists_txs hlawful h.noRefs h.distinct h.senders
  have hreads := (readsViews_iff h.views hencoding.length_records).mpr rfl
  have hlossy := h.readBack_eq hlawful hencoding hresolves
  refine ⟨txPayloads, seenTxs, mapM_run_eq_ok.mpr hpayloads, ?_, ?_⟩
  · rw [← hlossy]
    exact (hencoding.decodePacketExt_eq_ok hlawful hsize).mpr ⟨_, txs, hreads, hresolves, rfl⟩
  · -- the records are those of the packet
    have hsurvive : ∀ entry ∈ input.blocks.zip records,
        ViewSurvives input height (choosePrefixSize records) entry ∧
          rereadRecord height entry = entry.2 := by
      intro entry hentry
      have hviews := h.views entry.1 (List.of_mem_zip hentry).1
      unfold ViewSurvives rereadRecord
      cases hposView : entry.1.posView with
      | none =>
        have hnot : ¬ height ≤ entry.1.height := by simpa [hposView] using hviews
        simp [hnot]
      | some posView =>
        have hle : height ≤ entry.1.height := by simpa [hposView] using hviews
        simp [hle]
    have hrecords : rewrittenRecords input records
        (input.blocks.map fun block => block.posView.map input.viewBack) = records := by
      rw [(hencoding.rewrittenRecords_iff hreads _ rfl).2 fun entry hentry =>
        (hsurvive entry hentry).1]
      calc (input.blocks.zip records).map (rereadRecord height)
          = (input.blocks.zip records).map Prod.snd :=
            List.map_congr_left fun entry hentry => (hsurvive entry hentry).2
        _ = records := List.map_snd_zip hencoding.length_records.le
    rw [← hlossy, hencoding.encodePacket_readBack_eq hlawful.primitives h.senders hresolves,
      hrecords, hencoding.assembled]

/-- Two blocks with PoS views above the base, the second of which repeats a transfer. -/
theorem restorable_transferPacket : Restorable plainCrates (transferPacket 12) 6 := by
  have hcases : ∀ block ∈ (transferPacket 12).blocks, ∀ tx ∈ block.transactions,
      tx = plainTransfer Address.zero otherAddress 7 ∨
        tx = plainTransfer otherAddress Address.zero 3 := by
    simp [transferPacket, transferBlock]
  have hhash : plainPrimitives.hash (plainTransfer Address.zero otherAddress 7) ≠
      plainPrimitives.hash (plainTransfer otherAddress Address.zero 3) := by decide +kernel
  constructor
  · exact noRefs_transferPacket 12
  · intro block hblock tx htx block' hblock' tx' htx' hsame
    rcases hcases block hblock tx htx with rfl | rfl <;>
      rcases hcases block' hblock' tx' htx' with rfl | rfl
    · rfl
    · exact absurd hsame hhash
    · exact absurd hsame.symm hhash
    · rfl
  · unfold DistinctHashes
    decide +kernel
  · exact List.nodup_singleton _
  · unfold BasesBelow
    decide +kernel
  · decide +kernel
  · refine ⟨by decide, ?_⟩
    simp [transferPacket, transferBlock]
  · unfold HasViewsFrom
    decide +kernel

/-- The repeated transfer is read as a reference, and the deferred hashes are cut off. -/
theorem packet_roundtrip_transferPacket : ∃ b txPayloads,
    encodePacket plainCrates (transferPacket 12) = .ok b ∧
      decodePacketExt plainCrates b 6 = .ok ((transferPacket 12).lossy plainCrates txPayloads) ∧
      encodePacket plainCrates ((transferPacket 12).lossy plainCrates txPayloads) = .ok b ∧
      ((transferPacket 12).lossy plainCrates txPayloads).blocks.map (·.transactionRefs) =
        [[none], [some (0, 0), none]] ∧
      (transferPacket 12).lossy plainCrates txPayloads ≠ transferPacket 12 := by
  have hrun : (encodePacket plainCrates (transferPacket 12)).map (·.length) = .ok 850 := by
    decide +kernel
  obtain ⟨b, hencode, hlen⟩ := Except.map_eq_ok.mp hrun
  obtain ⟨txPayloads, _, -, hdecode, hencode'⟩ :=
    packet_roundtrip plainCrates_lawful (by rw [hlen]; decide) restorable_transferPacket hencode
  have hrefs : ((transferPacket 12).lossy plainCrates txPayloads).blocks.map (·.transactionRefs) =
      [[none], [some (0, 0), none]] := rfl
  refine ⟨b, txPayloads, hencode, hdecode, hencode', hrefs, fun hsame => ?_⟩
  rw [hsame] at hrefs
  exact absurd hrefs (by decide)

end Cfxpack
