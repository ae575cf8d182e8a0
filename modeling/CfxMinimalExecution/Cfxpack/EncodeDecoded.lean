import CfxMinimalExecution.Cfxpack.DecodeEncoded
import CfxMinimalExecution.Cfxpack.TxReadBack

/-!
# Encoding what the decoder reads

## Main definitions

* `UniqueSenders`: the senders have one base nonce each
* `rewrittenRecord`: the record of a block that is read back

## Main results

* `IsEncoding.encodePacket_readBack_eq`: what is read of a packet is encoded with the same payloads,
  and with records that differ in the PoS views
-/

namespace Cfxpack

variable {T : PrimitiveTypes} {crates : Crates T} {input : Packet T}

/-! ## The nonces -/

/-- The senders have one base nonce each. -/
def UniqueSenders (input : Packet T) : Prop :=
  (input.senderBaseNonces.map (·.senderIndex)).Nodup

theorem UniqueSenders.length_baseNonces_le (h : UniqueSenders input) (senderIndex : ℕ) :
    (input.baseNonces senderIndex).length ≤ 1 := by
  have hinj : ∀ entry ∈ input.senderBaseNonces.filter (·.senderIndex.toNat = senderIndex),
      ∀ entry' ∈ input.senderBaseNonces.filter (·.senderIndex.toNat = senderIndex),
        entry = entry' := by
    intro entry hentry entry' hentry'
    obtain ⟨hmem, hsender⟩ := List.mem_filter.mp hentry
    obtain ⟨hmem', hsender'⟩ := List.mem_filter.mp hentry'
    refine List.inj_on_of_nodup_map h hmem hmem' (UInt64.toNat_inj.mp ?_)
    rw [of_decide_eq_true hsender, of_decide_eq_true hsender']
  rw [Packet.baseNonces, List.length_map]
  have hnodup := (List.Nodup.of_map _ h).filter (·.senderIndex.toNat = senderIndex)
  generalize input.senderBaseNonces.filter (·.senderIndex.toNat = senderIndex) = entries at *
  rcases entries with _ | ⟨entry, _ | ⟨entry', entries⟩⟩
  · simp
  · simp
  · exfalso
    have heq := hinj entry (by simp) entry' (by simp)
    simp [heq] at hnodup

/-- The nonce that is computed is the greater of the base and the nonce. -/
theorem UniqueSenders.addU64_eq_ok (h : UniqueSenders input) (profile : Profile) (senderIndex : ℕ)
    (nonce : UInt64) : ∃ nonce', profile.addU64 (baseNonceOf input.senderBaseNonces senderIndex)
        (encodedNonce (senderNonceIndex input) senderIndex nonce) = .ok nonce' ∧
      nonce'.toNat = max ((input.baseNonces senderIndex).head?.getD 0).toNat nonce.toNat := by
  have hlen := h.length_baseNonces_le senderIndex
  rw [baseNonceOf_eq, encodedNonce, get_senderNonceIndex]
  generalize input.baseNonces senderIndex = bases at *
  rcases bases with _ | ⟨base, _ | ⟨_, _⟩⟩
  · refine ⟨nonce, ?_, by simp⟩
    simpa using profile.addU64_of_lt (a := 0) (b := nonce) (by simpa using nonce.toNat_lt)
  · have hbase := base.toNat_lt
    have hnonce := nonce.toNat_lt
    have hsub := toNat_saturatingSub nonce base
    have hlt : base.toNat + (saturatingSub nonce base).toNat < UInt64.size := by
      rw [UInt64.size]
      omega
    refine ⟨base + saturatingSub nonce base, ?_, ?_⟩
    · simpa using profile.addU64_of_lt hlt
    · rw [UInt64.toNat_add, Nat.mod_eq_of_lt hlt]
      simp only [List.head?_cons, Option.getD_some]
      omega
  · simp at hlen

/-- A nonce that is read back is written again as the same offset. -/
theorem UniqueSenders.encodedNonce_eq (h : UniqueSenders input) {profile : Profile} {senderIndex : ℕ}
    {nonce nonce' : UInt64}
    (hnonce : profile.addU64 (baseNonceOf input.senderBaseNonces senderIndex)
      (encodedNonce (senderNonceIndex input) senderIndex nonce) = .ok nonce') :
    encodedNonce (senderNonceIndex input) senderIndex nonce' =
      encodedNonce (senderNonceIndex input) senderIndex nonce := by
  obtain ⟨_, hok, hmax⟩ := h.addU64_eq_ok profile senderIndex nonce
  obtain rfl := Except.ok.inj (hnonce.symm.trans hok)
  have hlen := h.length_baseNonces_le senderIndex
  rw [encodedNonce, encodedNonce, get_senderNonceIndex, ← UInt64.toNat_inj]
  clear hnonce hok
  generalize input.baseNonces senderIndex = bases at *
  rcases bases with _ | ⟨base, _ | ⟨_, _⟩⟩
  · simpa using hmax
  · simp only [List.getLast?_singleton, Option.map_some, Option.getD_some, toNat_saturatingSub,
      hmax, List.head?_cons]
    omega
  · simp at hlen

/-- A transaction of a sender in the table is read. -/
theorem UniqueSenders.exists_readTx (h : UniqueSenders input) {tx : SignedTransaction T}
    {senderIndex : ℕ} (hsender : (Assoc.indexOf input.addresses).get tx.sender = some senderIndex) :
    ∃ tx', readTx crates input tx = some tx' := by
  obtain ⟨nonce, hnonce, -⟩ := h.addU64_eq_ok crates.toProfile senderIndex
    (lowU64 (crates.primitives.fields tx.unsigned).nonce)
  exact ⟨_, readTx_eq_some.mpr ⟨senderIndex, nonce, hsender, hnonce, rfl⟩⟩

/-! ## The items -/

section Items

variable {block : Block T} {earlier : List (List (SignedTransaction T))} {seenTxs : SeenTxs}

/-- **What is read of a transaction is written as the same item.** -/
theorem IsWrittenItem.isTxItem {e : Written (SignedTransaction T)} {item : RlpItem T}
    (h : IsWrittenItem crates input block.epoch e item) (hlawful : crates.primitives.Lawful)
    (hsenders : UniqueSenders input) {tx : SignedTransaction T}
    (hread : e.resolve (readTx crates input) earlier = some tx) {refs : List (Option (ℕ × ℕ))}
    {k : ℕ} (href : refs[k]? = some e.position?) :
    IsTxItem crates block (some refs) (Assoc.indexOf input.addresses)
      (Assoc.indexOf input.gasPrices) (senderNonceIndex input) seenTxs (tx, k) item seenTxs := by
  have hdup : duplicateRefOf crates (some refs) seenTxs (tx, k) = .ok e.position? :=
    indexAt_eq_ok.mpr href
  cases h with
  | reference p =>
    rw [← refItem_wordPosition]
    exact .ref hdup
  | @value tx₀ senderIndex action hsender haction =>
    obtain ⟨senderIndex', nonce, hsender', hnonce, rfl⟩ := readTx_eq_some.mp hread
    obtain rfl := Option.some.inj (hsender.symm.trans hsender')
    rw [← txItem_readBack hlawful (hsenders.encodedNonce_eq hnonce)]
    refine .tx hdup ?_ ?_
    · rw [sender_readBack hlawful, hsender]
    · rw [fields_readBack hlawful, haction]

/-- What is read of the transactions of a block, written item by item. -/
theorem txItems_of_readsTxs (hlawful : crates.primitives.Lawful) (hsenders : UniqueSenders input)
    {refs : List (Option (ℕ × ℕ))} (hrefs : block.encodedRefs = some refs)
    {written : List (Written (SignedTransaction T))} {items : List (RlpItem T)}
    (hitems : List.Forall₂ (IsWrittenItem crates input block.epoch) written items)
    {txs : List (SignedTransaction T)} (htxs : ReadsTxs crates input earlier written txs) {k : ℕ}
    (hdrop : refs.drop k = written.map (·.position?)) :
    TxItems crates block (Assoc.indexOf input.addresses) (Assoc.indexOf input.gasPrices)
      (senderNonceIndex input) seenTxs (txs.zipIdx k) items seenTxs := by
  induction hitems generalizing txs k with
  | nil =>
    obtain rfl := List.forall₂_nil_left_iff.mp htxs
    exact .nil _
  | @cons e item _ _ hitem _ ih =>
    obtain ⟨tx, txs, hread, hrest, rfl⟩ := List.forall₂_cons_left_iff.mp htxs
    rw [List.map_cons] at hdrop
    rw [List.zipIdx_cons]
    have hitem' : IsTxItem crates block block.encodedRefs (Assoc.indexOf input.addresses)
        (Assoc.indexOf input.gasPrices) (senderNonceIndex input) seenTxs (tx, k) item seenTxs := by
      rw [hrefs]
      exact hitem.isTxItem hlawful hsenders hread (getElem?_of_drop_eq hdrop).2
    exact .cons hitem' (ih hrest (drop_add_of_drop_eq (x := [_]) hdrop))

/-- **What is read of a block is written as the same payload.** -/
theorem IsPayload.encodeTxPayload_readBack {written : List (Written (SignedTransaction T))}
    {txPayload : Bytes} (h : IsPayload crates input block written txPayload)
    (hlawful : crates.primitives.Lawful) (hsenders : UniqueSenders input)
    (hlen : written.length = block.transactions.length) {txs : List (SignedTransaction T)}
    (htxs : ReadsTxs crates input earlier written txs) (index : ℕ) (flags : UInt8)
    (view : Option UInt64) :
    (encodeTxPayload crates (Assoc.indexOf input.addresses) (Assoc.indexOf input.gasPrices)
      (senderNonceIndex input)
      (block.readBack index flags view txs (written.map (·.position?)))).run seenTxs =
        .ok (txPayload, seenTxs) := by
  have htxsLen := htxs.length_eq
  have hnil : txs = [] ↔ block.transactions = [] := by
    rw [← List.length_eq_zero_iff, ← List.length_eq_zero_iff, ← htxsLen, hlen]
  have hbare : (block.readBack index flags view txs (written.map (·.position?))).IsBare ↔
      block.IsBare := and_congr_left fun _ => hnil
  rw [encodeTxPayload_eq_ok, hbare]
  rcases h with ⟨hempty, rfl⟩ | ⟨hnonempty, items, hitems, rfl⟩
  · exact .inl ⟨hempty, rfl, rfl⟩
  · refine .inr ⟨hnonempty, items, ?_, rfl⟩
    have hrefs : (block.readBack index flags view txs (written.map (·.position?))).encodedRefs =
        some (written.map (·.position?)) := if_pos (by simp [Block.readBack, htxsLen])
    exact txItems_of_readsTxs hlawful hsenders hrefs hitems htxs rfl

end Items

/-! ## The records -/

theorem take_asBytes_truncateHash (hash : H256) :
    (truncateHash hash).asBytes.take 4 = hash.asBytes.take 4 := by
  have hlen : (hash.asBytes.take 4 ++ List.replicate 28 0).length = 32 := by simp
  have hread : (truncateHash hash).asBytes = hash.asBytes.take 4 ++ List.replicate 28 0 := by
    rw [truncateHash, h256Prefix, List.length_take, H256.length_asBytes]
    exact H256.asBytes_fromSlice hlen
  rw [hread, List.take_left' (by simp)]

/-- The flags that are read are written again. -/
theorem recordFlags_readBack (block : Block T) (index : ℕ) (txPayload : Bytes) (view : Option UInt64)
    (txs : List (SignedTransaction T)) (refs : List (Option (ℕ × ℕ))) :
    recordFlags (block.readBack index (recordFlags block txPayload) view txs refs) txPayload =
      recordFlags block txPayload := by
  have hmask : payloadFlags txPayload &&& ~~~(flagHasTransactions ||| flagTxCompressed) = 0 := by
    unfold payloadFlags
    split_ifs <;> decide
  unfold recordFlags Block.readBack
  simp only [uint8_or_and, hmask, UInt8.or_zero, UInt8.and_assoc, UInt8.and_self]

/-- The end of the record of a block that is read back. -/
def viewBytes (input : Packet T) (view : Option UInt64) : Bytes :=
  (view.map fun posView => uleb128 (saturatingSub posView input.storedMinPosHeight)).getD []

/-- The record of a block that is read back. -/
def rewrittenRecord (input : Packet T) (block : Block T) (record : Bytes) (view : Option UInt64) :
    Bytes :=
  record.take (record.length - (posViewBytes input block).length) ++ viewBytes input view

/-- The record of a block, before its PoS view. -/
theorem rewrittenRecord_append (input : Packet T) (block : Block T) (base : Bytes)
    (view : Option UInt64) :
    rewrittenRecord input block (base ++ posViewBytes input block) view =
      base ++ viewBytes input view := by
  rw [rewrittenRecord, List.length_append, Nat.add_sub_cancel, List.take_left]

/-- **What is read of a block is written with another PoS view.** -/
theorem encodeBlock_readBack {block : Block T} {txPayload segment segment' record : Bytes}
    (h : (encodeBlock crates input (Assoc.indexOf input.addresses)
      (Assoc.indexOf input.difficulties) (block, txPayload)).run segment = .ok (record, segment'))
    (txPayloads : List Bytes) (views : List (Option UInt64))
    (txss : List (List (SignedTransaction T))) (index : ℕ) (view : Option UInt64)
    (txs : List (SignedTransaction T)) (refs : List (Option (ℕ × ℕ))) :
    (encodeBlock crates (input.readBack crates txPayloads views txss)
      (Assoc.indexOf input.addresses) (Assoc.indexOf input.difficulties)
      (block.readBack index (recordFlags block txPayload) view txs refs, txPayload)).run segment =
        .ok (rewrittenRecord input block record view, segment') := by
  obtain ⟨units, fields, happended, hfields, rfl⟩ := encodeBlock_eq_ok.mp h
  refine encodeBlock_eq_ok.mpr ⟨units, fields, happended, ⟨hfields.author, hfields.minTimestamp_le,
    hfields.difficulty, hfields.gasLimit, hfields.basePriceCore, hfields.basePriceEspace,
    hfields.minHeight_le, hfields.baseReward⟩, ?_⟩
  have hhead : recordHead (block.readBack index (recordFlags block txPayload) view txs refs) =
      recordHead block := by
    unfold recordHead Block.readBack
    simp only [take_asBytes_truncateHash]
  have hflags := recordFlags_readBack block index txPayload view txs refs
  have hbase : recordHead block ++
      recordFlags block txPayload :: fields.toBytes input block units =
        (recordHead block ++ recordFlags block txPayload :: fields.fixedBytes input block units) ++
          posViewBytes input block := by
    rw [FieldBytes.toBytes_eq, List.append_assoc, List.cons_append]
  rw [← recordFlags, ← recordFlags, hhead, hflags, hbase, rewrittenRecord_append,
    FieldBytes.toBytes_eq, List.append_assoc, List.cons_append]
  rfl

/-! ## The packet -/

section Packet

variable {b : Bytes} {txPayloads records : List Bytes} {txSegment : Bytes}
  {views : List (Option UInt64)} {txs : List (List (SignedTransaction T))}

theorem getElem?_readBack {i : ℕ} {block' : Block T}
    (h : (input.readBack crates txPayloads views txs).blocks[i]? = some block') :
    ∃ block, input.blocks[i]? = some block ∧
      block' = block.readBack i (recordFlags block (txPayloads.getD i [])) (views.getD i none)
        (txs.getD i []) (((input.written crates).getD i []).map (·.position?)) := by
  simp only [Packet.readBack, List.getElem?_map, List.getElem?_zipIdx, Nat.zero_add,
    Option.map_eq_some_iff] at h
  obtain ⟨_, ⟨block, hblock, rfl⟩, rfl⟩ := h
  exact ⟨block, hblock, rfl⟩

/-- What is read of a packet passes the checks of the encoder. -/
theorem ValidInput.readBack (h : ValidInput input) (txPayloads : List Bytes)
    (views : List (Option UInt64)) (txs : List (List (SignedTransaction T))) :
    ValidInput (input.readBack crates txPayloads views txs) := by
  have hlen : (input.readBack crates txPayloads views txs).blocks.length = input.blocks.length := by
    simp [Packet.readBack]
  have hpivot : flagPivot &&& (flagHasTransactions ||| flagTxCompressed) = 0 := by decide
  have hreserved : (0b10000000 : UInt8) &&& (flagHasTransactions ||| flagTxCompressed) = 0 := by
    decide
  -- a block that is read back has the pivot flag, the epoch and the height of its original
  have hrel : List.Forall₂ (fun b block : Block T => b.has flagPivot = block.has flagPivot ∧
      b.epoch = block.epoch ∧ b.height = block.height)
        (input.readBack crates txPayloads views txs).blocks input.blocks := by
    refine List.forall₂_iff_get.mpr ⟨hlen, fun i hi hi' => ?_⟩
    obtain ⟨block, hblock, heq⟩ := getElem?_readBack (List.getElem?_eq_getElem hi)
    obtain rfl := Option.some.inj (hblock.symm.trans (List.getElem?_eq_getElem hi'))
    have hflags := recordFlags_and input.blocks[i] (txPayloads.getD i []) hpivot
    rw [List.get_eq_getElem, List.get_eq_getElem, heq]
    exact ⟨by unfold Block.has Block.readBack; rw [hflags], rfl, rfl⟩
  obtain ⟨hgroups, hrest⟩ := List.groups_rel (fun _ _ hb => hb.1) hrel
  -- each condition is that of the original packet
  constructor
  · intro hempty
    rw [hempty] at hlen
    exact h.nonempty (List.eq_nil_of_length_eq_zero hlen.symm)
  · intro first hfirst
    rw [Option.mem_def, List.head?_eq_getElem?] at hfirst
    obtain ⟨block, hblock, rfl⟩ := getElem?_readBack hfirst
    exact h.first_lt block (by rw [List.head?_eq_getElem?, hblock, Option.mem_def])
  · intro i block' hblock'
    obtain ⟨block, -, rfl⟩ := getElem?_readBack hblock'
    rfl
  · intro block' hblock'
    obtain ⟨i, hi⟩ := List.getElem?_of_mem hblock'
    obtain ⟨block, hblock, rfl⟩ := getElem?_readBack hi
    exact (recordFlags_and block (txPayloads.getD i []) hreserved).trans
      (h.reserved block (List.mem_of_getElem? hblock))
  -- every group is read back as a group, member by member
  · intro group hgroup block hblock
    obtain ⟨group', hgroup', hmembers, hlast⟩ := hgroups.exists_right hgroup
    have hrun := List.rel_append hmembers (.cons hlast .nil)
    obtain ⟨block', hblock', -, hepoch, -⟩ := List.Forall₂.exists_right hrun hblock
    rw [hepoch, hlast.2.2, h.epoch group' hgroup' block' hblock']
  · rw [h.complete, List.forall₂_nil_right_iff] at hrest
    exact hrest

/-- What is read of the blocks is written as the same payloads. -/
theorem IsEncoding.rounds_encodeTxPayload_readBack
    (h : IsEncoding crates input b txPayloads records txSegment)
    (hlawful : crates.primitives.Lawful) (hsenders : UniqueSenders input)
    (hresolves : Resolves (readTx crates input) (input.written crates) txs)
    (views : List (Option UInt64)) :
    Rounds (encodeTxPayload crates (Assoc.indexOf input.addresses) (Assoc.indexOf input.gasPrices)
      (senderNonceIndex input)) [] (input.readBack crates txPayloads views txs).blocks txPayloads
        [] := by
  have hlen : (input.readBack crates txPayloads views txs).blocks.length = input.blocks.length := by
    simp [Packet.readBack]
  have hpayloads := h.length_payloads
  have hshape : List.SameShape (input.written crates) (input.blocks.map (·.transactions)) :=
    sameShape_written input
  have hwrittenLen : (input.written crates).length = input.blocks.length := by
    simpa using hshape.length_eq
  have htxsLen := hresolves.length_eq
  -- no round depends on the rounds before it, so they are taken one at a time
  refine @Rounds.of_getElem _ _ _ _ _ _ _ (fun _ => []) (by omega) fun i block' txPayload hblock'
    hpayload => ?_
  obtain ⟨block, hblock, rfl⟩ := getElem?_readBack hblock'
  have hi := (List.getElem?_eq_some_iff.mp hblock).1
  have hwritten : (input.written crates)[i]? = some (input.written crates)[i] :=
    List.getElem?_eq_getElem (by omega)
  have htxs : txs[i]? = some txs[i] := List.getElem?_eq_getElem (by omega)
  have hsame : (input.written crates)[i].length = block.transactions.length := by
    obtain ⟨hblocks, hsame⟩ := List.forall₂_iff_get.mp hshape
    have hlens := hsame i (by omega) (by simpa using hi)
    obtain ⟨_, rfl⟩ := List.getElem?_eq_some_iff.mp hblock
    simpa using hlens
  simp only [List.getD_eq_getElem?_getD, hwritten, htxs, hpayload, Option.getD_some]
  exact (h.isPayload hblock hwritten hpayload).encodeTxPayload_readBack hlawful hsenders hsame
    (hresolves.block i _ _ hwritten htxs) _ _ _

/-- The records of the blocks that are read back. -/
def rewrittenRecords (input : Packet T) (records : List Bytes) (views : List (Option UInt64)) :
    List Bytes :=
  (input.blocks.zip records).zipIdx.map fun entry =>
    rewrittenRecord input entry.1.1 entry.1.2 (views.getD entry.2 none)

/-- What is read of the blocks is written as records with other PoS views. -/
theorem IsEncoding.rounds_encodeBlock_readBack
    (h : IsEncoding crates input b txPayloads records txSegment) (views : List (Option UInt64))
    (txs : List (List (SignedTransaction T))) :
    Rounds (encodeBlock crates (input.readBack crates txPayloads views txs)
      (Assoc.indexOf input.addresses) (Assoc.indexOf input.difficulties)) []
      ((input.readBack crates txPayloads views txs).blocks.zip txPayloads)
      (rewrittenRecords input records views) txSegment := by
  have hrecords := h.length_records
  have hpayloads := h.length_payloads
  have hlen : (input.readBack crates txPayloads views txs).blocks.length = input.blocks.length := by
    simp [Packet.readBack]
  refine h.rounds.of_rounds (by simp [hlen]) (by simp [rewrittenRecords]; omega) ?_
  rintro i ⟨block, txPayload⟩ record ⟨block', txPayload'⟩ record' t t' hentry hrecord hentry' hrecord'
    hround
  obtain ⟨hblock, hpayload⟩ := List.getElem?_zip_eq_some.mp hentry
  obtain ⟨hblock', hpayload'⟩ := List.getElem?_zip_eq_some.mp hentry'
  obtain ⟨block₁, hblock₁, rfl⟩ := getElem?_readBack hblock'
  obtain rfl := Option.some.inj (hblock.symm.trans hblock₁)
  obtain rfl := Option.some.inj (hpayload.symm.trans hpayload')
  obtain rfl : rewrittenRecord input block record (views.getD i none) = record' := by
    have hzip : (input.blocks.zip records)[i]? = some (block, record) :=
      List.getElem?_zip_eq_some.mpr ⟨hblock, hrecord⟩
    simpa [rewrittenRecords, hzip] using hrecord'
  have hget : txPayloads.getD i [] = txPayload := by
    rw [List.getD_eq_getElem?_getD, hpayload, Option.getD_some]
  rw [hget]
  exact encodeBlock_readBack hround txPayloads views txs _ _ _ _

/-- The encoder, after its checks and the records. -/
theorem encodePacket_of_encodeBlocks (hvalid : validateInput crates input = .ok ())
    (hblocks : encodeBlocks crates input (Assoc.indexOf input.addresses)
      (Assoc.indexOf input.gasPrices) (senderNonceIndex input) (Assoc.indexOf input.difficulties) =
        .ok (records, txSegment)) :
    encodePacket crates input = assemblePacket input (choosePrefixSize records) records.length
      (packBlockBody records (choosePrefixSize records)).2
      (packBlockBody records (choosePrefixSize records)).1 txSegment := by
  unfold senderNonceIndex at hblocks
  unfold encodePacket
  simp only [hvalid, hblocks, Except.ok_bind]

/-- **What is read of a packet is encoded with the same payloads**, and with records that differ in
the PoS views. -/
theorem IsEncoding.encodePacket_readBack_eq
    (h : IsEncoding crates input b txPayloads records txSegment)
    (hlawful : crates.primitives.Lawful) (hsenders : UniqueSenders input)
    (hresolves : Resolves (readTx crates input) (input.written crates) txs)
    (views : List (Option UInt64)) :
    encodePacket crates (input.readBack crates txPayloads views txs) =
      assemblePacket input (choosePrefixSize (rewrittenRecords input records views))
        (rewrittenRecords input records views).length
        (packBlockBody (rewrittenRecords input records views)
          (choosePrefixSize (rewrittenRecords input records views))).2
        (packBlockBody (rewrittenRecords input records views)
          (choosePrefixSize (rewrittenRecords input records views))).1 txSegment := by
  -- what is read back is valid, and its payloads and records are those written again
  have hvalid : validateInput crates (input.readBack crates txPayloads views txs) = .ok () :=
    validateInput_eq_ok.mpr (h.valid.readBack txPayloads views txs)
  have hpayloads :=
    mapM_run_eq_ok.mpr (h.rounds_encodeTxPayload_readBack hlawful hsenders hresolves views)
  have hrecords := mapM_run_eq_ok.mpr (h.rounds_encodeBlock_readBack views txs)
  have hblocks : encodeBlocks crates (input.readBack crates txPayloads views txs)
      (Assoc.indexOf input.addresses) (Assoc.indexOf input.gasPrices) (senderNonceIndex input)
      (Assoc.indexOf input.difficulties) =
        .ok (rewrittenRecords input records views, txSegment) := by
    rw [encodeBlocks, hpayloads, Except.ok_bind]
    exact hrecords
  -- the header differs in nothing: the least height loses only bits that are not stored
  have hmin : (input.readBack crates txPayloads views txs).minPosHeight.toUInt32 =
      input.minPosHeight.toUInt32 := by
    rw [← UInt32.toNat_inj]
    simp [Packet.readBack, Packet.storedMinPosHeight]
  have hassemble : ∀ n count bitmap body, assemblePacket (input.readBack crates txPayloads views txs)
      n count bitmap body txSegment = assemblePacket input n count bitmap body txSegment := by
    intro n count bitmap body
    unfold assemblePacket fixedHeader
    rw [hmin]
    rfl
  rw [encodePacket_of_encodeBlocks hvalid hblocks, hassemble]

end Packet

end Cfxpack
