import CfxMinimalExecution.Cfxpack.PatchPosReward
import CfxMinimalExecution.Cfxpack.Unaltered

/-!
# Packets that are read back, with one more reward

A packet that is read from bytes and encoded to them again is its own reading: its views and its
transactions are read as they are. So is what is encoded of it with one more reward at a block, as
no other payload depends on the rewards of the block.

## Main definitions

* `Reproduced crates height b packet`: the packet is read from the bytes and encoded to them

## Main results

* `Reproduced.exists_reading`: what a packet that is read back has as its own reading
* `Reproduced.decode_withRewardAt`: what is read of the packet with one more reward
-/

namespace Cfxpack

variable {T : PrimitiveTypes} {crates : Crates T}

/-- The packet is read from the bytes and encoded to them. -/
structure Reproduced (crates : Crates T) (height : UInt64) (b : Bytes) (packet : Packet T) : Prop where
  decode : decodePacketExt crates b height = .ok packet
  encode : encodePacket crates packet = .ok b

/-! ## The payloads -/

section Payloads

variable {input : Packet T} {blocks : List (Block T)} {block : Block T} {blockEpoch : UInt64}

/-- An item depends on the tables of the packet only. -/
theorem IsWrittenItem.unique {e : Written (SignedTransaction T)} {item item' : RlpItem T}
    (h : IsWrittenItem crates input blockEpoch e item)
    (h' : IsWrittenItem crates { input with blocks } blockEpoch e item') : item = item' := by
  generalize he : e = e' at h'
  cases h with
  | reference p =>
    cases h' with
    | reference p' =>
      have hposition : wordPosition p = wordPosition p' := Written.reference.inj he
      rw [← refItem_wordPosition p, hposition, refItem_wordPosition]
    | value => cases he
  | value hsender haction =>
    cases h' with
    | reference => cases he
    | value hsender' haction' =>
      obtain rfl := Written.value.inj he
      obtain rfl := Option.some.inj (hsender.symm.trans hsender')
      obtain rfl := Option.some.inj (haction.symm.trans haction')
      rfl

/-- So does a payload. -/
theorem IsPayload.unique {written : List (Written (SignedTransaction T))} {txPayload txPayload' : Bytes}
    (h : IsPayload crates input block written txPayload)
    (h' : IsPayload crates { input with blocks } block written txPayload') :
    txPayload = txPayload' := by
  rcases h with ⟨hbare, rfl⟩ | ⟨hbare, items, hitems, rfl⟩ <;>
    rcases h' with ⟨hbare', rfl⟩ | ⟨hbare', items', hitems', rfl⟩
  · rfl
  · exact absurd hbare hbare'
  · exact absurd hbare' hbare
  · have hsame : items = items' := by
      clear hbare hbare'
      induction hitems generalizing items' with
      | nil => exact (List.forall₂_nil_left_iff.mp hitems').symm
      | cons hitem _ ih =>
        obtain ⟨item', rest, hitem', hrest, rfl⟩ := List.forall₂_cons_left_iff.mp hitems'
        rw [hitem.unique hitem', ih _ hrest]
    rw [hsame]

end Payloads

/-! ## The reading of a packet that is read back -/

section Reading

variable {height : UInt64} {b : Bytes} {packet : Packet T}

/-- The views of what is read stand where they are expected. -/
theorem hasViewsFrom_readBack {input : Packet T} {txPayloads records : List Bytes}
    {views : List (Option UInt64)} {txs : List (List (SignedTransaction T))}
    (hlen : records.length = input.blocks.length) (h : ReadsViews input height records views) :
    HasViewsFrom (input.readBack crates txPayloads views txs) height := by
  intro block' hblock'
  obtain ⟨i, hi⟩ := List.getElem?_of_mem hblock'
  simp only [Packet.readBack, List.getElem?_map, List.getElem?_zipIdx, Nat.zero_add,
    Option.map_eq_some_iff] at hi
  obtain ⟨_, ⟨block, hblock, rfl⟩, rfl⟩ := hi
  obtain ⟨hviewsLen, hviews⟩ := List.forall₂_iff_get.mp h
  obtain ⟨hlt, rfl⟩ := List.getElem?_eq_some_iff.mp hblock
  rw [List.length_zip, hlen, Nat.min_self] at hviewsLen
  have hview := hviews i (by simp; omega) (by omega)
  have hget : views.getD i none = views[i] := by simp [hviewsLen ▸ hlt]
  simp only [List.get_eq_getElem, List.getElem_zip] at hview
  change (views.getD i none).isSome ↔ height ≤ input.blocks[i].height
  rw [hget]
  unfold viewRead at hview
  -- a view is read exactly from the first height with references on
  split at hview
  case isTrue hheight =>
    refine iff_of_true ?_ hheight
    cases hposView : input.blocks[i].posView with
    | some posView =>
      rw [hposView] at hview
      rw [← Option.some.inj hview]
      rfl
    | none =>
      rw [hposView] at hview
      dsimp only at hview
      split at hview
      · cases hview
      · rw [← Option.some.inj hview]
        rfl
  case isFalse hheight =>
    rw [← Option.some.inj hview]
    simp [hheight]

/-- What a packet that is read back has as its own reading. -/
structure IsReading (crates : Crates T) (height : UInt64) (b : Bytes) (packet : Packet T)
    (txPayloads records : List Bytes) (txSegment : Bytes)
    (txs : List (List (SignedTransaction T))) : Prop where
  encoding : IsEncoding crates packet b txPayloads records txSegment
  resolves : Resolves (readTx crates packet) (packet.written crates) txs
  views : HasViewsFrom packet height
  minPosHeight : packet.storedMinPosHeight = packet.minPosHeight
  block : ∀ (i : ℕ) (block : Block T), packet.blocks[i]? = some block →
    block = block.readBack i (recordFlags block (txPayloads.getD i []))
      (block.posView.map packet.viewBack) (txs.getD i [])
      (((packet.written crates).getD i []).map (·.position?))

theorem Reproduced.exists_reading (h : Reproduced crates height b packet) (hlawful : crates.Lawful)
    (hsize : b.length < UInt64.size) :
    ∃ txPayloads records txSegment txs,
      IsReading crates height b packet txPayloads records txSegment txs := by
  obtain ⟨txPayloads, records, txSegment, hencoding⟩ := encodePacket_iff.mp h.encode
  obtain ⟨views, txs, hviews, hresolves, heq⟩ :=
    (hencoding.decodePacketExt_eq_ok hlawful hsize).mp h.decode
  have hfrom : HasViewsFrom packet height := by
    have hread : HasViewsFrom (packet.readBack crates txPayloads views txs) height :=
      hasViewsFrom_readBack hencoding.length_records hviews
    rwa [← heq] at hread
  obtain rfl := (readsViews_iff hfrom hencoding.length_records).mp hviews
  refine ⟨txPayloads, records, txSegment, txs, hencoding, hresolves, hfrom, ?_, ?_⟩
  · exact (congrArg Packet.minPosHeight heq).symm
  · intro i block hblock
    have hi := congrArg (·.blocks[i]?) heq
    simpa [Packet.readBack, hblock] using hi

end Reading

/-! ## One more reward -/

section Reward

variable (rewardEntry : PosRewardEntry)

/-- A packet with one more reward at a block. -/
def Packet.withRewardAt (packet : Packet T) (i : ℕ) : Packet T :=
  { packet with blocks := packet.blocks.modify i (·.withReward rewardEntry) }

theorem getElem?_withRewardAt {packet : Packet T} {i k : ℕ} {block : Block T}
    (h : packet.blocks[k]? = some block) : (packet.withRewardAt rewardEntry i).blocks[k]? =
      some (if i = k then block.withReward rewardEntry else block) := by
  rw [Packet.withRewardAt, List.getElem?_modify, h]
  split <;> rfl

/-- The same is written for the transactions. -/
theorem written_withRewardAt (packet : Packet T) (i : ℕ) :
    (packet.withRewardAt rewardEntry i).written crates = packet.written crates := by
  unfold Packet.written Packet.withRewardAt
  generalize ([] : List (H256 × (ℕ × ℕ))) = before
  generalize packet.blocks = blocks
  induction blocks generalizing before i with
  | nil => rw [List.modify_nil]
  | cons block blocks ih =>
    cases i with
    | zero => rfl
    | succ i =>
      rw [List.modify_succ_cons]
      exact congrArg (block.written crates before :: ·) (ih i _)

variable {rewardEntry} {height : UInt64} {b b' : Bytes} {packet : Packet T} {i : ℕ}
  {txPayloads records txPayloads' records' : List Bytes} {txSegment txSegment' : Bytes}
  {txs : List (List (SignedTransaction T))}

/-- The payloads of the other blocks stay. -/
theorem IsReading.txPayloads_eq
    (h : IsReading crates height b packet txPayloads records txSegment txs)
    (h' : IsEncoding crates (packet.withRewardAt rewardEntry i) b' txPayloads' records' txSegment')
    {k : ℕ} (hk : k < packet.blocks.length) (hne : i ≠ k) :
    txPayloads'.getD k [] = txPayloads.getD k [] := by
  have hblock : packet.blocks[k]? = some packet.blocks[k] := List.getElem?_eq_getElem hk
  have hblock' := getElem?_withRewardAt rewardEntry (i := i) hblock
  rw [if_neg hne] at hblock'
  have hshape : (packet.written crates).length = _ := (sameShape_written packet).length_eq
  rw [List.length_map] at hshape
  have hwritten : (packet.written crates)[k]? = some (packet.written crates)[k] :=
    List.getElem?_eq_getElem (by omega)
  have hlen := h.encoding.length_payloads
  have hlen' := h'.length_payloads
  have hsame : (packet.withRewardAt rewardEntry i).blocks.length = packet.blocks.length := by
    simp [Packet.withRewardAt]
  have hpayload : txPayloads[k]? = some txPayloads[k] := List.getElem?_eq_getElem (by omega)
  have hpayload' : txPayloads'[k]? = some txPayloads'[k] := List.getElem?_eq_getElem (by omega)
  have hfirst := h.encoding.isPayload hblock hwritten hpayload
  have hsecond := h'.isPayload hblock' (by rw [written_withRewardAt, hwritten]) hpayload'
  rw [List.getD_eq_getElem?_getD, List.getD_eq_getElem?_getD, hpayload, hpayload',
    Option.getD_some, Option.getD_some]
  exact (hfirst.unique hsecond).symm

/-- What is read of the block with one more reward. -/
theorem IsReading.readBack_withReward
    (h : IsReading crates height b packet txPayloads records txSegment txs) {block : Block T}
    (hblock : packet.blocks[i]? = some block) (flags : UInt8) :
    (block.withReward rewardEntry).readBack i flags (block.posView.map packet.viewBack)
        (txs.getD i []) (((packet.written crates).getD i []).map (·.position?)) =
      { block.withReward rewardEntry with flags } := by
  have hread := h.block i block hblock
  calc (block.withReward rewardEntry).readBack i flags (block.posView.map packet.viewBack)
        (txs.getD i []) (((packet.written crates).getD i []).map (·.position?))
      = { (block.readBack i (recordFlags block (txPayloads.getD i []))
          (block.posView.map packet.viewBack) (txs.getD i [])
          (((packet.written crates).getD i []).map (·.position?))).withReward rewardEntry with
            flags } := rfl
    _ = { block.withReward rewardEntry with flags } := by rw [← hread]

/-- What is read of the packet with one more reward. -/
theorem IsReading.readBack_withRewardAt
    (h : IsReading crates height b packet txPayloads records txSegment txs)
    (h' : IsEncoding crates (packet.withRewardAt rewardEntry i) b' txPayloads' records' txSegment')
    {block : Block T} (hblock : packet.blocks[i]? = some block) :
    (packet.withRewardAt rewardEntry i).readBack crates txPayloads'
        ((packet.withRewardAt rewardEntry i).blocks.map fun block =>
          block.posView.map packet.viewBack) txs =
      { packet with
        blocks := packet.blocks.set i { block.withReward rewardEntry with
          flags := recordFlags block (txPayloads'.getD i []) } } := by
  have hi := (List.getElem?_eq_some_iff.mp hblock).1
  have hblocks : ((packet.withRewardAt rewardEntry i).readBack crates txPayloads'
      ((packet.withRewardAt rewardEntry i).blocks.map fun block =>
        block.posView.map packet.viewBack) txs).blocks =
      packet.blocks.set i { block.withReward rewardEntry with
        flags := recordFlags block (txPayloads'.getD i []) } := by
    apply List.ext_getElem?
    intro k
    rcases Nat.lt_or_ge k packet.blocks.length with hk | hk
    · have hget : packet.blocks[k]? = some packet.blocks[k] := List.getElem?_eq_getElem hk
      have hget' := getElem?_withRewardAt rewardEntry (i := i) hget
      have hview : ((packet.withRewardAt rewardEntry i).blocks.map fun block =>
          block.posView.map packet.viewBack).getD k none =
            packet.blocks[k].posView.map packet.viewBack := by
        rw [List.getD_eq_getElem?_getD, List.getElem?_map, hget', Option.map_some, Option.getD_some]
        split <;> rfl
      rw [List.getElem?_set, Packet.readBack, List.getElem?_map, List.getElem?_zipIdx, hget',
        Option.map_some, Option.map_some, Nat.zero_add, written_withRewardAt]
      dsimp only
      rw [hview]
      -- the block that gets the reward, and the others, whose payloads stay the same
      by_cases hik : i = k
      · subst hik
        obtain rfl := Option.some.inj (hget.symm.trans hblock)
        rw [if_pos rfl, if_pos rfl, if_pos hi]
        exact congrArg some (h.readBack_withReward hget _)
      · rw [if_neg hik, if_neg hik, hget, h.txPayloads_eq h' hk hik]
        exact congrArg some (h.block k _ hget).symm
    · have hlen : (packet.withRewardAt rewardEntry i).blocks.length = packet.blocks.length := by
        simp [Packet.withRewardAt]
      rw [List.getElem?_eq_none (by simp [Packet.readBack, hlen, hk]),
        List.getElem?_eq_none (by simp [hk])]
  calc (packet.withRewardAt rewardEntry i).readBack crates txPayloads'
        ((packet.withRewardAt rewardEntry i).blocks.map fun block =>
          block.posView.map packet.viewBack) txs
      = { packet with
          minPosHeight := packet.storedMinPosHeight
          blocks := ((packet.withRewardAt rewardEntry i).readBack crates txPayloads'
            ((packet.withRewardAt rewardEntry i).blocks.map fun block =>
              block.posView.map packet.viewBack) txs).blocks } := rfl
    _ = _ := by rw [h.minPosHeight, hblocks]

/-- **What is read of a packet with one more reward**: the packet with the reward at the block, of
which the flags tell of its new payload. -/
theorem Reproduced.decode_withRewardAt (h : Reproduced crates height b packet) (hlawful : crates.Lawful)
    (hsize : b.length < UInt64.size) {block : Block T} (hblock : packet.blocks[i]? = some block)
    (hencode : encodePacket crates (packet.withRewardAt rewardEntry i) = .ok b')
    (hsize' : b'.length < UInt64.size) : ∃ txPayload,
      (∃ seenTxs seenTxs', (encodeTxPayload crates (Assoc.indexOf packet.addresses)
        (Assoc.indexOf packet.gasPrices) (senderNonceIndex packet)
          (block.withReward rewardEntry)).run seenTxs = .ok (txPayload, seenTxs')) ∧
      decodePacketExt crates b' height = .ok { packet with
        blocks := packet.blocks.set i { block.withReward rewardEntry with
          flags := recordFlags block txPayload } } := by
  obtain ⟨txPayloads, records, txSegment, txs, hreading⟩ := h.exists_reading hlawful hsize
  obtain ⟨txPayloads', records', txSegment', hencoding⟩ := encodePacket_iff.mp hencode
  have hviews : HasViewsFrom (packet.withRewardAt rewardEntry i) height := by
    intro block' hblock'
    obtain ⟨k, hk⟩ := List.getElem?_of_mem hblock'
    rw [Packet.withRewardAt, List.getElem?_modify, Option.map_eq_map, Option.map_eq_some_iff] at hk
    obtain ⟨old, hold, rfl⟩ := hk
    have hfrom := hreading.views old (List.mem_of_getElem? hold)
    split
    · exact hfrom
    · exact hfrom
  have hresolves : Resolves (readTx crates (packet.withRewardAt rewardEntry i))
      ((packet.withRewardAt rewardEntry i).written crates) txs := by
    rw [written_withRewardAt]
    exact hreading.resolves
  refine ⟨txPayloads'.getD i [], ?_, ?_⟩
  · obtain ⟨seenTxs, hpayloads⟩ := hencoding.payloads
    have hlen := hencoding.length_payloads
    have hnew := getElem?_withRewardAt rewardEntry (i := i) hblock
    rw [if_pos rfl] at hnew
    have hi := (List.getElem?_eq_some_iff.mp hnew).1
    have hpayload : txPayloads'[i]? = some txPayloads'[i] := List.getElem?_eq_getElem (by omega)
    obtain ⟨block', before, after, hblock', hround⟩ := hpayloads.exists_round hpayload
    obtain rfl := Option.some.inj (hnew.symm.trans hblock')
    rw [List.getD_eq_getElem?_getD, hpayload, Option.getD_some]
    exact ⟨before, after, hround⟩
  · rw [← hreading.readBack_withRewardAt hencoding hblock]
    exact (hencoding.decodePacketExt_eq_ok hlawful hsize').mpr
      ⟨_, txs, (readsViews_iff hviews hencoding.length_records).mpr rfl, hresolves, rfl⟩

end Reward

end Cfxpack
