import CfxMinimalExecution.Cfxpack.DecodeEncoded
import CfxMinimalExecution.Cfxpack.PlainCrates
import CfxMinimalExecution.Cfxpack.TxReadBack

/-!
# Values that the encoder alters

The encoder refuses a timestamp or a height below its base. It writes a PoS view below its base as
the base, cuts the base of the PoS heights to 32 bits, and the nonces and gas limits to 64. It goes
by the last base nonce of a sender and the decoder by the first.

## Main definitions

* `Unaltered`: what a decoded packet must not have lost
* `Representable`: packets with values that have an encoding

## Main results

* `decode_encode_unaltered_iff`: the decoded packet is unaltered exactly when the packet is
  representable
-/

namespace Cfxpack

variable {T : PrimitiveTypes}

/-! ## The properties -/

/-- The nonces and gas limits of the transactions, block by block. -/
def Packet.noncesAndGas (crates : Crates T) (input : Packet T) : List (List (U256 × U256)) :=
  (input.blocks.map (·.transactions)).map (·.map (SignedTransaction.nonceAndGas crates))

/-- What a decoded packet must not have lost. -/
structure Unaltered (crates : Crates T) (input packet : Packet T) : Prop where
  minPosHeight : packet.minPosHeight = input.minPosHeight
  posViews : packet.blocks.map (·.posView) = input.blocks.map (·.posView)
  noncesAndGas : packet.noncesAndGas crates = input.noncesAndGas crates

/-- The PoS heights of a packet have an encoding. -/
structure RepresentableViews (input : Packet T) : Prop where
  minPosHeight_lt : input.minPosHeight.toNat < UInt32.size
  minPosHeight_le : ∀ block ∈ input.blocks, ∀ posView, block.posView = some posView →
    input.minPosHeight ≤ posView

/-- The nonces and gas limits of a packet have an encoding, and a transaction that is written as a
reference has those of the transaction there. -/
structure RepresentableTxs (crates : Crates T) (input : Packet T) : Prop where
  value : ∀ p tx, (input.written crates).atPosition p = some (.value tx) →
    KeepsNonceAndGas crates input tx
  reference : ∀ p r tx tx', (input.written crates).atPosition p = some (.reference r) →
    (input.blocks.map (·.transactions)).atPosition p = some tx →
    (input.blocks.map (·.transactions)).atPosition r = some tx' →
      tx'.nonceAndGas crates = tx.nonceAndGas crates

/-- Packets with values that have an encoding. -/
def Representable (crates : Crates T) (input : Packet T) : Prop :=
  RepresentableViews input ∧ RepresentableTxs crates input

/-- The decoder expects PoS views where the packet has them. -/
def HasViewsFrom (input : Packet T) (height : UInt64) : Prop :=
  ∀ block ∈ input.blocks, block.posView.isSome ↔ height ≤ block.height

/-! ## The PoS views -/

variable {crates : Crates T} {input : Packet T} {height : UInt64}

/-- A PoS view as it is read back. -/
def Packet.viewBack (input : Packet T) (posView : UInt64) : UInt64 :=
  input.storedMinPosHeight + saturatingSub posView input.minPosHeight

/-- The views are read where they are expected. -/
theorem readsViews_iff (hviews : HasViewsFrom input height) {records : List Bytes}
    (hlen : records.length = input.blocks.length) {views : List (Option UInt64)} :
    ReadsViews input height records views ↔
      views = input.blocks.map fun block => block.posView.map input.viewBack := by
  have hblocks : (input.blocks.zip records).map (fun entry => entry.1.posView.map input.viewBack) =
      input.blocks.map fun block => block.posView.map input.viewBack := by
    calc (input.blocks.zip records).map (fun entry => entry.1.posView.map input.viewBack)
        = ((input.blocks.zip records).map Prod.fst).map
            fun block => block.posView.map input.viewBack := by rw [List.map_map]; rfl
      _ = _ := by rw [List.map_fst_zip hlen.ge]
  rw [ReadsViews, ← hblocks]
  apply List.forall₂_iff_eq_map
  rintro ⟨block, record⟩ hentry view
  have hblock := hviews block (List.of_mem_zip hentry).1
  unfold viewRead
  cases hview : block.posView with
  | some posView =>
    rw [if_pos (hblock.mp (by simp [hview]))]
    simp [Packet.viewBack, eq_comm]
  | none =>
    have hnot : ¬ height ≤ block.height := by simpa [hview] using hblock
    simp [hnot, eq_comm]

theorem storedMinPosHeight_eq_iff :
    input.storedMinPosHeight = input.minPosHeight ↔ input.minPosHeight.toNat < UInt32.size := by
  rw [← UInt64.toNat_inj, toNat_storedMinPosHeight, Nat.mod_eq_iff_lt (by decide)]

/-- A view is read back when it is not below the base. -/
theorem viewBack_eq_iff (h : input.storedMinPosHeight = input.minPosHeight) {posView : UInt64} :
    input.viewBack posView = posView ↔ input.minPosHeight ≤ posView := by
  have hmin := input.minPosHeight.toNat_lt
  have hview := posView.toNat_lt
  rw [Packet.viewBack, h, ← UInt64.toNat_inj, UInt64.toNat_add, toNat_saturatingSub,
    UInt64.le_iff_toNat_le]
  omega

/-- **When the PoS heights are read back.** -/
theorem views_unaltered_iff :
    (input.storedMinPosHeight = input.minPosHeight ∧
        (input.blocks.map fun block => block.posView.map input.viewBack) =
          input.blocks.map (·.posView)) ↔ RepresentableViews input := by
  constructor
  · rintro ⟨hmin, hviews⟩
    refine ⟨storedMinPosHeight_eq_iff.mp hmin, fun block hblock posView hview => ?_⟩
    have hsame := List.map_inj_left.mp hviews block hblock
    rw [hview, Option.map_some] at hsame
    exact (viewBack_eq_iff hmin).mp (Option.some.inj hsame)
  · rintro ⟨hlt, hle⟩
    have hmin := storedMinPosHeight_eq_iff.mpr hlt
    refine ⟨hmin, List.map_inj_left.mpr fun block hblock => ?_⟩
    cases hview : block.posView with
    | none => rfl
    | some posView =>
      rw [Option.map_some, (viewBack_eq_iff hmin).mpr (hle block hblock posView hview)]

/-! ## The transactions -/

/-- **When the nonces and gas limits are read back.** -/
theorem txs_unaltered_iff (hlawful : crates.primitives.Lawful)
    {txs : List (List (SignedTransaction T))}
    (h : Resolves (readTx crates input) (input.written crates) txs) :
    txs.map (·.map (SignedTransaction.nonceAndGas crates)) = input.noncesAndGas crates ↔
      RepresentableTxs crates input := by
  have hshape : List.SameShape (input.written crates) (input.blocks.map (·.transactions)) :=
    sameShape_written input
  rw [Packet.noncesAndGas, (h.sameShape.symm.trans hshape).map_map_eq_iff, h.agrees_iff hshape]
  constructor
  · rintro ⟨hvalue, hreference⟩
    refine ⟨fun p tx he => ?_, hreference⟩
    obtain ⟨tx', htx'⟩ := h.sameShape.exists_atPosition he
    have hread : readTx crates input tx = some tx' := h.atPosition he htx'
    exact (nonceAndGas_readTx_iff hlawful hread).mp
      (hvalue p tx tx' tx he hread (atPosition_of_written_value he))
  · rintro ⟨hvalue, hreference⟩
    refine ⟨fun p tx tx' tx'' he hread htx'' => ?_, hreference⟩
    obtain rfl := Option.some.inj ((atPosition_of_written_value he).symm.trans htx'')
    exact (nonceAndGas_readTx_iff hlawful hread).mpr (hvalue p tx he)

/-! ## The packet -/

/-- **A decoded packet is unaltered exactly when the packet is representable.** -/
theorem decode_encode_unaltered_iff (hlawful : crates.Lawful) {b : Bytes} {packet : Packet T}
    (hsize : b.length < UInt64.size) (hencode : encodePacket crates input = .ok b)
    (hviews : HasViewsFrom input height)
    (hdecode : decodePacketExt crates b height = .ok packet) :
    Unaltered crates input packet ↔ Representable crates input := by
  obtain ⟨txPayloads, records, txSegment, h⟩ := encodePacket_iff.mp hencode
  obtain ⟨views, txs, hreads, hresolves, rfl⟩ := (h.decodePacketExt_eq_ok hlawful hsize).mp hdecode
  rw [readsViews_iff hviews h.length_records] at hreads
  have hlen : txs.length = input.blocks.length := by
    rw [hresolves.length_eq, (sameShape_written input).length_eq, List.length_map]
  have hposViews : (input.readBack crates txPayloads views txs).blocks.map (·.posView) =
      input.blocks.map fun block => block.posView.map input.viewBack := by
    refine List.ext_getElem (by simp [Packet.readBack]) fun i hi hi' => ?_
    rw [List.length_map] at hi'
    simp [Packet.readBack, Block.readBack, hreads, hi']
  have hnoncesAndGas : (input.readBack crates txPayloads views txs).noncesAndGas crates =
      txs.map (·.map (SignedTransaction.nonceAndGas crates)) := by
    rw [Packet.noncesAndGas, map_transactions_readBack hlen]
  rw [Representable, ← views_unaltered_iff, ← txs_unaltered_iff hlawful.primitives hresolves,
    ← hposViews, ← hnoncesAndGas]
  constructor
  · rintro ⟨hmin, hposViews, hnonces⟩
    exact ⟨⟨hmin, hposViews⟩, hnonces⟩
  · rintro ⟨⟨hmin, hposViews⟩, hnonces⟩
    exact ⟨hmin, hposViews, hnonces⟩

/-- A packet with a PoS view. -/
def viewPacket (posView : UInt64) : Packet plainTypes :=
  { plainPacket with minPosHeight := 10, blocks := [{ plainBlock with posView := some posView }] }

theorem hasViewsFrom_viewPacket (posView : UInt64) : HasViewsFrom (viewPacket posView) 5 := by
  intro block hblock
  obtain rfl := List.mem_singleton.mp hblock
  exact ⟨fun _ => (by decide : (5 : UInt64) ≤ 5), fun _ => rfl⟩

/-- A view above the base is read back. -/
theorem unaltered_viewPacket : ∃ b packet, encodePacket plainCrates (viewPacket 12) = .ok b ∧
    decodePacketExt plainCrates b 5 = .ok packet ∧
      Unaltered plainCrates (viewPacket 12) packet := by
  have hrun : ((encodePacket plainCrates (viewPacket 12)).bind fun b =>
      (decodePacketExt plainCrates b 5).map fun _ => b.length) = .ok 320 := by decide +kernel
  obtain ⟨b, hencode, hrun⟩ := Except.bind_eq_ok.mp hrun
  obtain ⟨packet, hdecode, hlen⟩ := Except.map_eq_ok.mp hrun
  refine ⟨b, packet, hencode, hdecode, ?_⟩
  refine (decode_encode_unaltered_iff plainCrates_lawful (by rw [hlen]; decide) hencode
    (hasViewsFrom_viewPacket 12) hdecode).mpr ⟨⟨by decide, ?_⟩, ⟨?_, ?_⟩⟩
  · intro block hblock posView hview
    obtain rfl := List.mem_singleton.mp hblock
    obtain rfl := Option.some.inj hview
    decide
  -- there is no transaction
  · intro p tx he
    obtain ⟨block, tx', hblock, htx', -⟩ := atPosition_written he
    obtain rfl := List.mem_singleton.mp (List.mem_of_getElem? hblock)
    cases htx'
  · intro p r tx tx' he
    obtain ⟨block, tx', hblock, htx', -⟩ := atPosition_written he
    obtain rfl := List.mem_singleton.mp (List.mem_of_getElem? hblock)
    cases htx'

/-- A view below the base is read as the base. -/
theorem not_unaltered_viewPacket : ¬ ∀ (input : Packet plainTypes) (b : Bytes) (height : UInt64)
    (packet : Packet plainTypes), encodePacket plainCrates input = .ok b →
      HasViewsFrom input height → decodePacketExt plainCrates b height = .ok packet →
        Unaltered plainCrates input packet := by
  intro hclaim
  have hrun : ((encodePacket plainCrates (viewPacket 5)).bind fun b =>
      (decodePacketExt plainCrates b 5).map fun packet => packet.blocks.map (·.posView)) =
        .ok [some 10] := by decide +kernel
  obtain ⟨b, hencode, hrun⟩ := Except.bind_eq_ok.mp hrun
  obtain ⟨packet, hdecode, hviews⟩ := Except.map_eq_ok.mp hrun
  have hsame := (hclaim _ b 5 packet hencode (hasViewsFrom_viewPacket 5) hdecode).posViews
  rw [hviews] at hsame
  cases hsame

end Cfxpack
