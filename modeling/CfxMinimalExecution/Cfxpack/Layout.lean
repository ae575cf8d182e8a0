import CfxMinimalExecution.Cfxpack.Verify
import CfxMinimalExecution.Library.Sections

/-!
# The layout of a packet

## Main definitions

* `packetSections`: the sections of a packet, with their padding
* `IsPacket data header sections`: the data is a header with the offsets of the sections, and these

## Main results

* `assemblePacket_eq_ok`: what the encoder assembles
* `IsPacket.readOffsets_eq`, `IsPacket.ensureOffsets_eq`: the offsets are read back and pass
-/

namespace Cfxpack

variable {T : PrimitiveTypes}

/-- The zeros that align a position. -/
def padding (n align : ℕ) : Bytes := List.replicate ((align - n % align) % align) 0

theorem alignTo_eq (out : Bytes) (align : ℕ) : alignTo out align = out ++ padding out.length align :=
  rfl

theorem mod_add_length_padding {n align : ℕ} (h : 0 < align) :
    (n + (padding n align).length) % align = 0 := by
  rw [padding, List.length_replicate]
  have hlt := Nat.mod_lt n h
  rcases Nat.eq_zero_or_pos (n % align) with h0 | h0
  · rw [h0, Nat.sub_zero, Nat.mod_self, Nat.add_zero, h0]
  · rw [Nat.mod_eq_of_lt (by omega : align - n % align < align), Nat.add_mod,
      Nat.mod_eq_of_lt (by omega : align - n % align < align),
      Nat.add_sub_cancel' hlt.le, Nat.mod_self]

/-! ## Tables -/

def addressTable (input : Packet T) : Bytes := input.addresses.flatMap Address.asBytes

def posTable (input : Packet T) : Bytes :=
  input.posEntries.flatMap fun entry => entry.hash.asBytes ++ leBytes 2 entry.heightOffset.toNat

def senderTable (input : Packet T) : Bytes :=
  input.senderBaseNonces.flatMap fun entry => uleb128 entry.senderIndex ++ uleb128 entry.baseNonce

def u256Table (values : List U256) : Bytes := values.flatMap u256ToBe

/-- The sections up to the gas prices, and the offset after them. -/
def tableSections (input : Packet T) : List Bytes :=
  [addressTable input, posTable input, u256Table input.difficulties, senderTable input]

def gasPriceOffset (input : Packet T) : ℕ := headerLen + (tableSections input).flatten.length

def gasPriceSection (input : Packet T) : Bytes :=
  u256Table input.gasPrices ++
    padding (gasPriceOffset input + (u256Table input.gasPrices).length) 32

def blockHeaderSection (offset blockCount : ℕ) (extensionBitmap : Bytes) : Bytes :=
  leBytes 4 (UInt32.ofNat blockCount).toNat ++ extensionBitmap ++
    padding (offset + (4 + extensionBitmap.length)) 32

def blockBodySection (offset : ℕ) (blockBody : Bytes) : Bytes :=
  blockBody ++ padding (offset + blockBody.length) 64

/-- The sections of a packet. -/
def packetSections (input : Packet T) (blockCount : ℕ) (extensionBitmap blockBody txSegment : Bytes) :
    List Bytes :=
  let blockHeaderOffset := gasPriceOffset input + (gasPriceSection input).length
  let blockHeader := blockHeaderSection blockHeaderOffset blockCount extensionBitmap
  let blockBodyOffset := blockHeaderOffset + blockHeader.length
  tableSections input ++ [gasPriceSection input, blockHeader,
    blockBodySection blockBodyOffset blockBody, txSegment]

/-- The header, with the offsets of the sections. -/
def packetHeader (fixed : Bytes) (sections : List Bytes) : Bytes :=
  fixed ++ (List.range headerOffsetCount).flatMap fun i =>
    leBytes 4 (sectionOffset headerLen sections i)

@[simp] theorem length_fixedHeader (input : Packet T) (prefixSize : ℕ) :
    (fixedHeader input prefixSize).length = headerFixedLen := by
  simp [fixedHeader, headerFixedLen]

@[simp] theorem length_packetHeader {fixed : Bytes} (h : fixed.length = headerFixedLen)
    (sections : List Bytes) : (packetHeader fixed sections).length = headerLen := by
  simp [packetHeader, h, headerLen, List.length_flatMap, headerOffsetCount]

theorem putOffset_eq_ok {offset : ℕ} {x : Bytes} :
    putOffset offset = .ok x ↔ offset < UInt32.size ∧ leBytes 4 offset = x := by
  unfold putOffset
  split
  case isTrue h => simp [h]
  case isFalse h => simp [h]

theorem mapM_putOffset_eq_ok {offsets : List ℕ} {xs : List Bytes} :
    offsets.mapM putOffset = .ok xs ↔
      (∀ offset ∈ offsets, offset < UInt32.size) ∧ offsets.map (leBytes 4) = xs := by
  induction offsets generalizing xs with
  | nil => simp [eq_comm]
  | cons offset offsets ih =>
    simp only [List.mapM_cons, Except.bind_eq_ok, putOffset_eq_ok, ih, Except.pure_def,
      Except.ok.injEq, List.forall_mem_cons, List.map_cons]
    constructor
    · rintro ⟨x, ⟨h, rfl⟩, xs', ⟨hs, rfl⟩, rfl⟩
      exact ⟨⟨h, hs⟩, rfl⟩
    · rintro ⟨⟨h, hs⟩, rfl⟩
      exact ⟨_, ⟨h, rfl⟩, _, ⟨hs, rfl⟩, rfl⟩

/-- **What the encoder assembles**: the header and the sections, when the offsets are words of 32
bits. -/
theorem assemblePacket_eq_ok {input : Packet T} {prefixSize blockCount : ℕ}
    {extensionBitmap blockBody txSegment b : Bytes} :
    assemblePacket input prefixSize blockCount extensionBitmap blockBody txSegment = .ok b ↔
      (∀ i < headerOffsetCount, sectionOffset headerLen
        (packetSections input blockCount extensionBitmap blockBody txSegment) i < UInt32.size) ∧
      b = packetHeader (fixedHeader input prefixSize)
          (packetSections input blockCount extensionBitmap blockBody txSegment) ++
        (packetSections input blockCount extensionBitmap blockBody txSegment).flatten := by
  unfold assemblePacket packetSections gasPriceSection blockHeaderSection blockBodySection
    gasPriceOffset tableSections addressTable posTable senderTable u256Table
  -- the tables and the paddings are opaque bytes from here on
  generalize input.addresses.flatMap Address.asBytes = addresses
  generalize input.posEntries.flatMap _ = posEntries
  generalize input.difficulties.flatMap _ = difficulties
  generalize input.senderBaseNonces.flatMap _ = senders
  generalize input.gasPrices.flatMap _ = gasPrices
  simp only [alignTo_eq, putU32Le, Except.bind_eq_ok, ensure_eq_ok, mapM_putOffset_eq_ok,
    Except.pure_def, Except.ok.injEq, List.length_append, List.length_replicate, List.append_assoc,
    List.flatten_cons, List.flatten_nil, length_leBytes, List.append_nil,
    Nat.add_assoc]
  generalize padding _ 32 = p₁
  generalize padding _ 32 = p₂
  generalize padding _ 64 = p₃
  have hcount : (leBytes 4 (UInt32.ofNat blockCount).toNat).length = 4 := length_leBytes _ _
  generalize leBytes 4 (UInt32.ofNat blockCount).toNat = count at *
  generalize hsections : [addresses, posEntries, difficulties, senders] ++ _ = sections
  -- the words written are the offsets of the sections
  have hwords : (∀ i < headerOffsetCount, sectionOffset headerLen sections i < UInt32.size) ↔
      ∀ offset ∈ (List.range headerOffsetCount).map (sectionOffset headerLen sections),
        offset < UInt32.size := by simp
  have hheader : packetHeader (fixedHeader input prefixSize) sections =
      fixedHeader input prefixSize ++ (((List.range headerOffsetCount).map
        (sectionOffset headerLen sections)).map (leBytes 4)).flatten := by
    rw [packetHeader, List.flatMap, List.map_map]
    rfl
  -- each the length of the header and of the sections before
  have hoffsets : (List.range headerOffsetCount).map (sectionOffset headerLen sections) =
      [headerLen, headerLen + addresses.length, headerLen + (addresses.length + posEntries.length),
        headerLen + (addresses.length + (posEntries.length + difficulties.length)),
        headerLen + (addresses.length + (posEntries.length + (difficulties.length +
          senders.length))),
        headerLen + (addresses.length + (posEntries.length + (difficulties.length +
          (senders.length + (gasPrices.length + p₁.length))))),
        headerLen + (addresses.length + (posEntries.length + (difficulties.length +
          (senders.length + (gasPrices.length + (p₁.length + (4 + (extensionBitmap.length +
            p₂.length)))))))),
        headerLen + (addresses.length + (posEntries.length + (difficulties.length +
          (senders.length + (gasPrices.length + (p₁.length + (4 + (extensionBitmap.length +
            (p₂.length + (blockBody.length + p₃.length))))))))))] := by
    simp [← hsections, sectionOffset, headerOffsetCount, List.range_succ, hcount]
  rw [hwords, hheader, hoffsets]
  have hdrop : ∀ x : Bytes, (List.replicate headerLen (0 : UInt8) ++ x).drop headerLen = x :=
    fun x => List.drop_left' (by simp)
  rw [hdrop]
  -- the writer checks every word, then the sections follow the header
  constructor
  · rintro ⟨-, -, x, ⟨hlt, rfl⟩, rfl⟩
    refine ⟨hlt, ?_⟩
    simp [← hsections]
  · rintro ⟨hlt, rfl⟩
    refine ⟨(), rfl, _, ⟨hlt, rfl⟩, ?_⟩
    simp [← hsections]

/-! ## Reading the offsets -/

/-- An offset of the table. -/
theorem getD_offsets (sections : List Bytes) {i : ℕ} (hi : i < headerOffsetCount) :
    ((List.range headerOffsetCount).map (sectionOffset headerLen sections)).getD i 0 =
      sectionOffset headerLen sections i := by
  simp [List.getD_eq_getElem?_getD, hi]

/-- The data is a header with the offsets of the sections, and the sections. -/
structure IsPacket (data fixed : Bytes) (sections : List Bytes) : Prop where
  eq : data = packetHeader fixed sections ++ sections.flatten
  length_fixed : fixed.length = headerFixedLen
  length_sections : sections.length = headerOffsetCount
  offset_lt : ∀ i < headerOffsetCount, sectionOffset headerLen sections i < UInt32.size

namespace IsPacket

variable {data fixed : Bytes} {sections : List Bytes} (h : IsPacket data fixed sections)

include h

theorem drop_offset (i : ℕ) :
    data.drop (sectionOffset headerLen sections i) = (sections.drop i).flatten := by
  rw [← length_packetHeader h.length_fixed sections]
  exact drop_sectionOffset h.eq i

/-- The section at its offset, before the next one. -/
theorem drop_offset_eq {i : ℕ} {x : Bytes} (hx : sections[i]? = some x) :
    data.drop (sectionOffset headerLen sections i) =
      x ++ data.drop (sectionOffset headerLen sections (i + 1)) := by
  obtain ⟨hi, rfl⟩ := List.getElem?_eq_some_iff.mp hx
  rw [h.drop_offset, h.drop_offset, List.drop_eq_getElem_cons hi, List.flatten_cons]

theorem slice_offset {i : ℕ} {x : Bytes} (hx : sections[i]? = some x) :
    slice data (sectionOffset headerLen sections i) (sectionOffset headerLen sections (i + 1)) =
      .ok x := by
  rw [← length_packetHeader h.length_fixed sections]
  exact slice_sectionOffset h.eq hx

theorem offset_le_length (i : ℕ) : sectionOffset headerLen sections i ≤ data.length := by
  rw [← length_packetHeader h.length_fixed sections]
  exact sectionOffset_le_length h.eq i

theorem headerLen_le : headerLen ≤ data.length := by
  simpa using h.offset_le_length 0

/-- What stands in the fixed part of the header. -/
theorem drop_fixed {pre x post : Bytes} (hfixed : fixed = pre ++ x ++ post) :
    ∃ rest, data.drop pre.length = x ++ rest := by
  refine ⟨post ++ (((List.range headerOffsetCount).flatMap fun i =>
    leBytes 4 (sectionOffset headerLen sections i)) ++ sections.flatten), ?_⟩
  rw [h.eq, packetHeader, hfixed]
  simp only [List.append_assoc, List.drop_left]

theorem readU32Le_offset {i : ℕ} (hi : i < headerOffsetCount) :
    readU32Le data (headerFixedLen + i * 4) =
      .ok (UInt32.ofNat (sectionOffset headerLen sections i)) := by
  have hlen : ∀ k, (leBytes 4 (sectionOffset headerLen sections k)).length = 4 := by simp
  have hrange : i < (List.range headerOffsetCount).length := by simpa using hi
  have hle : i * 4 ≤ ((List.range headerOffsetCount).flatMap fun k =>
      leBytes 4 (sectionOffset headerLen sections k)).length := by
    rw [length_flatMap_of_length hlen]
    exact Nat.mul_le_mul_right 4 hrange.le
  have hdrop : data.drop (headerFixedLen + i * 4) =
      leBytes 4 (sectionOffset headerLen sections i) ++
        (((List.range headerOffsetCount).drop (i + 1)).flatMap (fun k =>
          leBytes 4 (sectionOffset headerLen sections k)) ++ sections.flatten) := by
    rw [h.eq, packetHeader, ← h.length_fixed, List.append_assoc, ← List.drop_drop, List.drop_left,
      List.drop_append_of_le_length hle, drop_flatMap_of_length hlen,
      List.drop_eq_getElem_cons hrange, List.flatMap_cons, List.getElem_range, List.append_assoc]
  have hword := UInt32.toNat_ofNat_of_lt' (h.offset_lt i hi)
  exact readU32Le_of_drop (hdrop.trans (by rw [hword]))

theorem readOffsets_eq :
    readOffsets data = .ok ((List.range headerOffsetCount).map (sectionOffset headerLen sections)) := by
  unfold readOffsets
  refine mapM_eq_ok fun i hi => ?_
  have hi := List.mem_range.mp hi
  rw [h.readU32Le_offset hi, Except.ok_bind, Except.pure_def,
    UInt32.toNat_ofNat_of_lt' (h.offset_lt i hi)]

theorem ensureOffsets_eq :
    ensureOffsets ((List.range headerOffsetCount).map (sectionOffset headerLen sections))
      data.length = .ok () := by
  have hfold : ∀ n start previous, previous ≤ sectionOffset headerLen sections start →
      ∃ last, ((List.range' start n).map (sectionOffset headerLen sections)).foldlM
        (fun previous offset => do
          ensure (previous ≤ offset) "offset table is not monotonic"
          ensure (offset ≤ data.length) "offset exceeds packet length"
          pure offset) previous = .ok last := by
    intro n
    induction n with
    | zero => exact fun start previous _ => ⟨previous, rfl⟩
    | succ n ih =>
      intro start previous hprevious
      obtain ⟨last, hlast⟩ := ih (start + 1) (sectionOffset headerLen sections start)
        (sectionOffset_mono (Nat.le_succ start))
      refine ⟨last, ?_⟩
      rw [List.range'_succ, List.map_cons, List.foldlM_cons, ensure_of hprevious,
        ensure_of (h.offset_le_length start)]
      exact hlast
  obtain ⟨last, hlast⟩ := hfold headerOffsetCount 0 headerLen (by simp)
  rw [ensureOffsets, List.range_eq_range', hlast]
  rfl

end IsPacket

/-- **What the encoder assembles is a packet.** -/
theorem isPacket_of_assemblePacket {input : Packet T} {prefixSize blockCount : ℕ}
    {extensionBitmap blockBody txSegment b : Bytes}
    (h : assemblePacket input prefixSize blockCount extensionBitmap blockBody txSegment = .ok b) :
    IsPacket b (fixedHeader input prefixSize)
      (packetSections input blockCount extensionBitmap blockBody txSegment) := by
  obtain ⟨hlt, hb⟩ := assemblePacket_eq_ok.mp h
  exact ⟨hb, length_fixedHeader input prefixSize, rfl, hlt⟩

end Cfxpack
