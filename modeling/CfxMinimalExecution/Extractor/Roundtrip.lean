import CfxMinimalExecution.Cfxpack.RoundTrip
import CfxMinimalExecution.Cfxpack.VerifyEncoded

/-!
# The roundtrip command

The command decodes a packet without the chain configuration, and encodes it again.

## Main definitions

* `cmdRoundtrip`: the command

## Main results

* `roundtrip_iff`: a packet is byte-stable, and the command accepts it, exactly when its PoS views
  survive
-/

namespace Extractor

open Cfxpack

variable {T : PrimitiveTypes} (crates : Crates T)

/-- The command reads a packet and reports on it. -/
def cmdRoundtrip (data : Bytes) : Result VerifyReport := do
  let decoded ← decodePacket crates data
  let encoded ← encodePacket crates decoded
  let originalLen := data.length
  let reencodedLen := encoded.length
  let firstDiff := ((data.zip encoded).findIdx? fun entry => entry.1 ≠ entry.2).getD
    (min originalLen reencodedLen)
  ensure (encoded = data) s!"packet decode->encode is not byte-stable: original_len={originalLen}, reencoded_len={reencodedLen}, first_diff={firstDiff}"
  verifyPacket crates encoded

variable {crates}

/-- The command accepts the packets that are byte-stable and pass the verifier. -/
theorem cmdRoundtrip_eq_ok {data : Bytes} {report : VerifyReport} :
    cmdRoundtrip crates data = .ok report ↔
      (∃ packet, decodePacket crates data = .ok packet ∧ encodePacket crates packet = .ok data) ∧
        verifyPacket crates data = .ok report := by
  simp only [cmdRoundtrip, Except.bind_eq_ok, ensure_eq_ok]
  constructor
  · rintro ⟨packet, hdecode, _, hencode, _, rfl, hreport⟩
    exact ⟨⟨packet, hdecode, hencode⟩, hreport⟩
  · rintro ⟨⟨packet, hdecode, hencode⟩, hreport⟩
    exact ⟨packet, hdecode, data, hencode, (), rfl, hreport⟩

/-- The height from which on a decoder without the configuration expects PoS views. -/
def unsetHeight : UInt64 := UInt64.ofNat (UInt64.size - 1)

/-- **A packet is byte-stable exactly when its PoS views survive**, and then the command accepts
it, when its items can be counted. -/
theorem roundtrip_iff (hlawful : crates.Lawful) {input : Packet T} {b : Bytes}
    (hsize : b.length < UInt64.size) (hrefs : NoRefs input)
    (hdistinct : DistinctHashes crates input) (hsenders : UniqueSenders input)
    (hencode : encodePacket crates input = .ok b) :
    ((∃ packet, decodePacket crates b = .ok packet ∧ encodePacket crates packet = .ok b) ↔
        ViewsSurvive input unsetHeight (input.records crates)) ∧
      ((crates.overflowChecks → itemTotal input.blocks < UInt32.size) →
        ((∃ report, cmdRoundtrip crates b = .ok report) ↔
          ViewsSurvive input unsetHeight (input.records crates))) := by
  obtain ⟨_, _, _, h⟩ := encodePacket_iff.mp hencode
  have hiff : (∃ packet, decodePacket crates b = .ok packet ∧ encodePacket crates packet = .ok b) ↔
      ViewsSurvive input unsetHeight (input.records crates) := by
    rw [h.records_eq]
    exact h.exists_decode_encode_iff hlawful hsize hrefs hdistinct hsenders
  refine ⟨hiff, fun hitems => ?_⟩
  obtain ⟨report, hreport⟩ := h.exists_report hlawful hsize hitems
  rw [← hiff]
  constructor
  · rintro ⟨_, haccepts⟩
    exact (cmdRoundtrip_eq_ok.mp haccepts).1
  · intro hstable
    exact ⟨report, cmdRoundtrip_eq_ok.mpr ⟨hstable, hreport⟩⟩

theorem viewsSurvive_transferPacket : ViewsSurvive (transferPacket 10) unsetHeight
    ((transferPacket 10).records plainCrates) := by
  constructor
  · have hviews : ∀ entry ∈
        (transferPacket 10).blocks.zip ((transferPacket 10).records plainCrates),
        ¬ unsetHeight ≤ entry.1.height ∧ entry.1.posView.all (· ≤ 10) = true ∧
          entry.2.length ≤ choosePrefixSize ((transferPacket 10).records plainCrates) := by
      decide +kernel
    intro entry hentry
    obtain ⟨hheight, hposView, hlength⟩ := hviews entry hentry
    rw [ViewSurvives, if_neg hheight]
    intro posView hsome
    rw [hsome, Option.all_some] at hposView
    exact ⟨of_decide_eq_true hposView, hlength⟩
  · decide +kernel

/-- A packet whose PoS views are the base is byte-stable. -/
theorem roundtrip_transfer :
    (∃ packet, decodePacket plainCrates transferBytes = .ok packet ∧
      encodePacket plainCrates packet = .ok transferBytes) ∧
        ∃ report, cmdRoundtrip plainCrates transferBytes = .ok report := by
  have hdistinct : DistinctHashes plainCrates (transferPacket 10) := by
    unfold DistinctHashes
    decide +kernel
  obtain ⟨hstable, haccepts⟩ := roundtrip_iff plainCrates_lawful
    (by rw [length_transferBytes]; decide) (noRefs_transferPacket 10) hdistinct
    (List.nodup_singleton _) encodePacket_transferPacket
  exact ⟨hstable.mpr viewsSurvive_transferPacket,
    (haccepts fun _ => by decide).mpr viewsSurvive_transferPacket⟩

/-- A PoS view above the base is lost. -/
theorem not_roundtrip_viewPacket : ¬ ∀ (input : Packet plainTypes) (b : Bytes), NoRefs input →
    DistinctHashes plainCrates input → UniqueSenders input →
      encodePacket plainCrates input = .ok b →
        ∃ packet, decodePacket plainCrates b = .ok packet ∧
          encodePacket plainCrates packet = .ok b := by
  intro hclaim
  have hrun : ((encodePacket plainCrates (viewPacket 12)).bind fun b =>
      (decodePacket plainCrates b).bind fun packet =>
        (encodePacket plainCrates packet).map fun b' => decide (b' = b)) = .ok false := by
    decide +kernel
  obtain ⟨b, hencode, hrun⟩ := Except.bind_eq_ok.mp hrun
  obtain ⟨packet, hdecode, hrun⟩ := Except.bind_eq_ok.mp hrun
  have hsenders : UniqueSenders (viewPacket 12) := List.nodup_nil
  obtain ⟨hrefs, hdistinct⟩ : NoRefs (viewPacket 12) ∧ DistinctHashes plainCrates (viewPacket 12) :=
    noRefs_distinctHashes_of_single rfl rfl rfl
  obtain ⟨packet', hdecode', hencode'⟩ := hclaim _ b hrefs hdistinct hsenders hencode
  obtain rfl := Except.ok.inj (hdecode'.symm.trans hdecode)
  rw [hencode'] at hrun
  simp [Except.map] at hrun

end Extractor
