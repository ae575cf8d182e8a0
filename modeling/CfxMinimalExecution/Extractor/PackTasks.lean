import CfxMinimalExecution.Extractor.Pack
import CfxMinimalExecution.Library.Sections

/-!
# The groups of epochs

## Main definitions

* `taskAt`: the task of a group

## Main results

* `lt_divCeil`: the number of groups
* `buildPackTasks_eq`, `tiles_taskAt`: the groups follow one another without gap or overlap
-/

namespace Extractor

open Cfxpack

/-- The task of a group. -/
def taskAt (startEpoch epochCount shardEpochs : UInt64) (i : ℕ) : PackTask :=
  { groupIndex := UInt64.ofNat i
    startEpoch := startEpoch + UInt64.ofNat i * shardEpochs
    epochCount :=
      if epochCount - UInt64.ofNat i * shardEpochs ≤ shardEpochs then
        epochCount - UInt64.ofNat i * shardEpochs
      else shardEpochs }

/-- The groups are those that start before the end. -/
theorem lt_divCeil {a b count : UInt64} (h : divCeil a b = .ok count) (i : ℕ) :
    i < count.toNat ↔ i * b.toNat < a.toNat := by
  unfold divCeil at h
  split at h
  case isTrue => cases h
  case isFalse hb =>
    have hpos : 0 < b.toNat := Nat.pos_of_ne_zero fun h0 => hb (UInt64.toNat_inj.mp h0)
    have hdiv := Nat.div_add_mod a.toNat b.toNat
    have hmod := Nat.mod_lt a.toNat hpos
    have hle : a.toNat / b.toNat ≤ a.toNat := Nat.div_le_self _ _
    have hiff : 0 < a % b ↔ 0 < a.toNat % b.toNat := by
      rw [UInt64.lt_iff_toNat_lt, UInt64.toNat_mod, UInt64.toNat_zero]
    -- the count is the quotient, and one more when there is a remainder
    have hcount : count.toNat = a.toNat / b.toNat + if 0 < a.toNat % b.toNat then 1 else 0 := by
      rw [← Except.ok.inj h]
      by_cases hrem : 0 < a.toNat % b.toNat
      · have hlt : a.toNat / b.toNat < a.toNat := by
          refine Nat.lt_of_le_of_ne hle fun heq => ?_
          rw [heq] at hdiv
          have hmul := Nat.le_mul_of_pos_left a.toNat hpos
          omega
        have ha := a.toNat_lt
        rw [if_pos (hiff.mpr hrem), if_pos hrem, UInt64.toNat_add, UInt64.toNat_div,
          UInt64.toNat_one, Nat.mod_eq_of_lt (by omega)]
      · rw [if_neg (hiff.not.mpr hrem), if_neg hrem, UInt64.toNat_div, Nat.add_zero]
    rw [hcount]
    -- before the last whole group, at it, and after it
    rcases Nat.lt_trichotomy i (a.toNat / b.toNat) with hi | rfl | hi
    · have hmul : (i + 1) * b.toNat ≤ a.toNat / b.toNat * b.toNat := Nat.mul_le_mul_right _ hi
      rw [Nat.succ_mul, Nat.mul_comm (a.toNat / b.toNat)] at hmul
      constructor <;> intro <;> omega
    · rw [Nat.mul_comm]
      split <;> omega
    · have hmul : (a.toNat / b.toNat + 1) * b.toNat ≤ i * b.toNat := Nat.mul_le_mul_right _ hi
      rw [Nat.succ_mul, Nat.mul_comm (a.toNat / b.toNat)] at hmul
      constructor
      · split <;> omega
      · omega

section Tasks

variable {startEpoch epochCount shardEpochs : UInt64} {i : ℕ}

theorem toNat_groupStart (hi : i * shardEpochs.toNat < epochCount.toNat) (hshard : 0 < shardEpochs) :
    (UInt64.ofNat i).toNat = i ∧
      (UInt64.ofNat i * shardEpochs).toNat = i * shardEpochs.toNat := by
  have hpos : 0 < shardEpochs.toNat := hshard
  have hcount := epochCount.toNat_lt_size
  have hle := Nat.le_mul_of_pos_right i hpos
  have hindex : (UInt64.ofNat i).toNat = i := UInt64.toNat_ofNat_of_lt' (by omega)
  exact ⟨hindex, by rw [UInt64.toNat_mul, hindex, Nat.mod_eq_of_lt (hi.trans epochCount.toNat_lt)]⟩

/-- The span of a group. -/
theorem span_taskAt (hi : i * shardEpochs.toNat < epochCount.toNat) (hshard : 0 < shardEpochs)
    (hsum : startEpoch.toNat + epochCount.toNat < UInt64.size) :
    (taskAt startEpoch epochCount shardEpochs i).startEpoch.toNat =
        startEpoch.toNat + i * shardEpochs.toNat ∧
      (taskAt startEpoch epochCount shardEpochs i).epochCount.toNat =
        min (epochCount.toNat - i * shardEpochs.toNat) shardEpochs.toNat := by
  obtain ⟨-, hstart⟩ := toNat_groupStart hi hshard
  have hle : UInt64.ofNat i * shardEpochs ≤ epochCount := by
    rw [UInt64.le_iff_toNat_le, hstart]
    exact hi.le
  constructor
  · have hsize : startEpoch.toNat + i * shardEpochs.toNat < UInt64.size := by omega
    rw [taskAt, UInt64.toNat_add, hstart, Nat.mod_eq_of_lt hsize]
  · have hsub : (epochCount - UInt64.ofNat i * shardEpochs).toNat =
        epochCount.toNat - i * shardEpochs.toNat := by
      rw [UInt64.toNat_sub_of_le _ _ hle, hstart]
    simp only [taskAt, UInt64.le_iff_toNat_le]
    split
    case isTrue h => rw [hsub] at h ⊢; omega
    case isFalse h => rw [hsub] at h; omega

theorem packTask_eq (profile : Profile) (hi : i * shardEpochs.toNat < epochCount.toNat)
    (hshard : 0 < shardEpochs) (hsum : startEpoch.toNat + epochCount.toNat < UInt64.size) :
    packTask profile startEpoch epochCount shardEpochs (UInt64.ofNat i) =
      .ok (taskAt startEpoch epochCount shardEpochs i) := by
  obtain ⟨hindex, hstart⟩ := toNat_groupStart hi hshard
  have hmul : profile.mulU64 (UInt64.ofNat i) shardEpochs = .ok (UInt64.ofNat i * shardEpochs) :=
    Profile.mulU64_of_lt (by rw [hindex]; omega)
  have hadd : profile.addU64 startEpoch (UInt64.ofNat i * shardEpochs) =
      .ok (startEpoch + UInt64.ofNat i * shardEpochs) :=
    Profile.addU64_of_lt (by rw [hstart]; omega)
  have hsub : profile.subU64 epochCount (UInt64.ofNat i * shardEpochs) =
      .ok (epochCount - UInt64.ofNat i * shardEpochs) := by
    refine Profile.subU64_of_le ?_
    rw [UInt64.le_iff_toNat_le, hstart]
    exact hi.le
  simp [packTask, hmul, hadd, hsub, taskAt]

/-- **The tasks.** -/
theorem buildPackTasks_eq (profile : Profile) (hshard : 0 < shardEpochs)
    (hsum : startEpoch.toNat + epochCount.toNat < UInt64.size) :
    ∃ count, (∀ i, i < count ↔ i * shardEpochs.toNat < epochCount.toNat) ∧
      buildPackTasks profile startEpoch epochCount shardEpochs =
        .ok ((List.range count).map (taskAt startEpoch epochCount shardEpochs)) := by
  have hne : shardEpochs ≠ 0 := fun h0 => by simp [h0] at hshard
  obtain ⟨count, hcount⟩ : ∃ count, divCeil epochCount shardEpochs = .ok count := by
    unfold divCeil
    rw [if_neg hne]
    exact ⟨_, rfl⟩
  have hlt := lt_divCeil hcount
  refine ⟨count.toNat, hlt, ?_⟩
  rw [buildPackTasks, hcount, Except.ok_bind]
  exact mapM_eq_ok fun i hi =>
    packTask_eq profile ((hlt i).mp (List.mem_range.mp hi)) hshard hsum

/-- **The groups follow one another** from the first epoch to the last. -/
theorem tiles_taskAt (hshard : 0 < shardEpochs)
    (hsum : startEpoch.toNat + epochCount.toNat < UInt64.size) {count : ℕ}
    (hcount : ∀ i, i < count ↔ i * shardEpochs.toNat < epochCount.toNat) :
    Tiles startEpoch.toNat
      ((List.range count).map fun i =>
        ((taskAt startEpoch epochCount shardEpochs i).startEpoch.toNat,
          (taskAt startEpoch epochCount shardEpochs i).epochCount.toNat))
      (startEpoch.toNat + epochCount.toNat) := by
  suffices htiles : ∀ m k, k + m = count → Tiles
      (startEpoch.toNat + min (k * shardEpochs.toNat) epochCount.toNat)
      ((List.range' k m).map fun i =>
        ((taskAt startEpoch epochCount shardEpochs i).startEpoch.toNat,
          (taskAt startEpoch epochCount shardEpochs i).epochCount.toNat))
      (startEpoch.toNat + epochCount.toNat) by
    have h0 := htiles count 0 (Nat.zero_add _)
    rw [← List.range_eq_range', Nat.zero_mul, Nat.zero_min, Nat.add_zero] at h0
    exact h0
  -- induction on the groups left, from the group `k` on
  intro m
  induction m with
  | zero =>
    rintro k rfl
    have hend := (hcount k).not.mp (Nat.lt_irrefl k)
    show _ = _
    omega
  | succ m ih =>
    intro k hk
    have hlt := (hcount k).mp (by omega)
    obtain ⟨hstart, hlen⟩ := span_taskAt hlt hshard hsum
    have hrest := ih (k + 1) (by omega)
    rw [List.range'_succ, List.map_cons]
    refine ⟨by omega, ?_⟩
    rw [Nat.succ_mul] at hrest
    rwa [hlen, show startEpoch.toNat + min (k * shardEpochs.toNat) epochCount.toNat +
      min (epochCount.toNat - k * shardEpochs.toNat) shardEpochs.toNat = startEpoch.toNat +
        min (k * shardEpochs.toNat + shardEpochs.toNat) epochCount.toNat by omega]

end Tasks

end Extractor
