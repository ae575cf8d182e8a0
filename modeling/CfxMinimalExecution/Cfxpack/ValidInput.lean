import CfxMinimalExecution.Cfxpack.Encode

/-!
# The packets that the encoder takes

## Main definitions

* `ValidInput`: what the checks of the encoder say

## Main results

* `validateInput_eq_ok`: the checks pass exactly for valid packets
-/

namespace Cfxpack

variable {T : PrimitiveTypes} {crates : Crates T}

/-- The blocks are numbered, keep the reserved bit free, and stand in runs that end at a pivot, the
height of which is their epoch. -/
structure ValidInput (input : Packet T) : Prop where
  nonempty : input.blocks ≠ []
  first_lt : ∀ first ∈ input.blocks.head?, first.epoch.toNat + packetEpochs.toNat < UInt64.size
  index : ∀ i (block : Block T), input.blocks[i]? = some block → block.index = i
  reserved : ∀ block ∈ input.blocks, block.flags &&& 0b10000000 = 0
  epoch : ∀ group ∈ (List.groups (·.has flagPivot) input.blocks).1,
    ∀ block ∈ group.1 ++ [group.2], block.epoch = group.2.height
  complete : (List.groups (·.has flagPivot) input.blocks).2 = []

/-- What is checked of a block. -/
def BlockValid (pivotHeight : UInt64) (k : ℕ) (block : Block T) : Prop :=
  block.index = k ∧ block.flags &&& 0b10000000 = 0 ∧ block.epoch = pivotHeight

theorem validateBlock_eq_ok {pivotHeight : UInt64} {k k' : ℕ} {block : Block T} :
    validateBlock pivotHeight k block = .ok k' ↔ BlockValid pivotHeight k block ∧ k' = k + 1 := by
  simp only [validateBlock, BlockValid, Except.bind_eq_ok, ensure_eq_ok, Except.pure_def,
    Except.ok.injEq]
  constructor
  · rintro ⟨_, hindex, _, hreserved, _, hepoch, rfl⟩
    exact ⟨⟨hindex, hreserved, hepoch⟩, rfl⟩
  · rintro ⟨⟨hindex, hreserved, hepoch⟩, rfl⟩
    exact ⟨(), hindex, (), hreserved, (), hepoch, rfl⟩

theorem validateGroup_eq_ok {k k' : ℕ} {group : List (Block T) × Block T} :
    validateGroup k group = .ok k' ↔ k' = k + (group.1 ++ [group.2]).length ∧
      ∀ i block, (group.1 ++ [group.2])[i]? = some block →
        BlockValid group.2.height (k + i) block := by
  unfold validateGroup
  generalize group.1 ++ [group.2] = blocks
  induction blocks generalizing k with
  | nil => simp [eq_comm]
  | cons block blocks ih =>
    simp only [List.foldlM_cons, Except.bind_eq_ok, validateBlock_eq_ok, ih, List.length_cons]
    constructor
    · rintro ⟨_, ⟨hblock, rfl⟩, rfl, hrest⟩
      refine ⟨by omega, fun i other hother => ?_⟩
      cases i with
      | zero =>
        obtain rfl : block = other := by simpa using hother
        exact hblock
      | succ i =>
        have hvalid := hrest i other (by simpa using hother)
        rwa [Nat.add_right_comm, Nat.add_assoc] at hvalid
    · rintro ⟨rfl, hall⟩
      refine ⟨k + 1, ⟨hall 0 block rfl, rfl⟩, by omega, fun i other hother => ?_⟩
      have hvalid := hall (i + 1) other (by simpa using hother)
      rwa [Nat.add_right_comm, Nat.add_assoc]

theorem foldlM_validateGroup_eq_ok {k k' : ℕ} {groups : List (List (Block T) × Block T)} :
    groups.foldlM validateGroup k = .ok k' ↔ k' = k + (List.ungroup groups).length ∧
      (∀ i block, (List.ungroup groups)[i]? = some block →
        block.index = k + i ∧ block.flags &&& 0b10000000 = 0) ∧
      ∀ group ∈ groups, ∀ block ∈ group.1 ++ [group.2], block.epoch = group.2.height := by
  induction groups generalizing k with
  | nil => simp [eq_comm]
  -- the index goes on from one group to the next
  | cons group groups ih =>
    rw [List.foldlM_cons, Except.bind_eq_ok]
    have hcons : List.ungroup (group :: groups) = (group.1 ++ [group.2]) ++ List.ungroup groups := by
      simp
    simp only [validateGroup_eq_ok, ih, hcons, List.length_append, List.forall_mem_cons]
    constructor
    · rintro ⟨_, ⟨rfl, hgroup⟩, rfl, hrest, hepochs⟩
      refine ⟨by simp; omega, fun i block hblock => ?_, fun block hblock => ?_, hepochs⟩
      -- a block of the first group, or of those after it
      · rcases Nat.lt_or_ge i (group.1 ++ [group.2]).length with hi | hi
        · rw [List.getElem?_append_left hi] at hblock
          exact ⟨(hgroup i block hblock).1, (hgroup i block hblock).2.1⟩
        · rw [List.getElem?_append_right hi] at hblock
          have hvalid := hrest _ block hblock
          rw [List.length_append] at hi hvalid
          rwa [Nat.add_assoc, Nat.add_sub_cancel' hi] at hvalid
      · obtain ⟨i, hi, rfl⟩ := List.getElem_of_mem hblock
        exact (hgroup i _ (List.getElem?_eq_getElem hi)).2.2
    · rintro ⟨rfl, hall, hepoch, hepochs⟩
      refine ⟨_, ⟨rfl, fun i block hblock => ?_⟩, by simp; omega, fun i block hblock => ?_, hepochs⟩
      · have hi := (List.getElem?_eq_some_iff.mp hblock).1
        obtain ⟨hindex, hreserved⟩ := hall i block (by rw [List.getElem?_append_left hi, hblock])
        exact ⟨hindex, hreserved, hepoch block (List.mem_of_getElem? hblock)⟩
      · have hvalid := hall ((group.1 ++ [group.2]).length + i) block
          (by rw [List.getElem?_append_right (by omega), Nat.add_sub_cancel_left, hblock])
        rwa [List.length_append, ← Nat.add_assoc] at hvalid

/-- The epoch range of the first block: the sum wraps around exactly when it is out of range. -/
theorem epochRange_eq_ok (profile : Profile) {epoch : UInt64} :
    (∃ bound, profile.addU64 epoch packetEpochs = .ok bound ∧ epoch ≤ bound) ↔
      epoch.toNat + packetEpochs.toNat < UInt64.size := by
  constructor
  · rintro ⟨bound, hbound, hle⟩
    by_contra hge
    rw [Profile.addU64_eq_ok hbound, UInt64.le_iff_toNat_le, UInt64.toNat_add] at hle
    have hlt := epoch.toNat_lt
    have hepochs : packetEpochs.toNat = 2000 := rfl
    have hsize : UInt64.size = 2 ^ 64 := rfl
    omega
  · intro h
    refine ⟨_, Profile.addU64_of_lt h, ?_⟩
    rw [UInt64.le_iff_toNat_le, UInt64.toNat_add, Nat.mod_eq_of_lt h]
    omega

/-- **The checks of the encoder.** -/
theorem validateInput_eq_ok {input : Packet T} :
    validateInput crates input = .ok () ↔ ValidInput input := by
  unfold validateInput
  rcases hblocks : input.blocks with _ | ⟨first, blocks⟩
  · simp only [Except.throw_def, reduceCtorEq, false_iff]
    exact fun h => h.nonempty hblocks
  · have hungroup := List.ungroup_groups (fun block : Block T => block.has flagPivot) input.blocks
    simp only [← hblocks, Except.bind_eq_ok, ensure_eq_ok, foldlM_validateGroup_eq_ok]
    constructor
    · rintro ⟨bound, hbound, _, hle, _, ⟨-, hall, hepochs⟩, hcomplete⟩
      rw [hcomplete, List.append_nil] at hungroup
      rw [hungroup] at hall
      refine ⟨by simp [hblocks], ?_, fun i block hblock => ?_, fun block hblock => ?_, hepochs,
        hcomplete⟩
      · simpa [hblocks] using (epochRange_eq_ok _).mp ⟨bound, hbound, hle⟩
      · simpa using (hall i block hblock).1
      · obtain ⟨i, hi, rfl⟩ := List.getElem_of_mem hblock
        exact (hall i _ (List.getElem?_eq_getElem hi)).2
    · intro h
      obtain ⟨bound, hbound, hle⟩ := (epochRange_eq_ok crates.toProfile).mpr
        (h.first_lt first (by simp [hblocks]))
      rw [h.complete, List.append_nil] at hungroup
      refine ⟨bound, hbound, (), hle, _, ⟨rfl, fun i block hblock => ?_, h.epoch⟩, h.complete⟩
      rw [hungroup] at hblock
      exact ⟨by simpa using h.index i block hblock, h.reserved block (List.mem_of_getElem? hblock)⟩

end Cfxpack
