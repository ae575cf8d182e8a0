import CfxMinimalExecution.Extractor.PlainDatabase

/-!
# The attribution of rewards

The rewards of the PoS chain are collected under the hash of the pivot that pays them, where a
later record takes the place of an earlier one.

## Main definitions

* `SpellsReward`: the record that an entry of the column spells
* `Attributed`: a block has the rewards that are paid at it
* `RewardsDistinct`: at most one reward is paid at a pivot

## Main results

* `readPosRewards_eq`: the last record for every pivot is found
* `attachPosRewards_attributed_iff`: the rewards are attributed exactly when they are distinct
-/

namespace Extractor

open Cfxpack

variable {T : PrimitiveTypes} {decoders : Decoders T}

/-! ## The column -/

/-- The record that an entry of the column spells. -/
def SpellsReward (decoders : Decoders T) (entry : Bytes × Bytes) (record : PosRewardEntry) : Prop :=
  decoders.valAt decoders.asH256 entry.2 1 = .ok record.executionEpochHash ∧
    readPosRewardAccounts decoders entry.2 = .ok record.accountRewards

/-- The records of an execution hash. -/
def rewardsOf (records : List PosRewardEntry) (hash : H256) : List PosRewardEntry :=
  records.filter fun record => record.executionEpochHash = hash

/-- What the scan has found after some records. -/
def PosRewardsFound (pivots : List H256) (records : List PosRewardEntry)
    (found : Assoc H256 PosRewardEntry) : Prop :=
  ∀ hash, found.get hash = if hash ∈ pivots then (rewardsOf records hash).getLast? else none

theorem rewardsOf_append_singleton (records : List PosRewardEntry) (record : PosRewardEntry)
    (hash : H256) : rewardsOf (records ++ [record]) hash =
      if record.executionEpochHash = hash then rewardsOf records hash ++ [record]
      else rewardsOf records hash := by
  unfold rewardsOf
  rw [List.filter_append]
  split <;> simp [*]

/-- **One round of the scan**: a record takes the place of the one before it. -/
theorem insertPosReward_found {pivots : List H256} {records : List PosRewardEntry}
    {found : Assoc H256 PosRewardEntry} {entry : Bytes × Bytes} {record : PosRewardEntry}
    (hspells : SpellsReward decoders entry record) (h : PosRewardsFound pivots records found) :
    ∃ found', insertPosReward decoders pivots found entry = .ok found' ∧
      PosRewardsFound pivots (records ++ [record]) found' := by
  obtain ⟨hhash, haccounts⟩ := hspells
  unfold insertPosReward
  rw [hhash, haccounts]
  simp only [context, Except.ok_bind, Except.pure_def]
  by_cases hmem : record.executionEpochHash ∈ pivots
  · rw [if_pos hmem]
    refine ⟨_, rfl, fun hash => ?_⟩
    rw [Assoc.get_insert, h hash, rewardsOf_append_singleton]
    by_cases heq : hash = record.executionEpochHash
    · subst heq
      simp [hmem]
    · rw [if_neg heq, if_neg (Ne.symm heq)]
  · rw [if_neg hmem]
    refine ⟨found, rfl, fun hash => ?_⟩
    rw [h hash, rewardsOf_append_singleton]
    split
    case isTrue hpivot =>
      have hne : record.executionEpochHash ≠ hash := fun heq => hmem (heq ▸ hpivot)
      rw [if_neg hne]
    case isFalse => rfl

/-- The scan of the rest of the column. -/
theorem foldlM_insertPosReward {pivots : List H256} {column : List (Bytes × Bytes)}
    {done records : List PosRewardEntry} {found : Assoc H256 PosRewardEntry}
    (hcolumn : List.Forall₂ (SpellsReward decoders) column records)
    (h : PosRewardsFound pivots done found) :
    ∃ found', column.foldlM (insertPosReward decoders pivots) found = .ok found' ∧
      PosRewardsFound pivots (done ++ records) found' := by
  induction hcolumn generalizing done found with
  | nil => exact ⟨found, rfl, by rwa [List.append_nil]⟩
  | @cons entry record column records hspells _ ih =>
    obtain ⟨middle, hround, hmiddle⟩ := insertPosReward_found hspells h
    obtain ⟨found', hrest, hfound⟩ := ih hmiddle
    rw [List.append_assoc] at hfound
    exact ⟨found', by rw [List.foldlM_cons, hround, Except.ok_bind, hrest], hfound⟩

/-- **The last record for every pivot is found.** -/
theorem readPosRewards_eq {pow : PowDb} {records : List PosRewardEntry} (pivots : List H256)
    (hcolumn : List.Forall₂ (SpellsReward decoders) pow.rewardByPosEpoch records) :
    ∃ found, pow.readPosRewards decoders pivots = .ok found ∧
      PosRewardsFound pivots records found := by
  unfold PowDb.readPosRewards
  split
  case isTrue hempty => exact ⟨[], rfl, fun hash => by simp [hempty]⟩
  case isFalse =>
    have hstart : PosRewardsFound pivots [] [] := fun hash => by simp [rewardsOf]
    exact foldlM_insertPosReward hcolumn hstart

/-! ## The blocks -/

/-- A pivot has the records that are paid at it, each once, and another block has none. -/
def Attributed (records : List PosRewardEntry) (block : Block T) : Prop :=
  block.posRewards.Perm (if block.has flagPivot then rewardsOf records block.hash else [])

/-- At most one record is paid at a pivot, and no block but a pivot has the hash at which a record
is paid. -/
def RewardsDistinct (records : List PosRewardEntry) (blocks : List (Block T)) : Prop :=
  ∀ block ∈ blocks,
    if block.has flagPivot then (rewardsOf records block.hash).length ≤ 1
    else block.hash ∈ pivotHashes blocks → rewardsOf records block.hash = []

theorem toList_getLast?_perm_iff {α : Type} (l : List α) :
    l.getLast?.toList.Perm l ↔ l.length ≤ 1 := by
  constructor
  · intro h
    have hlen := h.length_eq
    cases hlast : l.getLast? with
    | none => simp [List.getLast?_eq_none_iff.mp hlast]
    | some a => simp [hlast] at hlen; omega
  · intro h
    match l, h with
    | [], _ => exact .nil
    | [a], _ => exact .refl _

/-- A block gets the reward that is found, and is otherwise as before. -/
theorem attachPosReward_eq (posRewards : Assoc H256 PosRewardEntry) (block : Block T) :
    attachPosReward posRewards block =
      { block with posRewards := block.posRewards ++ (posRewards.get block.hash).toList } := by
  unfold attachPosReward
  cases posRewards.get block.hash <;> simp

/-- The rewards of one block. -/
theorem attributed_attachPosReward_iff {blocks : List (Block T)} {records : List PosRewardEntry}
    {found : Assoc H256 PosRewardEntry} (h : PosRewardsFound (pivotHashes blocks) records found)
    {block : Block T} (hmem : block ∈ blocks) (hnone : block.posRewards = []) :
    Attributed records (attachPosReward found block) ↔
      if block.has flagPivot then (rewardsOf records block.hash).length ≤ 1
      else block.hash ∈ pivotHashes blocks → rewardsOf records block.hash = [] := by
  have hflags : ∀ posRewards, { block with posRewards }.has flagPivot = block.has flagPivot :=
    fun _ => rfl
  unfold Attributed
  rw [attachPosReward_eq, hnone, List.nil_append, hflags, h block.hash]
  cases hpivot : block.has flagPivot with
  | true =>
    have hhashes : block.hash ∈ pivotHashes blocks :=
      List.mem_map.mpr ⟨block, List.mem_filter.mpr ⟨hmem, hpivot⟩, rfl⟩
    simp only [if_pos hhashes, if_true]
    exact toList_getLast?_perm_iff _
  | false =>
    simp only [Bool.false_eq_true, if_false, List.perm_nil]
    by_cases hhashes : block.hash ∈ pivotHashes blocks
    · simp [hhashes]
    · simp [hhashes]

/-- **The rewards are attributed exactly when they are distinct.** -/
theorem attachPosRewards_attributed_iff {pow : PowDb} {records : List PosRewardEntry}
    (hcolumn : List.Forall₂ (SpellsReward decoders) pow.rewardByPosEpoch records)
    {blocks : List (Block T)} (hnone : ∀ block ∈ blocks, block.posRewards = []) :
    (∃ attached, attachPosRewards decoders pow blocks = .ok attached ∧
        ∀ block ∈ attached, Attributed records block) ↔ RewardsDistinct records blocks := by
  obtain ⟨found, hread, hfound⟩ := readPosRewards_eq (pivotHashes blocks) hcolumn
  have hattach : attachPosRewards decoders pow blocks = .ok (blocks.map (attachPosReward found)) := by
    rw [attachPosRewards, hread, Except.ok_bind]
    split
    case isTrue hempty =>
      -- nothing is found for any block
      have hid : blocks.map (attachPosReward found) = blocks := by
        refine (List.map_congr_left fun block _ => ?_).trans (List.map_id _)
        rw [hempty, attachPosReward, Assoc.get_nil, id]
      rw [hid]
      rfl
    case isFalse => rfl
  rw [hattach]
  constructor
  · rintro ⟨_, ⟨⟩, hall⟩ block hmem
    exact (attributed_attachPosReward_iff hfound hmem (hnone block hmem)).mp
      (hall _ (List.mem_map_of_mem hmem))
  · intro hdistinct
    refine ⟨_, rfl, fun block hblock => ?_⟩
    obtain ⟨block, hmem, rfl⟩ := List.mem_map.mp hblock
    exact (attributed_attachPosReward_iff hfound hmem (hnone block hmem)).mpr (hdistinct block hmem)

/-- A column with records of one account each. -/
def plainRewardDb (hashes : List H256) : PowDb where
  get _ _ := .ok none
  rewardByPosEpoch := hashes.zipIdx.map fun entry =>
    (beBytes 8 entry.2, plainReward Address.zero (H256.fromSlice []) (BitVec.ofNat 256 entry.2) entry.1)

def plainRewards (hashes : List H256) : List PosRewardEntry :=
  hashes.zipIdx.map fun entry =>
    ⟨[⟨Address.zero, H256.fromSlice [], BitVec.ofNat 256 entry.2⟩], entry.1⟩

/-- One record is attributed. -/
theorem attachPosRewards_attributed_iff_one :
    ∃ attached, attachPosRewards plainDecoders (plainRewardDb [plainBlock.hash]) [plainBlock] =
      .ok attached ∧ ∀ block ∈ attached, Attributed (plainRewards [plainBlock.hash]) block := by
  refine (attachPosRewards_attributed_iff (.cons ⟨by decide +kernel, by decide +kernel⟩ .nil)
    (by simp [plainBlock])).mpr fun block hmem => ?_
  obtain rfl := List.mem_singleton.mp hmem
  rw [if_pos (by decide)]
  decide +kernel

/-- Two distributions are paid at one pivot: the first is lost. -/
theorem posRewards_lost :
    List.Forall₂ (SpellsReward plainDecoders)
        (plainRewardDb [plainBlock.hash, plainBlock.hash]).rewardByPosEpoch
        (plainRewards [plainBlock.hash, plainBlock.hash]) ∧
      ∃ attached, attachPosRewards plainDecoders
          (plainRewardDb [plainBlock.hash, plainBlock.hash]) [plainBlock] = .ok attached ∧
        ∃ block ∈ attached, ¬ Attributed (plainRewards [plainBlock.hash, plainBlock.hash]) block := by
  refine ⟨.cons ⟨by decide +kernel, by decide +kernel⟩
    (.cons ⟨by decide +kernel, by decide +kernel⟩ .nil), ?_⟩
  have hrun : (List.map fun block => (block.has flagPivot, block.hash, block.posRewards)) <$>
      attachPosRewards plainDecoders (plainRewardDb [plainBlock.hash, plainBlock.hash]) [plainBlock] =
        .ok [(true, plainBlock.hash, (plainRewards [plainBlock.hash, plainBlock.hash]).drop 1)] := by
    decide +kernel
  obtain ⟨attached, hattached, hblocks⟩ := Except.map_eq_ok.mp hrun
  obtain ⟨block, rfl, hblock⟩ := List.map_eq_singleton_iff.mp hblocks
  obtain ⟨hpivot, hhash, hrewards⟩ : block.has flagPivot = true ∧ block.hash = plainBlock.hash ∧
      block.posRewards = (plainRewards [plainBlock.hash, plainBlock.hash]).drop 1 := by
    simpa using hblock
  refine ⟨[block], hattached, block, List.mem_singleton_self _, fun h => ?_⟩
  rw [Attributed, hpivot, hhash, hrewards] at h
  exact absurd h.length_eq (by decide +kernel)

end Extractor
