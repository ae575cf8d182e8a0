import CfxMinimalExecution.Cfxpack.RoundTrip
import CfxMinimalExecution.Cfxpack.VerifyEncoded

/-!
# The replay validator

The validator verifies a packet, decodes it, and checks its blocks a third time.

## Main definitions

* `validateReplayInput`, `validateReplayPacket`: the validator
* `ReplayValid`: what it checks of a block

## Main results

* `validateReplayInput_iff`: the validator accepts exactly the packets without the bit of the total
  reward that have as many transactions as the verifier counts items
* `validateReplayPacket_iff`: the encoded packets that it accepts
-/

namespace Extractor

open Cfxpack

variable {T : PrimitiveTypes} (crates : Crates T)

structure ReplayReport where
  packetBytes : ℕ
  epochCount : ℕ
  blockCount : ℕ
  transactionCount : ℕ
  duplicateTransactionCount : ℕ
  nativeTransactionCount : ℕ
  espaceTransactionCount : ℕ
  firstBlockNumber : UInt64
  lastBlockNumber : UInt64

/-- The variables of the loop over the blocks. -/
structure ReplayCounts where
  expectedIndex : ℕ
  epochCount : ℕ
  blockNumber : UInt64
  txCount : ℕ
  nativeTxCount : ℕ
  espaceTxCount : ℕ
  duplicateTxCount : ℕ
  seenTxHashes : Assoc H256 ℕ

/-- One round of the loop over the transactions of a block. -/
def validateBlockTransaction (block : Block T) (counts : ReplayCounts) (tx : SignedTransaction T) :
    ReplayCounts :=
  let hash := crates.primitives.hash tx
  let native := crates.primitives.space tx = .native
  { counts with
    txCount := counts.txCount + 1
    nativeTxCount := if native then counts.nativeTxCount + 1 else counts.nativeTxCount
    espaceTxCount := if native then counts.espaceTxCount else counts.espaceTxCount + 1
    duplicateTxCount :=
      if (counts.seenTxHashes.get hash).isSome then counts.duplicateTxCount + 1
      else counts.duplicateTxCount
    seenTxHashes := counts.seenTxHashes.insert hash block.index }

def validateBlockTransactions (block : Block T) (counts : ReplayCounts) : ReplayCounts :=
  block.transactions.foldl (validateBlockTransaction crates block) counts

/-- One round of the loop over the blocks up to a pivot. -/
def validateReplayBlock (epoch : UInt64) (counts : ReplayCounts) (block : Block T) :
    Result ReplayCounts := do
  ensure (block.index = counts.expectedIndex) "block index is not sequential"
  ensure (block.flags &&& 0b11000000 = 0) "reserved block flag bits must be zero"
  ensure (block.epoch = epoch) "block epoch does not match its pivot epoch"
  ensure (block.flags &&& flagHasTransactions ≠ 0 ∨ block.transactions = [])
    "transaction flag does not match decoded transaction list"
  let counts := validateBlockTransactions crates block counts
  let blockNumber ← crates.addU64 counts.blockNumber 1
  pure { counts with expectedIndex := counts.expectedIndex + 1, blockNumber }

/-- One round of the loop over the epochs. -/
def validateReplayGroup (counts : ReplayCounts) (group : List (Block T) × Block T) :
    Result ReplayCounts := do
  let epoch := group.2.height
  ensure (group.2.epoch = epoch) "pivot block epoch does not match pivot height"
  let counts ← (group.1 ++ [group.2]).foldlM (validateReplayBlock crates epoch) counts
  pure { counts with epochCount := counts.epochCount + 1 }

def validateReplayInput (input : Packet T) (verify : VerifyReport) : Result ReplayReport := do
  ensure (input.blocks ≠ []) "replay packet has no blocks"
  ensure (input.blocks.length = verify.blockCount.toNat)
    "decoded block count differs from packet verifier"
  let epochGroups := List.groups (·.has flagPivot) input.blocks
  let counts ← epochGroups.1.foldlM (validateReplayGroup crates)
    ⟨0, 0, input.firstBlockNumber, 0, 0, 0, 0, []⟩
  ensure (epochGroups.2 = []) "epoch group has no pivot block"
  ensure (counts.txCount = verify.transactionItems.toNat)
    "decoded transaction count differs from packet verifier"
  let lastBlockNumber ← crates.subU64 counts.blockNumber 1
  pure
    { packetBytes := verify.packetBytes, epochCount := counts.epochCount,
      blockCount := input.blocks.length, transactionCount := counts.txCount,
      duplicateTransactionCount := counts.duplicateTxCount,
      nativeTransactionCount := counts.nativeTxCount,
      espaceTransactionCount := counts.espaceTxCount,
      firstBlockNumber := input.firstBlockNumber, lastBlockNumber }

def validateReplayPacket (data : Bytes) : Result ReplayReport := do
  let verify ← verifyPacket crates data
  let input ← decodePacket crates data
  validateReplayInput crates input verify

variable {crates}

/-! ## The loop -/

/-- What the validator checks of a block. -/
structure ReplayValid (epoch : UInt64) (k : ℕ) (block : Block T) : Prop where
  index : block.index = k
  reserved : block.flags &&& 0b11000000 = 0
  epoch : block.epoch = epoch
  flag : block.flags &&& flagHasTransactions ≠ 0 ∨ block.transactions = []

/-- The number of transactions of blocks. -/
def txTotal : List (Block T) → ℕ
  | [] => 0
  | block :: blocks => block.transactions.length + txTotal blocks

theorem txTotal_append (blocks blocks' : List (Block T)) :
    txTotal (blocks ++ blocks') = txTotal blocks + txTotal blocks' := by
  induction blocks with
  | nil => simp [txTotal]
  | cons block blocks ih => simp [txTotal, ih, Nat.add_assoc]

/-- How far the loop has come. -/
structure ReplayCounts.Advances (crates : Crates T) (counts counts' : ReplayCounts)
    (blocks : List (Block T)) : Prop where
  expectedIndex : counts'.expectedIndex = counts.expectedIndex + blocks.length
  txCount : counts'.txCount = counts.txCount + txTotal blocks
  blockNumber : counts'.blockNumber.toNat =
    (counts.blockNumber.toNat + blocks.length) % UInt64.size
  fits : crates.overflowChecks → counts.blockNumber.toNat + blocks.length < UInt64.size

theorem validateBlockTransactions_spec (block : Block T) (counts : ReplayCounts) :
    (validateBlockTransactions crates block counts).expectedIndex = counts.expectedIndex ∧
      (validateBlockTransactions crates block counts).blockNumber = counts.blockNumber ∧
      (validateBlockTransactions crates block counts).txCount =
        counts.txCount + block.transactions.length := by
  unfold validateBlockTransactions
  generalize block.transactions = txs
  induction txs generalizing counts with
  | nil => simp
  | cons tx txs ih =>
    obtain ⟨hindex, hnumber, hcount⟩ := ih (validateBlockTransaction crates block counts tx)
    rw [List.foldl_cons, hindex, hnumber, hcount, List.length_cons]
    exact ⟨rfl, rfl, by simp only [validateBlockTransaction]; omega⟩

namespace ReplayCounts.Advances

variable {counts counts' counts'' : ReplayCounts} {blocks blocks' : List (Block T)}

theorem trans (h : counts.Advances crates counts' blocks)
    (h' : counts'.Advances crates counts'' blocks') :
    counts.Advances crates counts'' (blocks ++ blocks') := by
  have hindex := h.expectedIndex
  have hindex' := h'.expectedIndex
  have htx := h.txCount
  have htx' := h'.txCount
  refine ⟨by rw [List.length_append]; omega, by rw [txTotal_append]; omega, ?_, fun hchecks => ?_⟩
  · rw [h'.blockNumber, h.blockNumber, Nat.mod_add_mod, List.length_append, Nat.add_assoc]
  · have hfits := h'.fits hchecks
    rw [h.blockNumber, Nat.mod_eq_of_lt (h.fits hchecks)] at hfits
    rwa [List.length_append, ← Nat.add_assoc]

theorem nil (counts : ReplayCounts) : counts.Advances crates counts ([] : List (Block T)) :=
  ⟨rfl, rfl, (Nat.mod_eq_of_lt counts.blockNumber.toNat_lt).symm,
    fun _ => counts.blockNumber.toNat_lt⟩

end ReplayCounts.Advances

/-- One round over a block. -/
theorem validateReplayBlock_eq_ok {epoch : UInt64} {counts counts' : ReplayCounts} {block : Block T}
    (h : validateReplayBlock crates epoch counts block = .ok counts') :
    ReplayValid epoch counts.expectedIndex block ∧ counts.Advances crates counts' [block] := by
  simp only [validateReplayBlock, Except.bind_eq_ok, ensure_eq_ok, Except.pure_def,
    Except.ok.injEq] at h
  obtain ⟨_, hindex, _, hreserved, _, hepoch, _, hflag, blockNumber, hnumber, rfl⟩ := h
  obtain ⟨hsameIndex, hsameNumber, hcount⟩ := @validateBlockTransactions_spec T crates block counts
  refine ⟨⟨hindex, hreserved, hepoch, hflag⟩, ⟨by simp [hsameIndex], by simp [hcount, txTotal], ?_,
    fun hchecks => ?_⟩⟩
  · rw [Profile.addU64_eq_ok hnumber, hsameNumber, UInt64.toNat_add]
    rfl
  · by_contra hge
    rw [hsameNumber] at hnumber
    have herror : crates.addU64 counts.blockNumber 1 = .error .overflow :=
      Profile.addU64_eq_error.mpr ⟨⟨hchecks, Nat.not_lt.mp hge⟩, rfl⟩
    cases hnumber.symm.trans herror

theorem exists_validateReplayBlock {epoch : UInt64} {counts : ReplayCounts} {block : Block T}
    (hvalid : ReplayValid epoch counts.expectedIndex block)
    (hfits : crates.overflowChecks → counts.blockNumber.toNat + 1 < UInt64.size) :
    ∃ counts', validateReplayBlock crates epoch counts block = .ok counts' := by
  obtain ⟨-, hsameNumber, -⟩ := @validateBlockTransactions_spec T crates block counts
  have hadd : crates.addU64 counts.blockNumber 1 = .ok (counts.blockNumber + 1) :=
    if_neg fun hc => Nat.not_le.mpr (hfits hc.1) hc.2
  simp only [validateReplayBlock, ensure_of hvalid.index, ensure_of hvalid.reserved,
    ensure_of hvalid.epoch, ensure_of hvalid.flag, hsameNumber, hadd, Except.ok_bind]
  exact ⟨_, rfl⟩

/-- The rounds over the blocks up to a pivot. -/
theorem foldlM_validateReplayBlock_eq_ok {epoch : UInt64} {counts counts' : ReplayCounts}
    {blocks : List (Block T)}
    (h : blocks.foldlM (validateReplayBlock crates epoch) counts = .ok counts') :
    (∀ block ∈ blocks, block.flags &&& 0b11000000 = 0) ∧ counts.Advances crates counts' blocks := by
  induction blocks generalizing counts with
  | nil =>
    obtain rfl := Except.ok.inj h
    exact ⟨by simp, .nil _⟩
  | cons block blocks ih =>
    rw [List.foldlM_cons, Except.bind_eq_ok] at h
    obtain ⟨middle, hround, hrest⟩ := h
    obtain ⟨hvalid, hadvances⟩ := validateReplayBlock_eq_ok hround
    obtain ⟨hflags, hlast⟩ := ih hrest
    exact ⟨List.forall_mem_cons.mpr ⟨hvalid.reserved, hflags⟩, hadvances.trans hlast⟩

theorem exists_foldlM_validateReplayBlock {epoch : UInt64} {counts : ReplayCounts}
    {blocks : List (Block T)}
    (hvalid : ∀ i block, blocks[i]? = some block → ReplayValid epoch (counts.expectedIndex + i) block)
    (hfits : crates.overflowChecks → counts.blockNumber.toNat + blocks.length < UInt64.size) :
    ∃ counts', blocks.foldlM (validateReplayBlock crates epoch) counts = .ok counts' := by
  induction blocks generalizing counts with
  | nil => exact ⟨counts, rfl⟩
  | cons block blocks ih =>
    rw [List.length_cons] at hfits
    obtain ⟨middle, hround⟩ := exists_validateReplayBlock (hvalid 0 block rfl) fun hchecks => by
      have hlt := hfits hchecks
      omega
    obtain ⟨-, hadvances⟩ := validateReplayBlock_eq_ok hround
    rw [List.foldlM_cons, hround, Except.ok_bind]
    refine ih (fun i other hother => ?_) fun hchecks => ?_
    · rw [hadvances.expectedIndex, List.length_singleton, Nat.add_assoc, Nat.add_comm 1 i]
      exact hvalid (i + 1) other (by simpa using hother)
    · have hlt := hfits hchecks
      rw [hadvances.blockNumber, Nat.mod_eq_of_lt (hadvances.fits hchecks), List.length_singleton]
      omega

/-- The rounds over the epochs. -/
theorem foldlM_validateReplayGroup_eq_ok {counts counts' : ReplayCounts}
    {groups : List (List (Block T) × Block T)}
    (h : groups.foldlM (validateReplayGroup crates) counts = .ok counts') :
    (∀ block ∈ List.ungroup groups, block.flags &&& 0b11000000 = 0) ∧
      counts.Advances crates counts' (List.ungroup groups) := by
  induction groups generalizing counts with
  | nil =>
    obtain rfl := Except.ok.inj h
    exact ⟨by simp, .nil _⟩
  | cons group groups ih =>
    simp only [List.foldlM_cons, validateReplayGroup, Except.bind_eq_ok, Except.pure_def,
      Except.ok.injEq] at h
    obtain ⟨_, ⟨_, -, middle, hround, rfl⟩, hrest⟩ := h
    obtain ⟨hflags, hadvances⟩ := foldlM_validateReplayBlock_eq_ok hround
    obtain ⟨hflags', hlast⟩ := ih hrest
    have hungroup : List.ungroup (group :: groups) =
        (group.1 ++ [group.2]) ++ List.ungroup groups := by simp
    rw [hungroup]
    refine ⟨fun block hblock => ?_, ?_⟩
    · rcases List.mem_append.mp hblock with hmem | hmem
      · exact hflags block hmem
      · exact hflags' block hmem
    · have hnext : counts.Advances crates { middle with epochCount := middle.epochCount + 1 }
          (group.1 ++ [group.2]) :=
        ⟨hadvances.expectedIndex, hadvances.txCount, hadvances.blockNumber, hadvances.fits⟩
      exact hnext.trans hlast

theorem exists_foldlM_validateReplayGroup {counts : ReplayCounts}
    {groups : List (List (Block T) × Block T)}
    (hpivot : ∀ group ∈ groups, ∀ block ∈ group.1 ++ [group.2], block.epoch = group.2.height)
    (hvalid : ∀ i block, (List.ungroup groups)[i]? = some block →
      ReplayValid block.epoch (counts.expectedIndex + i) block)
    (hfits : crates.overflowChecks →
      counts.blockNumber.toNat + (List.ungroup groups).length < UInt64.size) :
    ∃ counts', groups.foldlM (validateReplayGroup crates) counts = .ok counts' := by
  induction groups generalizing counts with
  | nil => exact ⟨counts, rfl⟩
  -- one group, whose rounds leave the counts where the next group starts
  | cons group groups ih =>
    have hungroup : List.ungroup (group :: groups) =
        (group.1 ++ [group.2]) ++ List.ungroup groups := by simp
    obtain ⟨hepoch, hpivots⟩ := List.forall_mem_cons.mp hpivot
    have hlast : group.2.epoch = group.2.height := hepoch group.2 (by simp)
    rw [hungroup] at hvalid hfits
    rw [List.length_append] at hfits
    obtain ⟨middle, hround⟩ : ∃ middle, (group.1 ++ [group.2]).foldlM
        (validateReplayBlock crates group.2.height) counts = .ok middle := by
      -- every block of the group is valid against its pivot
      refine exists_foldlM_validateReplayBlock (fun i block hblock => ?_) fun hchecks => ?_
      · have hi := (List.getElem?_eq_some_iff.mp hblock).1
        rw [← hepoch block (List.mem_of_getElem? hblock)]
        exact hvalid i block (by rw [List.getElem?_append_left hi, hblock])
      · have hlt := hfits hchecks
        omega
    obtain ⟨-, hadvances⟩ := foldlM_validateReplayBlock_eq_ok hround
    rw [List.foldlM_cons, validateReplayGroup, ensure_of hlast, Except.ok_bind, hround]
    -- the groups after it are counted from there
    refine ih hpivots (fun i block hblock => ?_) fun hchecks => ?_
    · have hat := hvalid ((group.1 ++ [group.2]).length + i) block
        (by rw [List.getElem?_append_right (by omega), Nat.add_sub_cancel_left, hblock])
      rwa [hadvances.expectedIndex, Nat.add_assoc]
    · have hlt := hfits hchecks
      rw [hadvances.blockNumber, Nat.mod_eq_of_lt (hadvances.fits hchecks), Nat.add_assoc]
      exact hlt

/-! ## The validator -/

/-- The bit of the total reward is one of those that the validator reserves. -/
theorem flags_reserved_iff {flags : UInt8} (h : flags &&& 0b10000000 = 0) :
    flags &&& 0b11000000 = 0 ↔ flags &&& flagZeroTotalReward = 0 := by
  have hall : ∀ f : Fin 256, UInt8.ofNat f &&& 0b10000000 = 0 →
      (UInt8.ofNat f &&& 0b11000000 = 0 ↔ UInt8.ofNat f &&& flagZeroTotalReward = 0) := by
    decide +kernel
  simpa using hall ⟨flags.toNat, flags.toNat_lt⟩ (by simpa using h)

/-- **The validator accepts exactly** the packets without the bit of the total reward and with as many
transactions as the verifier counts items. -/
theorem validateReplayInput_iff {input : Packet T} {verify : VerifyReport} (hvalid : ValidInput input)
    (hcount : verify.blockCount.toNat = input.blocks.length)
    (hflag : ∀ block ∈ input.blocks,
      block.flags &&& flagHasTransactions ≠ 0 ∨ block.transactions = []) :
    (∃ report, validateReplayInput crates input verify = .ok report ∧
        report.blockCount = input.blocks.length ∧ report.transactionCount = txTotal input.blocks) ↔
      (∀ block ∈ input.blocks, block.flags &&& flagZeroTotalReward = 0) ∧
        verify.transactionItems.toNat = txTotal input.blocks ∧
        (crates.overflowChecks →
          input.firstBlockNumber.toNat + input.blocks.length < UInt64.size) := by
  have hungroup := List.ungroup_groups (fun block : Block T => block.has flagPivot) input.blocks
  rw [hvalid.complete, List.append_nil] at hungroup
  have hpos : 0 < input.blocks.length := List.length_pos_of_ne_nil hvalid.nonempty
  constructor
  -- the rounds that succeed tell what the counters are at the end
  · rintro ⟨report, hok, -, -⟩
    simp only [validateReplayInput, Except.bind_eq_ok, ensure_eq_ok] at hok
    obtain ⟨_, -, _, -, counts, hrounds, _, -, _, hitems, -⟩ := hok
    obtain ⟨hflags, hadvances⟩ := foldlM_validateReplayGroup_eq_ok hrounds
    rw [hungroup] at hflags hadvances
    refine ⟨fun block hblock => ?_, ?_, hadvances.fits⟩
    · exact (flags_reserved_iff (hvalid.reserved block hblock)).mp (hflags block hblock)
    · rw [← hitems, hadvances.txCount, Nat.zero_add]
  -- conversely the rounds succeed, as every block is valid
  · rintro ⟨hflags, hitems, hfits⟩
    obtain ⟨counts, hrounds⟩ := @exists_foldlM_validateReplayGroup T crates
      ⟨0, 0, input.firstBlockNumber, 0, 0, 0, 0, []⟩ _ hvalid.epoch
      (fun i block hblock => by
        rw [hungroup] at hblock
        have hmem := List.mem_of_getElem? hblock
        exact ⟨by rw [hvalid.index i block hblock, Nat.zero_add],
          (flags_reserved_iff (hvalid.reserved block hmem)).mpr (hflags block hmem), rfl,
          hflag block hmem⟩)
      (by rwa [hungroup])
    obtain ⟨-, hadvances⟩ := foldlM_validateReplayGroup_eq_ok hrounds
    rw [hungroup] at hadvances
    have htx : counts.txCount = verify.transactionItems.toNat := by
      rw [hadvances.txCount, hitems, Nat.zero_add]
    -- there is a block, so the number of the last one does not underflow
    have hsub : crates.subU64 counts.blockNumber 1 = .ok (counts.blockNumber - 1) := by
      refine if_neg fun hc => ?_
      have hnumber := hadvances.blockNumber
      rw [Nat.mod_eq_of_lt (hfits hc.1)] at hnumber
      rw [hnumber, UInt64.toNat_one] at hc
      omega
    simp only [validateReplayInput, ensure_of hvalid.nonempty, ensure_of hcount.symm, hrounds,
      ensure_of hvalid.complete, ensure_of htx, hsub, Except.ok_bind, Except.pure_def]
    exact ⟨_, rfl, rfl, htx.trans hitems⟩

/-! ## The encoded packets -/

/-- Blocks with as many items and transactions have the same totals. -/
theorem totals_eq {blocks blocks' : List (Block T)}
    (h : List.Forall₂ (fun block block' : Block T => block.itemCount = block'.itemCount ∧
      block.transactions.length = block'.transactions.length) blocks blocks') :
    itemTotal blocks = itemTotal blocks' ∧ txTotal blocks = txTotal blocks' := by
  induction h with
  | nil => exact ⟨rfl, rfl⟩
  | cons hsame _ ih =>
    obtain ⟨hitems, htxs⟩ := ih
    simp only [itemTotal, txTotal, hsame.1, hsame.2, hitems, htxs, and_self]

section Encoded

variable {input packet : Packet T} {b : Bytes} {txPayloads blockRecords : List Bytes}
  {txSegment : Bytes} {height : UInt64} {views : List (Option UInt64)}
  {txs : List (List (SignedTransaction T))}

theorem length_blocks_readBack :
    (input.readBack crates txPayloads views txs).blocks.length = input.blocks.length := by
  simp [Packet.readBack]

/-- A decoded block, and the block that it was encoded from. -/
theorem getElem_blocks_readBack (h : Resolves (readTx crates input) (input.written crates) txs) {i : ℕ}
    (hi : i < (input.readBack crates txPayloads views txs).blocks.length)
    (hi' : i < input.blocks.length) :
    (input.readBack crates txPayloads views txs).blocks[i].flags =
        recordFlags input.blocks[i] (txPayloads.getD i []) ∧
      (input.readBack crates txPayloads views txs).blocks[i].transactions.length =
        input.blocks[i].transactions.length ∧
      (input.readBack crates txPayloads views txs).blocks[i].itemCount =
        input.blocks[i].itemCount := by
  have hshape : List.SameShape txs input.txs := h.sameShape.symm.trans (sameShape_written input)
  have hlen : txs.length = input.blocks.length := by simpa [Packet.txs] using hshape.length_eq
  have htxs : (txs.getD i []).length = input.blocks[i].transactions.length := by
    have hget := (List.forall₂_iff_get.mp hshape).2 i (by omega) (by simpa [Packet.txs] using hi')
    rw [List.getD_eq_getElem _ _ (by omega : i < txs.length)]
    simpa [Packet.txs] using hget
  obtain ⟨block, hblock, heq⟩ := getElem?_readBack (List.getElem?_eq_getElem hi)
  obtain rfl := Option.some.inj ((List.getElem?_eq_getElem hi').symm.trans hblock)
  rw [heq]
  refine ⟨rfl, htxs, ?_⟩
  simp only [Block.itemCount, Block.readBack, htxs]

theorem totals_readBack (h : Resolves (readTx crates input) (input.written crates) txs) :
    itemTotal (input.readBack crates txPayloads views txs).blocks = itemTotal input.blocks ∧
      txTotal (input.readBack crates txPayloads views txs).blocks = txTotal input.blocks := by
  apply totals_eq
  refine List.forall₂_iff_get.mpr ⟨length_blocks_readBack, fun i hi hi' => ?_⟩
  obtain ⟨-, htxs, hitems⟩ := getElem_blocks_readBack h hi hi'
  exact ⟨hitems, htxs⟩

/-- The encoder keeps the bit of the total reward. -/
theorem flagZeroTotalReward_readBack
    (h : Resolves (readTx crates input) (input.written crates) txs) :
    (∀ block ∈ (input.readBack crates txPayloads views txs).blocks,
        block.flags &&& flagZeroTotalReward = 0) ↔
      ∀ block ∈ input.blocks, block.flags &&& flagZeroTotalReward = 0 := by
  have hbit : flagZeroTotalReward &&& (flagHasTransactions ||| flagTxCompressed) = 0 := by decide
  constructor
  · intro hflags block hblock
    obtain ⟨i, hi', rfl⟩ := List.getElem_of_mem hblock
    have hi : i < (input.readBack crates txPayloads views txs).blocks.length := by
      rwa [length_blocks_readBack]
    have hkept := hflags _ (List.getElem_mem hi)
    rwa [(getElem_blocks_readBack h hi hi').1, recordFlags_and _ _ hbit] at hkept
  · intro hflags block hblock
    obtain ⟨i, hi, rfl⟩ := List.getElem_of_mem hblock
    have hi' : i < input.blocks.length := by rwa [length_blocks_readBack] at hi
    rw [(getElem_blocks_readBack h hi hi').1, recordFlags_and _ _ hbit]
    exact hflags _ (List.getElem_mem hi')

/-- A decoded block with transactions has their flag. -/
theorem flagHasTransactions_readBack (hlawful : crates.Lawful)
    (hencoding : IsEncoding crates input b txPayloads blockRecords txSegment)
    (h : Resolves (readTx crates input) (input.written crates) txs) :
    ∀ block ∈ (input.readBack crates txPayloads views txs).blocks,
      block.flags &&& flagHasTransactions ≠ 0 ∨ block.transactions = [] := by
  intro block hblock
  obtain ⟨i, hi, rfl⟩ := List.getElem_of_mem hblock
  have hi' : i < input.blocks.length := by rwa [length_blocks_readBack] at hi
  have hlen := hencoding.length_payloads
  have hpayload : txPayloads[i]? = some txPayloads[i] := List.getElem?_eq_getElem (by omega)
  obtain ⟨hflag, htxs, -⟩ := getElem_blocks_readBack h hi hi'
  rw [hflag, recordFlags_hasTransactions, List.getD_eq_getElem?_getD, hpayload, Option.getD_some]
  rcases hencoding.exists_payload (List.getElem?_eq_getElem hi') hpayload with
    ⟨hzero, -⟩ | ⟨hne, items, hitems, heq⟩
  · right
    apply List.eq_nil_of_length_eq_zero
    rw [Block.itemCount] at hzero
    omega
  · left
    have hle := hlawful.rlp.length_items_le items
    rw [heq]
    exact List.ne_nil_of_length_pos (by omega)

/-- **The validator accepts an encoded packet exactly** when no block has the bit of the total reward
and the verifier counts as many items as there are transactions. In a build with overflow checks, the
items are counted in 32 bits and the block numbers in 64. -/
theorem validateReplayPacket_iff (hlawful : crates.Lawful) (hencode : encodePacket crates input = .ok b)
    (hsize : b.length < UInt64.size) (hdecode : decodePacket crates b = .ok packet) :
    (∃ report, validateReplayPacket crates b = .ok report ∧
        report.blockCount = input.blocks.length ∧ report.transactionCount = txTotal input.blocks) ↔
      (∀ block ∈ input.blocks, block.flags &&& flagZeroTotalReward = 0) ∧
        itemTotal input.blocks % UInt32.size = txTotal input.blocks ∧
        (crates.overflowChecks → itemTotal input.blocks < UInt32.size ∧
          input.firstBlockNumber.toNat + input.blocks.length < UInt64.size) := by
  obtain ⟨txPayloads, blockRecords, txSegment, hencoding⟩ := encodePacket_iff.mp hencode
  obtain ⟨views, txs, -, hresolves, rfl⟩ := (hencoding.decodePacketExt_eq_ok hlawful hsize).mp hdecode
  obtain ⟨hitemTotal, htxTotal⟩ := @totals_readBack T crates input txPayloads views txs hresolves
  -- once verified, the packet is validated as the packet that was read back
  have hvalidator : ∀ verify, verifyPacket crates b = .ok verify →
      ((∃ report, validateReplayPacket crates b = .ok report ∧
        report.blockCount = input.blocks.length ∧ report.transactionCount = txTotal input.blocks) ↔
      (∀ block ∈ input.blocks, block.flags &&& flagZeroTotalReward = 0) ∧
        itemTotal input.blocks % UInt32.size = txTotal input.blocks ∧
        (crates.overflowChecks →
          input.firstBlockNumber.toNat + input.blocks.length < UInt64.size)) := by
    intro verify hverify
    obtain ⟨hcount, -, hitems⟩ := verifyPacket_agrees hverify hdecode
    have hiff := @validateReplayInput_iff T crates _ _
      (hencoding.valid.readBack txPayloads views txs) hcount
      (flagHasTransactions_readBack hlawful hencoding hresolves)
    rw [length_blocks_readBack, htxTotal, flagZeroTotalReward_readBack hresolves, hitems,
      hitemTotal] at hiff
    simp only [validateReplayPacket, hverify, hdecode, Except.ok_bind]
    exact hiff
  constructor
  -- an accepted packet was verified before, so its items fit the counter
  · rintro ⟨report, hok, hcounts⟩
    obtain ⟨verify, hverify, -⟩ := Except.bind_eq_ok.mp hok
    obtain ⟨hflags, hitems, hfits⟩ := (hvalidator verify hverify).mp ⟨report, hok, hcounts⟩
    have hcounted := (hencoding.exists_report_iff hlawful hsize).mp ⟨verify, hverify⟩
    exact ⟨hflags, hitems, fun hchecks => ⟨hcounted hchecks, hfits hchecks⟩⟩
  -- and items that fit are verified
  · rintro ⟨hflags, hitems, hfits⟩
    obtain ⟨verify, hverify⟩ := (hencoding.exists_report_iff hlawful hsize).mpr
      fun hchecks => (hfits hchecks).1
    exact (hvalidator verify hverify).mpr ⟨hflags, hitems, fun hchecks => (hfits hchecks).2⟩

end Encoded

/-- A packet of transfers, without rewards and unlock events, is accepted. -/
theorem validateReplayPacket_transfer : ∃ report,
    validateReplayPacket plainCrates transferBytes = .ok report ∧
      report.blockCount = 2 ∧ report.transactionCount = 3 := by
  have hdecodes : (decodePacket plainCrates transferBytes).isOk := by decide +kernel
  cases hdecode : decodePacket plainCrates transferBytes with
  | error e => simp [hdecode, Except.isOk, Except.toBool] at hdecodes
  | ok packet =>
    exact (validateReplayPacket_iff plainCrates_lawful encodePacket_transferPacket
      (by rw [length_transferBytes]; decide) hdecode).mpr
        ⟨by decide, by decide, fun _ => by decide⟩

/-- A block without a total reward is encoded. -/
def zeroRewardPacket : Packet plainTypes :=
  { plainPacket with
    blocks := [{ plainBlock with flags := plainBlock.flags ||| flagZeroTotalReward }] }

/-- The encoder and the validator reserve different bits. -/
theorem not_validateReplayPacket_zeroRewardPacket :
    ¬ ∀ (input packet : Packet plainTypes) (b : Bytes), NoRefs input →
      DistinctHashes plainCrates input → encodePacket plainCrates input = .ok b →
        decodePacket plainCrates b = .ok packet →
          ∃ report, validateReplayPacket plainCrates b = .ok report ∧
            report.blockCount = input.blocks.length ∧
            report.transactionCount = txTotal input.blocks := by
  intro hclaim
  have hrun : ((encodePacket plainCrates zeroRewardPacket).bind fun b =>
      (decodePacket plainCrates b).map fun _ =>
        (validateReplayPacket plainCrates b).toOption.isSome) = .ok false := by
    decide +kernel
  obtain ⟨b, hencode, hrun⟩ := Except.bind_eq_ok.mp hrun
  obtain ⟨packet, hdecode, hrun⟩ := Except.map_eq_ok.mp hrun
  obtain ⟨hrefs, hdistinct⟩ :
      NoRefs zeroRewardPacket ∧ DistinctHashes plainCrates zeroRewardPacket :=
    noRefs_distinctHashes_of_single rfl rfl rfl
  obtain ⟨report, hok, -⟩ := hclaim _ packet b hrefs hdistinct hencode hdecode
  rw [hok] at hrun
  simp [Except.toOption] at hrun

end Extractor
