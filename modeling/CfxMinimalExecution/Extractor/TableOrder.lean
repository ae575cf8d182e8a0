import CfxMinimalExecution.Extractor.PlainDatabase
import CfxMinimalExecution.Extractor.TableLookups
import CfxMinimalExecution.Library.Ranking

/-!
# Tables do not depend on how hash maps are walked

The order in which a hash map is walked is the map's own: it changes from one run to the next.
Here every map of `buildTables` that is walked has an order of its own.

## Main definitions

* `IterationOrder`: an order in which hash maps are walked
* `buildTablesIn`: `buildTables`, with the orders of its maps
* `Frequency.Stamped stats occurrences`: the values have been counted
* `TablesOf blocks tables`: what the tables of a list of blocks hold

## Main results

* `Stamped.add`, `stamped_foldl`: what one count and a whole list of them leave
* `ranks_intoSortedIn`: the sorted values are the ranking of the list
* `buildTablesIn_spec`: whatever the orders, the tables are the same, and they are the tables of the
  blocks
-/

namespace Extractor

open Cfxpack

/-! ## Walking hash maps -/

/-- An order in which hash maps are walked: it may depend on how the map has been filled. -/
structure IterationOrder (κ ν : Type) [DecidableEq κ] where
  walk : Assoc κ ν → List (κ × ν)
  perm : ∀ m, (walk m).Perm m.entries

namespace IterationOrder

variable {κ ν : Type} [DecidableEq κ] (order : IterationOrder κ ν)

/-- The latest insertions first. -/
def latestFirst : IterationOrder κ ν := ⟨Assoc.entries, fun _ => List.Perm.rfl⟩

/-- The latest insertions last. -/
def latestLast : IterationOrder κ ν := ⟨fun m => m.entries.reverse, fun m => m.entries.reverse_perm⟩

theorem mem_walk {m : Assoc κ ν} {k : κ} {v : ν} : (k, v) ∈ order.walk m ↔ m.get k = some v :=
  (order.perm m).mem_iff.trans Assoc.mem_entries

theorem nodup_walk (m : Assoc κ ν) : ((order.walk m).map Prod.fst).Nodup :=
  ((order.perm m).map Prod.fst).nodup_iff.mpr (Assoc.nodup_entries m)

end IterationOrder

namespace Frequency

variable {α : Type} [DecidableEq α] (order : IterationOrder α (ℕ × ℕ))

def intoSortedWithCountsIn (stats : Frequency α) : List (α × ℕ) :=
  ((order.walk stats.counts).insertionSort Before).map fun entry => (entry.1, entry.2.1)

def intoSortedIn (stats : Frequency α) : List α :=
  (stats.intoSortedWithCountsIn order).map Prod.fst

end Frequency

/-- The orders in which the maps behind the tables are walked. -/
structure MapOrders where
  addresses : IterationOrder Address (ℕ × ℕ)
  gasPrices : IterationOrder U256 (ℕ × ℕ)
  nonces : IterationOrder ℕ (List UInt64)

variable {T : PrimitiveTypes} (primitives : Primitives T)

def buildAddressTableIn (orders : MapOrders) (blocks : List (RawBlock T)) : List Address :=
  ((blocks.flatMap (blockAddresses primitives)).foldl Frequency.add
    Frequency.default).intoSortedIn orders.addresses

def buildGasPriceTableIn (orders : MapOrders) (blocks : List (RawBlock T)) : List U256 :=
  let stats := (blocks.flatMap (blockPrices primitives)).foldl Frequency.add Frequency.default
  (((stats.intoSortedWithCountsIn orders.gasPrices).filter fun entry => 3 < entry.2).take 16).map
    Prod.fst

/-- The base of a sender, where it saves enough. -/
def senderBase (entry : ℕ × List UInt64) : Option SenderBaseNonce :=
  let baseNonce := minNonce entry.2
  if 16 ≤ nonceSaving baseNonce entry.2 then
    some { senderIndex := UInt64.ofNat entry.1, baseNonce : SenderBaseNonce }
  else none

def buildSenderBaseNonceTableIn (orders : MapOrders) (blocks : List (RawBlock T))
    (addressIndex : Assoc Address ℕ) : List SenderBaseNonce :=
  let nonces := (blocks.flatMap (·.body)).foldl (pushNonce primitives addressIndex) []
  ((orders.nonces.walk nonces).filterMap senderBase).insertionSort
    fun a b => a.senderIndex ≤ b.senderIndex

def buildTablesIn (orders : MapOrders) (blocks : List (RawBlock T))
    (posBlocks : Assoc H256 CommittedBlock) (minPosHeight posReferenceEnableHeight : UInt64) :
    Result Tables := do
  let addresses := buildAddressTableIn primitives orders blocks
  let addressIndex := Assoc.indexOf addresses
  let difficulties := buildDifficultyTable blocks
  let gasPrices := buildGasPriceTableIn primitives orders blocks
  let senderBaseNonces := buildSenderBaseNonceTableIn primitives orders blocks addressIndex
  let posEntries ← buildPosLookup blocks posBlocks minPosHeight posReferenceEnableHeight
  pure { addresses, posEntries, difficulties, senderBaseNonces, gasPrices }

/-! ## The counts -/

namespace Frequency

variable {α : Type} [DecidableEq α]

/-- The values have been counted, and their orders are those in which they are first seen. -/
structure Stamped (stats : Frequency α) (occurrences : List α) : Prop where
  present : ∀ a ∈ occurrences, ∃ order < stats.nextOrder,
    stats.counts.get a = some (occurrences.count a, order)
  absent : ∀ a ∉ occurrences, stats.counts.get a = none
  order : ∀ a b countA countB orderA orderB, stats.counts.get a = some (countA, orderA) →
    stats.counts.get b = some (countB, orderB) →
    (orderA < orderB ↔ occurrences.idxOf a < occurrences.idxOf b)

namespace Stamped

variable {stats : Frequency α} {occurrences : List α}

theorem mem_of_get (h : stats.Stamped occurrences) {a : α} {entry : ℕ × ℕ}
    (hget : stats.counts.get a = some entry) : a ∈ occurrences := by
  by_contra hmem
  rw [h.absent a hmem] at hget
  cases hget

theorem of_get (h : stats.Stamped occurrences) {a : α} {count order : ℕ}
    (hget : stats.counts.get a = some (count, order)) :
    count = occurrences.count a ∧ order < stats.nextOrder := by
  obtain ⟨order', hlt, hget'⟩ := h.present a (h.mem_of_get hget)
  obtain ⟨rfl, rfl⟩ := Prod.mk.inj (Option.some.inj (hget.symm.trans hget'))
  exact ⟨rfl, hlt⟩

/-- **A value that has been seen** keeps its order. -/
theorem add_present (h : stats.Stamped occurrences) {value : α} (hmem : value ∈ occurrences) :
    (stats.add value).Stamped (occurrences ++ [value]) := by
  obtain ⟨order, hlt, hget⟩ := h.present value hmem
  have hadd : stats.add value =
      { stats with counts := stats.counts.insert value (occurrences.count value + 1, order) } := by
    rw [add, hget]
  -- The orders of the values are those of before.
  have hold : ∀ a count orderA, (stats.add value).counts.get a = some (count, orderA) →
      ∃ count', stats.counts.get a = some (count', orderA) := by
    intro a count orderA ha
    rw [hadd, Assoc.get_insert] at ha
    split at ha
    case isTrue heq =>
      obtain ⟨-, rfl⟩ := Prod.mk.inj (Option.some.inj ha)
      exact ⟨_, heq ▸ hget⟩
    case isFalse => exact ⟨count, ha⟩
  -- the counts, the missing values, and the orders in turn
  refine ⟨fun a ha => ?_, fun a ha => ?_, ?_⟩
  · rw [hadd, Assoc.get_insert, List.count_append]
    by_cases heq : a = value
    · subst heq
      exact ⟨order, hlt, by simp⟩
    · rw [if_neg heq, List.count_singleton, if_neg (by simpa using Ne.symm heq)]
      apply h.present
      simpa [heq] using ha
  · rw [hadd, Assoc.get_insert]
    have hne : a ≠ value ∧ a ∉ occurrences := by
      rw [List.mem_append, List.mem_singleton, not_or] at ha
      exact ha.symm
    rw [if_neg hne.1]
    exact h.absent a hne.2
  · intro a b countA countB orderA orderB ha hb
    obtain ⟨countA', ha⟩ := hold a countA orderA ha
    obtain ⟨countB', hb⟩ := hold b countB orderB hb
    rw [List.idxOf_append_of_mem (h.mem_of_get ha), List.idxOf_append_of_mem (h.mem_of_get hb)]
    exact h.order a b countA' countB' orderA orderB ha hb

/-- **A new value** has the next order. -/
theorem add_absent (h : stats.Stamped occurrences) {value : α} (hmem : value ∉ occurrences) :
    (stats.add value).Stamped (occurrences ++ [value]) := by
  have hadd : stats.add value =
      ⟨stats.counts.insert value (1, stats.nextOrder), stats.nextOrder + 1⟩ := by
    rw [add, h.absent value hmem]
  have hindex : (occurrences ++ [value]).idxOf value = occurrences.length := by
    rw [List.idxOf_append_of_notMem hmem]
    simp
  -- Values of before are where they were, and come before the new one.
  have hbefore : ∀ a entry, stats.counts.get a = some entry →
      (occurrences ++ [value]).idxOf a = occurrences.idxOf a ∧
        occurrences.idxOf a < occurrences.length := fun a entry ha =>
    ⟨List.idxOf_append_of_mem (h.mem_of_get ha), List.idxOf_lt_length_of_mem (h.mem_of_get ha)⟩
  refine ⟨fun a ha => ?_, fun a ha => ?_, ?_⟩
  · rw [hadd, Assoc.get_insert, List.count_append]
    by_cases heq : a = value
    · subst heq
      refine ⟨stats.nextOrder, Nat.lt_succ_self _, ?_⟩
      rw [if_pos rfl, List.count_eq_zero_of_not_mem hmem]
      simp
    · rw [if_neg heq, List.count_singleton, if_neg (by simpa using Ne.symm heq)]
      obtain ⟨order, hlt, hget⟩ := h.present a (by simpa [heq] using ha)
      exact ⟨order, Nat.lt_succ_of_lt hlt, hget⟩
  · rw [hadd, Assoc.get_insert]
    rw [List.mem_append, List.mem_singleton, not_or] at ha
    rw [if_neg ha.2]
    exact h.absent a ha.1
  -- the order of two values: neither, one or both of them can be the new one
  · intro a b countA countB orderA orderB ha hb
    rw [hadd, Assoc.get_insert] at ha hb
    by_cases hav : a = value
    · subst hav
      rw [if_pos rfl] at ha
      obtain ⟨-, rfl⟩ := Prod.mk.inj (Option.some.inj ha)
      by_cases hbv : b = a
      · subst hbv
        rw [if_pos rfl] at hb
        obtain ⟨-, rfl⟩ := Prod.mk.inj (Option.some.inj hb)
        simp
      · rw [if_neg hbv] at hb
        rw [hindex, (hbefore b _ hb).1]
        have hlt := (h.of_get hb).2
        have hlen := (hbefore b _ hb).2
        omega
    · rw [if_neg hav] at ha
      rw [(hbefore a _ ha).1]
      by_cases hbv : b = value
      · subst hbv
        rw [if_pos rfl] at hb
        obtain ⟨-, rfl⟩ := Prod.mk.inj (Option.some.inj hb)
        rw [hindex]
        exact iff_of_true (h.of_get ha).2 (hbefore a _ ha).2
      · rw [if_neg hbv] at hb
        rw [(hbefore b _ hb).1]
        exact h.order a b countA countB orderA orderB ha hb

/-- **One round of counting.** -/
theorem add (h : stats.Stamped occurrences) (value : α) :
    (stats.add value).Stamped (occurrences ++ [value]) := by
  by_cases hmem : value ∈ occurrences
  · exact h.add_present hmem
  · exact h.add_absent hmem

end Stamped

/-- **The whole loop.** -/
theorem stamped_foldl (values : List α) : (values.foldl add default).Stamped values := by
  have hloop : ∀ (values occurrences : List α) (stats : Frequency α), stats.Stamped occurrences →
      (values.foldl Frequency.add stats).Stamped (occurrences ++ values) := by
    intro values
    induction values with
    | nil =>
      intro occurrences stats h
      rwa [List.append_nil]
    | cons value values ih =>
      intro occurrences stats h
      rw [List.append_cons]
      exact ih _ _ (h.add value)
  exact hloop values [] default ⟨nofun, fun _ _ => rfl, nofun⟩

/-! ## The ranking -/

instance before_total : Std.Total (Before (α := α)) := ⟨fun a b => by unfold Before; omega⟩

instance before_trans : IsTrans (α × ℕ × ℕ) Before := ⟨fun a b c => by unfold Before; omega⟩

variable {order : IterationOrder α (ℕ × ℕ)} {stats : Frequency α} {occurrences : List α}

theorem intoSortedIn_eq : stats.intoSortedIn order =
    ((order.walk stats.counts).insertionSort Before).map Prod.fst := by
  rw [intoSortedIn, intoSortedWithCountsIn, List.map_map]
  rfl

theorem intoSortedWithCountsIn_eq (h : stats.Stamped occurrences) :
    stats.intoSortedWithCountsIn order =
      (stats.intoSortedIn order).map fun a => (a, occurrences.count a) := by
  rw [intoSortedIn_eq, intoSortedWithCountsIn, List.map_map]
  apply List.map_congr_left
  rintro ⟨a, count, orderA⟩ hmem
  have hget := order.mem_walk.mp ((List.mem_insertionSort _).mp hmem)
  exact Prod.ext rfl (h.of_get hget).1

/-- **The sorted values are the ranking of the list.** -/
theorem ranks_intoSortedIn (h : stats.Stamped occurrences) :
    occurrences.Ranks (stats.intoSortedIn order) := by
  rw [intoSortedIn_eq]
  have hnodup : (((order.walk stats.counts).insertionSort Before).map Prod.fst).Nodup :=
    ((List.perm_insertionSort _ _).map Prod.fst).nodup_iff.mpr (order.nodup_walk _)
  refine ⟨fun a => ?_, hnodup, ?_⟩
  · rw [List.mem_map]
    constructor
    · rintro ⟨⟨a, entry⟩, hmem, rfl⟩
      exact h.mem_of_get (order.mem_walk.mp ((List.mem_insertionSort _).mp hmem))
    · intro hmem
      obtain ⟨orderA, -, hget⟩ := h.present a hmem
      exact ⟨(a, _), (List.mem_insertionSort _).mpr (order.mem_walk.mpr hget), rfl⟩
  · rw [List.pairwise_map]
    have hsorted := List.pairwise_insertionSort Before (order.walk stats.counts)
    rw [List.Nodup, List.pairwise_map] at hnodup
    refine (hsorted.and hnodup).imp_of_mem ?_
    rintro ⟨a, countA, orderA⟩ ⟨b, countB, orderB⟩ ha hb ⟨hbefore, hne⟩
    have hgetA := order.mem_walk.mp ((List.mem_insertionSort _).mp ha)
    have hgetB := order.mem_walk.mp ((List.mem_insertionSort _).mp hb)
    obtain ⟨rfl, -⟩ := h.of_get hgetA
    obtain ⟨rfl, -⟩ := h.of_get hgetB
    -- Distinct values are first seen in distinct places.
    have hplace : occurrences.idxOf a ≠ occurrences.idxOf b := fun heq =>
      hne (List.idxOf_inj (h.mem_of_get hgetA) |>.mp heq)
    have horder := h.order b a _ _ _ _ hgetB hgetA
    unfold Before at hbefore
    unfold List.RanksBefore
    simp only at hbefore ⊢
    omega

end Frequency

/-! ## The tables -/

variable {primitives}

theorem ranks_buildAddressTableIn (orders : MapOrders) (blocks : List (RawBlock T)) :
    (blocks.flatMap (blockAddresses primitives)).Ranks
      (buildAddressTableIn primitives orders blocks) :=
  Frequency.ranks_intoSortedIn (Frequency.stamped_foldl _)

/-- The prices that are seen more than three times, the first sixteen of the ranking. -/
theorem buildGasPriceTableIn_eq (orders : MapOrders) (blocks : List (RawBlock T)) :
    ∃ prices, (blocks.flatMap (blockPrices primitives)).Ranks prices ∧
      buildGasPriceTableIn primitives orders blocks =
        (prices.filter fun price =>
          3 < (blocks.flatMap (blockPrices primitives)).count price).take 16 := by
  have hstamped := Frequency.stamped_foldl (blocks.flatMap (blockPrices primitives))
  refine ⟨Frequency.intoSortedIn orders.gasPrices _, Frequency.ranks_intoSortedIn hstamped, ?_⟩
  unfold buildGasPriceTableIn
  simp only [Frequency.intoSortedWithCountsIn_eq hstamped]
  rw [List.filter_map, List.map_take, List.map_map]
  exact congrArg (List.take 16) (List.map_id _)

theorem buildGasPriceTableIn_unique (orders orders' : MapOrders) (blocks : List (RawBlock T)) :
    buildGasPriceTableIn primitives orders blocks = buildGasPriceTableIn primitives orders' blocks := by
  obtain ⟨prices, hranks, heq⟩ := buildGasPriceTableIn_eq orders blocks
  obtain ⟨prices', hranks', heq'⟩ := buildGasPriceTableIn_eq orders' blocks
  rw [heq, heq', hranks.unique hranks']

section Senders

instance : Std.Total fun a b : SenderBaseNonce => a.senderIndex ≤ b.senderIndex :=
  ⟨fun a b => UInt64.le_total a.senderIndex b.senderIndex⟩

instance : IsTrans SenderBaseNonce fun a b => a.senderIndex ≤ b.senderIndex :=
  ⟨fun _ _ _ => UInt64.le_trans⟩

/-- **The bases of the senders**: their indices are distinct, so that sorting tells them apart. -/
theorem buildSenderBaseNonceTableIn_eq (orders : MapOrders) (blocks : List (RawBlock T))
    {addresses : List Address} (hlen : addresses.length < UInt64.size) :
    buildSenderBaseNonceTableIn primitives orders blocks (Assoc.indexOf addresses) =
      buildSenderBaseNonceTable primitives blocks (Assoc.indexOf addresses) := by
  have hnodup := @nodup_senderIndex T primitives _ hlen blocks
  unfold buildSenderBaseNonceTableIn buildSenderBaseNonceTable at *
  generalize (blocks.flatMap (·.body)).foldl (pushNonce primitives (Assoc.indexOf addresses)) [] =
    nonces at *
  have hperm : ((orders.nonces.walk nonces).filterMap senderBase).Perm
      (nonces.entries.filterMap senderBase) := (orders.nonces.perm nonces).filterMap senderBase
  have hinj := List.inj_on_of_nodup_map
    (((List.perm_insertionSort _ _).map SenderBaseNonce.senderIndex).nodup_iff.mp hnodup)
  apply List.insertionSort_eq_of_perm hperm
  intro a ha b hb hab hba
  exact hinj (hperm.mem_iff.mp ha) (hperm.mem_iff.mp hb) (UInt64.le_antisymm hab hba)

/-- The bases are sorted by their senders. -/
theorem pairwise_senderBaseNonces {addresses : List Address} (hlen : addresses.length < UInt64.size)
    (blocks : List (RawBlock T)) :
    (buildSenderBaseNonceTable primitives blocks (Assoc.indexOf addresses)).Pairwise
      fun a b => a.senderIndex < b.senderIndex := by
  have hnodup := @nodup_senderIndex T primitives _ hlen blocks
  rw [List.Nodup, List.pairwise_map] at hnodup
  refine (List.pairwise_insertionSort _ _ : List.Pairwise _ _).imp₂ (fun a b hle hne => ?_) hnodup
  exact UInt64.lt_of_le_of_ne hle hne

end Senders

/-! ## What occurs in a block -/

variable (primitives) in
/-- An address is the author's, a sender's, or is called. -/
def RawBlock.HasAddress (block : RawBlock T) (address : Address) : Prop :=
  address = block.header.author ∨ ∃ tx ∈ block.body,
    address = tx.sender ∨ (primitives.fields tx.unsigned).action = .call address

variable (primitives) in
/-- A price is one of the base prices, or is offered by a transaction. -/
def RawBlock.HasPrice (block : RawBlock T) (price : U256) : Prop :=
  (∃ base, block.header.basePrice = some base ∧ (price = base.1 ∨ price = base.2)) ∨
    ∃ tx ∈ block.body, price = (primitives.fields tx.unsigned).gasPrice ∨
      price = (primitives.fields tx.unsigned).maxPriorityGasPrice

theorem mem_blockAddresses {block : RawBlock T} {address : Address} :
    address ∈ blockAddresses primitives block ↔ block.HasAddress primitives address := by
  have htx : ∀ tx, address ∈ txAddresses primitives tx ↔
      address = tx.sender ∨ (primitives.fields tx.unsigned).action = .call address := by
    intro tx
    unfold txAddresses
    split
    case h_1 target haction => simp [haction, eq_comm]
    case h_2 haction => simp [haction]
  simp only [blockAddresses, List.mem_cons, List.mem_flatMap, htx, RawBlock.HasAddress]

theorem mem_blockPrices {block : RawBlock T} {price : U256} :
    price ∈ blockPrices primitives block ↔ block.HasPrice primitives price := by
  simp only [blockPrices, List.mem_append, List.mem_flatMap, Option.mem_toList, List.mem_cons,
    List.not_mem_nil, or_false, RawBlock.HasPrice]

variable (primitives) in
/-- What the tables of blocks hold: every address once, by descending count and then where it is
first seen, the first sixteen at most of the prices so ranked that are seen more than three times,
every difficulty once, and the least nonces of the senders that save enough. -/
structure TablesOf (blocks : List (RawBlock T)) (tables : Tables) : Prop where
  addresses : (blocks.flatMap (blockAddresses primitives)).Ranks tables.addresses
  mem_addresses : ∀ address, address ∈ tables.addresses ↔
    ∃ block ∈ blocks, block.HasAddress primitives address
  gasPrices : ∃ prices, (blocks.flatMap (blockPrices primitives)).Ranks prices ∧
    (∀ price, price ∈ prices ↔ ∃ block ∈ blocks, block.HasPrice primitives price) ∧
    tables.gasPrices = (prices.filter fun price =>
      3 < (blocks.flatMap (blockPrices primitives)).count price).take 16
  nodup_difficulties : tables.difficulties.Nodup
  mem_difficulties : ∀ difficulty, difficulty ∈ tables.difficulties ↔
    ∃ block ∈ blocks, block.header.difficulty = difficulty
  senderBaseNonces : tables.senderBaseNonces.Pairwise fun a b => a.senderIndex < b.senderIndex
  mem_senderBaseNonces : ∀ entry, entry ∈ tables.senderBaseNonces ↔
    ∃ sender, tables.addresses[entry.senderIndex.toNat]? = some sender ∧
      entry.baseNonce ∈ noncesOf primitives blocks sender ∧
      (∀ nonce ∈ noncesOf primitives blocks sender, entry.baseNonce ≤ nonce) ∧
      16 ≤ nonceSaving entry.baseNonce (noncesOf primitives blocks sender)

/-- The model of the tables is the one that walks the latest insertions first. -/
theorem buildTables_eq (blocks : List (RawBlock T)) (posBlocks : Assoc H256 CommittedBlock)
    (minPosHeight posReferenceEnableHeight : UInt64) :
    buildTables primitives blocks posBlocks minPosHeight posReferenceEnableHeight =
      buildTablesIn primitives ⟨.latestFirst, .latestFirst, .latestFirst⟩ blocks posBlocks
        minPosHeight posReferenceEnableHeight := rfl

/-- The maps are walked in any order. -/
theorem buildTablesIn_eq (orders orders' : MapOrders) (blocks : List (RawBlock T))
    (posBlocks : Assoc H256 CommittedBlock) (minPosHeight posReferenceEnableHeight : UInt64)
    (hlen : (buildAddressTable primitives blocks).length < UInt64.size) :
    buildTablesIn primitives orders blocks posBlocks minPosHeight posReferenceEnableHeight =
      buildTablesIn primitives orders' blocks posBlocks minPosHeight posReferenceEnableHeight := by
  have haddresses : ∀ orders : MapOrders, buildAddressTableIn primitives orders blocks =
      buildAddressTable primitives blocks := fun orders =>
    (ranks_buildAddressTableIn orders blocks).unique (ranks_buildAddressTableIn
      ⟨.latestFirst, .latestFirst, .latestFirst⟩ blocks)
  unfold buildTablesIn
  simp only [haddresses, buildGasPriceTableIn_unique orders orders' blocks,
    buildSenderBaseNonceTableIn_eq orders blocks hlen,
    buildSenderBaseNonceTableIn_eq orders' blocks hlen]

/-- **The tables are reproducible.** Whatever the orders in which the maps are walked, the tables
are those of `buildTables`, which list what occurs in the blocks. The positions of a table are
`usize`. -/
theorem buildTablesIn_spec (orders : MapOrders) (blocks : List (RawBlock T))
    (posBlocks : Assoc H256 CommittedBlock) (minPosHeight posReferenceEnableHeight : UInt64)
    (hlen : (buildAddressTable primitives blocks).length < UInt64.size) :
    buildTablesIn primitives orders blocks posBlocks minPosHeight posReferenceEnableHeight =
        buildTables primitives blocks posBlocks minPosHeight posReferenceEnableHeight ∧
      ∀ tables, buildTables primitives blocks posBlocks minPosHeight posReferenceEnableHeight =
          .ok tables → TablesOf primitives blocks tables := by
  refine ⟨?_, fun tables htables => ?_⟩
  · rw [buildTables_eq]
    exact buildTablesIn_eq orders _ blocks posBlocks minPosHeight posReferenceEnableHeight hlen
  obtain ⟨posEntries, -, htables⟩ := Except.bind_eq_ok.mp htables
  cases htables
  obtain ⟨prices, hprices, hgasPrices⟩ :=
    @buildGasPriceTableIn_eq T primitives ⟨.latestFirst, .latestFirst, .latestFirst⟩ blocks
  refine ⟨ranks_buildAddressTableIn ⟨.latestFirst, .latestFirst, .latestFirst⟩ blocks,
    fun address => ?_, ⟨prices, hprices, fun price => ?_, hgasPrices⟩,
    nodup_buildDifficultyTable blocks, fun _ => mem_buildDifficultyTable_iff,
    pairwise_senderBaseNonces hlen blocks,
    fun _ => mem_senderBaseNonces (nodup_buildAddressTable blocks) hlen⟩
  · simp only [mem_buildAddressTable, mem_blockAddresses]
  · simp only [hprices.mem, List.mem_flatMap, mem_blockPrices]

/-- A block with a transfer from one account and four transfers from another. -/
def plainTransfers : RawBlock plainTypes where
  epoch := 1
  hash := H256.fromSlice []
  header := plainHeaderOf 1 none
  body := plainTransfer Address.zero otherAddress 5 ::
    [0x40000000007, 0x40000000006, 0x40000000009, 0x40000000008].map
      (plainTransfer otherAddress Address.zero)
  reward := .default
  flags := 0

/-- The maps of a block, walked with the latest insertions last. -/
theorem buildTablesIn_spec_two : ∃ tables,
    buildTables plainPrimitives [plainTransfers] [] 0 0 = .ok tables ∧
      buildTablesIn plainPrimitives ⟨.latestLast, .latestLast, .latestLast⟩ [plainTransfers] [] 0 0 =
        .ok tables ∧
      TablesOf plainPrimitives [plainTransfers] tables ∧
      tables.addresses = [Address.zero, otherAddress] ∧ tables.gasPrices = [0] ∧
      tables.difficulties = [1] ∧ tables.senderBaseNonces.map (·.baseNonce) = [0x40000000006] := by
  have hlen : (buildAddressTable plainPrimitives [plainTransfers]).length < UInt64.size := by
    decide +kernel
  obtain ⟨hsame, htables⟩ := buildTablesIn_spec ⟨.latestLast, .latestLast, .latestLast⟩
    [plainTransfers] [] 0 0 hlen
  exact ⟨_, rfl, hsame, htables _ rfl, by decide +kernel, by decide +kernel, by decide +kernel,
    by decide +kernel⟩

end Extractor
