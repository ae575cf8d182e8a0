import CfxMinimalExecution.Extractor.Tables
import Mathlib.Data.List.Induction

/-!
# What is found in the tables

## Main definitions

* `noncesOf`: the nonces of a sender

## Main results

* `mem_buildAddressTable`, `nodup_buildAddressTable`: every address that is looked up is in the
  table, once
* `mem_buildDifficultyTable_iff`: so is every difficulty
* `get_foldl_pushNonce`: the nonces that the loop over the transactions collects
* `nodup_senderIndex`, `mem_senderBaseNonces`: every sender has one base at most, the least of its
  nonces
-/

namespace Extractor

open Cfxpack

/-! ## Frequencies -/

namespace Frequency

variable {α : Type} [DecidableEq α]

/-- Whether a value has been counted. -/
def Counted (stats : Frequency α) (value : α) : Prop := ∃ entry, stats.counts.get value = some entry

theorem counted_add {stats : Frequency α} {value value' : α} :
    (stats.add value).Counted value' ↔ value' = value ∨ stats.Counted value' := by
  have hinsert : ∀ entry order, Counted ⟨stats.counts.insert value entry, order⟩ value' ↔
      value' = value ∨ stats.Counted value' := by
    intro entry order
    unfold Counted
    rw [Assoc.get_insert]
    by_cases heq : value' = value
    · simp [heq]
    · simp [heq]
  unfold add
  cases stats.counts.get value with
  | none => exact hinsert _ _
  | some entry => exact hinsert _ _

theorem counted_foldl_add {stats : Frequency α} {values : List α} {value : α} :
    (values.foldl add stats).Counted value ↔ value ∈ values ∨ stats.Counted value := by
  induction values generalizing stats with
  | nil => simp
  | cons first values ih =>
    rw [List.foldl_cons, ih, counted_add, List.mem_cons]
    constructor
    · rintro (hmem | rfl | hcounted)
      · exact .inl (.inr hmem)
      · exact .inl (.inl rfl)
      · exact .inr hcounted
    · rintro ((rfl | hmem) | hcounted)
      · exact .inr (.inl rfl)
      · exact .inl hmem
      · exact .inr (.inr hcounted)

theorem intoSorted_eq (stats : Frequency α) :
    stats.intoSorted = (stats.counts.entries.insertionSort Before).map Prod.fst := by
  rw [intoSorted, intoSortedWithCounts, List.map_map]
  rfl

theorem mem_intoSorted {stats : Frequency α} {value : α} :
    value ∈ stats.intoSorted ↔ stats.Counted value := by
  rw [intoSorted_eq, List.mem_map]
  constructor
  · rintro ⟨⟨value, entry⟩, hmem, rfl⟩
    exact ⟨entry, Assoc.mem_entries.mp ((List.mem_insertionSort _).mp hmem)⟩
  · rintro ⟨entry, hentry⟩
    exact ⟨(value, entry), (List.mem_insertionSort _).mpr (Assoc.mem_entries.mpr hentry), rfl⟩

theorem nodup_intoSorted (stats : Frequency α) : stats.intoSorted.Nodup := by
  rw [intoSorted_eq]
  exact ((List.perm_insertionSort _ _).map Prod.fst).nodup_iff.mpr (Assoc.nodup_entries _)

end Frequency

variable {T : PrimitiveTypes} {primitives : Primitives T}

/-! ## Addresses and difficulties -/

/-- **Every address that is looked up is in the table.** -/
theorem mem_buildAddressTable {blocks : List (RawBlock T)} {address : Address} :
    address ∈ buildAddressTable primitives blocks ↔
      ∃ block ∈ blocks, address ∈ blockAddresses primitives block := by
  rw [buildAddressTable, Frequency.mem_intoSorted, Frequency.counted_foldl_add, List.mem_flatMap]
  refine or_iff_left ?_
  rintro ⟨entry, hentry⟩
  cases hentry

theorem nodup_buildAddressTable (blocks : List (RawBlock T)) :
    (buildAddressTable primitives blocks).Nodup := Frequency.nodup_intoSorted _

theorem mem_foldl_firstSeen {α : Type} [DecidableEq α] {values out : List α} {value : α} :
    value ∈ values.foldl (fun out value => if value ∈ out then out else out ++ [value]) out ↔
      value ∈ out ∨ value ∈ values := by
  induction values generalizing out with
  | nil => simp
  | cons first values ih =>
    rw [List.foldl_cons, ih]
    split
    case isTrue hmem =>
      rw [List.mem_cons]
      constructor
      · rintro (hout | hvalues)
        · exact .inl hout
        · exact .inr (.inr hvalues)
      · rintro (hout | rfl | hvalues)
        · exact .inl hout
        · exact .inl hmem
        · exact .inr hvalues
    case isFalse => simp [or_assoc]

theorem nodup_foldl_firstSeen {α : Type} [DecidableEq α] {values out : List α} (h : out.Nodup) :
    (values.foldl (fun out value => if value ∈ out then out else out ++ [value]) out).Nodup := by
  induction values generalizing out with
  | nil => exact h
  | cons first values ih =>
    rw [List.foldl_cons]
    split
    case isTrue => exact ih h
    case isFalse hmem =>
      refine ih (List.nodup_append.mpr ⟨h, List.nodup_singleton _, fun value hvalue other hother => ?_⟩)
      obtain rfl := List.mem_singleton.mp hother
      rintro rfl
      exact hmem hvalue

/-- **The difficulties of the table are those of the blocks.** -/
theorem mem_buildDifficultyTable_iff {blocks : List (RawBlock T)} {difficulty : U256} :
    difficulty ∈ buildDifficultyTable blocks ↔
      ∃ block ∈ blocks, block.header.difficulty = difficulty := by
  rw [buildDifficultyTable, firstSeen, mem_foldl_firstSeen, List.mem_map]
  simp

theorem nodup_buildDifficultyTable (blocks : List (RawBlock T)) :
    (buildDifficultyTable blocks).Nodup := nodup_foldl_firstSeen List.nodup_nil

/-- **Every difficulty is in the table.** -/
theorem mem_buildDifficultyTable {blocks : List (RawBlock T)} {block : RawBlock T}
    (h : block ∈ blocks) : block.header.difficulty ∈ buildDifficultyTable blocks :=
  mem_buildDifficultyTable_iff.mpr ⟨block, h, rfl⟩

/-! ## Nonces -/

variable (primitives) in
/-- The nonces of the transactions of a sender, by its index. -/
def noncesAt (addressIndex : Assoc Address ℕ) (txs : List (SignedTransaction T)) (senderIndex : ℕ) :
    List UInt64 :=
  (txs.filter fun tx => addressIndex.get tx.sender = some senderIndex).map fun tx =>
    lowU64 (primitives.fields tx.unsigned).nonce

theorem noncesAt_append_singleton {addressIndex : Assoc Address ℕ} {tx : SignedTransaction T}
    {index : Option ℕ} (h : addressIndex.get tx.sender = index) (txs : List (SignedTransaction T))
    (senderIndex : ℕ) :
    noncesAt primitives addressIndex (txs ++ [tx]) senderIndex =
      noncesAt primitives addressIndex txs senderIndex ++
        if index = some senderIndex then [lowU64 (primitives.fields tx.unsigned).nonce] else [] := by
  unfold noncesAt
  rw [List.filter_append, List.map_append, List.filter_singleton, h]
  split <;> simp_all

/-- **The loop over the transactions** collects the nonces of every sender. -/
theorem get_foldl_pushNonce (addressIndex : Assoc Address ℕ) (txs : List (SignedTransaction T))
    (senderIndex : ℕ) :
    (txs.foldl (pushNonce primitives addressIndex) []).get senderIndex =
      if noncesAt primitives addressIndex txs senderIndex = [] then none
      else some (noncesAt primitives addressIndex txs senderIndex) := by
  induction txs using List.reverseRecOn generalizing senderIndex with
  | nil => rfl
  | append_singleton txs tx ih =>
    rw [List.foldl_append, List.foldl_cons, List.foldl_nil, pushNonce]
    cases hsender : addressIndex.get tx.sender with
    -- a sender without an index has no nonces recorded
    | none => simpa [noncesAt_append_singleton hsender] using ih senderIndex
    -- the nonce is added to those of its sender
    | some index =>
      simp only [Assoc.get_insert, noncesAt_append_singleton hsender, ih, Option.some.injEq]
      by_cases heq : senderIndex = index
      · subst heq
        by_cases hnil : noncesAt primitives addressIndex txs senderIndex = [] <;> simp [hnil]
      · simp [heq, Ne.symm heq]

theorem minU64_le (a b : UInt64) : minU64 a b ≤ a ∧ minU64 a b ≤ b := by
  unfold minU64
  split
  case isTrue hle => exact ⟨UInt64.le_refl a, hle⟩
  case isFalse hle => exact ⟨(UInt64.le_total a b).resolve_left hle, UInt64.le_refl b⟩

theorem foldl_minU64_le (values : List UInt64) (first : UInt64) :
    values.foldl minU64 first ≤ first ∧ ∀ value ∈ values, values.foldl minU64 first ≤ value := by
  induction values generalizing first with
  | nil => exact ⟨UInt64.le_refl first, fun value hvalue => by cases hvalue⟩
  | cons second values ih =>
    obtain ⟨hfirst, hsecond⟩ := minU64_le first second
    obtain ⟨hle, hall⟩ := ih (minU64 first second)
    refine ⟨UInt64.le_trans hle hfirst, fun value hvalue => ?_⟩
    rcases List.mem_cons.mp hvalue with rfl | hvalue
    · exact UInt64.le_trans hle hsecond
    · exact hall value hvalue

theorem foldl_minU64_mem (values : List UInt64) (first : UInt64) :
    values.foldl minU64 first ∈ first :: values := by
  induction values generalizing first with
  | nil => exact List.mem_singleton_self _
  | cons second values ih =>
    have hmin : minU64 first second = first ∨ minU64 first second = second := by
      unfold minU64
      split
      · exact .inl rfl
      · exact .inr rfl
    rcases List.mem_cons.mp (ih (minU64 first second)) with heq | hmem
    · rw [List.foldl_cons, heq]
      rcases hmin with hfirst | hsecond
      · rw [hfirst]
        exact List.mem_cons_self
      · rw [hsecond]
        exact List.mem_cons_of_mem _ List.mem_cons_self
    · exact List.mem_cons_of_mem _ (List.mem_cons_of_mem _ hmem)

theorem minNonce_mem {values : List UInt64} (h : values ≠ []) : minNonce values ∈ values := by
  obtain ⟨first, values, rfl⟩ := List.exists_cons_of_ne_nil h
  exact foldl_minU64_mem values first

/-- The base is the least nonce. -/
theorem minNonce_le {values : List UInt64} {value : UInt64} (h : value ∈ values) :
    minNonce values ≤ value := by
  cases values with
  | nil => cases h
  | cons first values =>
    obtain ⟨hfirst, hall⟩ := foldl_minU64_le values first
    rcases List.mem_cons.mp h with rfl | h
    · exact hfirst
    · exact hall value h

/-- Without nonces nothing is saved. -/
theorem ne_nil_of_saving {baseNonce : UInt64} {values : List UInt64}
    (h : 16 ≤ nonceSaving baseNonce values) : values ≠ [] := by
  rintro rfl
  exact absurd h (by simp [nonceSaving])

theorem mem_buildSenderBaseNonceTable {blocks : List (RawBlock T)} {addressIndex : Assoc Address ℕ}
    {entry : SenderBaseNonce} :
    entry ∈ buildSenderBaseNonceTable primitives blocks addressIndex ↔
      ∃ senderIndex,
        16 ≤ nonceSaving entry.baseNonce
          (noncesAt primitives addressIndex (blocks.flatMap (·.body)) senderIndex) ∧
        entry = ⟨UInt64.ofNat senderIndex,
          minNonce (noncesAt primitives addressIndex (blocks.flatMap (·.body)) senderIndex)⟩ := by
  unfold buildSenderBaseNonceTable
  rw [List.mem_insertionSort, List.mem_filterMap]
  constructor
  · rintro ⟨⟨senderIndex, values⟩, hmem, hentry⟩
    have hget := Assoc.mem_entries.mp hmem
    rw [get_foldl_pushNonce] at hget
    obtain ⟨-, hvalues⟩ := Option.ite_none_left_eq_some.mp hget
    obtain rfl := Option.some.inj hvalues
    obtain ⟨hsaving, hbase⟩ := Option.ite_none_right_eq_some.mp hentry
    obtain rfl := Option.some.inj hbase
    exact ⟨senderIndex, hsaving, rfl⟩
  · rintro ⟨senderIndex, hsaving, rfl⟩
    have hne := ne_nil_of_saving hsaving
    generalize hvalues : noncesAt primitives addressIndex (blocks.flatMap (·.body)) senderIndex =
      values at *
    refine ⟨(senderIndex, values), Assoc.mem_entries.mpr ?_, if_pos hsaving⟩
    rw [get_foldl_pushNonce, hvalues, if_neg hne]

section Senders

variable {addresses : List Address}

/-- An index is a position of the table. -/
theorem senderIndex_lt {senderIndex : ℕ} {address : Address}
    (h : (Assoc.indexOf addresses).get address = some senderIndex) : senderIndex < addresses.length :=
  (List.getElem?_eq_some_iff.mp (Assoc.getElem?_of_get_indexOf h)).1

/-- Only senders have nonces. -/
theorem exists_of_noncesAt_ne_nil {txs : List (SignedTransaction T)} {senderIndex : ℕ}
    (h : noncesAt primitives (Assoc.indexOf addresses) txs senderIndex ≠ []) :
    ∃ sender, (Assoc.indexOf addresses).get sender = some senderIndex := by
  obtain ⟨nonce, hnonce⟩ := List.exists_mem_of_ne_nil _ h
  obtain ⟨tx, htx, -⟩ := List.mem_map.mp hnonce
  exact ⟨tx.sender, of_decide_eq_true (List.mem_filter.mp htx).2⟩

/-- **Every sender has one base at most.** -/
theorem nodup_senderIndex (hlen : addresses.length < UInt64.size) (blocks : List (RawBlock T)) :
    ((buildSenderBaseNonceTable primitives blocks (Assoc.indexOf addresses)).map
      (·.senderIndex)).Nodup := by
  have hget := @get_foldl_pushNonce T primitives (Assoc.indexOf addresses) (blocks.flatMap (·.body))
  unfold buildSenderBaseNonceTable
  generalize (blocks.flatMap (·.body)).foldl (pushNonce primitives (Assoc.indexOf addresses)) [] =
    nonces at hget
  refine ((List.perm_insertionSort _ _).map _).nodup_iff.mpr ?_
  have hkeys : ∀ entry ∈ nonces.entries, entry.1 < UInt64.size := by
    rintro ⟨senderIndex, values⟩ hentry
    have hvalues := (hget senderIndex).symm.trans (Assoc.mem_entries.mp hentry)
    obtain ⟨address, hindex⟩ :=
      exists_of_noncesAt_ne_nil (Option.ite_none_left_eq_some.mp hvalues).1
    exact (senderIndex_lt hindex).trans hlen
  have hnodup := Assoc.nodup_entries nonces
  rw [List.Nodup, List.pairwise_map] at hnodup ⊢
  rw [List.pairwise_filterMap]
  refine hnodup.imp_of_mem fun {entry entry'} hmem hmem' hne base hbase base' hbase' heq => hne ?_
  obtain rfl := Option.some.inj (Option.ite_none_right_eq_some.mp hbase).2
  obtain rfl := Option.some.inj (Option.ite_none_right_eq_some.mp hbase').2
  have hnat := congrArg UInt64.toNat heq
  rwa [UInt64.toNat_ofNat_of_lt' (hkeys entry hmem),
    UInt64.toNat_ofNat_of_lt' (hkeys entry' hmem')] at hnat

variable (primitives) in
/-- The nonces of the transactions of a sender, in order. -/
def noncesOf (blocks : List (RawBlock T)) (sender : Address) : List UInt64 :=
  ((blocks.flatMap (·.body)).filter (·.sender = sender)).map fun tx =>
    lowU64 (primitives.fields tx.unsigned).nonce

theorem noncesAt_indexOf {sender : Address} {senderIndex : ℕ}
    (h : (Assoc.indexOf addresses).get sender = some senderIndex) (blocks : List (RawBlock T)) :
    noncesAt primitives (Assoc.indexOf addresses) (blocks.flatMap (·.body)) senderIndex =
      noncesOf primitives blocks sender := by
  unfold noncesAt noncesOf
  congr 2
  funext tx
  refine decide_eq_decide.mpr ⟨fun hsender => ?_, fun hsender => hsender ▸ h⟩
  exact Option.some.inj
    ((Assoc.getElem?_of_get_indexOf hsender).symm.trans (Assoc.getElem?_of_get_indexOf h))

/-- **The bases of the table** are the least nonces of the senders that save enough. -/
theorem mem_senderBaseNonces (hnodup : addresses.Nodup) (hlen : addresses.length < UInt64.size)
    {blocks : List (RawBlock T)} {entry : SenderBaseNonce} :
    entry ∈ buildSenderBaseNonceTable primitives blocks (Assoc.indexOf addresses) ↔
      ∃ sender, addresses[entry.senderIndex.toNat]? = some sender ∧
        entry.baseNonce ∈ noncesOf primitives blocks sender ∧
        (∀ nonce ∈ noncesOf primitives blocks sender, entry.baseNonce ≤ nonce) ∧
        16 ≤ nonceSaving entry.baseNonce (noncesOf primitives blocks sender) := by
  rw [mem_buildSenderBaseNonceTable]
  constructor
  · rintro ⟨senderIndex, hsaving, heq⟩
    obtain ⟨sender, hsender⟩ := exists_of_noncesAt_ne_nil (ne_nil_of_saving hsaving)
    rw [noncesAt_indexOf hsender] at hsaving heq
    subst heq
    refine ⟨sender, ?_, minNonce_mem (ne_nil_of_saving hsaving),
      fun nonce hnonce => minNonce_le hnonce, hsaving⟩
    rw [UInt64.toNat_ofNat_of_lt' ((senderIndex_lt hsender).trans hlen)]
    exact Assoc.getElem?_of_get_indexOf hsender
  · rintro ⟨sender, hsender, hmem, hle, hsaving⟩
    obtain ⟨senderIndex, hindex⟩ := Assoc.exists_get_indexOf (List.mem_of_getElem? hsender)
    have hsame : senderIndex = entry.senderIndex.toNat := by
      obtain ⟨hi, hget⟩ := List.getElem?_eq_some_iff.mp (Assoc.getElem?_of_get_indexOf hindex)
      obtain ⟨hj, hget'⟩ := List.getElem?_eq_some_iff.mp hsender
      exact (hnodup.getElem_inj_iff).mp (hget.trans hget'.symm)
    refine ⟨senderIndex, ?_, ?_⟩
    · rwa [noncesAt_indexOf hindex]
    · have hbase : entry.baseNonce = minNonce (noncesOf primitives blocks sender) :=
        UInt64.le_antisymm (hle _ (minNonce_mem (List.ne_nil_of_mem hmem))) (minNonce_le hmem)
      rw [noncesAt_indexOf hindex, ← hbase, hsame, UInt64.ofNat_toNat]

/-- **The base of a sender is below all of its nonces.** -/
theorem baseNonce_le (hnodup : addresses.Nodup) (hlen : addresses.length < UInt64.size)
    {blocks : List (RawBlock T)} {entry : SenderBaseNonce}
    (h : entry ∈ buildSenderBaseNonceTable primitives blocks (Assoc.indexOf addresses)) :
    ∃ sender, addresses[entry.senderIndex.toNat]? = some sender ∧
      ∀ block ∈ blocks, ∀ tx ∈ block.body, tx.sender = sender →
        entry.baseNonce ≤ lowU64 (primitives.fields tx.unsigned).nonce := by
  obtain ⟨sender, hsender, -, hle, -⟩ := (mem_senderBaseNonces hnodup hlen).mp h
  refine ⟨sender, hsender, fun block hblock tx htx heq => hle _ (List.mem_map_of_mem ?_)⟩
  exact List.mem_filter.mpr ⟨List.mem_flatMap.mpr ⟨block, hblock, htx⟩, decide_eq_true heq⟩

end Senders

end Extractor
