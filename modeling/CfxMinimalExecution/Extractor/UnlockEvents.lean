import CfxMinimalExecution.Extractor.PlainDatabase
import CfxMinimalExecution.Library.Intervals

/-!
# The attribution of unlock events

Every epoch gets the unlock events between the version that the pivot before it refers to and the
version that its own pivot refers to. The intervals tile, wherever the range is cut.

## Main definitions

* `unlockOf`, `LengthOverflows`: what a value unlocks, and the values that cannot be decoded
* `EventColumn`: a column of events in the order of their versions
* `PivotChain`: the references of the pivots, and their versions
* `epochEvents`, `epochUnlocks`: the events of an epoch, and what they unlock
* `UnlocksAttributed`: the unlock events of the epochs of a range, of the range, and of the parts it
  is cut into

## Main results

* `tryDecodeUnlockEvent_eq_ok`: a value is decoded unless its length overflows
* `readUnlockEvents_eq_ok`: the scan of the column finds an interval
* `collectUnlockEvents_spec`: the events are attributed if and only if those that are scanned can be
  decoded
-/

namespace Extractor

open Cfxpack

/-! ## Events -/

/-- An event of the PoS chain. -/
structure ContractEvent where
  key : Vector UInt8 40
  eventData : Bytes

namespace ContractEvent

/-- An event as it is stored. -/
def toBytes (event : ContractEvent) : Bytes :=
  [0, 40] ++ (event.key.toList ++
    (uleb128 (UInt64.ofNat event.eventData.length) ++ event.eventData))

def unlock (event : ContractEvent) : Option UnlockEntry :=
  if event.key.toList = unlockEventKey then decodeUnlockData event.eventData else none

end ContractEvent

/-- The reader of the PoS chain returns what the reader of packets returns. -/
theorem bcsReadUleb128Groups_of_readUleb128Groups {data : Bytes} {groups offset stop : ℕ}
    {shift value result : UInt64}
    (h : (readUleb128Groups data groups shift value).run offset = .ok (result, stop)) :
    bcsReadUleb128Groups data groups shift value offset = some (result, stop) := by
  induction groups generalizing shift value offset with
  | zero => simp [readUleb128Groups] at h
  | succ groups ih =>
    simp only [readUleb128Groups, StateT.run_bind, StateT.run_get, Except.pure_def,
      Except.ok_bind, Except.bind_eq_ok, Prod.exists, run_liftM_eq_ok, ensure_eq_ok,
      indexAt_eq_ok] at h
    obtain ⟨_, _, ⟨-, rfl⟩, byte, _, ⟨hbyte, rfl⟩, _, _, hset, h⟩ := h
    obtain rfl := (Prod.mk.inj (Except.ok.inj hset)).2
    rw [bcsReadUleb128Groups, hbyte]
    simp only
    split at h
    case isTrue hlast =>
      obtain ⟨rfl, rfl⟩ := Prod.mk.inj (Except.ok.inj h)
      rw [if_pos hlast]
    case isFalse hnext =>
      rw [if_neg hnext]
      exact ih h

/-- The reader stops in the data. -/
theorem le_length_of_bcsReadUleb128Groups {data : Bytes} {groups pos stop : ℕ}
    {shift value result : UInt64}
    (h : bcsReadUleb128Groups data groups shift value pos = some (result, stop)) :
    stop ≤ data.length := by
  induction groups generalizing shift value pos with
  | zero => cases h
  | succ groups ih =>
    rw [bcsReadUleb128Groups] at h
    split at h
    case h_1 => cases h
    case h_2 byte hbyte =>
      have hpos : pos < data.length := List.getElem?_eq_some_iff.mp hbyte |>.1
      simp only at h
      split at h
      · obtain ⟨-, rfl⟩ := Prod.mk.inj (Option.some.inj h)
        exact hpos
      · exact ih h

/-! ## Values -/

/-- The length that an unlock event has for its data, and the position behind it. -/
def unlockHeader (value : Bytes) : Option (UInt64 × ℕ) :=
  if value.length < 43 ∨ value[0]? ≠ some 0 ∨ value[1]? ≠ some 40 then none
  else if (value.take 42).drop 2 ≠ unlockEventKey then none
  else bcsReadUleb128 value 42

/-- What a value unlocks, if anything. -/
def unlockOf (value : Bytes) : Option UnlockEntry :=
  match unlockHeader value with
  | none => none
  | some (dataLen, pos) =>
    if value.length < pos + dataLen.toNat then none
    else decodeUnlockData ((value.take (pos + dataLen.toNat)).drop pos)

/-- The end of the data, by its length, is no word. -/
def LengthOverflows (value : Bytes) : Prop :=
  ∃ dataLen pos, unlockHeader value = some (dataLen, pos) ∧ UInt64.size ≤ pos + dataLen.toNat

theorem tryDecodeUnlockEvent_eq (profile : Profile) (value : Bytes) :
    tryDecodeUnlockEvent profile value = (match unlockHeader value with
      | none => pure none
      | some (dataLen, pos) => do
        let stop ← profile.addUsize pos dataLen.toNat
        if value.length < stop then pure none
        else do
          let eventData ← slice value pos stop
          pure (decodeUnlockData eventData)) := by
  unfold tryDecodeUnlockEvent unlockHeader
  split
  · rfl
  · split <;> rfl

/-- **A value is decoded unless its length overflows**, with or without overflow checks. -/
theorem tryDecodeUnlockEvent_eq_ok {profile : Profile} {value : Bytes}
    {unlock : Option UnlockEntry} : tryDecodeUnlockEvent profile value = .ok unlock ↔
      ¬ LengthOverflows value ∧ unlock = unlockOf value := by
  rw [tryDecodeUnlockEvent_eq]
  unfold LengthOverflows unlockOf
  cases hheader : unlockHeader value with
  | none => simp [eq_comm]
  | some header =>
    obtain ⟨dataLen, pos⟩ := header
    have hpos : pos ≤ value.length := by
      unfold unlockHeader at hheader
      split at hheader
      · cases hheader
      · split at hheader
        · cases hheader
        · exact le_length_of_bcsReadUleb128Groups hheader
    have hoverflows : (∃ dataLen' pos', some (dataLen, pos) = some (dataLen', pos') ∧
        UInt64.size ≤ pos' + dataLen'.toNat) ↔ UInt64.size ≤ pos + dataLen.toNat := by
      simp
    rw [hoverflows]
    by_cases hsize : UInt64.size ≤ pos + dataLen.toNat
    · simp only [hsize, not_true_eq_false, false_and, iff_false]
      intro hok
      obtain ⟨stop, hstop, hok⟩ := Except.bind_eq_ok.mp hok
      -- the end wraps around to a position before the data
      have hwraps : stop < pos := by
        have hlt := dataLen.toNat_lt
        unfold Profile.addUsize Profile.usize at hstop
        rw [if_neg (Nat.not_lt.mpr hsize)] at hstop
        split at hstop
        · cases hstop
        · obtain rfl := Except.ok.inj hstop
          rw [Nat.mod_eq_sub_mod hsize]
          have hle := Nat.mod_le (pos + dataLen.toNat - UInt64.size) UInt64.size
          simp only [UInt64.size] at hle hsize ⊢
          omega
      rw [if_neg (by omega)] at hok
      obtain ⟨eventData, hslice, -⟩ := Except.bind_eq_ok.mp hok
      exact absurd (slice_eq_ok.mp hslice).1.1 (by omega)
    · have hadd : profile.addUsize pos dataLen.toNat = .ok (pos + dataLen.toNat) :=
        Profile.addUsize_of_lt (Nat.lt_of_not_le hsize)
      simp only [hadd, Except.ok_bind]
      by_cases hend : value.length < pos + dataLen.toNat
      · simp [hend, Nat.lt_of_not_le hsize, eq_comm]
      · have hslice : slice value pos (pos + dataLen.toNat) =
            .ok ((value.take (pos + dataLen.toNat)).drop pos) :=
          slice_eq_ok.mpr ⟨⟨Nat.le_add_right _ _, Nat.le_of_not_lt hend⟩, rfl⟩
        simp [hend, hslice, Nat.lt_of_not_le hsize, eq_comm]

theorem unlockHeader_toBytes (event : ContractEvent) : unlockHeader event.toBytes =
    if event.key.toList = unlockEventKey then
      some (UInt64.ofNat event.eventData.length,
        42 + (uleb128 (UInt64.ofNat event.eventData.length)).length)
    else none := by
  have hkey : event.key.toList.length = 40 := by simp
  have hpos := List.length_pos_of_ne_nil (uleb128_ne_nil (UInt64.ofNat event.eventData.length))
  have hdrop2 : event.toBytes.drop 2 = event.key.toList ++
      (uleb128 (UInt64.ofNat event.eventData.length) ++ event.eventData) := rfl
  have hdrop42 : event.toBytes.drop 42 =
      uleb128 (UInt64.ofNat event.eventData.length) ++ event.eventData := by
    rw [show 42 = 2 + 40 from rfl, ← List.drop_drop, hdrop2, List.drop_left' hkey]
  have hlen := congrArg List.length hdrop42
  rw [List.length_drop, List.length_append] at hlen
  have hread := bcsReadUleb128Groups_of_readUleb128Groups
    (reads_uleb128 event.toBytes _ 42 event.eventData hdrop42)
  have hstart : ¬ (event.toBytes.length < 43 ∨ event.toBytes[0]? ≠ some 0 ∨
      event.toBytes[1]? ≠ some 40) := by
    rintro (hshort | hne | hne)
    · omega
    · exact hne rfl
    · exact hne rfl
  unfold unlockHeader
  rw [if_neg hstart, List.drop_take, hdrop2, List.take_left' hkey, bcsReadUleb128, hread]
  by_cases hunlock : event.key.toList = unlockEventKey
  · rw [if_neg (not_not.mpr hunlock), if_pos hunlock]
  · rw [if_pos hunlock, if_neg hunlock]

theorem length_toBytes (event : ContractEvent) : event.toBytes.length =
    42 + (uleb128 (UInt64.ofNat event.eventData.length)).length + event.eventData.length := by
  simp only [ContractEvent.toBytes, List.length_append, List.length_cons, List.length_nil,
    Vector.length_toList]
  omega

/-- The length of an event as it is stored does not overflow. -/
theorem not_lengthOverflows_toBytes (event : ContractEvent)
    (hsize : event.toBytes.length < UInt64.size) : ¬ LengthOverflows event.toBytes := by
  rintro ⟨dataLen, pos, hheader, hoverflows⟩
  rw [unlockHeader_toBytes] at hheader
  rw [length_toBytes] at hsize
  split at hheader
  · obtain ⟨rfl, rfl⟩ := Prod.mk.inj (Option.some.inj hheader)
    rw [UInt64.toNat_ofNat_of_lt' (by omega)] at hoverflows
    omega
  · cases hheader

/-- **An event unlocks what its value says.** -/
theorem unlockOf_toBytes (event : ContractEvent) (hsize : event.toBytes.length < UInt64.size) :
    unlockOf event.toBytes = event.unlock := by
  have hlen := length_toBytes event
  have hdata : (UInt64.ofNat event.eventData.length).toNat = event.eventData.length :=
    UInt64.toNat_ofNat_of_lt' (by omega)
  have hdrop : event.toBytes.drop
      (42 + (uleb128 (UInt64.ofNat event.eventData.length)).length) = event.eventData := by
    have hfront : event.toBytes = ([0, 40] ++ (event.key.toList ++
        uleb128 (UInt64.ofNat event.eventData.length))) ++ event.eventData := by
      simp [ContractEvent.toBytes]
    rw [hfront, List.drop_left']
    simp only [List.length_append, List.length_cons, List.length_nil, Vector.length_toList]
    omega
  unfold unlockOf ContractEvent.unlock
  rw [unlockHeader_toBytes]
  by_cases hunlock : event.key.toList = unlockEventKey
  · simp only [if_pos hunlock]
    rw [hdata, ← hlen, if_neg (lt_irrefl _), List.take_length, hdrop]
  · simp only [if_neg hunlock]

/-- **An event is decoded as it is stored.** -/
theorem tryDecodeUnlockEvent_toBytes {profile : Profile} (event : ContractEvent)
    (hsize : event.toBytes.length < UInt64.size) :
    tryDecodeUnlockEvent profile event.toBytes = .ok event.unlock :=
  tryDecodeUnlockEvent_eq_ok.mpr
    ⟨not_lengthOverflows_toBytes event hsize, (unlockOf_toBytes event hsize).symm⟩

/-! ## The column -/

/-- The version of an entry. -/
def versionOf (entry : Bytes × Bytes) : ℕ := beNat (entry.1.take 8)

/-- A column of events with keys of 16 bytes, ordered by version. -/
structure EventColumn (column : List (Bytes × Bytes)) : Prop where
  length_key : ∀ entry ∈ column, entry.1.length = 16
  sorted : List.SortedBy versionOf column

/-- The events from a version up to another. -/
def eventsIn (column : List (Bytes × Bytes)) (startVersion endVersion : UInt64) :
    List (Bytes × Bytes) :=
  List.between versionOf startVersion.toNat endVersion.toNat column

/-- What events unlock. -/
def unlocksOf (entries : List (Bytes × Bytes)) : List UnlockEntry :=
  entries.filterMap fun entry => unlockOf entry.2

/-- Events that can be decoded. -/
def Decodable (entries : List (Bytes × Bytes)) : Prop :=
  ∀ entry ∈ entries, ¬ LengthOverflows entry.2

/-- The search for a version among the keys. -/
theorem lt_iff_versionOf_lt {entry : Bytes × Bytes} (hlen : entry.1.length = 16)
    (version : UInt64) :
    entry.1 < beBytes 8 version.toNat ↔ versionOf entry < version.toNat := by
  have htake : (entry.1.take 8).length = (beBytes 8 version.toNat).length := by
    rw [List.length_take, hlen, length_beBytes]
    rfl
  rw [← List.take_append_drop 8 entry.1, append_lt_iff htake, lt_iff_beNat_lt htake, versionOf,
    beNat_beBytes (version.toNat_lt.trans_eq (by norm_num))]

/-- The seek. -/
theorem EventColumn.dropWhile_eq {column : List (Bytes × Bytes)} (h : EventColumn column)
    (version : UInt64) :
    (column.dropWhile fun entry => decide (entry.1 < beBytes 8 version.toNat)) =
      column.dropWhile fun entry => versionOf entry < version.toNat := by
  have hlength := h.length_key
  clear h
  induction column with
  | nil => rfl
  | cons entry column ih =>
    obtain ⟨hentry, hcolumn⟩ := List.forall_mem_cons.mp hlength
    have hlt : decide (entry.1 < beBytes 8 version.toNat) =
        decide (versionOf entry < version.toNat) :=
      decide_eq_decide.mpr (lt_iff_versionOf_lt hentry version)
    rw [List.dropWhile_cons, List.dropWhile_cons, hlt, ih hcolumn]

/-- The loop ends at the first event that is not below the end, or fails at one that cannot be
decoded. -/
theorem scanUnlockEvents_eq_ok {profile : Profile} {column : List (Bytes × Bytes)}
    (hlength : ∀ entry ∈ column, entry.1.length = 16) {endVersion : UInt64}
    {out : List UnlockEntry} : scanUnlockEvents profile endVersion column = .ok out ↔
      Decodable (column.takeWhile fun entry => versionOf entry < endVersion.toNat) ∧
        out = unlocksOf (column.takeWhile fun entry => versionOf entry < endVersion.toNat) := by
  induction column generalizing out with
  | nil => simp [scanUnlockEvents, Decodable, unlocksOf, eq_comm]
  | cons entry column ih =>
    obtain ⟨key, value⟩ := entry
    obtain ⟨hkey, hcolumn⟩ := List.forall_mem_cons.mp hlength
    have hkey' : ¬ key.length < 8 := by
      simp only at hkey
      omega
    have hversion : beNat (key.take 8) = versionOf (key, value) := rfl
    rw [scanUnlockEvents, if_neg hkey', hversion]
    by_cases hend : endVersion.toNat ≤ versionOf (key, value)
    · rw [if_pos hend, List.takeWhile_cons_of_neg (by simpa using hend)]
      simp [Decodable, unlocksOf, eq_comm]
    · rw [if_neg hend, List.takeWhile_cons_of_pos (by simpa using hend)]
      simp only [Except.bind_eq_ok, tryDecodeUnlockEvent_eq_ok, ih hcolumn, Except.pure_def,
        Except.ok.injEq, Decodable, List.forall_mem_cons, unlocksOf, List.filterMap_cons]
      constructor
      · rintro ⟨unlock, ⟨hvalue, rfl⟩, rest, ⟨hrest, rfl⟩, rfl⟩
        refine ⟨⟨hvalue, hrest⟩, ?_⟩
        cases unlockOf value <;> rfl
      · rintro ⟨⟨hvalue, hrest⟩, rfl⟩
        refine ⟨_, ⟨hvalue, rfl⟩, _, ⟨hrest, rfl⟩, ?_⟩
        cases unlockOf value <;> rfl

/-- **The scan of the column finds an interval**, if it can be decoded. -/
theorem readUnlockEvents_eq_ok {profile : Profile} {pos : PosDb} (h : EventColumn pos.event)
    {startVersion endVersion : UInt64} {out : List UnlockEntry} :
    pos.readUnlockEvents profile startVersion endVersion = .ok out ↔
      Decodable (eventsIn pos.event startVersion endVersion) ∧
        out = unlocksOf (eventsIn pos.event startVersion endVersion) := by
  unfold PosDb.readUnlockEvents eventsIn
  split
  case isTrue hle =>
    rw [List.between_eq_nil (UInt64.le_iff_toNat_le.mp hle)]
    simp [Decodable, unlocksOf, eq_comm]
  case isFalse =>
    rw [h.dropWhile_eq, scanUnlockEvents_eq_ok fun entry hentry =>
      h.length_key entry ((List.dropWhile_sublist _).subset hentry), h.sorted.takeWhile_dropWhile]

/-- The entry of an event: its version and its index, and the event as it is stored. -/
def entryOf (version index : UInt64) (event : ContractEvent) : Bytes × Bytes :=
  (beBytes 8 version.toNat ++ beBytes 8 index.toNat, event.toBytes)

theorem versionOf_entryOf (version index : UInt64) (event : ContractEvent) :
    versionOf (entryOf version index event) = version.toNat := by
  rw [versionOf, entryOf, List.take_left' (length_beBytes 8 _),
    beNat_beBytes (version.toNat_lt.trans_eq (by norm_num))]

/-! ## The references of the pivots -/

variable {T : PrimitiveTypes}

/-- The pivot of an epoch refers to a committed block, or to none. -/
def PivotRefers (decoders : Decoders T) (pow : PowDb) (chain : ChainParams) (n : ℕ)
    (reference : Option H256) : Prop :=
  ∃ hashes pivot header, readEpochHashes decoders pow (UInt64.ofNat n) epochExecutedBlockSetSuffix =
      .ok (some hashes) ∧ hashes.getLast? = some pivot ∧ readHeader decoders pow pivot = .ok header ∧
    effectivePosReference header chain.posReferenceEnableHeight = reference

/-- The pivots of the epochs from `first` up to `stop`: a reference, once present, stays present,
and the versions do not decrease. -/
structure PivotChain (decoders : Decoders T) (pow : PowDb) (pos : PosDb) (chain : ChainParams)
    (first stop : ℕ) (reference : ℕ → Option H256) (version : H256 → UInt64) : Prop where
  refers : ∀ n, first ≤ n → n < stop → PivotRefers decoders pow chain n (reference n)
  committed : ∀ n hash, first ≤ n → n < stop → reference n = some hash →
    ∃ block, pos.getCommittedBlock decoders hash = .ok block ∧ block.version = version hash
  stays : ∀ n, first ≤ n → n + 1 < stop → reference (n + 1) = none → reference n = none
  monotone : ∀ n hash hash', first ≤ n → n + 1 < stop → reference n = some hash →
    reference (n + 1) = some hash' → version hash ≤ version hash'

/-- The references of the epochs from `start` up to `stop` are cached. -/
def ReferencesCached (posBlocks : Assoc H256 CommittedBlock) (start stop : ℕ)
    (reference : ℕ → Option H256) (version : H256 → UInt64) : Prop :=
  ∀ n hash, start ≤ n → n < stop → reference n = some hash →
    ∃ block, posBlocks.get hash = some block ∧ block.version = version hash

/-- The events of an epoch: from the version of the pivot before it up to its own. -/
def epochEvents (column : List (Bytes × Bytes)) (reference : ℕ → Option H256)
    (version : H256 → UInt64) (n : ℕ) : List (Bytes × Bytes) :=
  match reference (n - 1), reference n with
  | some hash, some hash' => eventsIn column (version hash) (version hash')
  | _, _ => []

/-- The unlock events of an epoch. -/
def epochUnlocks (column : List (Bytes × Bytes)) (reference : ℕ → Option H256)
    (version : H256 → UInt64) (n : ℕ) : List UnlockEntry :=
  unlocksOf (epochEvents column reference version n)

/-! ## The epochs -/

variable {decoders : Decoders T} {pow : PowDb} {pos : PosDb}

/-- The epochs from a number on, as they are stored. -/
def EpochsFrom (decoders : Decoders T) (pow : PowDb) : ℕ → List EpochBlocks → Prop
  | _, [] => True
  | n, epoch :: epochs =>
    (epoch.number = UInt64.ofNat n ∧
      readEpochHashes decoders pow (UInt64.ofNat n) epochExecutedBlockSetSuffix =
        .ok (some epoch.executed)) ∧ EpochsFrom decoders pow (n + 1) epochs

theorem loadEpoch_eq_ok {n : UInt64} {epoch : EpochBlocks}
    (h : loadEpoch decoders pow n = .ok epoch) : epoch.number = n ∧
      readEpochHashes decoders pow n epochExecutedBlockSetSuffix = .ok (some epoch.executed) := by
  simp only [loadEpoch, Except.bind_eq_ok, okOr_eq_ok, Except.pure_def, Except.ok.injEq] at h
  obtain ⟨_, hexecuted, executed, rfl, _, -, rfl⟩ := h
  exact ⟨rfl, hexecuted⟩

theorem epochsFrom_of_forall₂ {start : UInt64} {k count : ℕ} {epochs : List EpochBlocks}
    (h : List.Forall₂ (fun i epoch => loadEpoch decoders pow (start + UInt64.ofNat i) = .ok epoch)
      (List.range' k count) epochs) : EpochsFrom decoders pow (start.toNat + k) epochs := by
  induction count generalizing k epochs with
  | zero =>
    obtain rfl := List.forall₂_nil_left_iff.mp h
    trivial
  | succ count ih =>
    obtain ⟨epoch, epochs, hepoch, hrest, rfl⟩ := List.forall₂_cons_left_iff.mp h
    have hnumber : start + UInt64.ofNat k = UInt64.ofNat (start.toNat + k) := by
      rw [UInt64.ofNat_add, UInt64.ofNat_toNat]
    rw [hnumber] at hepoch
    exact ⟨loadEpoch_eq_ok hepoch, ih hrest⟩

/-- The epochs that are loaded. -/
theorem loadEpochs_eq_ok {profile : Profile} {config : ExtractConfig} {epochs : List EpochBlocks}
    (hsize : config.startEpoch.toNat + config.epochCount.toNat < UInt64.size)
    (h : loadEpochs decoders profile pow config = .ok epochs) :
    epochs.length = config.epochCount.toNat ∧
      EpochsFrom decoders pow config.startEpoch.toNat epochs := by
  have hstop : (config.startEpoch + config.epochCount).toNat - config.startEpoch.toNat =
      config.epochCount.toNat := by
    rw [UInt64.toNat_add, Nat.mod_eq_of_lt hsize, Nat.add_sub_cancel_left]
  rw [loadEpochs, Profile.addU64_of_lt hsize, Except.ok_bind, hstop, mapM_eq_ok_iff,
    List.range_eq_range'] at h
  refine ⟨?_, epochsFrom_of_forall₂ h⟩
  rw [← h.length_eq, List.length_range']

/-! ## The loop over the epochs -/

variable {chain : ChainParams} {reference : ℕ → Option H256} {version : H256 → UInt64}
  {column : List (Bytes × Bytes)} {posBlocks : Assoc H256 CommittedBlock}

/-- What the loop has found before epoch `n`. -/
structure UnlocksFound (column : List (Bytes × Bytes)) (reference : ℕ → Option H256)
    (version : H256 → UInt64) (start n : ℕ) (scan : UnlockScan) : Prop where
  lastPosRef : scan.lastPosRef = reference (n - 1)
  lastVersion : scan.lastVersion = (reference (n - 1)).map version
  found : ∀ m, start ≤ m → m < n →
    (scan.result.get (UInt64.ofNat m)).getD [] = epochUnlocks column reference version m
  rest : ∀ m, n ≤ m → m < UInt64.size → scan.result.get (UInt64.ofNat m) = none

/-- The unlock events between the references of two pivots. -/
theorem unlocksBetween_eq_ok {profile : Profile} {n first start stop : ℕ} {scan : UnlockScan}
    (hcolumn : EventColumn pos.event)
    (hchain : PivotChain decoders pow pos chain first stop reference version)
    (hcached : ReferencesCached posBlocks start stop reference version)
    (hn : start ≤ n) (hstop : n < stop) (hfirst : first ≤ n - 1) (hpos : 0 < n)
    (h : UnlocksFound pos.event reference version start n scan) {out : List UnlockEntry} :
    unlocksBetween profile pos posBlocks scan (reference n) = .ok out ↔
      Decodable (epochEvents pos.event reference version n) ∧
        out = epochUnlocks pos.event reference version n := by
  have hnone : (pure [] : Result (List UnlockEntry)) = .ok out ↔
      Decodable [] ∧ out = unlocksOf [] := by
    simp [Decodable, unlocksOf, eq_comm]
  unfold unlocksBetween epochUnlocks epochEvents
  rw [h.lastPosRef, h.lastVersion]
  have hsucc : n - 1 + 1 = n := by omega
  cases hprev : reference (n - 1) with
  | none => exact hnone
  | some hash =>
    cases hcurrent : reference n with
    | none =>
      have hgone := hchain.stays (n - 1) hfirst (by omega) (by rw [hsucc, hcurrent])
      simp [hprev] at hgone
    | some hash' =>
      simp only [Option.map_some]
      by_cases heq : hash = hash'
      · subst heq
        rw [if_neg (by simp), eventsIn, List.between_eq_nil le_rfl]
        exact hnone
      · rw [if_pos (by simpa using heq)]
        obtain ⟨block, hblock, hversion⟩ := hcached n hash' hn hstop hcurrent
        simp only [hblock, hversion]
        exact readUnlockEvents_eq_ok hcolumn

/-- Only events that there are go into the map. -/
theorem get_insertUnlocks {unlockMap : Assoc UInt64 (List UnlockEntry)} {epoch epoch' : UInt64}
    {unlocks : List UnlockEntry} (hnone : unlockMap.get epoch = none) :
    (if unlocks = [] then unlockMap else unlockMap.insert epoch unlocks).get epoch' =
      if epoch' = epoch then (if unlocks = [] then none else some unlocks)
      else unlockMap.get epoch' := by
  by_cases hempty : unlocks = []
  · rw [if_pos hempty, if_pos hempty]
    split <;> simp_all
  · rw [if_neg hempty, if_neg hempty, Assoc.get_insert]

/-- **One round of the loop** returns if the events of the epoch can be decoded. -/
theorem collectEpochUnlocks_found (profile : Profile) {config : ExtractConfig}
    {n first start stop : ℕ} {scan : UnlockScan} {epoch : EpochBlocks}
    (hcolumn : EventColumn pos.event)
    (hchain : PivotChain decoders pow pos config.chain first stop reference version)
    (hcached : ReferencesCached posBlocks start stop reference version)
    (hn : start ≤ n) (hstop : n < stop) (hfirst : first ≤ n - 1) (hpos : 0 < n)
    (hsize : stop ≤ UInt64.size)
    (hepoch : epoch.number = UInt64.ofNat n ∧
      readEpochHashes decoders pow (UInt64.ofNat n) epochExecutedBlockSetSuffix =
        .ok (some epoch.executed))
    (h : UnlocksFound pos.event reference version start n scan) :
    ∃ scan', UnlocksFound pos.event reference version start (n + 1) scan' ∧ ∀ out,
      collectEpochUnlocks decoders profile config pow pos posBlocks scan epoch = .ok out ↔
        Decodable (epochEvents pos.event reference version n) ∧ out = scan' := by
  obtain ⟨hnumber, hexecuted⟩ := hepoch
  obtain ⟨hashes, pivot, header, hhashes, hpivot, hheader, hreference⟩ :=
    hchain.refers n (by omega) hstop
  obtain rfl : epoch.executed = hashes := by
    rw [hexecuted] at hhashes
    exact Option.some.inj (Except.ok.inj hhashes)
  have hunlocks : ∀ out, unlocksBetween profile pos posBlocks scan (reference n) = .ok out ↔
      Decodable (epochEvents pos.event reference version n) ∧
        out = epochUnlocks pos.event reference version n := fun out =>
    unlocksBetween_eq_ok hcolumn hchain hcached hn hstop hfirst hpos h
  -- the map has nothing for epoch `n` yet
  have hnone := h.rest n le_rfl (by omega)
  have hinj : ∀ m, m < UInt64.size → m ≠ n → UInt64.ofNat m ≠ UInt64.ofNat n := by
    intro m hm hne heq
    have hnat := congrArg UInt64.toNat heq
    rw [UInt64.toNat_ofNat_of_lt' hm, UInt64.toNat_ofNat_of_lt' (by omega)] at hnat
    exact hne hnat
  refine ⟨{
    lastPosRef := reference n
    lastVersion := (reference n).elim scan.lastVersion fun current =>
      (posBlocks.get current).map (·.version)
    result := if epochUnlocks pos.event reference version n = [] then scan.result
      else scan.result.insert (UInt64.ofNat n) (epochUnlocks pos.event reference version n) },
    ⟨by simp, ?_, fun m hm hmn => ?_, fun m hm hmsize => ?_⟩, fun out => ?_⟩
  · rw [Nat.add_sub_cancel]
    cases hcurrent : reference n with
    | none =>
      have hgone := hchain.stays (n - 1) hfirst (by omega)
        (by rw [show n - 1 + 1 = n by omega, hcurrent])
      simp only [Option.elim_none, h.lastVersion, hgone, Option.map_none]
    | some hash =>
      obtain ⟨block, hblock, hversion⟩ := hcached n hash hn hstop hcurrent
      simp only [Option.elim_some, hblock, Option.map_some, hversion]
  · rw [get_insertUnlocks hnone]
    rcases Nat.lt_succ_iff_lt_or_eq.mp hmn with hlt | rfl
    · rw [if_neg (hinj m (by omega) (by omega))]
      exact h.found m hm hlt
    · rw [if_pos rfl]
      split <;> simp [*]
  · rw [get_insertUnlocks hnone, if_neg (hinj m hmsize (by omega))]
    exact h.rest m (by omega) hmsize
  · unfold collectEpochUnlocks
    simp only [hpivot, okOr, Except.ok_bind, hheader, hreference, Except.bind_eq_ok, hunlocks,
      Except.pure_def, Except.ok.injEq, hnumber, and_assoc, @eq_comm _ _ out]
    cases reference n <;> exact exists_and_left.trans (and_congr_right fun _ => exists_eq_left)

/-- **The loop over the epochs.** -/
theorem foldlM_collectEpochUnlocks (profile : Profile) {config : ExtractConfig}
    {n first start stop : ℕ} {scan : UnlockScan} {epochs : List EpochBlocks}
    (hcolumn : EventColumn pos.event)
    (hchain : PivotChain decoders pow pos config.chain first stop reference version)
    (hcached : ReferencesCached posBlocks start stop reference version)
    (hn : start ≤ n) (hstop : n + epochs.length = stop) (hfirst : first ≤ n - 1) (hpos : 0 < n)
    (hsize : stop ≤ UInt64.size) (hepochs : EpochsFrom decoders pow n epochs)
    (h : UnlocksFound pos.event reference version start n scan) :
    ∃ scan', UnlocksFound pos.event reference version start stop scan' ∧ ∀ out,
      epochs.foldlM (collectEpochUnlocks decoders profile config pow pos posBlocks) scan = .ok out ↔
        (∀ m, n ≤ m → m < stop → Decodable (epochEvents pos.event reference version m)) ∧
          out = scan' := by
  induction epochs generalizing n scan with
  | nil =>
    obtain rfl : n = stop := hstop
    refine ⟨scan, h, fun out => ?_⟩
    have hnone : ∀ m, n ≤ m → m < n → Decodable (epochEvents pos.event reference version m) :=
      fun m hm hlt => absurd hlt (Nat.not_lt.mpr hm)
    rw [List.foldlM_nil, and_iff_right hnone, Except.pure_def, Except.ok.injEq, eq_comm]
  | cons epoch epochs ih =>
    rw [List.length_cons] at hstop
    obtain ⟨hepoch, hrest⟩ := hepochs
    obtain ⟨middle, hmiddle, hround⟩ := collectEpochUnlocks_found profile hcolumn hchain hcached hn
      (by omega) hfirst hpos hsize hepoch h
    obtain ⟨scan', hfound, hloop⟩ := ih (by omega) (by omega) (by omega) (by omega) hrest hmiddle
    refine ⟨scan', hfound, fun out => ?_⟩
    have hsplit : (∀ m, n ≤ m → m < stop → Decodable (epochEvents pos.event reference version m)) ↔
        Decodable (epochEvents pos.event reference version n) ∧
          ∀ m, n + 1 ≤ m → m < stop →
            Decodable (epochEvents pos.event reference version m) := by
      constructor
      · exact fun hall => ⟨hall n le_rfl (by omega), fun m hm => hall m (by omega)⟩
      · rintro ⟨hn, hall⟩ m hm hlt
        rcases Nat.eq_or_lt_of_le hm with rfl | hm
        · exact hn
        · exact hall m hm hlt
    rw [List.foldlM_cons, Except.bind_eq_ok, hsplit, and_assoc, ← hloop]
    constructor
    · rintro ⟨middle', hmiddle', hout⟩
      obtain ⟨hdecodes, rfl⟩ := (hround middle').mp hmiddle'
      exact ⟨hdecodes, hout⟩
    · rintro ⟨hdecodes, hout⟩
      exact ⟨middle, (hround middle).mpr ⟨hdecodes, rfl⟩, hout⟩

/-- **The unlock events of the epochs** are collected if those that are scanned can be decoded. -/
theorem collectUnlockEvents_found (profile : Profile) (config : ExtractConfig)
    {epochs : List EpochBlocks} (hstart : 1 ≤ config.startEpoch)
    (hsize : config.startEpoch.toNat + config.epochCount.toNat < UInt64.size)
    (hcolumn : EventColumn pos.event)
    (hchain : PivotChain decoders pow pos config.chain (config.startEpoch.toNat - 1)
      (config.startEpoch.toNat + config.epochCount.toNat) reference version)
    (hload : loadEpochs decoders profile pow config = .ok epochs)
    (hcached : ReferencesCached posBlocks config.startEpoch.toNat
      (config.startEpoch.toNat + config.epochCount.toNat) reference version) :
    ∃ unlockMap : Assoc UInt64 (List UnlockEntry),
      (∀ n, config.startEpoch.toNat ≤ n →
        n < config.startEpoch.toNat + config.epochCount.toNat →
          (unlockMap.get (UInt64.ofNat n)).getD [] =
            epochUnlocks pos.event reference version n) ∧ ∀ out,
      collectUnlockEvents decoders profile config pow pos posBlocks epochs = .ok out ↔
        (∀ n, config.startEpoch.toNat ≤ n →
          n < config.startEpoch.toNat + config.epochCount.toNat →
            Decodable (epochEvents pos.event reference version n)) ∧ out = unlockMap := by
  have hone : 1 ≤ config.startEpoch.toNat := UInt64.le_iff_toNat_le.mp hstart
  -- no epoch comes before the first, which starts at 1 or later
  have hprev : saturatingSub config.startEpoch 1 = UInt64.ofNat (config.startEpoch.toNat - 1) := by
    rw [saturatingSub, if_pos hstart]
    apply UInt64.toNat_inj.mp
    have hlt := config.startEpoch.toNat_lt
    rw [UInt64.toNat_sub_of_le _ _ hstart, UInt64.toNat_ofNat_of_lt' (by rw [UInt64.size]; omega)]
    rfl
  obtain ⟨hlen, hepochs⟩ := loadEpochs_eq_ok hsize hload
  obtain ⟨hashes, pivot, header, hhashes, hpivot, hheader, hreference⟩ :=
    hchain.refers (config.startEpoch.toNat - 1) le_rfl (by omega)
  -- the scan starts from the version of the reference before the first epoch
  obtain ⟨lastVersion, hversion, hrun⟩ : ∃ lastVersion,
      lastVersion = (reference (config.startEpoch.toNat - 1)).map version ∧
      collectUnlockEvents decoders profile config pow pos posBlocks epochs = (do
        let scan ← epochs.foldlM (collectEpochUnlocks decoders profile config pow pos posBlocks)
          ⟨reference (config.startEpoch.toNat - 1), lastVersion, []⟩
        pure scan.result) := by
    unfold collectUnlockEvents
    simp only [hprev, hhashes, hpivot, okOr, Except.ok_bind, hheader, hreference]
    cases hlast : reference (config.startEpoch.toNat - 1) with
    | none => exact ⟨none, rfl, rfl⟩
    | some hash =>
      obtain ⟨block, hblock, hversion⟩ :=
        hchain.committed (config.startEpoch.toNat - 1) hash le_rfl (by omega) hlast
      exact ⟨some block.version, by simp [hversion], by simp [hblock]⟩
  have hstartScan : UnlocksFound pos.event reference version config.startEpoch.toNat
      config.startEpoch.toNat ⟨reference (config.startEpoch.toNat - 1), lastVersion, []⟩ :=
    ⟨rfl, hversion, fun m hm hlt => absurd hlt (Nat.not_lt.mpr hm), fun m _ _ => rfl⟩
  obtain ⟨scan, hfound, hloop⟩ := foldlM_collectEpochUnlocks profile hcolumn hchain hcached le_rfl
    (by rw [hlen]) le_rfl hone hsize.le hepochs hstartScan
  refine ⟨scan.result, hfound.found, fun out => ?_⟩
  rw [hrun]
  simp only [Except.bind_eq_ok, hloop, Except.pure_def, Except.ok.injEq, and_assoc,
    @eq_comm _ _ out]
  exact exists_and_left.trans (and_congr_right fun _ => exists_eq_left)

/-! ## The range -/

/-- The events before the first reference are no epoch's. -/
theorem epochUnlocks_eq_nil {n : ℕ} (h : reference (n - 1) = none) :
    epochUnlocks column reference version n = [] := by
  rw [epochUnlocks, epochEvents, h]
  rfl

/-- **The intervals of the epochs tile**, from the first reference to the last. -/
theorem flatMap_epochUnlocks {start count n : ℕ} {hash hash' : H256} (hstart : 1 ≤ start)
    (hsorted : List.SortedBy versionOf column)
    (hchain : PivotChain decoders pow pos chain (start - 1) (start + count) reference version)
    (hn : start - 1 ≤ n) (hstop : n < start + count) (hfirst : reference n = some hash)
    (hnone : ∀ m, start - 1 ≤ m → m < n → reference m = none)
    (hlast : reference (start + count - 1) = some hash') :
    ((List.range count).flatMap fun i => epochUnlocks column reference version (start + i)) =
      unlocksOf (eventsIn column (version hash) (version hash')) := by
  obtain ⟨k, rfl⟩ : ∃ k, n = start + k - 1 := ⟨n + 1 - start, by omega⟩
  obtain ⟨rest, rfl⟩ : ∃ rest, count = k + rest := ⟨count - k, by omega⟩
  have hpresent : ∀ i, i ≤ rest → ∃ hash, reference (start + k - 1 + i) = some hash := by
    intro i hi
    induction i with
    | zero => exact ⟨hash, hfirst⟩
    | succ i ih =>
      obtain ⟨before, hbefore⟩ := ih (by omega)
      cases hnext : reference (start + k - 1 + (i + 1)) with
      | some next => exact ⟨next, rfl⟩
      | none =>
        have hgone := hchain.stays (start + k - 1 + i) (by omega) (by omega) hnext
        simp [hbefore] at hgone
  let bound : ℕ → ℕ := fun i =>
    ((reference (start + k - 1 + i)).map fun hash => (version hash).toNat).getD 0
  have hmono : ∀ i, i < rest → bound i ≤ bound (i + 1) := by
    intro i hi
    obtain ⟨before, hbefore⟩ := hpresent i (by omega)
    obtain ⟨next, hnext⟩ := hpresent (i + 1) (by omega)
    have hle := hchain.monotone (start + k - 1 + i) before next (by omega) (by omega) hbefore hnext
    simp only [bound, hbefore, hnext, Option.map_some, Option.getD_some]
    exact UInt64.le_iff_toNat_le.mp hle
  have hleft : ((List.range k).flatMap fun i => epochUnlocks column reference version (start + i)) =
      [] := by
    refine List.flatMap_eq_nil_iff.mpr fun i hi => epochUnlocks_eq_nil (hnone _ ?_ ?_)
    · omega
    · have hlt := List.mem_range.mp hi
      omega
  have hright : ∀ i ∈ List.range rest, epochUnlocks column reference version (start + (k + i)) =
      unlocksOf (List.between versionOf (bound i) (bound (i + 1)) column) := by
    intro i hi
    have hlt := List.mem_range.mp hi
    obtain ⟨before, hbefore⟩ := hpresent i (by omega)
    obtain ⟨next, hnext⟩ := hpresent (i + 1) (by omega)
    have hprev : start + (k + i) - 1 = start + k - 1 + i := by omega
    have hcurrent : start + (k + i) = start + k - 1 + (i + 1) := by omega
    simp only [epochUnlocks, epochEvents, hprev, bound, hbefore, hnext, Option.map_some,
      Option.getD_some]
    rw [hcurrent, hnext]
    rfl
  have hzero : bound 0 = (version hash).toNat := by simp [bound, hfirst]
  have hend : bound rest = (version hash').toNat := by
    have heq : start + k - 1 + rest = start + (k + rest) - 1 := by omega
    simp [bound, heq, hlast]
  rw [List.range_add, List.flatMap_append, hleft, List.nil_append, List.flatMap_map,
    List.flatMap_congr hright]
  simp only [unlocksOf]
  rw [← List.filterMap_flatMap, hsorted.flatMap_between hmono, hzero, hend, eventsIn]

/-- The part of a range before a cut. -/
def ExtractConfig.before (config : ExtractConfig) (cut : UInt64) : ExtractConfig :=
  { config with epochCount := cut }

/-- The part of a range after a cut. -/
def ExtractConfig.after (config : ExtractConfig) (cut : UInt64) : ExtractConfig :=
  { config with startEpoch := config.startEpoch + cut, epochCount := config.epochCount - cut }

theorem PivotChain.sub {first stop first' stop' : ℕ}
    (h : PivotChain decoders pow pos chain first stop reference version) (hfirst : first ≤ first')
    (hstop : stop' ≤ stop) : PivotChain decoders pow pos chain first' stop' reference version where
  refers n hn hlt := h.refers n (hfirst.trans hn) (hlt.trans_le hstop)
  committed n hash hn hlt := h.committed n hash (hfirst.trans hn) (hlt.trans_le hstop)
  stays n hn hlt := h.stays n (hfirst.trans hn) (hlt.trans_le hstop)
  monotone n hash hash' hn hlt := h.monotone n hash hash' (hfirst.trans hn) (hlt.trans_le hstop)

/-- Every epoch gets the events between the references, over the range the events between the first
and the last reference are attributed once and in order, and the parts of a range that is cut get
what the range gets. -/
structure UnlocksAttributed (decoders : Decoders T) (profile : Profile) (config : ExtractConfig)
    (pow : PowDb) (pos : PosDb) (reference : ℕ → Option H256) (version : H256 → UInt64)
    (unlockMap : Assoc UInt64 (List UnlockEntry)) : Prop where
  epochs : ∀ n, config.startEpoch.toNat ≤ n →
    n < config.startEpoch.toNat + config.epochCount.toNat →
      (unlockMap.get (UInt64.ofNat n)).getD [] = epochUnlocks pos.event reference version n
  range : ∀ n hash hash', config.startEpoch.toNat - 1 ≤ n →
    n < config.startEpoch.toNat + config.epochCount.toNat → reference n = some hash →
    (∀ m, config.startEpoch.toNat - 1 ≤ m → m < n → reference m = none) →
    reference (config.startEpoch.toNat + config.epochCount.toNat - 1) = some hash' →
      ((List.range config.epochCount.toNat).flatMap fun i =>
          (unlockMap.get (UInt64.ofNat (config.startEpoch.toNat + i))).getD []) =
        unlocksOf (eventsIn pos.event (version hash) (version hash'))
  parts : ∀ cut epochs₁ epochs₂ posBlocks₁ posBlocks₂, cut ≤ config.epochCount →
    loadEpochs decoders profile pow (config.before cut) = .ok epochs₁ →
    loadEpochs decoders profile pow (config.after cut) = .ok epochs₂ →
    ReferencesCached posBlocks₁ config.startEpoch.toNat
      (config.startEpoch.toNat + cut.toNat) reference version →
    ReferencesCached posBlocks₂ (config.startEpoch.toNat + cut.toNat)
      (config.startEpoch.toNat + config.epochCount.toNat) reference version →
      ∃ map₁ map₂, collectUnlockEvents decoders profile (config.before cut) pow pos posBlocks₁
          epochs₁ = .ok map₁ ∧
        collectUnlockEvents decoders profile (config.after cut) pow pos posBlocks₂ epochs₂ =
          .ok map₂ ∧
        ∀ n, config.startEpoch.toNat ≤ n →
          n < config.startEpoch.toNat + config.epochCount.toNat →
            (unlockMap.get (UInt64.ofNat n)).getD [] =
              ((if n < config.startEpoch.toNat + cut.toNat then map₁ else map₂).get
                (UInt64.ofNat n)).getD []

/-- **The attribution of unlock events.** The events are collected and attributed if and only if
every event of an epoch of the range can be decoded. -/
theorem collectUnlockEvents_spec {profile : Profile} {config : ExtractConfig}
    {epochs : List EpochBlocks} (hstart : 1 ≤ config.startEpoch)
    (hsize : config.startEpoch.toNat + config.epochCount.toNat < UInt64.size)
    (hcolumn : EventColumn pos.event)
    (hchain : PivotChain decoders pow pos config.chain (config.startEpoch.toNat - 1)
      (config.startEpoch.toNat + config.epochCount.toNat) reference version)
    (hload : loadEpochs decoders profile pow config = .ok epochs)
    (hcached : ReferencesCached posBlocks config.startEpoch.toNat
      (config.startEpoch.toNat + config.epochCount.toNat) reference version) :
    (∃ unlockMap, collectUnlockEvents decoders profile config pow pos posBlocks epochs =
        .ok unlockMap ∧
      UnlocksAttributed decoders profile config pow pos reference version unlockMap) ↔
      ∀ n, config.startEpoch.toNat ≤ n →
        n < config.startEpoch.toNat + config.epochCount.toNat →
          Decodable (epochEvents pos.event reference version n) := by
  obtain ⟨unlockMap, hfound, hrun⟩ :=
    collectUnlockEvents_found profile config hstart hsize hcolumn hchain hload hcached
  constructor
  · rintro ⟨out, hout, -⟩
    exact ((hrun out).mp hout).1
  intro hdecodes
  have hone : 1 ≤ config.startEpoch.toNat := UInt64.le_iff_toNat_le.mp hstart
  refine ⟨unlockMap, (hrun unlockMap).mpr ⟨hdecodes, rfl⟩, hfound,
    fun n hash hash' hn hlt hfirst hnone hlast => ?_, ?_⟩
  · have hepochs : ∀ i ∈ List.range config.epochCount.toNat,
        (unlockMap.get (UInt64.ofNat (config.startEpoch.toNat + i))).getD [] =
          epochUnlocks pos.event reference version (config.startEpoch.toNat + i) := by
      intro i hi
      have hlt := List.mem_range.mp hi
      exact hfound _ (by omega) (by omega)
    rw [List.flatMap_congr hepochs]
    exact flatMap_epochUnlocks hone hcolumn.sorted hchain hn hlt hfirst hnone hlast
  -- a range that is cut: its parts are ranges of the same chain
  · intro cut epochs₁ epochs₂ posBlocks₁ posBlocks₂ hcut hload₁ hload₂ hcached₁ hcached₂
    have hcutNat := UInt64.le_iff_toNat_le.mp hcut
    have hstart₂ : (config.after cut).startEpoch.toNat = config.startEpoch.toNat + cut.toNat := by
      have hsum : config.startEpoch.toNat + cut.toNat < UInt64.size :=
        lt_of_le_of_lt (Nat.add_le_add_left hcutNat _) hsize
      rw [ExtractConfig.after, UInt64.toNat_add, Nat.mod_eq_of_lt hsum]
    have hcount₂ : (config.after cut).epochCount.toNat = config.epochCount.toNat - cut.toNat :=
      UInt64.toNat_sub_of_le _ _ hcut
    have hstop₂ : (config.after cut).startEpoch.toNat + (config.after cut).epochCount.toNat =
        config.startEpoch.toNat + config.epochCount.toNat := by
      rw [hstart₂, hcount₂]
      omega
    obtain ⟨map₁, hfound₁, hrun₁⟩ := collectUnlockEvents_found profile (config.before cut) hstart
      (lt_of_le_of_lt (Nat.add_le_add_left hcutNat _) hsize) hcolumn
      (hchain.sub le_rfl (Nat.add_le_add_left hcutNat _)) hload₁ hcached₁
    obtain ⟨map₂, hfound₂, hrun₂⟩ := collectUnlockEvents_found profile (config.after cut)
      (UInt64.le_iff_toNat_le.mpr (by rw [hstart₂]; exact hone.trans (Nat.le_add_right _ _)))
      (by rw [hstop₂]; exact hsize) hcolumn
      (hchain.sub (by rw [hstart₂]; omega) hstop₂.le) hload₂
      (by rw [hstop₂, hstart₂]; exact hcached₂)
    have hdecodes₁ := fun n hn (hlt : n < config.startEpoch.toNat + cut.toNat) =>
      hdecodes n hn (hlt.trans_le (Nat.add_le_add_left hcutNat _))
    rw [hstop₂, hstart₂] at hfound₂ hrun₂
    have hdecodes₂ := fun n (hn : config.startEpoch.toNat + cut.toNat ≤ n) =>
      hdecodes n ((Nat.le_add_right _ _).trans hn)
    refine ⟨map₁, map₂, (hrun₁ map₁).mpr ⟨hdecodes₁, rfl⟩, (hrun₂ map₂).mpr ⟨hdecodes₂, rfl⟩,
      fun n hn hlt => ?_⟩
    rw [hfound n hn hlt]
    split
    case isTrue hbefore => exact (hfound₁ n hn hbefore).symm
    case isFalse hafter => exact (hfound₂ n (not_lt.mp hafter) hlt).symm

/-! ## A chain of two epochs -/

/-- The hash of a pivot, and of what it refers to. -/
def plainPivot (n : ℕ) : H256 := H256.fromSlice [UInt8.ofNat n]

/-- Every epoch has a block, and from the first epoch on it refers to the PoS chain. -/
def plainChainDb : PowDb where
  get
    | .epochNumbers, key =>
      if key.drop 8 = [epochExecutedBlockSetSuffix] then
        .ok (some (plainItem (.list [.bytes (plainPivot (leNat (key.take 8))).asBytes])))
      else .ok none
    | .blocks, key =>
      if key.length = 32 then
        let n := leNat (key.take 1)
        .ok (some (plainHeader (UInt64.ofNat n) (if n = 0 then none else some (plainPivot n))))
      else .ok none
  rewardByPosEpoch := []

def plainUnlockEvent (amount : UInt64) : ContractEvent where
  key := ⟨unlockEventKey.toArray, rfl⟩
  eventData := (H256.fromSlice []).asBytes ++ leBytes 8 amount.toNat

/-- The version of a committed block is ten times its number. -/
def plainPosDb : PosDb where
  committedBlock key :=
    let n := UInt64.ofNat (leNat (key.take 1))
    .ok (some (plainItem (.list [.u64 n, .u64 (10 * n), .bytes key])))
  event := [(beBytes 8 12 ++ beBytes 8 0, (plainUnlockEvent 7).toBytes),
    (beBytes 8 25 ++ beBytes 8 0, (plainUnlockEvent 8).toBytes)]

def plainConfig : ExtractConfig where
  startEpoch := 1
  epochCount := 2
  chain := ⟨5, 0⟩

def plainEpochs : List EpochBlocks := [⟨1, [plainPivot 1], []⟩, ⟨2, [plainPivot 2], []⟩]

/-- The reference of an epoch. -/
def plainReference (n : ℕ) : Option H256 := if n = 0 then none else some (plainPivot n)

/-- The version of what an epoch refers to. -/
def plainVersion (hash : H256) : UInt64 := 10 * UInt64.ofNat (leNat (hash.asBytes.take 1))

theorem pivotChain_plain : PivotChain plainDecoders plainChainDb plainPosDb plainConfig.chain 0 3
    plainReference plainVersion where
  refers n _ hn := by
    refine ⟨[plainPivot n], plainPivot n, plainHeaderOf (UInt64.ofNat n) (plainReference n), ?_⟩
    obtain rfl | rfl | rfl : n = 0 ∨ n = 1 ∨ n = 2 := by omega
    all_goals exact ⟨by decide +kernel, rfl, rfl, by decide +kernel⟩
  committed n hash _ hn hreference := by
    obtain rfl | rfl | rfl : n = 0 ∨ n = 1 ∨ n = 2 := by omega
    · cases hreference
    · obtain rfl := Option.some.inj hreference
      exact ⟨⟨1, 10, plainPivot 1⟩, by decide +kernel, by decide +kernel⟩
    · obtain rfl := Option.some.inj hreference
      exact ⟨⟨2, 20, plainPivot 2⟩, by decide +kernel, by decide +kernel⟩
  stays n _ hn := by
    obtain rfl | rfl : n = 0 ∨ n = 1 := by omega
    all_goals decide +kernel
  monotone n hash hash' _ hn hreference hreference' := by
    obtain rfl | rfl : n = 0 ∨ n = 1 := by omega
    · cases hreference
    · obtain rfl := Option.some.inj hreference
      obtain rfl := Option.some.inj hreference'
      decide +kernel

/-- The references of the two epochs, as they are cached. -/
def plainPosBlocks : Assoc H256 CommittedBlock :=
  [(plainPivot 1, ⟨1, 10, plainPivot 1⟩), (plainPivot 2, ⟨2, 20, plainPivot 2⟩)]

theorem referencesCached_plain :
    ReferencesCached plainPosBlocks 1 3 plainReference plainVersion := by
  intro n hash hn hlt hreference
  obtain rfl | rfl : n = 1 ∨ n = 2 := by omega
  · obtain rfl := Option.some.inj hreference
    exact ⟨⟨1, 10, plainPivot 1⟩, by decide +kernel, by decide +kernel⟩
  · obtain rfl := Option.some.inj hreference
    exact ⟨⟨2, 20, plainPivot 2⟩, by decide +kernel, by decide +kernel⟩

/-- An unlock event whose length is the largest word, and which has no data. -/
def overflowValue : Bytes := [0, 40] ++ (unlockEventKey ++ uleb128 0xffffffffffffffff)

/-- Behind an event of version 12, a column has an event whose length overflows. -/
def overflowPosDb (version : UInt64) : PosDb where
  committedBlock := plainPosDb.committedBlock
  event := [entryOf 12 0 (plainUnlockEvent 7), (beBytes 8 version.toNat ++ beBytes 8 0, overflowValue)]

theorem pivotChain_overflow (version : UInt64) : PivotChain plainDecoders plainChainDb
    (overflowPosDb version) plainConfig.chain 0 3 plainReference plainVersion where
  refers := pivotChain_plain.refers
  committed := pivotChain_plain.committed
  stays := pivotChain_plain.stays
  monotone := pivotChain_plain.monotone

theorem eventColumn_overflow {version : UInt64} (h : 12 ≤ version.toNat) :
    EventColumn (overflowPosDb version).event where
  length_key entry hentry := by
    simp only [overflowPosDb, List.mem_cons, List.not_mem_nil, or_false] at hentry
    rcases hentry with rfl | rfl <;> simp [entryOf]
  sorted := by
    have hversion : versionOf (beBytes 8 version.toNat ++ beBytes 8 0, overflowValue) =
        version.toNat := by
      rw [versionOf, List.take_left' (length_beBytes 8 _),
        beNat_beBytes (version.toNat_lt.trans_eq (by norm_num))]
    have hle : versionOf (entryOf 12 0 (plainUnlockEvent 7)) ≤
        versionOf (beBytes 8 version.toNat ++ beBytes 8 0, overflowValue) := by
      rw [versionOf_entryOf, hversion]
      exact h
    simpa [List.SortedBy, overflowPosDb] using hle

/-- The event of version 12 is attributed to the second epoch, and the one of version 25, whose
length overflows, is not scanned. -/
theorem collectUnlockEvents_spec_two :
    ∃ unlockMap, collectUnlockEvents plainDecoders ⟨true⟩ plainConfig plainChainDb
        (overflowPosDb 25) plainPosBlocks plainEpochs = .ok unlockMap ∧
      (unlockMap.get (UInt64.ofNat 2)).getD [] = [⟨H256.fromSlice [], 7⟩] := by
  have hload : loadEpochs plainDecoders ⟨true⟩ plainChainDb plainConfig = .ok plainEpochs := by
    decide +kernel
  have hdecodes : ∀ n, plainConfig.startEpoch.toNat ≤ n →
      n < plainConfig.startEpoch.toNat + plainConfig.epochCount.toNat →
        Decodable (epochEvents (overflowPosDb 25).event plainReference plainVersion n) := by
    intro n hn hlt
    have hevents : ∀ n ∈ [1, 2],
        ∀ entry ∈ epochEvents (overflowPosDb 25).event plainReference plainVersion n,
          entry = entryOf 12 0 (plainUnlockEvent 7) := by
      decide +kernel
    have hone : 1 ≤ n := hn
    have hthree : n < 3 := hlt
    intro entry hentry
    have hmem : n ∈ [1, 2] := by
      simp only [List.mem_cons, List.not_mem_nil, or_false]
      omega
    rw [hevents n hmem entry hentry]
    apply not_lengthOverflows_toBytes
    decide +kernel
  obtain ⟨unlockMap, hrun, hattributed⟩ := (collectUnlockEvents_spec (by decide) (by decide)
    (eventColumn_overflow (by decide)) (pivotChain_overflow 25) hload
    referencesCached_plain).mpr hdecodes
  refine ⟨unlockMap, hrun, (hattributed.epochs 2 (by decide) (by decide)).trans ?_⟩
  decide +kernel

/-- An event of version 15 whose length overflows ends the program, with or without overflow
checks. -/
theorem not_attributed : 1 ≤ plainConfig.startEpoch ∧
    EventColumn (overflowPosDb 15).event ∧
    PivotChain plainDecoders plainChainDb (overflowPosDb 15) plainConfig.chain 0 3 plainReference
      plainVersion ∧
    ReferencesCached plainPosBlocks 1 3 plainReference plainVersion ∧
    ∀ profile, loadEpochs plainDecoders profile plainChainDb plainConfig = .ok plainEpochs ∧
      ¬ ∃ unlockMap, collectUnlockEvents plainDecoders profile plainConfig plainChainDb
          (overflowPosDb 15) plainPosBlocks plainEpochs = .ok unlockMap ∧
        UnlocksAttributed plainDecoders profile plainConfig plainChainDb (overflowPosDb 15)
          plainReference plainVersion unlockMap := by
  refine ⟨by decide, eventColumn_overflow (by decide), pivotChain_overflow 15,
    referencesCached_plain, ?_⟩
  rintro ⟨_ | _⟩
  · have hpanic : collectUnlockEvents plainDecoders ⟨false⟩ plainConfig plainChainDb
        (overflowPosDb 15) plainPosBlocks plainEpochs = .error .panic := by decide +kernel
    refine ⟨by decide +kernel, ?_⟩
    rintro ⟨unlockMap, hok, -⟩
    cases hpanic.symm.trans hok
  · have hoverflow : collectUnlockEvents plainDecoders ⟨true⟩ plainConfig plainChainDb
        (overflowPosDb 15) plainPosBlocks plainEpochs = .error .overflow := by decide +kernel
    refine ⟨by decide +kernel, ?_⟩
    rintro ⟨unlockMap, hok, -⟩
    cases hoverflow.symm.trans hok

end Extractor
