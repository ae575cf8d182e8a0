import CfxMinimalExecution.Library.Checked
import CfxMinimalExecution.Library.Fallible
import CfxMinimalExecution.MinimalMpt.KeyCodec
import CfxMinimalExecution.MinimalMpt.Snapshot

/-!
# The three-layer state

`state/mod.rs`, `state/rotation.rs` and `state/prefix.rs`: a snapshot under canonical keys below
an intermediate and a delta layer under delta keys, with the roots, paddings and caches that go
with them. The methods are `Fallible`: what a method wrote before an error stays written.

## Main definitions

* `State`, `State.new`, `State.withSnapshotEpochCount`, `State.fromSnapshot`
* `State.get`, `State.set`, `State.readPrefix`, `State.deletePrefix`, `State.commit`
* `Op`, `Reply`, `State.step`: the calls of `StateTrait`
* `State.commitIn`, `State.stepIn`: the same under a build profile
* `Origin`: the constructors of a fresh state
-/

open Std (ExtTreeMap ExtTreeSet)
open Fallible (exec)

namespace MinimalMpt

open StorageKeyWithSpace (fromDeltaMptKey fromKeyBytes)

/-! ## The rounds of the prefix loops -/

/-- The locals `result` and `seen` of a prefix loop. -/
structure Collected where
  result : List MptKeyValue
  seen : ExtTreeSet Bytes

namespace Collected

def empty : Collected := ⟨[], ∅⟩

/-- `seen.insert(canonical)`. -/
def mark (found : Collected) (canonical : Bytes) : Collected :=
  { found with seen := found.seen.insert canonical }

/-- `result.push((canonical, value))` for a visible value. -/
def push (found : Collected) (canonical : Bytes) : Option Bytes → Collected
  | some value => { found with result := found.result ++ [(canonical, value)] }
  | none => found

/-- `if seen.insert(canonical)`, then the push. -/
def add (found : Collected) (canonical : Bytes) (value : Option Bytes) : Collected :=
  if found.seen.contains canonical then found else (found.mark canonical).push canonical value

end Collected

/-- `address_prefix_filter`. -/
def addressPrefixFilter (key : StorageKeyWithSpace) : Option Bytes :=
  match key.key with
  | .addressPrefix bytes => some bytes
  | _ => none

/-- A round that the address prefix filter skips. -/
def isFiltered (addressPrefix : Option Bytes) (canonical : Bytes) : Bool :=
  addressPrefix.any fun bytes => !decide (bytes <+: canonical)

/-- A round of the loop over the delta entries. -/
def collectDelta (addressPrefix : Option Bytes) (found : Collected) (entry : Entry) :
    Except Error Collected := do
  let storageKey ← fromDeltaMptKey entry.1
  let canonical ← storageKey.toKeyBytes
  if isFiltered addressPrefix canonical then return found
  else return (found.mark canonical).push canonical entry.2.visibleValue

/-- The loop over the delta entries. -/
def collectDeltaKvs (addressPrefix : Option Bytes) (deltaKvs : List Entry) :
    Except Error Collected :=
  deltaKvs.foldlM (collectDelta addressPrefix) .empty

/-- A round of the loop of `read_prefix` over the intermediate entries. -/
def collectIntermediate (addressPrefix : Option Bytes) (found : Collected) (entry : Entry) :
    Except Error Collected := do
  let storageKey ← fromDeltaMptKey entry.1
  let canonical ← storageKey.toKeyBytes
  if isFiltered addressPrefix canonical then return found
  else return found.add canonical entry.2.visibleValue

/-- A round of the loop of `read_prefix` over the snapshot entries. -/
def collectSnapshot (found : Collected) (entry : MptKeyValue) : Collected :=
  found.add entry.1 (some entry.2)

section Delete

variable {σ : Type} (set : StorageKeyWithSpace → Bytes → Fallible Error σ PUnit)

/-- A round of the loop of `delete_prefix` over the intermediate entries. -/
def deleteIntermediate (addressPrefix : Option Bytes) (found : Collected) (entry : Entry) :
    Fallible Error σ Collected := do
  let storageKey ← fromDeltaMptKey entry.1
  let canonical ← storageKey.toKeyBytes
  if isFiltered addressPrefix canonical then return found
  else
    if entry.2.visibleValue.isSome then set storageKey []
    return found.add canonical entry.2.visibleValue

/-- A round of the loop of `delete_prefix` over the snapshot entries. -/
def deleteSnapshot (found : Collected) (entry : MptKeyValue) : Fallible Error σ Collected := do
  let storageKey ← fromKeyBytes entry.1
  set storageKey []
  return found.add entry.1 (some entry.2)

end Delete

/-- `(!values.is_empty()).then_some(values)`. -/
def nonEmpty (values : List MptKeyValue) : Option (List MptKeyValue) :=
  if values.isEmpty then none else some values

/-- An intermediate entry under its canonical key. -/
def rekey (entry : Entry) : Except Error (Bytes × MptValue) := do
  let storageKey ← fromDeltaMptKey entry.1
  let canonical ← storageKey.toKeyBytes
  return (canonical, entry.2)

/-- The loop of `advance_after_commit` over the intermediate entries. -/
def snapshotUpdates (intermediate : ExtTreeMap Bytes MptValue) :
    Except Error (List (Bytes × MptValue)) :=
  intermediate.toList.mapM rekey

/-- The value stored by `set`: an empty one is a tombstone. -/
def storedValue (value : Bytes) : MptValue := if value.isEmpty then .tombstone else .some value

/-! ## The state -/

/-- `DEFAULT_SNAPSHOT_EPOCH_COUNT`. -/
def defaultSnapshotEpochCount : UInt32 := 2000

/-- `snapshot_epoch_count.max(1)`. -/
def atLeastOne (snapshotEpochCount : UInt32) : UInt32 :=
  if snapshotEpochCount = 0 then 1 else snapshotEpochCount

theorem atLeastOne_pos (snapshotEpochCount : UInt32) : 0 < atLeastOne snapshotEpochCount := by
  unfold atLeastOne
  split
  case isTrue => decide
  case isFalse h => exact UInt32.pos_iff_ne_zero.mpr h

theorem atLeastOne_of_pos {snapshotEpochCount : UInt32} (h : 0 < snapshotEpochCount) :
    atLeastOne snapshotEpochCount = snapshotEpochCount :=
  if_neg (UInt32.pos_iff_ne_zero.mp h)

/-- The height is a multiple of the period, and not 0. -/
def EndsPeriod (height : UInt64) (snapshotEpochCount : UInt32) : Prop :=
  height ≠ 0 ∧ snapshotEpochCount.toNat ∣ height.toNat

instance EndsPeriod.instDecidable (height : UInt64) (snapshotEpochCount : UInt32) :
    Decidable (EndsPeriod height snapshotEpochCount) :=
  inferInstanceAs (Decidable (_ ∧ _))

/-- The check of `advance_after_commit`, which returns early. -/
theorem or_not_dvd_iff {height : UInt64} {snapshotEpochCount : UInt32} :
    height = 0 ∨ ¬ snapshotEpochCount.toNat ∣ height.toNat ↔
      ¬ EndsPeriod height snapshotEpochCount := by
  rw [EndsPeriod, not_and_or, not_not]

structure State where
  snapshot : SnapshotTrie
  intermediate : ExtTreeMap Bytes MptValue
  delta : ExtTreeMap Bytes MptValue
  snapshotRoot : H256
  intermediateRoot : H256
  intermediatePadding : DeltaMptKeyPadding
  deltaPadding : DeltaMptKeyPadding
  height : UInt64
  snapshotEpochCount : UInt32
  lastRoot : Option CommitRoot
  deltaInc : IncrementalTrie
  deltaAccountCache : AccountKeyCache
  intermediateAccountCache : AccountKeyCache

namespace State

/-- The body of a method of the state. -/
abbrev Method (α : Type) := Fallible Error State α

variable (keccak : Bytes → H256)

def new : State where
  snapshot := .empty
  intermediate := ∅
  delta := ∅
  snapshotRoot := merkleNullNode
  intermediateRoot := merkleNullNode
  intermediatePadding := .genesis keccak
  deltaPadding := .genesis keccak
  height := 0
  snapshotEpochCount := defaultSnapshotEpochCount
  lastRoot := none
  deltaInc := .empty
  deltaAccountCache := .default keccak
  intermediateAccountCache := .default keccak

def withSnapshotEpochCount (snapshotEpochCount : UInt32) : State :=
  { new keccak with snapshotEpochCount := atLeastOne snapshotEpochCount }

def fromSnapshot (snapshot : ExtTreeMap Bytes Bytes) : State :=
  let (snapshotRoot, snapshot) :=
    (SnapshotTrie.fromSnapshot snapshot).rootWithPolicy keccak .skipSingleton
  { new keccak with
    snapshot := snapshot
    snapshotRoot := snapshotRoot
    deltaPadding := .fromRoots keccak snapshotRoot merkleNullNode }

/-- The delta key of a storage key, through the account cache of the delta. -/
def deltaKeyCached (key : StorageKeyWithSpace) : Method Bytes := do
  let s ← getThe State
  let (raw, cache) := key.toDeltaMptKeyBytes keccak s.deltaPadding (some s.deltaAccountCache)
  modify fun s => { s with deltaAccountCache := cache.getD s.deltaAccountCache }
  raw

/-- The intermediate key of a storage key, through the account cache of the intermediate. -/
def intermediateKeyCached (key : StorageKeyWithSpace) : Method Bytes := do
  let s ← getThe State
  let (raw, cache) :=
    key.toDeltaMptKeyBytes keccak s.intermediatePadding (some s.intermediateAccountCache)
  modify fun s => { s with intermediateAccountCache := cache.getD s.intermediateAccountCache }
  raw

def get (key : StorageKeyWithSpace) : Method (Option Bytes) := do
  let deltaKey ← deltaKeyCached keccak key
  let s ← getThe State
  match s.delta[deltaKey]? with
  | some value => return value.visibleValue
  | none =>
    let intermediateKey ← intermediateKeyCached keccak key
    let s ← getThe State
    match s.intermediate[intermediateKey]? with
    | some value => return value.visibleValue
    | none =>
      let canonical ← key.toKeyBytes
      return s.snapshot.snapshotGetOwned canonical

def set (key : StorageKeyWithSpace) (value : Bytes) : Method PUnit := do
  let raw ← deltaKeyCached keccak key
  let value := storedValue value
  modify fun s =>
    { s with deltaInc := s.deltaInc.insert raw value, delta := s.delta.insert raw value }

/-- `read_prefix`. -/
def readPrefix (s : State) (key : StorageKeyWithSpace) : Except Error (List MptKeyValue) := do
  let canonicalPrefix ← key.toKeyBytes
  let deltaPrefix ← (key.toDeltaMptKeyBytes keccak s.deltaPadding none).1
  let intermediatePrefix ← (key.toDeltaMptKeyBytes keccak s.intermediatePadding none).1
  let addressPrefix := addressPrefixFilter key
  let found ← collectDeltaKvs addressPrefix (StringMap.scanPrefix s.delta deltaPrefix)
  let found ← (StringMap.scanPrefix s.intermediate intermediatePrefix).foldlM
    (collectIntermediate addressPrefix) found
  return ((s.snapshot.snapshotScanPrefix canonicalPrefix).foldl collectSnapshot found).result

def getAllByPrefix (s : State) (key : StorageKeyWithSpace) :
    Except Error (Option (List MptKeyValue)) := do
  let values ← readPrefix keccak s key
  return nonEmpty values

/-- The loop of `delete_prefix` that removes the delta keys and keeps their values. -/
def removeDelta : State → List Bytes → State × List Entry
  | s, [] => (s, [])
  | s, rawKey :: rest =>
    match s.delta[rawKey]? with
    | some value =>
      let s := { s with delta := s.delta.erase rawKey, deltaInc := s.deltaInc.remove rawKey }
      let (s, deltaKvs) := removeDelta s rest
      (s, (rawKey, value) :: deltaKvs)
    | none => removeDelta s rest

/-- `delete_prefix`. -/
def deletePrefix (key : StorageKeyWithSpace) : Method (List MptKeyValue) := do
  let canonicalPrefix ← key.toKeyBytes
  let s ← getThe State
  let deltaPrefix ← (key.toDeltaMptKeyBytes keccak s.deltaPadding none).1
  let intermediatePrefix ← (key.toDeltaMptKeyBytes keccak s.intermediatePadding none).1
  let addressPrefix := addressPrefixFilter key
  let deltaKeys := (StringMap.scanPrefix s.delta deltaPrefix).map Prod.fst
  let deltaKvs := (removeDelta s deltaKeys).2
  modify fun s => (removeDelta s deltaKeys).1
  let intermediateKvs := StringMap.scanPrefix s.intermediate intermediatePrefix
  let snapshotKvs := s.snapshot.snapshotScanPrefix canonicalPrefix
  let found ← collectDeltaKvs addressPrefix deltaKvs
  let found ← intermediateKvs.foldlM (deleteIntermediate (set keccak) addressPrefix) found
  let found ← snapshotKvs.foldlM (deleteSnapshot (set keccak)) found
  return found.result

def deleteAllByPrefix (key : StorageKeyWithSpace) : Method (Option (List MptKeyValue)) := do
  let values ← deletePrefix keccak key
  return nonEmpty values

/-- `advance_after_commit`. The intermediate layer is taken before its keys are decoded, so that
an undecodable key leaves it empty. -/
def advanceAfterCommit (deltaRoot : H256) : Method PUnit := do
  let s ← getThe State
  if s.height = 0 ∨ ¬ s.snapshotEpochCount.toNat ∣ s.height.toNat then return
  else
    modify fun s => { s with intermediate := ∅ }
    let updates ← snapshotUpdates s.intermediate
    modify fun s =>
      let (snapshotRoot, snapshot) :=
        (s.snapshot.applyUpdates updates).rootWithPolicy keccak .skipSingleton
      { s with
        snapshot := snapshot
        snapshotRoot := snapshotRoot
        intermediate := s.delta
        delta := ∅
        deltaInc := s.deltaInc.clear
        intermediateRoot := deltaRoot
        intermediatePadding := s.deltaPadding
        deltaPadding := .fromRoots keccak snapshotRoot deltaRoot
        intermediateAccountCache := s.deltaAccountCache
        deltaAccountCache := .default keccak }

/-- `commit`, where the addition to the height wraps around; `commitIn` has it panic instead. -/
def commit : Method CommitRoot := do
  let s ← getThe State
  let (deltaRoot, deltaInc) := s.deltaInc.root keccak
  let root := CommitRoot.new keccak s.snapshotRoot s.intermediateRoot deltaRoot s.deltaPadding
  modify fun s => { s with deltaInc := deltaInc, lastRoot := some root, height := s.height + 1 }
  advanceAfterCommit keccak deltaRoot
  return root

end State

/-! ## Calls -/

/-- A call of `StateTrait`. -/
inductive Op
  | get (key : StorageKeyWithSpace)
  | set (key : StorageKeyWithSpace) (value : Bytes)
  | getAllByPrefix (key : StorageKeyWithSpace)
  | deleteAllByPrefix (key : StorageKeyWithSpace)
  | commit

namespace Op

def isCommit : Op → Bool
  | .commit => true
  | _ => false

end Op

/-- The number of commits of a run. -/
def commits (ops : List Op) : ℕ := ops.countP Op.isCommit

@[simp] theorem commits_nil : commits [] = 0 := rfl

@[simp] theorem commits_cons (op : Op) (ops : List Op) :
    commits (op :: ops) = commits ops + if op.isCommit then 1 else 0 :=
  List.countP_cons

theorem commits_append (ops ops' : List Op) :
    commits (ops ++ ops') = commits ops + commits ops' :=
  List.countP_append

theorem commits_replicate (n : ℕ) : commits (List.replicate n .commit) = n :=
  List.countP_replicate

theorem isCommit_of_ne {op : Op} (h : op ≠ .commit) : op.isCommit = false := by
  cases op with
  | commit => exact absurd rfl h
  | _ => rfl

/-- What a call returns when it does not fail. -/
inductive Reply
  | value (value : Option Bytes)
  | unit
  | entries (values : Option (List MptKeyValue))
  | root (root : CommitRoot)

namespace State

variable (keccak : Bytes → H256)

/-- The method that a call runs. -/
def call : Op → Method Reply
  | .get key => do
    let value ← get keccak key
    return .value value
  | .set key value => do
    set keccak key value
    return .unit
  | .getAllByPrefix key => do
    let s ← getThe State
    let values ← getAllByPrefix keccak s key
    return .entries values
  | .deleteAllByPrefix key => do
    let values ← deleteAllByPrefix keccak key
    return .entries values
  | .commit => do
    let root ← commit keccak
    return .root root

/-- The state as a machine. -/
def step (s : State) (op : Op) : Except Error Reply × State := exec (call keccak op) s

end State

/-! ## Build profiles -/

/-- How a call ends: it returns, or it panics. -/
inductive CallResult (α : Type)
  | returned (result : Except Error α)
  | panicked

namespace State

variable (keccak : Bytes → H256) (profile : Profile)

/-- The addition of `commit` panics: the height is the largest word, and overflows are checked. -/
def CommitPanics (s : State) : Prop := profile.overflowChecks ∧ s.height + 1 = 0

instance CommitPanics.instDecidable (s : State) : Decidable (s.CommitPanics profile) :=
  inferInstanceAs (Decidable (_ ∧ _))

/-- What a commit that panics leaves behind. -/
def panicked (s : State) : State :=
  let (deltaRoot, deltaInc) := s.deltaInc.root keccak
  let root := CommitRoot.new keccak s.snapshotRoot s.intermediateRoot deltaRoot s.deltaPadding
  { s with deltaInc, lastRoot := some root }

/-- `commit`, built under a profile. -/
def commitIn (s : State) : CallResult CommitRoot × State :=
  if s.CommitPanics profile then (.panicked, s.panicked keccak)
  else
    let (result, s') := exec (commit keccak) s
    (.returned result, s')

/-- The state as a machine, built under a profile. -/
def stepIn (s : State) (op : Op) : CallResult Reply × State :=
  if op.isCommit ∧ s.CommitPanics profile then (.panicked, s.panicked keccak)
  else
    let (reply, s') := step keccak s op
    (.returned reply, s')

end State

/-- The constructors of a fresh state. -/
inductive Origin
  | new
  | withSnapshotEpochCount (snapshotEpochCount : UInt32)
  | fromSnapshot (snapshot : ExtTreeMap Bytes Bytes)

/-- The fresh state. -/
def Origin.state (keccak : Bytes → H256) : Origin → State
  | new => .new keccak
  | withSnapshotEpochCount n => .withSnapshotEpochCount keccak n
  | fromSnapshot snapshot => .fromSnapshot keccak snapshot

end MinimalMpt
