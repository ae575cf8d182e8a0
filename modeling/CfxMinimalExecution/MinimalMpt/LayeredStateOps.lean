import CfxMinimalExecution.MinimalMpt.Checkpoint

/-!
# The reference model of the layered state

`fuzz/fuzz_targets/layered_state_ops.rs`: a program that runs a state beside a reference model, over
calls drawn from a case, and compares what they answer. The reference model keeps its three layers
under canonical keys, each record with the raw key it is written under, and has no roots, tries or
caches. The program is a computation in `Option`: `none` is a failed assertion or an `unwrap` of an
error.

## Main definitions

* `Case`, `KeySeed`, `PrefixSeed`, `Op`: what a run is drawn from
* `Model`: the reference model; `Model.get`, `Model.prefixGet`, `Model.prefixDelete`,
  `Model.advanceAfterCommit`
* `assertModelMatchesState`, `runOp`, `fuzzTarget`: the program
-/

open Std (ExtTreeMap ExtTreeSet)
open Fallible (exec)

namespace MinimalMpt

namespace LayeredStateOps

open StorageKeyWithSpace (fromKeyBytes)

/-! ## Cases -/

structure KeySeed where
  id : UInt8
  kind : UInt8
  space : Bool
  suffix : Bytes

structure PrefixSeed where
  key : KeySeed
  kind : UInt8
  len : UInt8
  bytes : Bytes

/-- An entry of the first snapshot or of the first intermediate layer. -/
structure Entry where
  key : KeySeed
  value : Bytes
  tombstone : Bool

inductive Op
  | set (key : KeySeed) (value : Bytes)
  | delete (key : KeySeed)
  | get (key : KeySeed)
  | prefixGet (seed : PrefixSeed)
  | prefixDelete (seed : PrefixSeed)
  | commit
  | persistRoundtrip

structure Case where
  snapshotEpochCount : UInt8
  snapshot : List Entry
  intermediate : List Entry
  ops : List Op

def normalizeValue (value : Bytes) : Bytes := value.take 256

/-- The first `len` bytes, with zeros behind them up to this length. -/
def normalizeSuffix (bytes : Bytes) (len : ℕ) : Bytes :=
  bytes.take len ++ List.replicate (len - bytes.length) 0

namespace KeySeed

def spaceOf (seed : KeySeed) : Space := if seed.space then .ethereum else .native

def toStorageKey (seed : KeySeed) : StorageKeyWithSpace :=
  let address := List.replicate 20 seed.id
  let key : StorageKey :=
    match seed.kind.toNat % 7 with
    | 0 => .account address
    | 1 => .storageRoot address
    | 2 => .storage address (normalizeSuffix seed.suffix 32)
    | 3 => .codeRoot address
    | 4 => .code address (normalizeSuffix seed.suffix 32)
    | 5 => .depositList address
    | _ => .voteList address
  ⟨key, seed.spaceOf⟩

end KeySeed

/-- The prefix of a seed: up to 20 bytes, a storage key that may be cut short, or a key. -/
def PrefixSeed.toStorageKey (seed : PrefixSeed) : StorageKeyWithSpace :=
  if seed.kind.toNat % 4 = 0 then
    let bytes := if seed.bytes.isEmpty then [seed.key.id] else seed.bytes
    ⟨.addressPrefix (bytes.take (seed.len.toNat % 21)), seed.key.spaceOf⟩
  else if seed.kind.toNat % 4 = 1 then
    let storageKey := (normalizeSuffix seed.key.suffix 32).take (seed.len.toNat % 33)
    ⟨.storage (List.replicate 20 seed.key.id) storageKey, seed.key.spaceOf⟩
  else seed.key.toStorageKey

/-! ## The reference model -/

structure ModelValue where
  rawKey : Bytes
  value : Option Bytes

structure Model where
  snapshot : ExtTreeMap Bytes Bytes
  intermediate : ExtTreeMap Bytes ModelValue
  delta : ExtTreeMap Bytes ModelValue
  intermediatePadding : DeltaMptKeyPadding
  deltaPadding : DeltaMptKeyPadding
  height : UInt64
  snapshotEpochCount : UInt32

/-- The order of pairs: by key, then by value. -/
def compareKvs : MptKeyValue → MptKeyValue → Ordering :=
  compareLex (compareOn Prod.fst) (compareOn Prod.snd)

def kvsLe (a b : MptKeyValue) : Bool := (compareKvs a b).isLE

/-- `normalize_kvs`: the pairs, sorted. -/
def normalizeKvs (values : Option (List MptKeyValue)) : Option (List MptKeyValue) :=
  values.map fun values => values.mergeSort kvsLe

namespace Model

variable (keccak : Bytes → H256)

def new (snapshotEpochCount : UInt32) : Model where
  snapshot := ∅
  intermediate := ∅
  delta := ∅
  intermediatePadding := .genesis keccak
  deltaPadding := .genesis keccak
  height := 0
  snapshotEpochCount := snapshotEpochCount

/-- A round of the loop of `advance_after_commit` over the intermediate layer. -/
def merge (snapshot : ExtTreeMap Bytes Bytes) (entry : Bytes × ModelValue) :
    ExtTreeMap Bytes Bytes :=
  match entry.2.value with
  | some value => snapshot.insert entry.1 value
  | none => snapshot.erase entry.1

/-- `advance_after_commit`, with the delta root that the commit of the state returned. -/
def advanceAfterCommit (m : Model) (deltaRoot : H256) : Model :=
  let m := { m with height := m.height + 1 }
  if m.height % m.snapshotEpochCount.toUInt64 ≠ 0 then m
  else
    let snapshot := m.intermediate.toList.foldl merge m.snapshot
    let snapshotRoot := trieRoot keccak (liveMap snapshot)
    { m with
      snapshot := snapshot
      intermediate := m.delta
      delta := ∅
      intermediatePadding := m.deltaPadding
      deltaPadding := .fromRoots keccak snapshotRoot deltaRoot }

def get (m : Model) (canonical : Bytes) : Option Bytes :=
  match m.delta[canonical]? with
  | some value => value.value
  | none =>
    match m.intermediate[canonical]? with
    | some value => value.value
    | none => m.snapshot[canonical]?

/-- The two tests of a loop over a layer before its `continue`. -/
def skips (rawPrefix : Bytes) (addressPrefix : Option Bytes) (entry : Bytes × ModelValue) : Bool :=
  !decide (rawPrefix <+: entry.2.rawKey) || isFiltered addressPrefix entry.1

/-- A round of the loop of `prefix_get` over the delta. -/
def getDelta (rawPrefix : Bytes) (addressPrefix : Option Bytes) (found : Collected)
    (entry : Bytes × ModelValue) : Collected :=
  if skips rawPrefix addressPrefix entry then found
  else (found.mark entry.1).push entry.1 entry.2.value

/-- A round of the loop of `prefix_get` over the intermediate layer. -/
def getIntermediate (rawPrefix : Bytes) (addressPrefix : Option Bytes) (found : Collected)
    (entry : Bytes × ModelValue) : Collected :=
  if skips rawPrefix addressPrefix entry then found
  else found.add entry.1 entry.2.value

def prefixGet (m : Model) (p : StorageKeyWithSpace) : Option (Option (List MptKeyValue)) := do
  let canonicalPrefix ← p.toKeyBytes.toOption
  let deltaPrefix ← (p.toDeltaMptKeyBytes keccak m.deltaPadding none).1.toOption
  let intermediatePrefix ← (p.toDeltaMptKeyBytes keccak m.intermediatePadding none).1.toOption
  let addressPrefix := addressPrefixFilter p
  let found := m.delta.toList.foldl (getDelta deltaPrefix addressPrefix) .empty
  let found := m.intermediate.toList.foldl (getIntermediate intermediatePrefix addressPrefix) found
  let found := (StringMap.scanPrefix m.snapshot canonicalPrefix).foldl collectSnapshot found
  return nonEmpty found.result

/-- The canonical keys of the records of a layer whose raw keys extend a prefix. -/
def keysUnder (layer : ExtTreeMap Bytes ModelValue) (rawPrefix : Bytes) : List Bytes :=
  (layer.toList.filter fun entry => rawPrefix <+: entry.2.rawKey).map Prod.fst

/-- The tombstone that `prefix_delete` writes for a key. -/
def bury (m : Model) (key : Bytes) : Option Model := do
  let storageKey ← (fromKeyBytes key).toOption
  let rawKey ← (storageKey.toDeltaMptKeyBytes keccak m.deltaPadding none).1.toOption
  return { m with delta := m.delta.insert key ⟨rawKey, none⟩ }

/-- A round of the loop of `prefix_delete` over the delta keys. -/
def deleteDelta (addressPrefix : Option Bytes) (run : Model × Collected) (key : Bytes) :
    Option (Model × Collected) := do
  let (m, found) := run
  let value ← m.delta[key]?
  let m := { m with delta := m.delta.erase key }
  if isFiltered addressPrefix key then return (m, found)
  else return (m, (found.mark key).push key value.value)

/-- A round of the loop of `prefix_delete` over the intermediate keys. -/
def deleteIntermediate (addressPrefix : Option Bytes) (run : Model × Collected) (key : Bytes) :
    Option (Model × Collected) := do
  let (m, found) := run
  let value ← m.intermediate[key]?
  if isFiltered addressPrefix key then return (m, found)
  else
    let m ← if value.value.isSome then bury keccak m key else some m
    return (m, found.add key value.value)

/-- A round of the loop of `prefix_delete` over the snapshot keys. -/
def deleteSnapshot (run : Model × Collected) (key : Bytes) : Option (Model × Collected) := do
  let (m, found) := run
  let value ← m.snapshot[key]?
  let m ← bury keccak m key
  return (m, found.add key (some value))

def prefixDelete (m : Model) (p : StorageKeyWithSpace) :
    Option (Option (List MptKeyValue) × Model) := do
  let canonicalPrefix ← p.toKeyBytes.toOption
  let deltaPrefix ← (p.toDeltaMptKeyBytes keccak m.deltaPadding none).1.toOption
  let intermediatePrefix ← (p.toDeltaMptKeyBytes keccak m.intermediatePadding none).1.toOption
  let addressPrefix := addressPrefixFilter p
  let run ← (keysUnder m.delta deltaPrefix).foldlM (deleteDelta addressPrefix) (m, .empty)
  let intermediateKeys := keysUnder run.1.intermediate intermediatePrefix
  let run ← intermediateKeys.foldlM (deleteIntermediate keccak addressPrefix) run
  let snapshotKeys := (StringMap.scanPrefix run.1.snapshot canonicalPrefix).map Prod.fst
  let run ← snapshotKeys.foldlM (deleteSnapshot keccak) run
  return (nonEmpty run.2.result, run.1)

/-- The keys of the three layers. -/
def keys (m : Model) : List Bytes :=
  (ExtTreeSet.ofList (m.snapshot.keys ++ (m.intermediate.keys ++ m.delta.keys))).toList

end Model

/-! ## The program -/

/-- `unwrap`. -/
def unwrap {α : Type} : Except Error α × State → Option (α × State)
  | (.ok a, s) => some (a, s)
  | (.error _, _) => none

section Program

variable (keccak : Bytes → H256)

/-- A round of `assert_model_matches_state`. -/
def assertKey (m : Model) (s : State) (canonical : Bytes) : Option State := do
  let storageKey ← (fromKeyBytes canonical).toOption
  let (actual, s) ← unwrap (exec (State.get keccak storageKey) s)
  guard (actual = m.get canonical)
  return s

def assertModelMatchesState (s : State) (m : Model) : Option State :=
  m.keys.foldlM (assertKey keccak m) s

/-- A write to the model, at the raw key that the state writes. -/
def write (m : Model) (key : StorageKeyWithSpace) (value : Option Bytes) : Option Model := do
  let canonical ← key.toKeyBytes.toOption
  let rawKey ← (key.toDeltaMptKeyBytes keccak m.deltaPadding none).1.toOption
  return { m with delta := m.delta.insert canonical ⟨rawKey, value⟩ }

/-- A round of the loop over the calls of a case. -/
def runOp : State × Model → Op → Option (State × Model)
  | (s, m), .set seed value => do
    let key := seed.toStorageKey
    let value := normalizeValue value
    let (_, s) ← unwrap (exec (State.set keccak key value) s)
    let m ← write keccak m key (if value.isEmpty then none else some value)
    return (s, m)
  | (s, m), .delete seed => do
    let key := seed.toStorageKey
    let (_, s) ← unwrap (exec (State.set keccak key []) s)
    let m ← write keccak m key none
    return (s, m)
  | (s, m), .get seed => do
    let key := seed.toStorageKey
    let canonical ← key.toKeyBytes.toOption
    let (actual, s) ← unwrap (exec (State.get keccak key) s)
    guard (actual = m.get canonical)
    return (s, m)
  | (s, m), .prefixGet seed => do
    let p := seed.toStorageKey
    let actual ← (State.getAllByPrefix keccak s p).toOption
    let expected ← m.prefixGet keccak p
    guard (normalizeKvs actual = normalizeKvs expected)
    return (s, m)
  | (s, m), .prefixDelete seed => do
    let p := seed.toStorageKey
    let (actual, s) ← unwrap (exec (State.deleteAllByPrefix keccak p) s)
    let (expected, m) ← m.prefixDelete keccak p
    guard (normalizeKvs actual = normalizeKvs expected)
    let s ← assertModelMatchesState keccak s m
    return (s, m)
  | (s, m), .commit => do
    let (root, s) ← unwrap (exec (State.commit keccak) s)
    let m := m.advanceAfterCommit keccak root.deltaRoot
    let s ← assertModelMatchesState keccak s m
    return (s, m)
  | (s, m), .persistRoundtrip => do
    let (root, s) ← unwrap (exec (State.commit keccak) s)
    let m := m.advanceAfterCommit keccak root.deltaRoot
    let s := State.fromPersisted keccak s.persisted
    let s ← assertModelMatchesState keccak s m
    return (s, m)

/-- A round of the loop over the entries of the snapshot. -/
def startSnapshot (m : Model) (entry : Entry) : Option Model := do
  if entry.tombstone then return m
  else
    let canonical ← entry.key.toStorageKey.toKeyBytes.toOption
    return { m with snapshot := m.snapshot.insert canonical (normalizeValue entry.value) }

/-- A round of the loop over the entries of the intermediate layer, which is filled under the
genesis padding. -/
def startIntermediate (run : Model × PersistedState) (entry : Entry) :
    Option (Model × PersistedState) := do
  let (m, persisted) := run
  let key := entry.key.toStorageKey
  let canonical ← key.toKeyBytes.toOption
  let rawKey ← (key.toDeltaMptKeyBytes keccak (.genesis keccak) none).1.toOption
  let value := if entry.tombstone then none else some (normalizeValue entry.value)
  let disk : MptValueDisk := match value with
    | some value => .some value
    | none => .tombstone
  return ({ m with intermediate := m.intermediate.insert canonical ⟨rawKey, value⟩ },
    { persisted with intermediate := persisted.intermediate.insert rawKey disk })

/-- What the program hands to `from_persisted`, before the intermediate layer is filled. -/
def startPersisted (m : Model) : PersistedState where
  snapshot := m.snapshot
  intermediate := ∅
  delta := ∅
  intermediateMptKeyPadding := DeltaMptKeyPadding.genesis keccak
  deltaMptKeyPadding := DeltaMptKeyPadding.genesis keccak
  height := 0
  snapshotEpochCount := m.snapshotEpochCount
  lastRoot := none

/-- The program over a case, of which it takes `maxEntries` entries of each layer and `maxOps`
calls: 64 and 2048. -/
def fuzzTarget (maxEntries maxOps : UInt64) (case : Case) : Option (State × Model) := do
  let snapshotEpochCount := 1 + case.snapshotEpochCount.toUInt32 % 8
  let m ← (case.snapshot.take maxEntries.toNat).foldlM startSnapshot
    (.new keccak snapshotEpochCount)
  let (m, persisted) ←
    (case.intermediate.take maxEntries.toNat).foldlM (startIntermediate keccak)
      (m, startPersisted keccak m)
  let s := State.fromPersisted keccak persisted
  (case.ops.take maxOps.toNat).foldlM (runOp keccak) (s, m)

end Program

end LayeredStateOps

end MinimalMpt
