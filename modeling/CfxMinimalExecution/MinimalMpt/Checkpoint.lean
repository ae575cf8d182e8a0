import CfxMinimalExecution.MinimalMpt.StateRefinement

/-!
# Checkpoints

`store.rs` and `State::from_persisted`: a state is persisted as its three layers, its paddings and
its counters; a restored state rebuilds the roots, the tries and the caches from these. A restored
state represents the layers of the state it was taken from, so the two answer alike for ever.

## Main definitions

* `PersistedState`, `State.persisted`, `State.fromPersisted`

## Main results

* `State.Represents.restored`: a restored state represents the same layers
* `State.replies_fromPersisted`: live and restored states answer every later run alike
-/

open Std (ExtTreeMap)

namespace MinimalMpt

/-- A value as it is stored on disk. -/
inductive MptValueDisk
  | some (value : Bytes)
  | tombstone
deriving DecidableEq

namespace MptValueDisk

/-- `MptValueDisk::from`. -/
def ofMptValue : MptValue → MptValueDisk
  | .some v => .some v
  | .tombstone => .tombstone

/-- `MptValue::from`. -/
def toMptValue : MptValueDisk → MptValue
  | .some v => .some v
  | .tombstone => .tombstone

@[simp] theorem toMptValue_ofMptValue (value : MptValue) :
    (ofMptValue value).toMptValue = value := by
  cases value <;> rfl

end MptValueDisk

structure PersistedState where
  snapshot : ExtTreeMap Bytes Bytes
  intermediate : ExtTreeMap Bytes MptValueDisk
  delta : ExtTreeMap Bytes MptValueDisk
  intermediateMptKeyPadding : H256
  deltaMptKeyPadding : H256
  height : UInt64
  snapshotEpochCount : UInt32
  lastRoot : Option CommitRoot

namespace State

def persisted (s : State) : PersistedState where
  snapshot := s.snapshot.toCanonicalMap
  intermediate := s.intermediate.map fun _ v => .ofMptValue v
  delta := s.delta.map fun _ v => .ofMptValue v
  intermediateMptKeyPadding := s.intermediatePadding
  deltaMptKeyPadding := s.deltaPadding
  height := s.height
  snapshotEpochCount := s.snapshotEpochCount
  lastRoot := s.lastRoot

/-- `from_persisted`. The roots, the incremental delta and the caches are built anew; a period of
zero is read as the default one. -/
def fromPersisted (keccak : Bytes → H256) (state : PersistedState) : State :=
  let intermediate := state.intermediate.map fun _ v => v.toMptValue
  let delta := state.delta.map fun _ v => v.toMptValue
  let (snapshotRoot, snapshot) :=
    (SnapshotTrie.fromSnapshot state.snapshot).rootWithPolicy keccak .skipSingleton
  { snapshot := snapshot
    intermediate := intermediate
    delta := delta
    snapshotRoot := snapshotRoot
    intermediateRoot := trieRoot keccak intermediate
    intermediatePadding := state.intermediateMptKeyPadding
    deltaPadding := state.deltaMptKeyPadding
    lastRoot := state.lastRoot
    height := state.height
    snapshotEpochCount :=
      if state.snapshotEpochCount = 0 then defaultSnapshotEpochCount
      else state.snapshotEpochCount
    deltaInc := .fromDelta delta
    deltaAccountCache := .default keccak
    intermediateAccountCache := .default keccak }

/-- Values go to disk and back unchanged, tombstones included. -/
theorem map_toMptValue_ofMptValue (m : ExtTreeMap Bytes MptValue) :
    ((m.map fun _ v => MptValueDisk.ofMptValue v).map fun _ v => v.toMptValue) = m := by
  refine ExtTreeMap.ext_getElem? fun k => ?_
  rw [ExtTreeMap.getElem?_map, ExtTreeMap.getElem?_map, Option.map_map]
  cases m[k]? with
  | none => rfl
  | some v => exact congrArg some (MptValueDisk.toMptValue_ofMptValue v)

variable {keccak : Bytes → H256} {s : State} {L : Layers keccak}

/-- **A restored state represents the same layers.** -/
theorem Represents.restored (h : s.Represents keccak L) :
    (fromPersisted keccak s.persisted).Represents keccak L := by
  have hsnapshot : s.persisted.snapshot = L.snapshot := h.snapshot.toCanonicalMap
  have hintermediate : (fromPersisted keccak s.persisted).intermediate = L.intermediate.entries :=
    (map_toMptValue_ofMptValue s.intermediate).trans h.intermediate
  have hdelta : (fromPersisted keccak s.persisted).delta = L.delta.entries :=
    (map_toMptValue_ofMptValue s.delta).trans h.delta
  have htrie : (SnapshotTrie.fromSnapshot s.persisted.snapshot).Represents keccak L.snapshot := by
    rw [hsnapshot]
    exact SnapshotTrie.represents_fromSnapshot L.snapshot
  obtain ⟨hroot, hrooted⟩ := htrie.rootWithPolicy .skipSingleton
  have hperiod : s.snapshotEpochCount ≠ 0 := by
    rw [h.snapshotEpochCount]
    exact UInt32.pos_iff_ne_zero.mp L.epochs_pos
  exact {
    snapshot := hrooted
    intermediate := hintermediate
    delta := hdelta
    snapshotRoot := hroot
    intermediateRoot := congrArg (trieRoot keccak) hintermediate
    intermediatePadding := h.intermediatePadding
    deltaPadding := h.deltaPadding
    height := h.height
    -- a live period is never zero
    snapshotEpochCount := (if_neg hperiod).trans h.snapshotEpochCount
    lastRoot := h.lastRoot
    deltaInc := hdelta ▸ IncrementalTrie.represents_origin (.fromDelta _)
    deltaAccountCache := AccountKeyCache.valid_default keccak
    intermediateAccountCache := AccountKeyCache.valid_default keccak }

end State

namespace State

variable (keccak : Bytes → H256)

/-- **Checkpoints are transparent.** After any run from a fresh state, the state restored from the
persisted one gives the same replies as the live one in every later run: the same values, the same
errors and the same roots, across any number of rotations. -/
theorem replies_fromPersisted (origin : Origin) (before after : List Op) :
    Machine.replies (step keccak)
      (fromPersisted keccak
        (Machine.final (step keccak) (origin.state keccak) before).persisted) after =
      Machine.replies (step keccak)
        (Machine.final (step keccak) (origin.state keccak) before) after := by
  obtain ⟨L, hlive⟩ := exists_represents_final keccak origin before
  calc _ = Machine.replies Layers.step L after :=
        simulation.replies_eq hlive.restored fun _ _ => trivial
    _ = _ := (simulation.replies_eq hlive fun _ _ => trivial).symm

end State

end MinimalMpt
