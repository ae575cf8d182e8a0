import CfxMinimalExecution.MinimalMpt.KeyRoundTrip
import CfxMinimalExecution.MinimalMpt.State

/-!
# Three layers without caches

What a state is for: a map of canonical keys below two layers of records under delta keys, whose
roots are `trieRoot` of their contents and whose paddings follow from these roots. A layer is
built with the padding its keys are encoded under, so that a rotation moves it whole, and the
padding of the delta is a function of the layers below it.

## Main definitions

* `Layer keccak padding`: records under delta keys of a padding
* `Layers keccak`: the three layers; `Layers.get`, `Layers.set`, `Layers.readPrefix`,
  `Layers.deletePrefix`, `Layers.commit`, `Layers.rotate`
* `Layers.step`: the layers as a machine

## Main results

* `Layer.snapshotUpdates_eq`: the records of a layer are re-keyed without an error
-/

open Std (ExtTreeMap)
open Fallible (exec)

namespace MinimalMpt

open StorageKeyWithSpace (fromDeltaMptKey)

variable (keccak : Bytes → H256)

/-- Records under delta keys of a padding. -/
structure Layer (padding : DeltaMptKeyPadding) where
  entries : ExtTreeMap Bytes MptValue
  encoded : ∀ raw ∈ entries, ∃ key : StorageKeyWithSpace, key.deltaKey keccak padding = .ok raw

namespace Layer

variable {keccak} {padding : DeltaMptKeyPadding}

def empty : Layer keccak padding where
  entries := ∅
  encoded := fun _ h => absurd h ExtTreeMap.not_mem_empty

/-- A record under a delta key. -/
def insert (l : Layer keccak padding) (raw : Bytes) (value : MptValue)
    (h : ∃ key : StorageKeyWithSpace, key.deltaKey keccak padding = .ok raw) :
    Layer keccak padding where
  entries := l.entries.insert raw value
  encoded := fun raw' hraw' => by
    rcases ExtTreeMap.mem_insert.mp hraw' with heq | hmem
    · exact Std.compare_eq_iff_eq.mp heq ▸ h
    · exact l.encoded raw' hmem

/-- A record for a storage key; a key without a delta encoding is not recorded. -/
def write (l : Layer keccak padding) (key : StorageKeyWithSpace) (value : MptValue) :
    Layer keccak padding :=
  match h : key.deltaKey keccak padding with
  | .ok raw => l.insert raw value ⟨key, h⟩
  | .error _ => l

theorem entries_write (l : Layer keccak padding) {key : StorageKeyWithSpace} {raw : Bytes}
    (h : key.deltaKey keccak padding = .ok raw) (value : MptValue) :
    (l.write key value).entries = l.entries.insert raw value := by
  unfold write
  split
  · next raw' h' =>
    rw [h] at h'
    rw [Except.ok.inj h']
    rfl
  · next h' =>
    rw [h] at h'
    cases h'

/-- The records whose delta keys do not extend a prefix. -/
def dropPrefix (l : Layer keccak padding) (deltaPrefix : Bytes) : Layer keccak padding where
  entries := l.entries.filter fun raw _ => !decide (deltaPrefix <+: raw)
  encoded := fun raw h => l.encoded raw (ExtTreeMap.mem_of_mem_filter h)

theorem getElem?_dropPrefix (l : Layer keccak padding) (deltaPrefix raw : Bytes) :
    (l.dropPrefix deltaPrefix).entries[raw]? =
      if deltaPrefix <+: raw then none else l.entries[raw]? := by
  unfold dropPrefix
  rw [ExtTreeMap.getElem?_filter']
  by_cases h : deltaPrefix <+: raw
  · simp [h]
  · cases l.entries[raw]? <;> simp [h]

end Layer

/-- The canonical key that a delta key stands for. -/
def canonicalOf (raw : Bytes) : Bytes :=
  ((fromDeltaMptKey raw).bind StorageKeyWithSpace.toKeyBytes).toOption.getD []

variable {keccak} in
/-- A delta key is decoded and encoded canonically without an error. -/
theorem canonicalOf_spec {padding : DeltaMptKeyPadding} {raw : Bytes} {key : StorageKeyWithSpace}
    (h : key.deltaKey keccak padding = .ok raw) :
    fromDeltaMptKey raw = .ok key.normalize ∧ key.normalize.toKeyBytes = .ok (canonicalOf raw) := by
  have hdecode := StorageKeyWithSpace.fromDeltaMptKey_deltaKey keccak h
  obtain ⟨c, hc⟩ := StorageKeyWithSpace.exists_toKeyBytes_normalize keccak h
  refine ⟨hdecode, ?_⟩
  have heq : canonicalOf raw = c := by
    unfold canonicalOf
    rw [hdecode, Except.bind, hc]
    rfl
  rw [heq, hc]

namespace Layer

variable {keccak} {padding : DeltaMptKeyPadding}

/-- The records of a layer under their canonical keys. -/
def updates (l : Layer keccak padding) : List (Bytes × MptValue) :=
  l.entries.toList.map fun e => (canonicalOf e.1, e.2)

/-- The records of a layer are re-keyed without an error. -/
theorem snapshotUpdates_eq (l : Layer keccak padding) :
    snapshotUpdates l.entries = .ok l.updates := by
  have hrekey : ∀ e ∈ l.entries.toList, rekey e = .ok (canonicalOf e.1, e.2) := by
    intro e he
    have hget := StringMap.mem_toList.mp he
    obtain ⟨key, hkey⟩ := l.encoded e.1 (ExtTreeMap.mem_iff_isSome_getElem?.mpr (by simp [hget]))
    obtain ⟨hdecode, hcanonical⟩ := canonicalOf_spec hkey
    unfold rekey
    rw [hdecode]
    show key.normalize.toKeyBytes.bind _ = _
    rw [hcanonical]
    rfl
  exact mapM_eq_ok hrekey

end Layer

/-- The three layers. -/
structure Layers where
  snapshot : ExtTreeMap Bytes Bytes
  intermediatePadding : DeltaMptKeyPadding
  intermediate : Layer keccak intermediatePadding
  delta : Layer keccak (.fromRoots keccak (trieRoot keccak (liveMap snapshot))
    (trieRoot keccak intermediate.entries))
  height : UInt64
  snapshotEpochCount : UInt32
  lastRoot : Option CommitRoot
  epochs_pos : 0 < snapshotEpochCount

namespace Layers

variable {keccak}

def snapshotRoot (L : Layers keccak) : H256 := trieRoot keccak (liveMap L.snapshot)

def intermediateRoot (L : Layers keccak) : H256 := trieRoot keccak L.intermediate.entries

def deltaRoot (L : Layers keccak) : H256 := trieRoot keccak L.delta.entries

def deltaPadding (L : Layers keccak) : DeltaMptKeyPadding :=
  .fromRoots keccak L.snapshotRoot L.intermediateRoot

/-- Layers over a snapshot. -/
def ofSnapshot (keccak : Bytes → H256) (snapshot : ExtTreeMap Bytes Bytes)
    (snapshotEpochCount : UInt32) (h : 0 < snapshotEpochCount) : Layers keccak where
  snapshot := snapshot
  intermediatePadding := .genesis keccak
  intermediate := .empty
  delta := .empty
  height := 0
  snapshotEpochCount := snapshotEpochCount
  lastRoot := none
  epochs_pos := h

/-- The first record of a key from the top, or else its snapshot value. -/
def get (L : Layers keccak) (key : StorageKeyWithSpace) : Except Error (Option Bytes) := do
  let deltaKey ← key.deltaKey keccak L.deltaPadding
  match L.delta.entries[deltaKey]? with
  | some value => return value.visibleValue
  | none =>
    let intermediateKey ← key.deltaKey keccak L.intermediatePadding
    match L.intermediate.entries[intermediateKey]? with
    | some value => return value.visibleValue
    | none =>
      let canonical ← key.toKeyBytes
      return L.snapshot[canonical]?

/-- A record in the delta. -/
def write (L : Layers keccak) (key : StorageKeyWithSpace) (value : MptValue) : Layers keccak :=
  { L with delta := L.delta.write key value }

def set (key : StorageKeyWithSpace) (value : Bytes) : Fallible Error (Layers keccak) PUnit := do
  let L ← getThe (Layers keccak)
  let _ ← key.deltaKey keccak L.deltaPadding
  modify fun L => L.write key (storedValue value)

/-- The entries of the snapshot under a prefix. -/
def snapshotKvs (L : Layers keccak) (canonicalPrefix : Bytes) : List MptKeyValue :=
  L.snapshot.toList.filter fun e => canonicalPrefix <+: e.1

def readPrefix (L : Layers keccak) (key : StorageKeyWithSpace) :
    Except Error (List MptKeyValue) := do
  let canonicalPrefix ← key.toKeyBytes
  let deltaPrefix ← key.deltaKey keccak L.deltaPadding
  let intermediatePrefix ← key.deltaKey keccak L.intermediatePadding
  let addressPrefix := addressPrefixFilter key
  let found ← collectDeltaKvs addressPrefix (StringMap.scanPrefix L.delta.entries deltaPrefix)
  let found ← (StringMap.scanPrefix L.intermediate.entries intermediatePrefix).foldlM
    (collectIntermediate addressPrefix) found
  return ((L.snapshotKvs canonicalPrefix).foldl collectSnapshot found).result

def getAllByPrefix (L : Layers keccak) (key : StorageKeyWithSpace) :
    Except Error (Option (List MptKeyValue)) := do
  let values ← L.readPrefix key
  return nonEmpty values

/-- The layers without the delta records under a prefix. -/
def dropDelta (L : Layers keccak) (deltaPrefix : Bytes) : Layers keccak :=
  { L with delta := L.delta.dropPrefix deltaPrefix }

def deletePrefix (key : StorageKeyWithSpace) :
    Fallible Error (Layers keccak) (List MptKeyValue) := do
  let canonicalPrefix ← key.toKeyBytes
  let L ← getThe (Layers keccak)
  let deltaPrefix ← key.deltaKey keccak L.deltaPadding
  let intermediatePrefix ← key.deltaKey keccak L.intermediatePadding
  let addressPrefix := addressPrefixFilter key
  let deltaKvs := StringMap.scanPrefix L.delta.entries deltaPrefix
  modify fun L => L.dropDelta deltaPrefix
  let found ← collectDeltaKvs addressPrefix deltaKvs
  let found ← (StringMap.scanPrefix L.intermediate.entries intermediatePrefix).foldlM
    (deleteIntermediate set addressPrefix) found
  let found ← (L.snapshotKvs canonicalPrefix).foldlM (deleteSnapshot set) found
  return found.result

def deleteAllByPrefix (key : StorageKeyWithSpace) :
    Fallible Error (Layers keccak) (Option (List MptKeyValue)) := do
  let values ← deletePrefix key
  return nonEmpty values

/-! What holds before a delete, after dropping delta records and after every tombstone holds after
the delete, whether it fails or not. -/

section Delete

variable {I : Layers keccak → Prop} {L : Layers keccak}

theorem keeps_set (h : I L) (key : StorageKeyWithSpace) (value : Bytes)
    (hwrite : I (L.write key (storedValue value))) : Fallible.Keeps I (set key value) L :=
  Fallible.Keeps.read (Fallible.Keeps.lift_bind h fun _ _ => Fallible.Keeps.update hwrite)

theorem keeps_deletePrefix (h : I L) (hdrop : ∀ deltaPrefix, I (L.dropDelta deltaPrefix))
    (hintermediate : ∀ raw ∈ L.intermediate.entries, ∀ storageKey,
      fromDeltaMptKey raw = .ok storageKey → ∀ L', I L' → I (L'.write storageKey .tombstone))
    (hsnapshot : ∀ canonical ∈ L.snapshot, ∀ storageKey,
      StorageKeyWithSpace.fromKeyBytes canonical = .ok storageKey →
      ∀ L', I L' → I (L'.write storageKey .tombstone))
    (key : StorageKeyWithSpace) : Fallible.Keeps I (deletePrefix key) L := by
  unfold deletePrefix
  refine Fallible.Keeps.lift_bind h fun canonicalPrefix _ => Fallible.Keeps.read ?_
  refine Fallible.Keeps.lift_bind h fun deltaPrefix _ => ?_
  refine Fallible.Keeps.lift_bind h fun intermediatePrefix _ => ?_
  refine (Fallible.Keeps.update (hdrop deltaPrefix)).bind fun _ L₁ h₁ => ?_
  refine Fallible.Keeps.lift_bind h₁ fun found _ => ?_
  -- the two loops bury what they scan, and nothing else is written
  refine (Fallible.Keeps.foldlM ?_ found h₁).bind fun found L₂ h₂ => ?_
  · intro entry hentry found L' h'
    rw [StringMap.scanPrefix_eq_filter] at hentry
    have hget := StringMap.mem_toList.mp (List.mem_of_mem_filter hentry)
    have hmem : entry.1 ∈ L.intermediate.entries :=
      ExtTreeMap.mem_iff_isSome_getElem?.mpr (by simp [hget])
    unfold deleteIntermediate
    refine Fallible.Keeps.lift_bind h' fun storageKey hkey => ?_
    refine Fallible.Keeps.lift_bind h' fun canonical _ => ?_
    cases isFiltered (addressPrefixFilter key) canonical with
    | true => exact Fallible.Keeps.pure found h'
    | false =>
      cases entry.2.visibleValue.isSome with
      | true =>
        refine (keeps_set h' storageKey [] ?_).bind fun _ L' h' => Fallible.Keeps.pure _ h'
        exact hintermediate entry.1 hmem storageKey hkey L' h'
      | false =>
        exact (Fallible.Keeps.pure PUnit.unit h').bind fun _ L' h' => Fallible.Keeps.pure _ h'
  -- a key of the snapshot is buried without a look at its value
  · refine (Fallible.Keeps.foldlM ?_ found h₂).bind fun found L₃ h₃ => Fallible.Keeps.pure _ h₃
    intro entry hentry found L' h'
    have hget := StringMap.mem_toList.mp (List.mem_of_mem_filter hentry)
    have hmem : entry.1 ∈ L.snapshot :=
      ExtTreeMap.mem_iff_isSome_getElem?.mpr (by simp [hget])
    unfold deleteSnapshot
    refine Fallible.Keeps.lift_bind h' fun storageKey hkey => ?_
    refine (keeps_set h' storageKey [] ?_).bind fun _ L' h' => Fallible.Keeps.pure _ h'
    exact hsnapshot entry.1 hmem storageKey hkey L' h'

end Delete

/-- The snapshot with the intermediate layer absorbed. -/
def merged (L : Layers keccak) : ExtTreeMap Bytes Bytes :=
  absorb L.snapshot (L.intermediate.updates.map record)

/-- The layers shifted down by one. -/
def rotate (L : Layers keccak) : Layers keccak where
  snapshot := L.merged
  intermediatePadding := L.deltaPadding
  intermediate := L.delta
  delta := .empty
  height := L.height
  snapshotEpochCount := L.snapshotEpochCount
  lastRoot := L.lastRoot
  epochs_pos := L.epochs_pos

/-- The roots of the layers. -/
def commitRoot (L : Layers keccak) : CommitRoot :=
  .new keccak L.snapshotRoot L.intermediateRoot L.deltaRoot L.deltaPadding

/-- A commit counts an epoch, and rotates at the end of a period. -/
def commit (L : Layers keccak) : Layers keccak :=
  let next := { L with lastRoot := some L.commitRoot, height := L.height + 1 }
  if EndsPeriod (L.height + 1) L.snapshotEpochCount then next.rotate else next

/-- The method that a call runs. -/
def call : Op → Fallible Error (Layers keccak) Reply
  | .get key => do
    let L ← getThe (Layers keccak)
    let value ← L.get key
    return .value value
  | .set key value => do
    set key value
    return .unit
  | .getAllByPrefix key => do
    let L ← getThe (Layers keccak)
    let values ← L.getAllByPrefix key
    return .entries values
  | .deleteAllByPrefix key => do
    let values ← deleteAllByPrefix key
    return .entries values
  | .commit => do
    let L ← getThe (Layers keccak)
    modify commit
    return .root L.commitRoot

/-- The layers as a machine. -/
def step (L : Layers keccak) (op : Op) : Except Error Reply × Layers keccak := exec (call op) L

/-- **The invariant rule for calls.** What holds before a call, after a commit, after the write of
a `set`, after dropping delta records and after every tombstone holds after the call. -/
theorem keeps_step {I : Layers keccak → Prop} {L : Layers keccak} (h : I L) {op : Op}
    (hcommit : op = .commit → I L.commit)
    (hset : ∀ key value, op = .set key value → I (L.write key (storedValue value)))
    (hdrop : ∀ deltaPrefix, I (L.dropDelta deltaPrefix))
    (hintermediate : ∀ raw ∈ L.intermediate.entries, ∀ storageKey,
      fromDeltaMptKey raw = .ok storageKey → ∀ L', I L' → I (L'.write storageKey .tombstone))
    (hsnapshot : ∀ canonical ∈ L.snapshot, ∀ storageKey,
      StorageKeyWithSpace.fromKeyBytes canonical = .ok storageKey →
      ∀ L', I L' → I (L'.write storageKey .tombstone)) :
    I (L.step op).2 := by
  show Fallible.Keeps I (call op) L
  cases op with
  | get key =>
    exact Fallible.Keeps.read (Fallible.Keeps.lift_bind h fun _ _ => Fallible.Keeps.pure _ h)
  | set key value =>
    exact (keeps_set h key value (hset key value rfl)).bind fun _ L' h => Fallible.Keeps.pure _ h
  | getAllByPrefix key =>
    exact Fallible.Keeps.read (Fallible.Keeps.lift_bind h fun _ _ => Fallible.Keeps.pure _ h)
  | deleteAllByPrefix key =>
    have hdelete := keeps_deletePrefix h hdrop hintermediate hsnapshot key
    refine Fallible.Keeps.bind ?_ fun _ L' h => Fallible.Keeps.pure _ h
    exact hdelete.bind fun _ L' h => Fallible.Keeps.pure _ h
  | commit => exact hcommit rfl

/-- The two layers below the delta, the height and the last root are the same. -/
def SameBelow (L L' : Layers keccak) : Prop := ∃ delta, L' = { L with delta := delta }

theorem SameBelow.write {L L' : Layers keccak} (h : L.SameBelow L') (key : StorageKeyWithSpace)
    (value : MptValue) : L.SameBelow (L'.write key value) := by
  obtain ⟨delta, rfl⟩ := h
  exact ⟨delta.write key value, rfl⟩

/-- A call other than a commit changes at most the delta. -/
theorem sameBelow_step (L : Layers keccak) {op : Op} (hop : op ≠ .commit) :
    L.SameBelow (L.step op).2 := by
  have hself : L.SameBelow L := ⟨L.delta, rfl⟩
  exact keeps_step hself (fun h => absurd h hop) (fun key value _ => hself.write key _)
    (fun deltaPrefix => ⟨L.delta.dropPrefix deltaPrefix, rfl⟩)
    (fun _ _ storageKey _ L' h => h.write storageKey .tombstone)
    (fun _ _ storageKey _ L' h => h.write storageKey .tombstone)

theorem step_commit (L : Layers keccak) : L.step .commit = (.ok (.root L.commitRoot), L.commit) :=
  rfl

theorem commit_snapshotEpochCount (L : Layers keccak) :
    L.commit.snapshotEpochCount = L.snapshotEpochCount := by
  unfold commit
  split <;> rfl

theorem commit_height (L : Layers keccak) : L.commit.height = L.height + 1 := by
  unfold commit
  split <;> rfl

/-- Commits count the epochs. -/
theorem step_height (L : Layers keccak) (op : Op) :
    (L.step op).2.height = L.height + if op.isCommit then 1 else 0 := by
  by_cases hop : op = .commit
  · rw [hop, step_commit, commit_height]
    rfl
  · obtain ⟨delta, heq⟩ := L.sameBelow_step hop
    rw [heq, isCommit_of_ne hop]
    exact (UInt64.add_zero _).symm

theorem final_height (L : Layers keccak) (ops : List Op) :
    (Machine.final step L ops).height = L.height + UInt64.ofNat (commits ops) := by
  induction ops generalizing L with
  | nil => exact (UInt64.add_zero _).symm
  | cons op ops ih =>
    rw [Machine.final_cons, ih, step_height, commits_cons, UInt64.ofNat_add, UInt64.add_assoc,
      UInt64.add_comm (if op.isCommit then 1 else 0)]
    split <;> rfl

/-- No call changes the period. -/
theorem step_snapshotEpochCount (L : Layers keccak) (op : Op) :
    (L.step op).2.snapshotEpochCount = L.snapshotEpochCount := by
  by_cases hop : op = .commit
  · rw [hop, step_commit, commit_snapshotEpochCount]
  · obtain ⟨delta, heq⟩ := L.sameBelow_step hop
    rw [heq]

theorem final_snapshotEpochCount (L : Layers keccak) (ops : List Op) :
    (Machine.final step L ops).snapshotEpochCount = L.snapshotEpochCount := by
  induction ops generalizing L with
  | nil => rfl
  | cons op ops ih => rw [Machine.final_cons, ih, step_snapshotEpochCount]

end Layers

end MinimalMpt
