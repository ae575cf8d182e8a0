import CfxMinimalExecution.Library.Checked
import CfxMinimalExecution.Library.Interrupted
import CfxMinimalExecution.Library.Related
import CfxMinimalExecution.MinimalMpt.Checkpoint
import Mathlib.Data.List.ReduceOption

/-!
# Calls that fail

A commit that fails has advanced the height, and at the end of a period it has lost the
intermediate layer. A prefix delete that fails has dropped the delta records under the prefix and
has written the tombstones of the rounds before the failing one.

## Main definitions

* `StateManager`, `StateManager.commit`: a state over a store
* `Intact s s'`: the layers, roots, paddings, height and last root are as before
* `deleteRounds`: what the rounds of a prefix delete write
* `State.Rekeys`, `State.Restores`: when no key is undecodable, and when what a prefix delete has
  done before a failing round is nothing

## Main results

* `deletePrefix_ends`: how a prefix delete ends
* `intactOnError_iff`: exactly when failed calls leave the state intact
-/

open Std (ExtTreeMap)
open Fallible (exec Ends Keeps)

namespace MinimalMpt

open StorageKeyWithSpace (fromDeltaMptKey fromKeyBytes)

/-! ## The manager -/

/-- `StateStore`, as far as a commit uses it: a method on the store. -/
structure StateStore (σ : Type) where
  saveLatest : PersistedState → Fallible Error σ PUnit

structure StateManager (σ : Type) where
  state : State
  store : σ

/-- `MemoryStore`: it keeps the latest state. -/
def memoryStore : StateStore (Option PersistedState) where
  saveLatest state := modify fun _ => some state

def StateManager.commit (keccak : Bytes → H256) {σ : Type} (storage : StateStore σ) :
    Fallible Error (StateManager σ) CommitRoot := do
  let root ← Fallible.zoom StateManager.state (fun state m => { m with state }) (State.commit keccak)
  let m ← getThe (StateManager σ)
  Fallible.zoom StateManager.store (fun store m => { m with store })
    (storage.saveLatest m.state.persisted)
  return root

/-- `StateManager::commit`, built under a profile. -/
def StateManager.commitIn (keccak : Bytes → H256) (profile : Profile) {σ : Type}
    (storage : StateStore σ) (m : StateManager σ) : CallResult CommitRoot × StateManager σ :=
  if m.state.CommitPanics profile then (.panicked, { m with state := m.state.panicked keccak })
  else
    let (result, m') := exec (StateManager.commit keccak storage) m
    (.returned result, m')

namespace State

variable (keccak : Bytes → H256)

/-! ## What a failed call must leave -/

/-- The layers, the roots, the paddings, the height and the last root are as before. -/
structure Intact (s s' : State) : Prop where
  snapshot : s'.snapshot.toCanonicalMap = s.snapshot.toCanonicalMap
  intermediate : s'.intermediate = s.intermediate
  delta : s'.delta = s.delta
  snapshotRoot : s'.snapshotRoot = s.snapshotRoot
  intermediateRoot : s'.intermediateRoot = s.intermediateRoot
  intermediatePadding : s'.intermediatePadding = s.intermediatePadding
  deltaPadding : s'.deltaPadding = s.deltaPadding
  height : s'.height = s.height
  lastRoot : s'.lastRoot = s.lastRoot

/-- The caches hold derivations of their own paddings. -/
structure ValidCaches (s : State) : Prop where
  delta : s.deltaAccountCache.Valid keccak
  intermediate : s.intermediateAccountCache.Valid keccak

/-! ## Commits -/

/-- The commit is not at the end of a period, or every intermediate key can be decoded. -/
def Rekeys (s : State) : Prop :=
  EndsPeriod (s.height + 1) s.snapshotEpochCount →
    ∀ e ∈ s.intermediate.toList, ∃ update, rekey e = .ok update

/-- The state with the root of a commit. -/
def rooted (s : State) : State :=
  let (deltaRoot, deltaInc) := s.deltaInc.root keccak
  { s with
    deltaInc := deltaInc
    lastRoot := some (.new keccak s.snapshotRoot s.intermediateRoot deltaRoot s.deltaPadding)
    height := s.height + 1 }

/-- The state with its layers shifted down. -/
def shifted (s : State) (deltaRoot : H256) (updates : List (Bytes × MptValue)) : State :=
  let (snapshotRoot, snapshot) :=
    (s.snapshot.applyUpdates updates).rootWithPolicy keccak .skipSingleton
  { s with
    snapshot := snapshot
    snapshotRoot := snapshotRoot
    intermediate := s.delta
    delta := ∅
    deltaInc := s.deltaInc.clear
    intermediateRoot := deltaRoot
    intermediatePadding := s.deltaPadding
    deltaPadding := .fromRoots keccak snapshotRoot deltaRoot
    intermediateAccountCache := s.deltaAccountCache
    deltaAccountCache := .default keccak }

/-- The state that is saved: the one behind a commit, where the intermediate keys can be decoded. -/
def committed (s : State) : State :=
  if EndsPeriod (s.height + 1) s.snapshotEpochCount then
    { s.rooted keccak with intermediate := ∅ }.shifted keccak (s.deltaInc.root keccak).1
      ((snapshotUpdates s.intermediate).toOption.getD [])
  else s.rooted keccak

variable {keccak} {s s' : State}

/-- The updates of the snapshot, where every key can be decoded. -/
theorem exists_snapshotUpdates_iff (intermediate : ExtTreeMap Bytes MptValue) :
    (∃ updates, snapshotUpdates intermediate = .ok updates) ↔
      ∀ e ∈ intermediate.toList, ∃ update, rekey e = .ok update := by
  unfold snapshotUpdates
  constructor
  · rintro ⟨updates, hupdates⟩ e he
    obtain ⟨update, -, hupdate⟩ := (mapM_eq_ok_iff.mp hupdates).exists_right he
    exact ⟨update, hupdate⟩
  · intro hdecodes
    cases hupdates : intermediate.toList.mapM rekey with
    | ok updates => exact ⟨updates, rfl⟩
    | error e =>
      obtain ⟨entry, hentry, herror⟩ := exists_of_mapM_eq_error hupdates
      obtain ⟨update, hupdate⟩ := hdecodes entry hentry
      cases hupdate.symm.trans herror

/-- The end of a period, where the keys are decoded. -/
theorem exec_advanceAfterCommit (hperiod : EndsPeriod s.height s.snapshotEpochCount)
    (deltaRoot : H256) {updates : List (Bytes × MptValue)}
    (h : snapshotUpdates s.intermediate = .ok updates) :
    exec (advanceAfterCommit keccak deltaRoot) s =
      (.ok ⟨⟩, { s with intermediate := ∅ }.shifted keccak deltaRoot updates) := by
  unfold advanceAfterCommit
  rw [Fallible.exec_bind_ok (Fallible.exec_get s),
    if_neg (mt or_not_dvd_iff.mp (not_not.mpr hperiod)),
    Fallible.exec_bind_ok (Fallible.exec_modify _ s), h,
    Fallible.exec_bind_ok (Fallible.exec_lift _ _)]
  rfl

/-- The end of a period, where a key cannot be decoded: the intermediate layer is lost. -/
theorem exec_advanceAfterCommit_error
    (hperiod : EndsPeriod s.height s.snapshotEpochCount) (deltaRoot : H256) {e : Error}
    (h : snapshotUpdates s.intermediate = .error e) :
    exec (advanceAfterCommit keccak deltaRoot) s = (.error e, { s with intermediate := ∅ }) := by
  unfold advanceAfterCommit
  rw [Fallible.exec_bind_ok (Fallible.exec_get s),
    if_neg (mt or_not_dvd_iff.mp (not_not.mpr hperiod)),
    Fallible.exec_bind_ok (Fallible.exec_modify _ s), h]
  exact Fallible.exec_bind_error (Fallible.exec_lift _ _)

theorem exec_advanceAfterCommit_inside (hperiod : ¬ EndsPeriod s.height s.snapshotEpochCount)
    (deltaRoot : H256) : exec (advanceAfterCommit keccak deltaRoot) s = (.ok ⟨⟩, s) := by
  unfold advanceAfterCommit
  rw [Fallible.exec_bind_ok (Fallible.exec_get s), if_pos (or_not_dvd_iff.mpr hperiod)]
  rfl

/-- A commit takes the root and then advances. -/
theorem exec_commit_eq (s : State) : ∃ root, exec (commit keccak) s =
    exec (do advanceAfterCommit keccak (s.deltaInc.root keccak).1; return root)
      (s.rooted keccak) := by
  refine ⟨.new keccak s.snapshotRoot s.intermediateRoot (s.deltaInc.root keccak).1 s.deltaPadding,
    ?_⟩
  unfold commit
  rw [Fallible.exec_bind_ok (Fallible.exec_get s)]
  exact Fallible.exec_bind_ok (Fallible.exec_modify _ s)

/-- **A commit that decodes every key** leaves the committed state. -/
theorem exec_commit_of_rekeys (h : s.Rekeys) :
    ∃ root, exec (commit keccak) s = (.ok root, s.committed keccak) := by
  obtain ⟨root, hcommit⟩ := exec_commit_eq s
  refine ⟨root, ?_⟩
  rw [hcommit]
  unfold committed
  by_cases hperiod : EndsPeriod (s.height + 1) s.snapshotEpochCount
  · obtain ⟨updates, hupdates⟩ := (exists_snapshotUpdates_iff _).mpr (h hperiod)
    have hadvance := @exec_advanceAfterCommit keccak (s.rooted keccak) hperiod
      (s.deltaInc.root keccak).1 updates hupdates
    rw [Fallible.exec_bind_ok hadvance, if_pos hperiod, hupdates]
    rfl
  · have hadvance := @exec_advanceAfterCommit_inside keccak (s.rooted keccak) hperiod
      (s.deltaInc.root keccak).1
    rw [Fallible.exec_bind_ok hadvance, if_neg hperiod]
    rfl

/-- **A commit that meets an undecodable key** fails, behind the new height. -/
theorem exec_commit_of_not_rekeys (h : ¬ s.Rekeys) :
    ∃ e s', exec (commit keccak) s = (.error e, s') ∧ s'.height = s.height + 1 := by
  obtain ⟨root, hcommit⟩ := exec_commit_eq s
  unfold Rekeys at h
  rw [Classical.not_imp, ← exists_snapshotUpdates_iff] at h
  obtain ⟨hperiod, hnone⟩ := h
  cases hupdates : snapshotUpdates s.intermediate with
  | ok updates => exact absurd ⟨updates, hupdates⟩ hnone
  | error e =>
    have hadvance := @exec_advanceAfterCommit_error keccak (s.rooted keccak) hperiod
      (s.deltaInc.root keccak).1 e hupdates
    exact ⟨e, _, hcommit.trans (Fallible.exec_bind_error hadvance), rfl⟩

theorem not_intact_of_height (h : s'.height = s.height + 1) : ¬ s.Intact s' := by
  intro hintact
  have hsame : s.height + 1 = s.height := h.symm.trans hintact.height
  exact absurd hsame (by simp)

/-- A commit that does not panic returns what `commit` returns. -/
theorem commitIn_of_not_panics {profile : Profile} (h : ¬ s.CommitPanics profile) :
    commitIn keccak profile s =
      (.returned (exec (commit keccak) s).1, (exec (commit keccak) s).2) := if_neg h

/-- Behind the largest height a commit is at the end of no period. -/
theorem rekeys_of_panics {profile : Profile} (h : s.CommitPanics profile) : s.Rekeys :=
  fun hends => absurd h.2 hends.1

/-- **Failed commits**: the state is intact exactly when they do not fail. -/
theorem intactOnError_commit_iff (profile : Profile) :
    (∀ e s', commitIn keccak profile s = (.returned (.error e), s') → s.Intact s') ↔ s.Rekeys := by
  by_cases hpanics : s.CommitPanics profile
  · refine iff_of_true (fun e s' herror => ?_) (rekeys_of_panics hpanics)
    rw [commitIn, if_pos hpanics] at herror
    cases herror
  rw [commitIn_of_not_panics hpanics]
  constructor
  · intro hintact
    by_contra hnot
    obtain ⟨e, s', hcommit, hheight⟩ := @exec_commit_of_not_rekeys keccak _ hnot
    rw [hcommit] at hintact
    exact not_intact_of_height hheight (hintact e s' rfl)
  · intro hrekeys e s' herror
    obtain ⟨root, hcommit⟩ := @exec_commit_of_rekeys keccak _ hrekeys
    rw [hcommit] at herror
    cases herror

theorem committed_height (s : State) : (s.committed keccak).height = s.height + 1 := by
  unfold committed
  split <;> rfl

section Manager

variable {σ : Type} (storage : StateStore σ) (store : σ)

theorem exec_managerCommit_error {e : Error} (h : exec (commit keccak) s = (.error e, s')) :
    exec (StateManager.commit keccak storage) ⟨s, store⟩ = (.error e, ⟨s', store⟩) := by
  unfold StateManager.commit
  exact Fallible.exec_bind_error (by rw [Fallible.exec_zoom, h])

/-- A manager commits as its state does, and then as its store saves. -/
theorem exec_managerCommit_ok {root : CommitRoot} (h : exec (commit keccak) s = (.ok root, s')) :
    exec (StateManager.commit keccak storage) ⟨s, store⟩ =
      (do let _ ← (exec (storage.saveLatest s'.persisted) store).1; return root,
        ⟨s', (exec (storage.saveLatest s'.persisted) store).2⟩) := by
  unfold StateManager.commit
  rw [Fallible.exec_bind_ok (by rw [Fallible.exec_zoom, h])]
  rw [Fallible.exec_bind_ok (Fallible.exec_get _)]
  rcases hsave : exec (storage.saveLatest s'.persisted) store with ⟨e | ⟨⟩, store'⟩
  · exact Fallible.exec_bind_error (by rw [Fallible.exec_zoom, hsave])
  · exact Fallible.exec_bind_ok (by rw [Fallible.exec_zoom, hsave])

/-- **Failed commits of a manager**: the state is intact exactly when they do not fail, or panic. -/
theorem intactOnError_managerCommit_iff (profile : Profile) :
    (∀ e m', StateManager.commitIn keccak profile storage ⟨s, store⟩ = (.returned (.error e), m') →
      s.Intact m'.state) ↔
    s.CommitPanics profile ∨
      s.Rekeys ∧ (exec (storage.saveLatest (s.committed keccak).persisted) store).1 = .ok ⟨⟩ := by
  by_cases hpanics : s.CommitPanics profile
  · refine iff_of_true (fun e m' herror => ?_) (Or.inl hpanics)
    rw [StateManager.commitIn, if_pos hpanics] at herror
    cases herror
  rw [or_iff_right hpanics, StateManager.commitIn, if_neg hpanics]
  constructor
  · intro hintact
    have hrekeys : s.Rekeys := by
      by_contra hnot
      obtain ⟨e, s', hcommit, hheight⟩ := exec_commit_of_not_rekeys hnot
      rw [exec_managerCommit_error storage store hcommit] at hintact
      exact not_intact_of_height hheight (hintact e _ rfl)
    refine ⟨hrekeys, ?_⟩
    obtain ⟨root, hcommit⟩ := exec_commit_of_rekeys hrekeys
    have hmanager := exec_managerCommit_ok storage store hcommit
    cases hsave : (exec (storage.saveLatest (s.committed keccak).persisted) store).1 with
    | ok _ => rfl
    | error e =>
      rw [hmanager, hsave] at hintact
      exact absurd (hintact e _ rfl) (not_intact_of_height (committed_height s))
  · rintro ⟨hrekeys, hsave⟩ e m' herror
    obtain ⟨root, hcommit⟩ := exec_commit_of_rekeys hrekeys
    have hmanager := exec_managerCommit_ok storage store hcommit
    rw [hmanager, hsave] at herror
    cases herror

end Manager

/-! ## Prefix deletes -/

/-- A round over a delta record writes nothing. -/
def deltaRound (entry : Entry) : Except Error (Option Bytes) := do
  let storageKey ← fromDeltaMptKey entry.1
  let _ ← storageKey.toKeyBytes
  return none

variable (keccak) in
/-- A round over an intermediate record writes a tombstone over a live one. -/
def intermediateRound (addressPrefix : Option Bytes) (deltaPadding : DeltaMptKeyPadding)
    (entry : Entry) : Except Error (Option Bytes) := do
  let storageKey ← fromDeltaMptKey entry.1
  let canonical ← storageKey.toKeyBytes
  if isFiltered addressPrefix canonical then return none
  else if entry.2.visibleValue.isSome then some <$> storageKey.deltaKey keccak deltaPadding
  else return none

variable (keccak) in
/-- A round over a snapshot record writes a tombstone over it. -/
def snapshotRound (deltaPadding : DeltaMptKeyPadding) (entry : MptKeyValue) :
    Except Error (Option Bytes) := do
  let storageKey ← fromKeyBytes entry.1
  some <$> storageKey.deltaKey keccak deltaPadding

variable (keccak) in
/-- The rounds of a prefix delete, each with the delta key that it writes a tombstone to. -/
def deleteRounds (s : State) (p : StorageKeyWithSpace)
    (canonicalPrefix deltaPrefix intermediatePrefix : Bytes) :
    List (Except Error (Option Bytes)) :=
  (StringMap.scanPrefix s.delta deltaPrefix).map deltaRound ++
    ((StringMap.scanPrefix s.intermediate intermediatePrefix).map
      (intermediateRound keccak (addressPrefixFilter p) s.deltaPadding) ++
    (s.snapshot.snapshotScanPrefix canonicalPrefix).map (snapshotRound keccak s.deltaPadding))

variable (keccak) in
/-- The prefix cannot be encoded, or no round fails, or what is done before the failing round is
nothing: every tombstone that is written is in the delta already, and every delta record under the
prefix is written again. -/
def Restores (s : State) (p : StorageKeyWithSpace) : Prop :=
  ∀ canonicalPrefix deltaPrefix intermediatePrefix, p.toKeyBytes = .ok canonicalPrefix →
    p.deltaKey keccak s.deltaPadding = .ok deltaPrefix →
    p.deltaKey keccak s.intermediatePadding = .ok intermediatePrefix →
    let rounds := s.deleteRounds keccak p canonicalPrefix deltaPrefix intermediatePrefix
    rounds.firstError ≠ none →
      (∀ raw ∈ rounds.beforeError.reduceOption, s.delta[raw]? = some .tombstone) ∧
      ∀ raw ∈ s.delta, deltaPrefix <+: raw → raw ∈ rounds.beforeError.reduceOption

/-- A delta with tombstones over the keys. -/
def bury (delta : ExtTreeMap Bytes MptValue) (raws : List Bytes) : ExtTreeMap Bytes MptValue :=
  raws.foldl (fun delta raw => delta.insert raw .tombstone) delta

theorem getElem?_bury (delta : ExtTreeMap Bytes MptValue) (raws : List Bytes) (raw : Bytes) :
    (bury delta raws)[raw]? = if raw ∈ raws then some .tombstone else delta[raw]? := by
  unfold bury
  induction raws generalizing delta with
  | nil => simp
  | cons raw' raws ih =>
    rw [List.foldl_cons, ih, getElem?_insert_eq]
    by_cases hmem : raw ∈ raws
    · rw [if_pos hmem, if_pos (List.mem_cons_of_mem _ hmem)]
    · rw [if_neg hmem]
      by_cases heq : raw' = raw
      · rw [if_pos heq, if_pos (heq ▸ List.mem_cons_self)]
      · rw [if_neg heq, if_neg (by simpa [Ne.symm heq] using hmem)]

variable (keccak) in
/-- The state `s'` is `s` with another delta. -/
structure SameBut (s : State) (delta : ExtTreeMap Bytes MptValue) (s' : State) : Prop where
  delta : s'.delta = delta
  snapshot : s'.snapshot = s.snapshot
  intermediate : s'.intermediate = s.intermediate
  snapshotRoot : s'.snapshotRoot = s.snapshotRoot
  intermediateRoot : s'.intermediateRoot = s.intermediateRoot
  intermediatePadding : s'.intermediatePadding = s.intermediatePadding
  deltaPadding : s'.deltaPadding = s.deltaPadding
  height : s'.height = s.height
  lastRoot : s'.lastRoot = s.lastRoot
  deltaAccountCache : s'.deltaAccountCache.Valid keccak

variable {delta : ExtTreeMap Bytes MptValue}

theorem SameBut.intact_iff (h : s.SameBut keccak delta s') : s.Intact s' ↔ delta = s.delta := by
  constructor
  · intro hintact
    exact h.delta.symm.trans hintact.delta
  · rintro rfl
    exact ⟨congrArg _ h.snapshot, h.intermediate, h.delta, h.snapshotRoot, h.intermediateRoot,
      h.intermediatePadding, h.deltaPadding, h.height, h.lastRoot⟩

theorem SameBut.deltaKeyCached (h : s.SameBut keccak delta s') (key : StorageKeyWithSpace) :
    ∃ s'', exec (deltaKeyCached keccak key) s' = (key.deltaKey keccak s.deltaPadding, s'') ∧
      s.SameBut keccak delta s'' := by
  obtain ⟨hraw, hvalid⟩ := key.toDeltaMptKeyBytes_spec keccak s'.deltaPadding
    (AccountKeyCache.valid_some h.deltaAccountCache)
  have hcache := AccountKeyCache.valid_getD h.deltaAccountCache hvalid
  rw [← h.deltaPadding, ← hraw]
  exact ⟨_, rfl, { h with deltaAccountCache := hcache }⟩

/-- A write of a tombstone. -/
theorem set_ends (h : s.SameBut keccak delta s') (key : StorageKeyWithSpace) :
    Ends (set keccak key []) s' (key.deltaKey keccak s.deltaPadding).failure
      (s.SameBut keccak (bury delta (key.deltaKey keccak s.deltaPadding).toOption.toList)) := by
  obtain ⟨s'', hexec, h'⟩ := h.deltaKeyCached key
  unfold set
  cases hkey : key.deltaKey keccak s.deltaPadding with
  | error e =>
    rw [hkey] at hexec
    exact Ends.bind_error ⟨congrArg (Except.failure ·.1) hexec, by rwa [hexec]⟩
  | ok raw =>
    rw [hkey] at hexec
    unfold Ends
    rw [Fallible.exec_bind_ok hexec]
    exact ⟨rfl, { h' with delta := congrArg (·.insert raw .tombstone) h'.delta }⟩

theorem deleteIntermediate_ends (h : s.SameBut keccak delta s') (addressPrefix : Option Bytes)
    (found : Collected) (entry : Entry) :
    Ends (deleteIntermediate (set keccak) addressPrefix found entry) s'
      (intermediateRound keccak addressPrefix s.deltaPadding entry).failure
      (s.SameBut keccak (bury delta
        (intermediateRound keccak addressPrefix s.deltaPadding entry).toOption.toList.reduceOption)) := by
  -- the round fails at the key, at its canonical form, or when the tombstone is written
  unfold deleteIntermediate intermediateRound
  cases hkey : fromDeltaMptKey entry.1 with
  | error e => exact Ends.lift_bind_error rfl h
  | ok storageKey =>
    refine Ends.lift_bind rfl ?_
    rw [Except.ok_bind]
    cases hcanonical : storageKey.toKeyBytes with
    | error e => exact Ends.lift_bind_error rfl h
    | ok canonical =>
      refine Ends.lift_bind rfl ?_
      rw [Except.ok_bind]
      cases isFiltered addressPrefix canonical with
      | true => exact Ends.pure found h
      | false =>
        cases entry.2.visibleValue.isSome with
        | false => exact Ends.pure _ h
        | true =>
          have hset := (set_ends h storageKey).map
            fun _ => found.add canonical entry.2.visibleValue
          cases hraw : storageKey.deltaKey keccak s.deltaPadding with
          | error e =>
            rw [hraw] at hset
            exact hset
          | ok raw =>
            rw [hraw] at hset
            exact hset

theorem deleteSnapshot_ends (h : s.SameBut keccak delta s') (found : Collected)
    (entry : MptKeyValue) :
    Ends (deleteSnapshot (set keccak) found entry) s'
      (snapshotRound keccak s.deltaPadding entry).failure
      (s.SameBut keccak (bury delta
        (snapshotRound keccak s.deltaPadding entry).toOption.toList.reduceOption)) := by
  unfold deleteSnapshot snapshotRound
  cases hkey : fromKeyBytes entry.1 with
  | error e => exact Ends.lift_bind_error rfl h
  | ok storageKey =>
    refine Ends.lift_bind rfl ?_
    rw [Except.ok_bind]
    have hset := (set_ends h storageKey).map fun _ => found.add entry.1 (some entry.2)
    cases hraw : storageKey.deltaKey keccak s.deltaPadding with
    | error e =>
      rw [hraw] at hset
      exact hset
    | ok raw =>
      rw [hraw] at hset
      exact hset

theorem bury_append (delta : ExtTreeMap Bytes MptValue) (raws raws' : List Bytes) :
    bury delta (raws ++ raws') = bury (bury delta raws) raws' := List.foldl_append

theorem foldlM_deleteIntermediate_ends (h : s.SameBut keccak delta s')
    (addressPrefix : Option Bytes) (intermediateKvs : List Entry) (found : Collected) :
    let rounds := intermediateKvs.map (intermediateRound keccak addressPrefix s.deltaPadding)
    Ends (intermediateKvs.foldlM (deleteIntermediate (set keccak) addressPrefix) found) s'
      rounds.firstError (s.SameBut keccak (bury delta rounds.beforeError.reduceOption)) := by
  apply Ends.foldlM (I := fun done => s.SameBut keccak (bury delta done.reduceOption)) _ _ [] _ h
  intro done entry found s' h
  have hround := deleteIntermediate_ends h addressPrefix found entry
  rwa [← bury_append, ← List.reduceOption_append] at hround

theorem foldlM_deleteSnapshot_ends (h : s.SameBut keccak delta s')
    (snapshotKvs : List MptKeyValue) (found : Collected) :
    let rounds := snapshotKvs.map (snapshotRound keccak s.deltaPadding)
    Ends (snapshotKvs.foldlM (deleteSnapshot (set keccak)) found) s' rounds.firstError
      (s.SameBut keccak (bury delta rounds.beforeError.reduceOption)) := by
  apply Ends.foldlM (I := fun done => s.SameBut keccak (bury delta done.reduceOption)) _ _ [] _ h
  intro done entry found s' h
  have hround := deleteSnapshot_ends h found entry
  rwa [← bury_append, ← List.reduceOption_append] at hround

/-- The two loops that write tombstones. -/
theorem deleteLoops_ends (h : s.SameBut keccak delta s') (addressPrefix : Option Bytes)
    (intermediateKvs : List Entry) (snapshotKvs : List MptKeyValue) (found : Collected) :
    let rounds :=
      intermediateKvs.map (intermediateRound keccak addressPrefix s.deltaPadding) ++
        snapshotKvs.map (snapshotRound keccak s.deltaPadding)
    Ends (do
        let found ← intermediateKvs.foldlM (deleteIntermediate (set keccak) addressPrefix) found
        let found ← snapshotKvs.foldlM (deleteSnapshot (set keccak)) found
        return found.result) s' rounds.firstError
      (s.SameBut keccak (bury delta rounds.beforeError.reduceOption)) := by
  intro rounds
  have hintermediate := foldlM_deleteIntermediate_ends h addressPrefix intermediateKvs found
  unfold rounds
  rw [List.firstError_append, List.beforeError_append, List.reduceOption_append, bury_append]
  cases hfirst : (intermediateKvs.map
      (intermediateRound keccak addressPrefix s.deltaPadding)).firstError with
  | some e =>
    simp only [hfirst] at hintermediate
    exact Ends.bind_error hintermediate
  | none =>
    simp only [hfirst] at hintermediate
    rw [Option.none_or, if_pos rfl]
    refine hintermediate.bind_ok fun found s' h => ?_
    exact (foldlM_deleteSnapshot_ends h snapshotKvs found).map _

/-- Looking at the delta records that have been removed. -/
theorem collectDeltaKvs_failure (addressPrefix : Option Bytes) (deltaKvs : List Entry) :
    (collectDeltaKvs addressPrefix deltaKvs).failure = (deltaKvs.map deltaRound).firstError := by
  apply List.failure_foldlM
  intro found entry
  unfold collectDelta deltaRound
  cases fromDeltaMptKey entry.1 with
  | error e => rfl
  | ok storageKey =>
    rw [Except.ok_bind, Except.ok_bind]
    cases storageKey.toKeyBytes with
    | error e => rfl
    | ok canonical =>
      rw [Except.ok_bind, Except.ok_bind]
      cases isFiltered addressPrefix canonical <;> rfl

theorem reduceOption_deltaRounds (deltaKvs : List Entry) :
    (deltaKvs.map deltaRound).beforeError.reduceOption = [] := by
  induction deltaKvs with
  | nil => rfl
  | cons entry deltaKvs ih =>
    rw [List.map_cons]
    unfold deltaRound
    cases fromDeltaMptKey entry.1 with
    | error e => rfl
    | ok storageKey =>
      rw [Except.ok_bind]
      cases storageKey.toKeyBytes with
      | error e => rfl
      | ok canonical => exact ih

/-- **How a prefix delete ends**, once the prefix is encoded: it fails as the first failing round
does, without the delta records under the prefix and with the tombstones of the rounds before. -/
theorem deletePrefix_ends (hcaches : s.ValidCaches keccak) {p : StorageKeyWithSpace}
    {canonicalPrefix deltaPrefix intermediatePrefix : Bytes}
    (hcanonical : p.toKeyBytes = .ok canonicalPrefix)
    (hdelta : p.deltaKey keccak s.deltaPadding = .ok deltaPrefix)
    (hintermediate : p.deltaKey keccak s.intermediatePadding = .ok intermediatePrefix) :
    let rounds := s.deleteRounds keccak p canonicalPrefix deltaPrefix intermediatePrefix
    ∃ delta : ExtTreeMap Bytes MptValue,
      (∀ raw : Bytes, delta[raw]? = if deltaPrefix <+: raw then none else s.delta[raw]?) ∧
      Ends (deletePrefix keccak p) s rounds.firstError
        (s.SameBut keccak (bury delta rounds.beforeError.reduceOption)) := by
  intro rounds
  -- the matching records of the delta are dropped before anything can fail
  obtain ⟨delta, deltaInc, hremove, -, hget⟩ := removeDelta_scan keccak s deltaPrefix
  refine ⟨delta, hget, ?_⟩
  have hsame : s.SameBut keccak delta
      (removeDelta s ((StringMap.scanPrefix s.delta deltaPrefix).map Prod.fst)).1 := by
    rw [hremove]
    exact ⟨rfl, rfl, rfl, rfl, rfl, rfl, rfl, rfl, rfl, hcaches.delta⟩
  unfold deletePrefix
  refine Ends.lift_bind hcanonical (Ends.read (Ends.lift_bind hdelta
    (Ends.lift_bind hintermediate ?_)))
  dsimp only
  rw [hremove]
  -- from here on the delta is the dropped one, buried by the rounds so far
  refine (Ends.update hsame).bind_ok fun _ s' h => ?_
  have hcollect := collectDeltaKvs_failure (addressPrefixFilter p)
    (StringMap.scanPrefix s.delta deltaPrefix)
  have hbefore := reduceOption_deltaRounds (StringMap.scanPrefix s.delta deltaPrefix)
  unfold rounds deleteRounds
  rw [List.firstError_append, List.beforeError_append, List.reduceOption_append, hbefore,
    List.nil_append, ← hcollect]
  cases hfound : collectDeltaKvs (addressPrefixFilter p)
      (StringMap.scanPrefix s.delta deltaPrefix) with
  | error e => exact Ends.lift_bind_error rfl h
  | ok found =>
    refine Ends.lift_bind rfl ?_
    exact deleteLoops_ends h (addressPrefixFilter p) _ _ found

/-- A prefix that cannot be encoded changes nothing. -/
theorem deletePrefix_ends_error (hcaches : s.ValidCaches keccak) {p : StorageKeyWithSpace}
    (h : ∀ canonicalPrefix deltaPrefix intermediatePrefix, p.toKeyBytes = .ok canonicalPrefix →
      p.deltaKey keccak s.deltaPadding = .ok deltaPrefix →
      p.deltaKey keccak s.intermediatePadding ≠ .ok intermediatePrefix) :
    ∃ e, Ends (deletePrefix keccak p) s (some e) (s.SameBut keccak s.delta) := by
  have hsame : s.SameBut keccak s.delta s :=
    ⟨rfl, rfl, rfl, rfl, rfl, rfl, rfl, rfl, rfl, hcaches.delta⟩
  unfold deletePrefix
  cases hcanonical : p.toKeyBytes with
  | error e => exact ⟨e, Ends.lift_bind_error rfl hsame⟩
  | ok canonicalPrefix =>
    cases hdelta : p.deltaKey keccak s.deltaPadding with
    | error e => exact ⟨e, Ends.lift_bind rfl (Ends.read (Ends.lift_bind_error hdelta hsame))⟩
    | ok deltaPrefix =>
      cases hintermediate : p.deltaKey keccak s.intermediatePadding with
      | error e =>
        exact ⟨e, Ends.lift_bind rfl (Ends.read (Ends.lift_bind hdelta
          (Ends.lift_bind_error hintermediate hsame)))⟩
      | ok intermediatePrefix =>
        exact absurd hintermediate (h canonicalPrefix deltaPrefix intermediatePrefix hcanonical hdelta)

/-- What is done before the failing round is nothing. -/
theorem bury_eq_iff {dropped : ExtTreeMap Bytes MptValue} {deltaPrefix : Bytes} {raws : List Bytes}
    (hget : ∀ raw : Bytes, dropped[raw]? = if deltaPrefix <+: raw then none else delta[raw]?) :
    bury dropped raws = delta ↔ (∀ raw ∈ raws, delta[raw]? = some .tombstone) ∧
      ∀ raw ∈ delta, deltaPrefix <+: raw → raw ∈ raws := by
  constructor
  · rintro rfl
    refine ⟨fun raw hraw => ?_, fun raw hmem hprefix => ?_⟩
    · rw [getElem?_bury, if_pos hraw]
    · by_contra hraw
      have hnone : (bury dropped raws)[raw]? = none := by
        rw [getElem?_bury, if_neg hraw, hget, if_pos hprefix]
      have hsome := ExtTreeMap.mem_iff_isSome_getElem?.mp hmem
      rw [hnone] at hsome
      cases hsome
  · rintro ⟨hwritten, hrestored⟩
    apply ExtTreeMap.ext_getElem?
    intro raw
    rw [getElem?_bury]
    by_cases hraw : raw ∈ raws
    · rw [if_pos hraw, hwritten raw hraw]
    · rw [if_neg hraw, hget]
      by_cases hprefix : deltaPrefix <+: raw
      · rw [if_pos hprefix]
        exact (ExtTreeMap.getElem?_eq_none fun hmem => hraw (hrestored raw hmem hprefix)).symm
      · rw [if_neg hprefix]

/-- A method that ends with another delta leaves the state intact on an error when it does not
fail, or when the delta is as before. -/
theorem intactOnError_iff_of_ends {α : Type} {x : Method α} {err : Option Error}
    (h : Ends x s err (s.SameBut keccak delta)) :
    (∀ e s', exec x s = (.error e, s') → s.Intact s') ↔ (err ≠ none → delta = s.delta) := by
  obtain ⟨hfail, hsame⟩ := h
  rw [← hsame.intact_iff]
  rcases hx : exec x s with ⟨e | a, s'⟩
  · rw [hx] at hfail
    rw [← hfail]
    constructor
    · exact fun hintact _ => hintact e s' rfl
    · rintro hintact e' s'' heq
      obtain ⟨-, rfl⟩ := Prod.mk.inj heq
      exact hintact (by simp)
  · rw [hx] at hfail
    rw [← hfail]
    constructor
    · exact fun _ hne => absurd rfl hne
    · intro _ e s'' heq
      cases heq

/-- **Failed prefix deletes**: exactly when the state is intact. -/
theorem intactOnError_deleteAllByPrefix_iff (hcaches : s.ValidCaches keccak)
    (p : StorageKeyWithSpace) :
    (∀ e s', exec (deleteAllByPrefix keccak p) s = (.error e, s') → s.Intact s') ↔
      s.Restores keccak p := by
  unfold deleteAllByPrefix
  by_cases hencoded : ∃ canonicalPrefix deltaPrefix intermediatePrefix,
      p.toKeyBytes = .ok canonicalPrefix ∧ p.deltaKey keccak s.deltaPadding = .ok deltaPrefix ∧
        p.deltaKey keccak s.intermediatePadding = .ok intermediatePrefix
  -- the prefix is encoded: the call ends after its rounds
  · obtain ⟨canonicalPrefix, deltaPrefix, intermediatePrefix, hcanonical, hdelta, hintermediate⟩ :=
      hencoded
    obtain ⟨dropped, hget, hends⟩ := deletePrefix_ends hcaches hcanonical hdelta hintermediate
    rw [intactOnError_iff_of_ends (hends.map nonEmpty), bury_eq_iff hget]
    constructor
    · intro h canonicalPrefix' deltaPrefix' intermediatePrefix' hcanonical' hdelta' hintermediate'
      obtain rfl := Except.ok.inj (hcanonical.symm.trans hcanonical')
      obtain rfl := Except.ok.inj (hdelta.symm.trans hdelta')
      obtain rfl := Except.ok.inj (hintermediate.symm.trans hintermediate')
      exact h
    · exact fun h => h _ _ _ hcanonical hdelta hintermediate
  -- otherwise it fails before the delta is touched
  · have hnone : ∀ canonicalPrefix deltaPrefix intermediatePrefix,
        p.toKeyBytes = .ok canonicalPrefix → p.deltaKey keccak s.deltaPadding = .ok deltaPrefix →
          p.deltaKey keccak s.intermediatePadding ≠ .ok intermediatePrefix :=
      fun _ _ _ hcanonical hdelta hintermediate =>
        hencoded ⟨_, _, _, hcanonical, hdelta, hintermediate⟩
    obtain ⟨e, hends⟩ := deletePrefix_ends_error hcaches hnone
    rw [intactOnError_iff_of_ends (hends.map nonEmpty)]
    constructor
    · intro _ _ _ _ hcanonical hdelta hintermediate
      exact absurd hintermediate (hnone _ _ _ hcanonical hdelta)
    · exact fun _ _ => rfl

/-! ## Caches -/

theorem ValidCaches.deltaKeyCached (h : s.ValidCaches keccak) (key : StorageKeyWithSpace) :
    Keeps (ValidCaches keccak) (deltaKeyCached keccak key) s := by
  obtain ⟨-, hvalid⟩ := key.toDeltaMptKeyBytes_spec keccak s.deltaPadding
    (AccountKeyCache.valid_some h.delta)
  exact ⟨AccountKeyCache.valid_getD h.delta hvalid, h.intermediate⟩

theorem ValidCaches.intermediateKeyCached (h : s.ValidCaches keccak) (key : StorageKeyWithSpace) :
    Keeps (ValidCaches keccak) (intermediateKeyCached keccak key) s := by
  obtain ⟨-, hvalid⟩ := key.toDeltaMptKeyBytes_spec keccak s.intermediatePadding
    (AccountKeyCache.valid_some h.intermediate)
  exact ⟨h.delta, AccountKeyCache.valid_getD h.intermediate hvalid⟩

theorem ValidCaches.get (h : s.ValidCaches keccak) (key : StorageKeyWithSpace) :
    Keeps (ValidCaches keccak) (get keccak key) s := by
  unfold State.get
  refine (h.deltaKeyCached key).bind fun deltaKey s h => Keeps.read ?_
  cases s.delta[deltaKey]? with
  | some value => exact Keeps.pure _ h
  | none =>
    refine (h.intermediateKeyCached key).bind fun intermediateKey s h => Keeps.read ?_
    cases s.intermediate[intermediateKey]? with
    | some value => exact Keeps.pure _ h
    | none => exact Keeps.lift_bind h fun canonical _ => Keeps.pure _ h

theorem ValidCaches.set (h : s.ValidCaches keccak) (key : StorageKeyWithSpace) (value : Bytes) :
    Keeps (ValidCaches keccak) (set keccak key value) s :=
  (h.deltaKeyCached key).bind fun _ _ h => Keeps.update ⟨h.delta, h.intermediate⟩

theorem ValidCaches.deletePrefix (h : s.ValidCaches keccak) (key : StorageKeyWithSpace) :
    Keeps (ValidCaches keccak) (deletePrefix keccak key) s := by
  unfold State.deletePrefix
  refine Keeps.lift_bind h fun _ _ => Keeps.read (Keeps.lift_bind h fun deltaPrefix _ =>
    Keeps.lift_bind h fun _ _ => ?_)
  obtain ⟨delta, deltaInc, hremove, -, -⟩ := removeDelta_scan keccak s deltaPrefix
  refine Keeps.bind (Keeps.update ?_) fun _ s h => Keeps.lift_bind h fun found _ => ?_
  · rw [hremove]
    exact ⟨h.delta, h.intermediate⟩
  · refine (Keeps.foldlM (fun entry _ found s h => ?_) _ h).bind fun found s h =>
      (Keeps.foldlM (fun entry _ found s h => ?_) _ h).bind fun found s h => Keeps.pure _ h
    · unfold deleteIntermediate
      refine Keeps.lift_bind h fun storageKey _ => Keeps.lift_bind h fun canonical _ => ?_
      split
      · exact Keeps.pure _ h
      · split
        · exact (h.set storageKey []).bind fun _ s h => Keeps.pure _ h
        · exact (Keeps.pure PUnit.unit h).bind fun _ s h => Keeps.pure _ h
    · unfold deleteSnapshot
      exact Keeps.lift_bind h fun storageKey _ =>
        (h.set storageKey []).bind fun _ s h => Keeps.pure _ h

theorem ValidCaches.commit (h : s.ValidCaches keccak) :
    Keeps (ValidCaches keccak) (commit keccak) s := by
  unfold State.commit advanceAfterCommit
  refine Keeps.read (Keeps.bind (Keeps.update ⟨h.delta, h.intermediate⟩) fun _ s h => ?_)
  refine Keeps.bind (Keeps.read ?_) fun _ s h => Keeps.pure _ h
  split
  · exact Keeps.pure _ h
  · refine Keeps.bind (Keeps.update ⟨h.delta, h.intermediate⟩) fun _ s h => ?_
    exact Keeps.lift_bind h fun updates _ =>
      Keeps.update ⟨AccountKeyCache.valid_default keccak, h.delta⟩

/-- **Every call keeps the caches valid**, whether it fails or not. -/
theorem ValidCaches.step (h : s.ValidCaches keccak) (op : Op) :
    (s.step keccak op).2.ValidCaches keccak := by
  cases op with
  | get key => exact (h.get key).bind fun _ _ h => Keeps.pure _ h
  | set key value => exact (h.set key value).bind fun _ _ h => Keeps.pure _ h
  | getAllByPrefix key =>
    exact Keeps.read (Keeps.lift_bind h fun _ _ => Keeps.pure _ h)
  | deleteAllByPrefix key =>
    exact ((h.deletePrefix key).bind fun _ _ h => Keeps.pure _ h).bind
      fun _ _ h => Keeps.pure _ h
  | commit => exact h.commit.bind fun _ _ h => Keeps.pure _ h

theorem validCaches_origin (keccak : Bytes → H256) (origin : Origin) :
    (origin.state keccak).ValidCaches keccak := by
  cases origin with
  | new => exact ⟨AccountKeyCache.valid_default keccak, AccountKeyCache.valid_default keccak⟩
  | withSnapshotEpochCount n =>
    exact ⟨AccountKeyCache.valid_default keccak, AccountKeyCache.valid_default keccak⟩
  | fromSnapshot snapshot =>
    exact ⟨AccountKeyCache.valid_default keccak, AccountKeyCache.valid_default keccak⟩

theorem validCaches_fromPersisted (keccak : Bytes → H256) (persisted : PersistedState) :
    (fromPersisted keccak persisted).ValidCaches keccak :=
  ⟨AccountKeyCache.valid_default keccak, AccountKeyCache.valid_default keccak⟩

/-- The caches are valid after every run from a state with valid caches. -/
theorem ValidCaches.final (h : s.ValidCaches keccak) (ops : List Op) :
    (Machine.final (State.step keccak) s ops).ValidCaches keccak := by
  induction ops generalizing s with
  | nil => exact h
  | cons op ops ih => exact ih (h.step op)

/-! ## Every failed call -/

/-- **Exactly when failed calls leave the state intact.** A commit does when it does not fail: it is
not at the end of a period, or every intermediate key can be decoded; for the commit of a manager
the store has to save the state, too, unless the commit panics. A prefix delete does when the prefix
cannot be encoded, or when what it has done before the failing round is nothing. -/
theorem intactOnError_iff (hcaches : s.ValidCaches keccak) (profile : Profile) {σ : Type}
    (storage : StateStore σ) (store : σ) (p : StorageKeyWithSpace) :
    ((∀ e s', commitIn keccak profile s = (.returned (.error e), s') → s.Intact s') ↔
      s.Rekeys) ∧
    ((∀ e m', StateManager.commitIn keccak profile storage ⟨s, store⟩ =
        (.returned (.error e), m') → s.Intact m'.state) ↔
      s.CommitPanics profile ∨
        s.Rekeys ∧ (exec (storage.saveLatest (s.committed keccak).persisted) store).1 = .ok ⟨⟩) ∧
    ((∀ e s', exec (deleteAllByPrefix keccak p) s = (.error e, s') → s.Intact s') ↔
      s.Restores keccak p) :=
  ⟨intactOnError_commit_iff profile, intactOnError_managerCommit_iff storage store profile,
    intactOnError_deleteAllByPrefix_iff hcaches p⟩

/-- A state at the end of a period, with a record in its delta and an undecodable intermediate
key. -/
def undecodable (keccak : Bytes → H256) : State :=
  fromPersisted keccak
    { snapshot := ∅
      intermediate := (∅ : ExtTreeMap Bytes MptValueDisk).insert (List.replicate 40 0) (.some [1])
      delta := (∅ : ExtTreeMap Bytes MptValueDisk).insert [5] (.some [2])
      intermediateMptKeyPadding := merkleNullNode
      deltaMptKeyPadding := merkleNullNode
      height := 0
      snapshotEpochCount := 1
      lastRoot := none }

theorem undecodable_not_rekeys : ¬ (undecodable keccak).Rekeys := by
  intro h
  have hget : (undecodable keccak).intermediate[List.replicate 40 (0 : UInt8)]? =
      some (.some [1]) := rfl
  have hends : EndsPeriod ((undecodable keccak).height + 1)
      (undecodable keccak).snapshotEpochCount := by
    show EndsPeriod 1 1
    decide
  obtain ⟨update, hupdate⟩ := h hends _ (StringMap.mem_toList.mpr hget)
  cases hupdate

theorem undecodable_not_restores : ¬ (undecodable keccak).Restores keccak ⟨.empty, .native⟩ := by
  intro h
  have hget : (undecodable keccak).delta[[(5 : UInt8)]]? = some (.some [2]) := rfl
  have hrestored := (h [] [] [] rfl rfl rfl (by intro h; cases h)).2 [5]
    (ExtTreeMap.mem_iff_isSome_getElem?.mpr (by rw [hget]; rfl)) List.nil_prefix
  cases hrestored

/-- A store that saves nothing. -/
def fullStore : StateStore Unit where
  saveLatest _ := throw (.io "disk full")

/-- A commit and a prefix delete that meet an undecodable key, and a commit that is not saved. -/
theorem not_intactOnError :
    (∀ profile, ¬ ∀ e s', commitIn keccak256 profile (undecodable keccak256) =
      (.returned (.error e), s') → (undecodable keccak256).Intact s') ∧
    (¬ ∀ e s', exec (deleteAllByPrefix keccak256 ⟨.empty, .native⟩) (undecodable keccak256) =
      (.error e, s') → (undecodable keccak256).Intact s') ∧
    ∀ profile, ¬ ∀ e m', StateManager.commitIn keccak256 profile fullStore ⟨new keccak256, ()⟩ =
      (.returned (.error e), m') → (new keccak256).Intact m'.state := by
  refine ⟨fun profile => ?_, ?_, fun profile => ?_⟩
  · rw [intactOnError_commit_iff]
    exact undecodable_not_rekeys
  · have hcaches : (undecodable keccak256).ValidCaches keccak256 := validCaches_fromPersisted _ _
    rw [intactOnError_deleteAllByPrefix_iff hcaches]
    exact undecodable_not_restores
  · rw [intactOnError_managerCommit_iff]
    rintro (⟨-, hzero⟩ | ⟨-, hsave⟩)
    · exact absurd hzero (by decide)
    · cases hsave

/-- A new state over a store in memory: nothing fails. -/
theorem intactOnError_iff_new :
    (new keccak256).Rekeys ∧
    (∀ e s', commitIn keccak256 ⟨true⟩ (new keccak256) = (.returned (.error e), s') →
      (new keccak256).Intact s') ∧
    (∀ e m', StateManager.commitIn keccak256 ⟨true⟩ memoryStore ⟨new keccak256, none⟩ =
      (.returned (.error e), m') → (new keccak256).Intact m'.state) ∧
    ∀ e s', exec (deleteAllByPrefix keccak256 ⟨.empty, .native⟩) (new keccak256) = (.error e, s') →
      (new keccak256).Intact s' := by
  obtain ⟨hcommit, hmanager, hdelete⟩ := intactOnError_iff (validCaches_origin keccak256 .new)
    ⟨true⟩ memoryStore none ⟨.empty, .native⟩
  have hrekeys : (new keccak256).Rekeys := fun _ e he => by cases he
  refine ⟨hrekeys, hcommit.mpr hrekeys, hmanager.mpr (Or.inr ⟨hrekeys, rfl⟩), hdelete.mpr ?_⟩
  intro canonicalPrefix deltaPrefix intermediatePrefix hcanonical hdelta hintermediate
  obtain rfl := Except.ok.inj hcanonical
  obtain rfl := Except.ok.inj hdelta
  obtain rfl := Except.ok.inj hintermediate
  exact fun hfail => absurd rfl hfail

end State

end MinimalMpt
