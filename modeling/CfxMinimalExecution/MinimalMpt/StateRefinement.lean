import CfxMinimalExecution.MinimalMpt.Layers

/-!
# The state refines its layers

A state represents layers when its maps and tries hold their contents, its roots and paddings are
those of the layers, and its caches are valid. Every call then returns what the layers return and
ends in a state that represents the layers after the call; errors included.

## Main definitions

* `State.Represents`: the representation invariant

## Main results

* `State.simulation`: the state simulates the layers
* `State.exists_represents_final`: every run ends in a state that represents layers
-/

open Std (ExtTreeMap)
open Fallible (exec exec_bind_ok exec_bind_error exec_get exec_modify exec_lift Coupled)

namespace MinimalMpt

variable {keccak : Bytes → H256}

/-- The state holds the layers, with their roots and paddings and with valid caches. -/
structure State.Represents (keccak : Bytes → H256) (s : State) (L : Layers keccak) : Prop where
  snapshot : s.snapshot.Represents keccak L.snapshot
  intermediate : s.intermediate = L.intermediate.entries
  delta : s.delta = L.delta.entries
  snapshotRoot : s.snapshotRoot = L.snapshotRoot
  intermediateRoot : s.intermediateRoot = L.intermediateRoot
  intermediatePadding : s.intermediatePadding = L.intermediatePadding
  deltaPadding : s.deltaPadding = L.deltaPadding
  height : s.height = L.height
  snapshotEpochCount : s.snapshotEpochCount = L.snapshotEpochCount
  lastRoot : s.lastRoot = L.lastRoot
  deltaInc : s.deltaInc.Represents keccak L.delta.entries
  deltaAccountCache : s.deltaAccountCache.Valid keccak
  intermediateAccountCache : s.intermediateAccountCache.Valid keccak

namespace State

variable {s : State} {L : Layers keccak}

/-! ## The first states -/

theorem represents_fromSnapshot (snapshot : ExtTreeMap Bytes Bytes) :
    (fromSnapshot keccak snapshot).Represents keccak
      (.ofSnapshot keccak snapshot defaultSnapshotEpochCount (by decide)) := by
  obtain ⟨hroot, htrie⟩ := SnapshotTrie.Represents.rootWithPolicy
    (SnapshotTrie.represents_fromSnapshot snapshot : SnapshotTrie.Represents keccak _ _)
    .skipSingleton
  exact {
    snapshot := htrie
    intermediate := rfl
    delta := rfl
    snapshotRoot := hroot
    intermediateRoot := rfl
    intermediatePadding := rfl
    deltaPadding := congrArg (DeltaMptKeyPadding.fromRoots keccak · merkleNullNode) hroot
    height := rfl
    snapshotEpochCount := rfl
    lastRoot := rfl
    deltaInc := IncrementalTrie.represents_origin .empty
    deltaAccountCache := AccountKeyCache.valid_default keccak
    intermediateAccountCache := AccountKeyCache.valid_default keccak }

/-- The empty state represents empty layers, at any period. -/
theorem represents_empty (snapshotEpochCount : UInt32) (h : 0 < snapshotEpochCount) :
    State.Represents keccak { new keccak with snapshotEpochCount := snapshotEpochCount }
      (.ofSnapshot keccak ∅ snapshotEpochCount h) where
  snapshot := SnapshotTrie.represents_empty
  intermediate := rfl
  delta := rfl
  snapshotRoot := rfl
  intermediateRoot := rfl
  intermediatePadding := rfl
  deltaPadding := rfl
  height := rfl
  snapshotEpochCount := rfl
  lastRoot := rfl
  deltaInc := IncrementalTrie.represents_origin .empty
  deltaAccountCache := AccountKeyCache.valid_default keccak
  intermediateAccountCache := AccountKeyCache.valid_default keccak

theorem represents_new :
    (new keccak).Represents keccak (.ofSnapshot keccak ∅ defaultSnapshotEpochCount (by decide)) :=
  represents_empty _ _

theorem represents_withSnapshotEpochCount (snapshotEpochCount : UInt32) :
    (withSnapshotEpochCount keccak snapshotEpochCount).Represents keccak
      (.ofSnapshot keccak ∅ (atLeastOne snapshotEpochCount)
        (atLeastOne_pos snapshotEpochCount)) :=
  represents_empty _ _

/-! ## Keys -/

theorem deltaKeyCached_spec (h : s.Represents keccak L) (key : StorageKeyWithSpace) :
    ∃ s', exec (deltaKeyCached keccak key) s = (key.deltaKey keccak L.deltaPadding, s') ∧
      s'.Represents keccak L := by
  obtain ⟨hraw, hvalid⟩ := StorageKeyWithSpace.toDeltaMptKeyBytes_spec keccak key s.deltaPadding
    (AccountKeyCache.valid_some h.deltaAccountCache)
  rw [← h.deltaPadding, ← hraw]
  refine ⟨_, rfl, { h with deltaAccountCache := ?_ }⟩
  exact AccountKeyCache.valid_getD h.deltaAccountCache hvalid

theorem intermediateKeyCached_spec (h : s.Represents keccak L) (key : StorageKeyWithSpace) :
    ∃ s', exec (intermediateKeyCached keccak key) s =
        (key.deltaKey keccak L.intermediatePadding, s') ∧ s'.Represents keccak L := by
  obtain ⟨hraw, hvalid⟩ := StorageKeyWithSpace.toDeltaMptKeyBytes_spec keccak key
    s.intermediatePadding (AccountKeyCache.valid_some h.intermediateAccountCache)
  rw [← h.intermediatePadding, ← hraw]
  refine ⟨_, rfl, { h with intermediateAccountCache := ?_ }⟩
  exact AccountKeyCache.valid_getD h.intermediateAccountCache hvalid

/-! ## Reads and writes -/

/-- A read returns what the layers hold, and changes nothing but the caches. -/
theorem get_spec (h : s.Represents keccak L) (key : StorageKeyWithSpace) :
    ∃ s', exec (get keccak key) s = (L.get key, s') ∧ s'.Represents keccak L := by
  -- each lookup may fill a cache, which the layers do not see
  obtain ⟨s₁, hdelta, h₁⟩ := deltaKeyCached_spec h key
  unfold get Layers.get
  cases hkey : key.deltaKey keccak L.deltaPadding with
  | error e => exact ⟨s₁, exec_bind_error (hkey ▸ hdelta), h₁⟩
  -- the layers are asked one after the other, down to the first that has the key
  | ok deltaKey =>
    rw [hkey] at hdelta
    rw [exec_bind_ok hdelta, exec_bind_ok (exec_get s₁), h₁.delta, Except.ok_bind]
    cases L.delta.entries[deltaKey]? with
    | some value => exact ⟨s₁, rfl, h₁⟩
    | none =>
      obtain ⟨s₂, hintermediate, h₂⟩ := intermediateKeyCached_spec h₁ key
      dsimp only
      cases hkey' : key.deltaKey keccak L.intermediatePadding with
      | error e => exact ⟨s₂, exec_bind_error (hkey' ▸ hintermediate), h₂⟩
      | ok intermediateKey =>
        rw [hkey'] at hintermediate
        rw [exec_bind_ok hintermediate, exec_bind_ok (exec_get s₂), h₂.intermediate,
          Except.ok_bind]
        cases L.intermediate.entries[intermediateKey]? with
        | some value => exact ⟨s₂, rfl, h₂⟩
        | none =>
          dsimp only
          cases hcanonical : key.toKeyBytes with
          | error e => exact ⟨s₂, rfl, h₂⟩
          | ok canonical =>
            refine ⟨s₂, ?_, h₂⟩
            rw [exec_bind_ok (exec_lift _ s₂), Except.ok_bind, h₂.snapshot.snapshotGetOwned]
            rfl

/-- A write records the value in the delta, its trie and the layers. -/
theorem set_coupled (h : s.Represents keccak L) (key : StorageKeyWithSpace) (value : Bytes) :
    Coupled (State.Represents keccak) (set keccak key value) s (Layers.set key value) L := by
  obtain ⟨s₁, hdelta, h₁⟩ := deltaKeyCached_spec h key
  unfold set Layers.set Coupled
  rw [exec_bind_ok (exec_get L)]
  cases hkey : key.deltaKey keccak L.deltaPadding with
  | error e =>
    rw [hkey] at hdelta
    rw [exec_bind_error hdelta, exec_bind_error (exec_lift _ L)]
    exact ⟨rfl, h₁⟩
  | ok raw =>
    rw [hkey] at hdelta
    -- the delta and its trie get the value at the same key
    rw [exec_bind_ok hdelta, exec_bind_ok (exec_lift _ L)]
    have hentries : (L.write key (storedValue value)).delta.entries =
        L.delta.entries.insert raw (storedValue value) := Layer.entries_write L.delta hkey _
    refine ⟨rfl, { h₁ with delta := ?_, deltaInc := ?_ }⟩
    · exact (congrArg (·.insert raw (storedValue value)) h₁.delta).trans hentries.symm
    · exact hentries ▸ h₁.deltaInc.insert raw (storedValue value)

/-! ## Prefix reads and deletes -/

theorem readPrefix_eq (h : s.Represents keccak L) (key : StorageKeyWithSpace) :
    readPrefix keccak s key = L.readPrefix key := by
  unfold readPrefix Layers.readPrefix
  simp only [h.delta, h.intermediate, h.deltaPadding, h.intermediatePadding,
    h.snapshot.snapshotScanPrefix]
  rfl

/-- The removal loop removes exactly the scanned keys, which it returns with their values. -/
theorem removeDelta_spec {deltaKvs : List Entry} (hnodup : (deltaKvs.map Prod.fst).Nodup)
    (hmem : ∀ e ∈ deltaKvs, s.delta[e.1]? = some e.2) :
    ∃ delta deltaInc, removeDelta s (deltaKvs.map Prod.fst) =
        ({ s with delta := delta, deltaInc := deltaInc }, deltaKvs) ∧
      (s.deltaInc.Represents keccak s.delta → deltaInc.Represents keccak delta) ∧
      ∀ k : Bytes, delta[k]? = if k ∈ deltaKvs.map Prod.fst then none else s.delta[k]? := by
  induction deltaKvs generalizing s with
  | nil => exact ⟨s.delta, s.deltaInc, rfl, id, fun k => by simp⟩
  | cons e deltaKvs ih =>
    obtain ⟨k, v⟩ := e
    rw [List.map_cons, List.nodup_cons] at hnodup
    have hk : s.delta[k]? = some v := hmem (k, v) List.mem_cons_self
    -- the records left are still there once `k` is gone
    have hrest : ∀ e ∈ deltaKvs, (s.delta.erase k)[e.1]? = some e.2 := by
      intro e he
      rw [getElem?_erase_eq, if_neg, hmem e (List.mem_cons_of_mem _ he)]
      rintro rfl
      exact hnodup.1 (List.mem_map.mpr ⟨e, he, rfl⟩)
    obtain ⟨delta, deltaInc, heq, hinc', hget⟩ :=
      ih (s := { s with delta := s.delta.erase k, deltaInc := s.deltaInc.remove k }) hnodup.2 hrest
    refine ⟨delta, deltaInc, ?_, fun hinc => hinc' (hinc.remove k), ?_⟩
    · rw [List.map_cons, removeDelta, hk]
      dsimp only
      rw [heq]
    · intro l
      rw [hget l, List.map_cons, getElem?_erase_eq]
      -- `l` is removed later on, is `k` itself, or stays
      by_cases hl : l ∈ deltaKvs.map Prod.fst
      · rw [if_pos hl, if_pos (List.mem_cons_of_mem k hl)]
      · rw [if_neg hl]
        by_cases hkl : k = l
        · rw [if_pos hkl, if_pos (hkl ▸ List.mem_cons_self)]
        · rw [if_neg hkl, if_neg]
          rw [List.mem_cons, not_or]
          exact ⟨Ne.symm hkl, hl⟩

/-- The removal loop over what a prefix scan finds returns the scan and drops its records. -/
theorem removeDelta_scan (keccak : Bytes → H256) (s : State) (deltaPrefix : Bytes) :
    ∃ delta deltaInc,
      removeDelta s ((StringMap.scanPrefix s.delta deltaPrefix).map Prod.fst) =
        ({ s with delta := delta, deltaInc := deltaInc },
          StringMap.scanPrefix s.delta deltaPrefix) ∧
      (s.deltaInc.Represents keccak s.delta → deltaInc.Represents keccak delta) ∧
      ∀ k : Bytes, delta[k]? = if deltaPrefix <+: k then none else s.delta[k]? := by
  have hscan := StringMap.scanPrefix_eq_filter s.delta deltaPrefix
  have hnodup : ((StringMap.scanPrefix s.delta deltaPrefix).map Prod.fst).Nodup := by
    rw [hscan]
    exact ((StringMap.sorted_toList s.delta).filter _).nodup_keys
  have hmem : ∀ e ∈ StringMap.scanPrefix s.delta deltaPrefix, s.delta[e.1]? = some e.2 := by
    intro e he
    rw [hscan] at he
    rw [← StringMap.mem_toList]
    exact List.mem_of_mem_filter he
  obtain ⟨delta, deltaInc, heq, hinc, hget⟩ := @removeDelta_spec keccak _ _ hnodup hmem
  refine ⟨delta, deltaInc, heq, hinc, fun k => ?_⟩
  rw [hget k]
  by_cases hk : k ∈ s.delta
  · refine if_congr ?_ rfl rfl
    rw [hscan, List.mem_map]
    constructor
    · rintro ⟨e, he, rfl⟩
      exact of_decide_eq_true (List.mem_filter.mp he).2
    · intro hp
      obtain ⟨v, hv⟩ := Option.isSome_iff_exists.mp (ExtTreeMap.mem_iff_isSome_getElem?.mp hk)
      exact ⟨(k, v), List.mem_filter.mpr ⟨StringMap.mem_toList.mpr hv, decide_eq_true hp⟩, rfl⟩
  · rw [ExtTreeMap.getElem?_eq_none hk, ite_self, ite_self]

/-- Removing what a prefix scan of the delta finds drops the records under the prefix. -/
theorem removeDelta_scanPrefix (h : s.Represents keccak L) (deltaPrefix : Bytes) :
    (removeDelta s ((StringMap.scanPrefix L.delta.entries deltaPrefix).map Prod.fst)).2 =
      StringMap.scanPrefix L.delta.entries deltaPrefix ∧
    (removeDelta s ((StringMap.scanPrefix L.delta.entries deltaPrefix).map Prod.fst)).1.Represents
      keccak (L.dropDelta deltaPrefix) := by
  obtain ⟨delta, deltaInc, heq, hinc, hget⟩ := removeDelta_scan keccak s deltaPrefix
  rw [h.delta] at heq hget
  have hdelta : delta = (L.dropDelta deltaPrefix).delta.entries := by
    refine ExtTreeMap.ext_getElem? fun k => ?_
    rw [hget k]
    exact (Layer.getElem?_dropPrefix L.delta deltaPrefix k).symm
  rw [heq]
  exact ⟨rfl, { h with delta := hdelta, deltaInc := hdelta ▸ hinc (h.delta ▸ h.deltaInc) }⟩

theorem deleteIntermediate_coupled (h : s.Represents keccak L) (addressPrefix : Option Bytes)
    (found : Collected) (entry : Entry) :
    Coupled (State.Represents keccak) (deleteIntermediate (set keccak) addressPrefix found entry) s
      (deleteIntermediate Layers.set addressPrefix found entry) L := by
  unfold deleteIntermediate
  refine (Coupled.lift _ h).bind fun storageKey s L h => ?_
  refine (Coupled.lift _ h).bind fun canonical s L h => ?_
  cases isFiltered addressPrefix canonical with
  | true => exact Coupled.pure found h
  | false =>
    cases entry.2.visibleValue.isSome with
    | true => exact (set_coupled h storageKey []).bind fun _ s L h => Coupled.pure _ h
    | false => exact (Coupled.pure PUnit.unit h).bind fun _ s L h => Coupled.pure _ h

theorem deleteSnapshot_coupled (h : s.Represents keccak L) (found : Collected)
    (entry : MptKeyValue) :
    Coupled (State.Represents keccak) (deleteSnapshot (set keccak) found entry) s
      (deleteSnapshot Layers.set found entry) L := by
  unfold deleteSnapshot
  refine (Coupled.lift _ h).bind fun storageKey s L h => ?_
  exact (set_coupled h storageKey []).bind fun _ s L h => Coupled.pure _ h

/-- A delete drops the same records and writes the same tombstones. -/
theorem deletePrefix_coupled (h : s.Represents keccak L) (key : StorageKeyWithSpace) :
    Coupled (State.Represents keccak) (deletePrefix keccak key) s (Layers.deletePrefix key) L := by
  unfold deletePrefix Layers.deletePrefix
  refine Coupled.lift_bind h fun canonicalPrefix _ => Coupled.read ?_
  dsimp only
  rw [h.deltaPadding, h.intermediatePadding]
  refine Coupled.lift_bind h fun deltaPrefix _ => Coupled.lift_bind h fun intermediatePrefix _ => ?_
  obtain ⟨hkvs, hdrop⟩ := removeDelta_scanPrefix h deltaPrefix
  rw [h.delta, hkvs, h.intermediate, h.snapshot.snapshotScanPrefix]
  refine (Coupled.update hdrop).bind fun _ s' L' h' => Coupled.lift_bind h' fun found _ => ?_
  refine (Coupled.foldlM (fun found entry s L h => deleteIntermediate_coupled h _ found entry)
    _ found h').bind fun found s' L' h' => ?_
  refine (Coupled.foldlM (fun found entry s L h => deleteSnapshot_coupled h found entry)
    _ found h').bind fun found s' L' h' => ?_
  exact Coupled.pure _ h'

/-! ## Commits -/

/-- The rotation absorbs the intermediate layer and shifts the delta down. -/
theorem advanceAfterCommit_spec (h : s.Represents keccak L) :
    ∃ s', exec (advanceAfterCommit keccak L.deltaRoot) s = (.ok ⟨⟩, s') ∧
      s'.Represents keccak (if EndsPeriod L.height L.snapshotEpochCount then L.rotate else L) := by
  unfold advanceAfterCommit
  rw [exec_bind_ok (exec_get s), h.height, h.snapshotEpochCount]
  by_cases hperiod : EndsPeriod L.height L.snapshotEpochCount
  · rw [if_neg (mt or_not_dvd_iff.mp (not_not.mpr hperiod)), if_pos hperiod,
      exec_bind_ok (exec_modify _ s), h.intermediate, L.intermediate.snapshotUpdates_eq,
      exec_bind_ok (exec_lift _ _)]
    obtain ⟨hroot, hsnapshot⟩ :=
      (h.snapshot.applyUpdates L.intermediate.updates).rootWithPolicy .skipSingleton
    exact ⟨_, rfl, {
      snapshot := hsnapshot
      intermediate := h.delta
      delta := rfl
      snapshotRoot := hroot
      intermediateRoot := rfl
      intermediatePadding := h.deltaPadding
      deltaPadding := congrArg (DeltaMptKeyPadding.fromRoots keccak · L.deltaRoot) hroot
      height := h.height
      snapshotEpochCount := h.snapshotEpochCount
      lastRoot := h.lastRoot
      deltaInc := IncrementalTrie.represents_clear s.deltaInc
      deltaAccountCache := AccountKeyCache.valid_default keccak
      intermediateAccountCache := h.deltaAccountCache }⟩
  · rw [if_pos (or_not_dvd_iff.mpr hperiod), if_neg hperiod]
    exact ⟨s, rfl, h⟩

/-- A commit returns the roots of the layers and never fails. -/
theorem commit_spec (h : s.Represents keccak L) :
    ∃ s', exec (commit keccak) s = (.ok L.commitRoot, s') ∧ s'.Represents keccak L.commit := by
  obtain ⟨hinc, hincRep⟩ := h.deltaInc.root parallelRebuildThreshold parallelRebuildDepth .full
  have hroot : (s.deltaInc.root keccak).1 = L.deltaRoot := hinc
  have hcommitRoot : CommitRoot.new keccak s.snapshotRoot s.intermediateRoot L.deltaRoot
      s.deltaPadding = L.commitRoot := by
    rw [h.snapshotRoot, h.intermediateRoot, h.deltaPadding]
    rfl
  have hnext : State.Represents keccak
      { s with
        deltaInc := (s.deltaInc.root keccak).2
        lastRoot := some L.commitRoot
        height := s.height + 1 }
      { L with lastRoot := some L.commitRoot, height := L.height + 1 } :=
    { h with deltaInc := hincRep, lastRoot := rfl, height := congrArg (· + 1) h.height }
  obtain ⟨s', hadvance, hs'⟩ := advanceAfterCommit_spec hnext
  refine ⟨s', ?_, hs'⟩
  unfold commit
  rw [exec_bind_ok (exec_get s)]
  dsimp only
  rw [hroot, hcommitRoot, exec_bind_ok (exec_modify _ s)]
  exact exec_bind_ok hadvance

/-! ## Every call -/

theorem call_coupled (h : s.Represents keccak L) (op : Op) :
    Coupled (State.Represents keccak) (call keccak op) s (Layers.call op) L := by
  cases op with
  | get key =>
    obtain ⟨s', hget, h'⟩ := get_spec h key
    exact Coupled.query_bind hget h' fun value => Coupled.pure _ h'
  | set key value => exact (set_coupled h key value).bind fun _ s L h => Coupled.pure _ h
  | getAllByPrefix key =>
    refine Coupled.read ?_
    have hread : getAllByPrefix keccak s key = L.getAllByPrefix key := by
      unfold getAllByPrefix Layers.getAllByPrefix
      rw [readPrefix_eq h]
    rw [hread]
    exact Coupled.lift_bind h fun values _ => Coupled.pure _ h
  | deleteAllByPrefix key =>
    refine Coupled.bind ?_ fun values s L h => Coupled.pure _ h
    exact (deletePrefix_coupled h key).bind fun values s L h => Coupled.pure _ h
  | commit =>
    obtain ⟨s', hcommit, h'⟩ := commit_spec h
    unfold Coupled call Layers.call
    rw [exec_bind_ok hcommit, exec_bind_ok (exec_get L), exec_bind_ok (exec_modify _ L)]
    exact ⟨rfl, h'⟩

/-- **The state simulates its layers**: every call returns alike and keeps the representation. -/
theorem simulation :
    Machine.Simulation (step keccak) (@Layers.step keccak) (fun _ => True)
      (State.Represents keccak) where
  reply := fun _ h => (call_coupled h _).1
  next := fun _ h => (call_coupled h _).2

/-- A read returns what the layers hold. -/
theorem Represents.get_reply (h : s.Represents keccak L) (key : StorageKeyWithSpace) :
    (step keccak s (.get key)).1 = (L.get key).map Reply.value := by
  rw [simulation.reply trivial h]
  show (exec (getThe (Layers keccak) >>= fun L => _) L).1 = _
  rw [exec_bind_ok (exec_get L)]
  cases L.get key <;> rfl

/-- A prefix read returns what the layers hold under the prefix. -/
theorem Represents.getAllByPrefix_reply (h : s.Represents keccak L) (key : StorageKeyWithSpace) :
    (step keccak s (.getAllByPrefix key)).1 = (L.getAllByPrefix key).map Reply.entries := by
  rw [simulation.reply trivial h]
  show (exec (getThe (Layers keccak) >>= fun L => _) L).1 = _
  rw [exec_bind_ok (exec_get L)]
  cases L.getAllByPrefix key <;> rfl

variable (keccak)

theorem exists_represents_origin (origin : Origin) :
    ∃ L : Layers keccak, (origin.state keccak).Represents keccak L := by
  cases origin with
  | new => exact ⟨_, represents_new⟩
  | withSnapshotEpochCount n => exact ⟨_, represents_withSnapshotEpochCount n⟩
  | fromSnapshot snapshot => exact ⟨_, represents_fromSnapshot snapshot⟩

/-- Every run from a fresh state ends in a state that represents layers. -/
theorem exists_represents_final (origin : Origin) (ops : List Op) :
    ∃ L : Layers keccak,
      (Machine.final (step keccak) (origin.state keccak) ops).Represents keccak L := by
  obtain ⟨L, h⟩ := exists_represents_origin keccak origin
  exact ⟨_, simulation.final_rel h fun _ _ => trivial⟩

end State

end MinimalMpt
