import CfxMinimalExecution.MinimalMpt.LayeredStateDelete

/-!
# Runs of the state beside its reference model

Commits and checkpoints keep the state and the reference model of `layered_state_ops.rs` in
agreement, and so does every call of the program. A run may start from any snapshot and any
intermediate layer, under the genesis paddings, and its prefixes may be storage keys cut short.

## Main definitions

* `Model.rotated`: the model at the end of a period
* `Stores`: a persisted state holds the layers of the model

## Main results

* `Agrees.commit`, `Agrees.stores`, `Stores.agrees`: commits and checkpoints keep the agreement
* `Agrees.runOp`: so does every call, and no assertion of the program fails
* `fuzzTarget_isSome`: the program runs to its end on every case
-/

open Std (ExtTreeMap ExtTreeSet)
open Fallible (exec Ensures)

namespace MinimalMpt

namespace LayeredStateOps

open StorageKeyWithSpace (fromDeltaMptKey fromKeyBytes Full Storable)

variable {keccak : Bytes → H256} {padding : DeltaMptKeyPadding}
  {entries : ExtTreeMap Bytes MptValue} {records : ExtTreeMap Bytes ModelValue}

/-! ## Commits -/

/-- The records of a layer of the state are those of the layer of the model, by canonical key. -/
theorem SameRecords.mem_updates (h : SameRecords keccak padding entries records) {c : Bytes}
    {r : Option Bytes} : (c, r) ∈ h.layer.updates.map MinimalMpt.record ↔
      (c, r) ∈ records.toList.map fun e => (e.1, e.2.value) := by
  rw [Layer.updates, List.map_map, List.mem_map, List.mem_map]
  constructor
  · rintro ⟨⟨raw, value⟩, hmem, heq⟩
    rcases Prod.mk.inj heq with ⟨rfl, rfl⟩
    rcases h.exists_of_mem_entries hmem with ⟨k, hk, rfl, hrecord⟩
    exact ⟨_, hrecord, Prod.ext (canonicalOf_rawKey (.inl hk) padding).symm rfl⟩
  · rintro ⟨⟨c', value⟩, hmem, heq⟩
    rcases Prod.mk.inj heq with ⟨rfl, rfl⟩
    rcases h.exists_of_mem_toList hmem with ⟨k, v, hk, rfl, hv, rfl⟩
    refine ⟨(k.rawKey keccak padding, v), StringMap.mem_toList.mpr hv, ?_⟩
    exact Prod.ext (canonicalOf_rawKey (.inl hk) padding) rfl

/-- The loop of the model over the intermediate layer absorbs what the state absorbs. -/
theorem SameRecords.foldl_merge (h : SameRecords keccak padding entries records)
    (snapshot : ExtTreeMap Bytes Bytes) :
    records.toList.foldl Model.merge snapshot = absorb snapshot (h.layer.updates.map MinimalMpt.record) := by
  have hmerge : records.toList.foldl Model.merge snapshot =
      absorb snapshot (records.toList.map fun e => (e.1, e.2.value)) := by
    rw [absorb, List.foldl_map]
    congr 1
    funext snapshot e
    rw [Model.merge]
    cases e.2.value <;> rfl
  rw [hmerge]
  apply absorb_congr
  · rw [List.map_map]
    exact (StringMap.sorted_toList records).nodup_keys
  · rw [Layer.updates, List.map_map, List.map_map]
    exact h.keyed.nodup_canonical
  · rintro ⟨c, r⟩
    exact h.mem_updates.symm

/-- Every key that is merged is full. -/
theorem SameRecords.full_merged (h : SameRecords keccak padding entries records)
    {snapshot : ExtTreeMap Bytes Bytes}
    (hsnapshot : ∀ c ∈ snapshot, ∃ k : StorageKeyWithSpace, k.Full ∧ k.canonical = c) :
    ∀ c ∈ records.toList.foldl Model.merge snapshot,
      ∃ k : StorageKeyWithSpace, k.Full ∧ k.canonical = c := by
  intro c hc
  by_cases hrecord : ∃ e ∈ h.layer.updates.map MinimalMpt.record, e.1 = c
  · rcases hrecord with ⟨⟨_, r⟩, hmem, rfl⟩
    rcases List.mem_map.mp (h.mem_updates.mp hmem) with ⟨⟨c', value⟩, hlist, heq⟩
    rcases h.exists_of_mem_toList hlist with ⟨k, v, hk, hkey, -⟩
    exact ⟨k, hk, hkey.trans (Prod.mk.inj heq).1⟩
  · apply hsnapshot c
    rw [h.foldl_merge, ExtTreeMap.mem_iff_isSome_getElem?, getElem?_absorb_of_not_mem
      fun e he heq => hrecord ⟨e, he, heq⟩] at hc
    exact ExtTreeMap.mem_iff_isSome_getElem?.mpr hc

variable (keccak) in
/-- The model at the end of a period. -/
def Model.rotated (m : Model) (deltaRoot : H256) : Model :=
  let snapshot := m.intermediate.toList.foldl Model.merge m.snapshot
  { m with
    snapshot := snapshot
    intermediate := m.delta
    delta := ∅
    intermediatePadding := m.deltaPadding
    deltaPadding := .fromRoots keccak (trieRoot keccak (liveMap snapshot)) deltaRoot }

namespace Agrees

variable {s : State} {m : Model}

theorem mod_eq_zero_iff {height : UInt64} {snapshotEpochCount : UInt32} :
    height % snapshotEpochCount.toUInt64 = 0 ↔ snapshotEpochCount.toNat ∣ height.toNat := by
  rw [← UInt64.toNat_inj, UInt64.toNat_mod, UInt32.toNat_toUInt64, UInt64.toNat_zero,
    Nat.dvd_iff_mod_eq_zero]

/-- The rotation of the state is that of the model. -/
theorem advanceAfterCommit (h : Agrees keccak s m) (hheight : m.height ≠ 0) (deltaRoot : H256) :
    Ensures (State.advanceAfterCommit keccak deltaRoot) s fun _ s' => Agrees keccak s'
      (if m.height % m.snapshotEpochCount.toUInt64 ≠ 0 then m else m.rotated keccak deltaRoot) := by
  apply Ensures.read
  rw [h.height, h.snapshotEpochCount]
  by_cases hperiod : m.snapshotEpochCount.toNat ∣ m.height.toNat
  · rw [if_neg (by simp [hheight, hperiod]), if_neg (not_not_intro (mod_eq_zero_iff.mpr hperiod))]
    apply Ensures.bind (Q := fun _ s₁ => s₁ = { s with intermediate := ∅ }) (Ensures.update rfl)
    rintro _ _ rfl
    apply Ensures.lift_bind h.intermediate.layer.snapshotUpdates_eq
    apply Ensures.update
    rcases (h.snapshot.applyUpdates h.intermediate.layer.updates).rootWithPolicy .skipSingleton with
      ⟨hroot, hsnapshot⟩
    rw [← h.intermediate.foldl_merge] at hroot hsnapshot
    exact {
      snapshot := hsnapshot
      snapshotKeys := h.intermediate.full_merged h.snapshotKeys
      intermediate := h.delta
      delta := SameRecords.empty
      intermediatePadding := h.deltaPadding
      deltaPadding := congrArg (DeltaMptKeyPadding.fromRoots keccak · deltaRoot) hroot
      height := h.height
      snapshotEpochCount := h.snapshotEpochCount
      epochs_pos := h.epochs_pos
      deltaAccountCache := AccountKeyCache.valid_default keccak
      intermediateAccountCache := h.deltaAccountCache }
  · rw [if_pos (Or.inr hperiod), if_pos fun hmod => hperiod (mod_eq_zero_iff.mp hmod)]
    exact Ensures.pure h

/-- A commit counts an epoch in both, and rotates both at the end of a period. -/
theorem commit (h : Agrees keccak s m) (hheight : m.height + 1 ≠ 0) :
    Ensures (State.commit keccak) s fun root s' =>
      Agrees keccak s' (m.advanceAfterCommit keccak root.deltaRoot) := by
  apply Ensures.read
  dsimp only
  have hnext : ∀ root : CommitRoot, Agrees keccak
      { s with
        deltaInc := (s.deltaInc.root keccak).2
        lastRoot := some root
        height := s.height + 1 }
      { m with height := m.height + 1 } :=
    fun root => { h with height := congrArg (· + 1) h.height }
  apply Ensures.bind (Q := fun _ s₁ => Agrees keccak s₁ { m with height := m.height + 1 })
    (Ensures.update (hnext _))
  intro _ s₁ h₁
  apply (h₁.advanceAfterCommit hheight _).bind
  intro _ s₂ h₂
  exact Ensures.pure h₂

end Agrees

/-! ## Checkpoints -/

variable (keccak) in
/-- The persisted state holds the layers of the model, under the same paddings. -/
structure Stores (persisted : PersistedState) (m : Model) : Prop where
  snapshot : persisted.snapshot = m.snapshot
  snapshotKeys : ∀ c ∈ m.snapshot, ∃ k : StorageKeyWithSpace, k.Full ∧ k.canonical = c
  intermediate : SameRecords keccak m.intermediatePadding
    (persisted.intermediate.map fun _ v => v.toMptValue) m.intermediate
  delta : SameRecords keccak m.deltaPadding
    (persisted.delta.map fun _ v => v.toMptValue) m.delta
  intermediatePadding : persisted.intermediateMptKeyPadding = m.intermediatePadding
  deltaPadding : persisted.deltaMptKeyPadding = m.deltaPadding
  height : persisted.height = m.height
  snapshotEpochCount : persisted.snapshotEpochCount = m.snapshotEpochCount
  epochs_pos : 0 < m.snapshotEpochCount

/-- The state restored from what holds the layers of a model agrees with it. -/
theorem Stores.agrees {persisted : PersistedState} {m : Model} (h : Stores keccak persisted m) :
    Agrees keccak (State.fromPersisted keccak persisted) m := by
  have htrie : (SnapshotTrie.fromSnapshot persisted.snapshot).Represents keccak m.snapshot :=
    h.snapshot ▸ SnapshotTrie.represents_fromSnapshot persisted.snapshot
  have hperiod : persisted.snapshotEpochCount ≠ 0 :=
    h.snapshotEpochCount ▸ UInt32.pos_iff_ne_zero.mp h.epochs_pos
  exact {
    snapshot := (htrie.rootWithPolicy .skipSingleton).2
    snapshotKeys := h.snapshotKeys
    intermediate := h.intermediate
    delta := h.delta
    intermediatePadding := h.intermediatePadding
    deltaPadding := h.deltaPadding
    height := h.height
    snapshotEpochCount := (if_neg hperiod).trans h.snapshotEpochCount
    epochs_pos := h.epochs_pos
    deltaAccountCache := AccountKeyCache.valid_default keccak
    intermediateAccountCache := AccountKeyCache.valid_default keccak }

/-- The checkpoint of a state that agrees with a model holds its layers. -/
theorem Agrees.stores {s : State} {m : Model} (h : Agrees keccak s m) :
    Stores keccak s.persisted m where
  snapshot := h.snapshot.toCanonicalMap
  snapshotKeys := h.snapshotKeys
  intermediate := (State.map_toMptValue_ofMptValue s.intermediate).symm ▸ h.intermediate
  delta := (State.map_toMptValue_ofMptValue s.delta).symm ▸ h.delta
  intermediatePadding := h.intermediatePadding
  deltaPadding := h.deltaPadding
  height := h.height
  snapshotEpochCount := h.snapshotEpochCount
  epochs_pos := h.epochs_pos

/-! ## Every call of the program -/

/-- A method that ends well is unwrapped. -/
theorem unwrap_of_ensures {α : Type} {x : State.Method α} {s : State} {Q : α → State → Prop}
    (h : Ensures x s Q) : ∃ a s', unwrap (exec x s) = some (a, s') ∧ Q a s' := by
  rcases h with ⟨a, s', hexec, hQ⟩
  exact ⟨a, s', by rw [hexec]; rfl, hQ⟩

namespace Agrees

variable {s : State} {m : Model} {k p : StorageKeyWithSpace}

/-- Every key of the model is full. -/
theorem full_keys (h : Agrees keccak s m) :
    ∀ c ∈ m.keys, ∃ k : StorageKeyWithSpace, k.Full ∧ k.canonical = c := by
  intro c hc
  rw [Model.keys, ExtTreeSet.mem_toList, ExtTreeSet.mem_ofList, List.contains_iff_mem,
    List.mem_append, List.mem_append, ExtTreeMap.mem_keys, ExtTreeMap.mem_keys,
    ExtTreeMap.mem_keys] at hc
  rcases hc with hsnapshot | hintermediate | hdelta
  · exact h.snapshotKeys c hsnapshot
  · exact h.intermediate.canonical c hintermediate
  · exact h.delta.canonical c hdelta

/-- No assertion about a key fails, and the two still agree. -/
theorem assertModelMatchesState (h : Agrees keccak s m) :
    ∃ s', LayeredStateOps.assertModelMatchesState keccak s m = some s' ∧ Agrees keccak s' m := by
  suffices hloop : ∀ cs : List Bytes,
      (∀ c ∈ cs, ∃ k : StorageKeyWithSpace, k.Full ∧ k.canonical = c) →
      ∀ s, Agrees keccak s m →
      ∃ s', cs.foldlM (assertKey keccak m) s = some s' ∧ Agrees keccak s' m from
    hloop m.keys h.full_keys s h
  intro cs
  induction cs with
  | nil => exact fun _ s h => ⟨s, rfl, h⟩
  | cons c cs ih =>
    intro hcs s h
    rcases hcs c List.mem_cons_self with ⟨k, hk, rfl⟩
    rcases unwrap_of_ensures (h.get hk) with ⟨actual, s₁, hget, rfl, h₁⟩
    have hround : assertKey keccak m s k.canonical = some s₁ := by
      rw [assertKey, hk.fromKeyBytes_canonical]
      show (unwrap (exec (State.get keccak k) s)).bind _ = _
      rw [hget]
      simp
    rw [List.foldlM_cons, hround]
    exact ih (fun c' hc' => hcs c' (List.mem_cons_of_mem _ hc')) s₁ h₁

end Agrees

theorem write_eq (m : Model) {k : StorageKeyWithSpace} (hk : k.Full) (value : Option Bytes) :
    write keccak m k value = some { m with
      delta := m.delta.insert k.canonical ⟨k.rawKey keccak m.deltaPadding, value⟩ } := by
  have hkey : (k.toDeltaMptKeyBytes keccak m.deltaPadding none).1 =
      .ok (k.rawKey keccak m.deltaPadding) := Storable.deltaKey_eq (.inl hk) keccak m.deltaPadding
  rw [write, Storable.toKeyBytes_eq (.inl hk), hkey]
  rfl

theorem visibleValue_stored (value : Bytes) :
    (storedValue value).visibleValue = if value.isEmpty then none else some value := by
  rw [storedValue]
  cases value.isEmpty <;> rfl

theorem Model.advanceAfterCommit_height (m : Model) (deltaRoot : H256) :
    (m.advanceAfterCommit keccak deltaRoot).height = m.height + 1 := by
  unfold advanceAfterCommit
  dsimp only
  split <;> rfl

/-- **Every call keeps the agreement**, and no assertion of the program fails, as long as the height
does not wrap around. -/
theorem Agrees.runOp {s : State} {m : Model} (h : Agrees keccak s m)
    (hfits : m.height.toNat + 1 < UInt64.size) (op : Op) :
    ∃ s' m', LayeredStateOps.runOp keccak (s, m) op = some (s', m') ∧ Agrees keccak s' m' ∧
      m'.height.toNat ≤ m.height.toNat + 1 := by
  have hnext : (m.height + 1).toNat = m.height.toNat + 1 := by
    rw [UInt64.toNat_add]
    exact Nat.mod_eq_of_lt hfits
  have hheight : m.height + 1 ≠ 0 := fun hzero => by
    rw [hzero] at hnext
    exact absurd hnext (by simp)
  have hcommitted : ∀ deltaRoot, (m.advanceAfterCommit keccak deltaRoot).height.toNat ≤
      m.height.toNat + 1 := fun deltaRoot => by
    rw [m.advanceAfterCommit_height, hnext]
  have hsame : m.height.toNat ≤ m.height.toNat + 1 := Nat.le_succ _
  cases op with
  | set seed value =>
    have hk := seed.full
    rcases unwrap_of_ensures (h.set hk (normalizeValue value)) with ⟨_, s₁, hset, h₁⟩
    refine ⟨s₁, _, ?_, h₁, hsame⟩
    rw [LayeredStateOps.runOp]
    show (unwrap (exec (State.set keccak _ _) s)).bind _ = _
    rw [hset, visibleValue_stored]
    show (write keccak m _ _).bind _ = _
    rw [write_eq m hk]
    rfl
  | delete seed =>
    have hk := seed.full
    rcases unwrap_of_ensures (h.set hk []) with ⟨_, s₁, hset, h₁⟩
    refine ⟨s₁, _, ?_, h₁, hsame⟩
    rw [LayeredStateOps.runOp]
    show (unwrap (exec (State.set keccak _ _) s)).bind _ = _
    rw [hset]
    show (write keccak m _ _).bind _ = _
    rw [write_eq m hk]
    rfl
  | get seed =>
    have hk := seed.full
    rcases unwrap_of_ensures (h.get hk) with ⟨actual, s₁, hget, rfl, h₁⟩
    refine ⟨s₁, m, ?_, h₁, hsame⟩
    rw [LayeredStateOps.runOp, Storable.toKeyBytes_eq (.inl hk)]
    show (unwrap (exec (State.get keccak _) s)).bind _ = _
    rw [hget]
    simp
  | prefixGet seed =>
    have hp := seed.addressed
    refine ⟨s, m, ?_, h, hsame⟩
    rw [LayeredStateOps.runOp, State.getAllByPrefix, h.readPrefix hp, m.prefixGet_eq hp]
    show (guard _ : Option _).bind _ = _
    rw [guard, if_pos (normalizeKvs_nonEmpty (h.perm_collected _))]
    rfl
  | prefixDelete seed =>
    have hp := seed.addressed
    have hdelete : Ensures (State.deleteAllByPrefix keccak seed.toStorageKey) s fun values s' =>
        values = nonEmpty (collected (stateRecords keccak s m seed.toStorageKey)) ∧
        Agrees keccak s' (afterDelete keccak m seed.toStorageKey) := by
      apply (h.deletePrefix hp).bind
      rintro _ s₁ ⟨rfl, h₁⟩
      exact Ensures.pure ⟨rfl, h₁⟩
    rcases unwrap_of_ensures hdelete with ⟨_, s₁, hexec, rfl, h₁⟩
    rcases h₁.assertModelMatchesState with ⟨s₂, hassert, h₂⟩
    refine ⟨s₂, _, ?_, h₂, hsame⟩
    rw [LayeredStateOps.runOp]
    show (unwrap (exec (State.deleteAllByPrefix keccak _) s)).bind _ = _
    rw [hexec]
    show (m.prefixDelete keccak _).bind _ = _
    rw [h.modelPrefixDelete hp]
    show (guard _ : Option _).bind _ = _
    rw [guard, if_pos (normalizeKvs_nonEmpty (h.perm_collected _))]
    show (LayeredStateOps.assertModelMatchesState keccak _ _).bind _ = _
    rw [hassert]
    rfl
  | commit =>
    rcases unwrap_of_ensures (h.commit hheight) with ⟨root, s₁, hexec, h₁⟩
    rcases h₁.assertModelMatchesState with ⟨s₂, hassert, h₂⟩
    refine ⟨s₂, _, ?_, h₂, hcommitted _⟩
    rw [LayeredStateOps.runOp]
    show (unwrap (exec (State.commit keccak) s)).bind _ = _
    rw [hexec]
    show (LayeredStateOps.assertModelMatchesState keccak _ _).bind _ = _
    rw [hassert]
    rfl
  | persistRoundtrip =>
    rcases unwrap_of_ensures (h.commit hheight) with ⟨root, s₁, hexec, h₁⟩
    rcases h₁.stores.agrees.assertModelMatchesState with ⟨s₂, hassert, h₂⟩
    refine ⟨s₂, _, ?_, h₂, hcommitted _⟩
    rw [LayeredStateOps.runOp]
    show (unwrap (exec (State.commit keccak) s)).bind _ = _
    rw [hexec]
    show (LayeredStateOps.assertModelMatchesState keccak _ _).bind _ = _
    rw [hassert]
    rfl

/-- A run of calls keeps the agreement. -/
theorem Agrees.runOps {s : State} {m : Model} (h : Agrees keccak s m) {ops : List Op}
    (hfits : m.height.toNat + ops.length < UInt64.size) :
    ∃ s' m', ops.foldlM (LayeredStateOps.runOp keccak) (s, m) = some (s', m') ∧
      Agrees keccak s' m' := by
  induction ops generalizing s m with
  | nil => exact ⟨s, m, rfl, h⟩
  | cons op ops ih =>
    rw [List.length_cons] at hfits
    rcases h.runOp (by omega) op with ⟨s₁, m₁, hop, h₁, hheight⟩
    rcases ih h₁ (by omega) with ⟨s₂, m₂, hops, h₂⟩
    refine ⟨s₂, m₂, ?_, h₂⟩
    rw [List.foldlM_cons, hop]
    exact hops

/-! ## The start of the program -/

/-- What the program persists while it fills the intermediate layer. -/
structure Starts (keccak : Bytes → H256) (persisted : PersistedState) (m : Model) : Prop extends
    Stores keccak persisted m where
  genesis : m.intermediatePadding = .genesis keccak
  unstarted : m.height = 0

/-- The loop over the snapshot entries fills the snapshot with full keys. -/
theorem startSnapshot_spec {m : Model}
    (h : ∀ c ∈ m.snapshot, ∃ k : StorageKeyWithSpace, k.Full ∧ k.canonical = c)
    (es : List Entry) : ∃ snapshot : ExtTreeMap Bytes Bytes,
      es.foldlM startSnapshot m = some { m with snapshot := snapshot } ∧
      ∀ c ∈ snapshot, ∃ k : StorageKeyWithSpace, k.Full ∧ k.canonical = c := by
  induction es generalizing m with
  | nil => exact ⟨m.snapshot, rfl, h⟩
  | cons e es ih =>
    rw [List.foldlM_cons, startSnapshot]
    cases e.tombstone with
    | true => exact ih h
    | false =>
      have hk := e.key.full
      rw [Storable.toKeyBytes_eq (.inl hk)]
      apply ih (m := { m with
        snapshot := m.snapshot.insert e.key.toStorageKey.canonical (normalizeValue e.value) })
      intro c hc
      rcases ExtTreeMap.mem_insert.mp hc with heq | hmem
      · exact ⟨_, hk, Std.compare_eq_iff_eq.mp heq⟩
      · exact h c hmem

theorem map_insert_disk (l : ExtTreeMap Bytes MptValueDisk) (raw : Bytes) (disk : MptValueDisk) :
    ((l.insert raw disk).map fun _ v => v.toMptValue) =
      (l.map fun _ v => v.toMptValue).insert raw disk.toMptValue := by
  apply ExtTreeMap.ext_getElem?
  intro k
  rw [ExtTreeMap.getElem?_map, getElem?_insert_eq, getElem?_insert_eq, ExtTreeMap.getElem?_map]
  exact apply_ite (Option.map MptValueDisk.toMptValue) _ _ _

/-- An entry of the intermediate layer, under the genesis padding. -/
theorem Starts.insert {persisted : PersistedState} {m : Model} (h : Starts keccak persisted m)
    {k : StorageKeyWithSpace} (hk : k.Full) (disk : MptValueDisk) :
    Starts keccak
      { persisted with
        intermediate := persisted.intermediate.insert (k.rawKey keccak (.genesis keccak)) disk }
      { m with
        intermediate := m.intermediate.insert k.canonical
          ⟨k.rawKey keccak (.genesis keccak), disk.toMptValue.visibleValue⟩ } := by
  refine { h with intermediate := ?_ }
  dsimp only
  rw [map_insert_disk, ← h.genesis]
  exact h.intermediate.insert hk disk.toMptValue

/-- The loop over the intermediate entries fills both. -/
theorem Starts.startIntermediate {persisted : PersistedState} {m : Model}
    (h : Starts keccak persisted m) (es : List Entry) : ∃ m' persisted',
      es.foldlM (LayeredStateOps.startIntermediate keccak) (m, persisted) = some (m', persisted') ∧
      Starts keccak persisted' m' := by
  induction es generalizing m persisted with
  | nil => exact ⟨m, persisted, rfl, h⟩
  | cons e es ih =>
    have hk := e.key.full
    have hkey : (e.key.toStorageKey.toDeltaMptKeyBytes keccak (.genesis keccak) none).1 =
        .ok (e.key.toStorageKey.rawKey keccak (.genesis keccak)) :=
      Storable.deltaKey_eq (.inl hk) keccak _
    rw [List.foldlM_cons, LayeredStateOps.startIntermediate, Storable.toKeyBytes_eq (.inl hk), hkey]
    apply ih
    cases e.tombstone with
    | true => exact h.insert hk .tombstone
    | false => exact h.insert hk (.some (normalizeValue e.value))

/-- What the program persists before it fills the intermediate layer. -/
theorem starts_new {snapshotEpochCount : UInt32} (hpos : 0 < snapshotEpochCount)
    {snapshot : ExtTreeMap Bytes Bytes}
    (h : ∀ c ∈ snapshot, ∃ k : StorageKeyWithSpace, k.Full ∧ k.canonical = c) :
    Starts keccak
      (startPersisted keccak { Model.new keccak snapshotEpochCount with snapshot := snapshot })
      { Model.new keccak snapshotEpochCount with snapshot := snapshot } where
  snapshot := rfl
  snapshotKeys := h
  intermediate := SameRecords.empty
  delta := SameRecords.empty
  intermediatePadding := rfl
  deltaPadding := rfl
  height := rfl
  snapshotEpochCount := rfl
  epochs_pos := hpos
  genesis := rfl
  unstarted := rfl

/-- **The state and its reference model never disagree.** On every case the program runs to its
end: no call fails, every read, prefix read and prefix delete of the state returns what the model
returns, and after every prefix delete, commit and checkpoint all keys read alike in both. -/
theorem fuzzTarget_isSome (keccak : Bytes → H256) (maxEntries maxOps : UInt64) (case : Case) :
    (fuzzTarget keccak maxEntries maxOps case).isSome := by
  have hfirst : ∀ c ∈ (Model.new keccak (1 + case.snapshotEpochCount.toUInt32 % 8)).snapshot,
      ∃ k : StorageKeyWithSpace, k.Full ∧ k.canonical = c :=
    fun c hc => absurd hc ExtTreeMap.not_mem_empty
  have hpos : 0 < 1 + case.snapshotEpochCount.toUInt32 % 8 := by
    have hmod : (case.snapshotEpochCount.toUInt32 % 8).toNat < 8 := Nat.mod_lt _ (by decide)
    rw [UInt32.lt_iff_toNat_lt, UInt32.toNat_add]
    show 0 < (1 + (case.snapshotEpochCount.toUInt32 % 8).toNat) % 2 ^ 32
    omega
  rcases startSnapshot_spec hfirst (case.snapshot.take maxEntries.toNat) with
    ⟨snapshot, hsnapshot, hkeys⟩
  rcases (@starts_new keccak _ hpos _ hkeys).startIntermediate
    (case.intermediate.take maxEntries.toNat) with ⟨m, persisted, hintermediate, hstarts⟩
  have hfits : m.height.toNat + (case.ops.take maxOps.toNat).length < UInt64.size := by
    rw [hstarts.unstarted, UInt64.toNat_zero, Nat.zero_add]
    exact (List.length_take_le _ _).trans_lt maxOps.toNat_lt
  rcases hstarts.agrees.runOps hfits with ⟨s', m', hops, -⟩
  rw [fuzzTarget]
  dsimp only
  rw [hsnapshot]
  show Option.isSome ((List.foldlM (startIntermediate keccak) _ _).bind _)
  rw [hintermediate]
  show Option.isSome (List.foldlM (runOp keccak) _ _)
  rw [hops]
  rfl

end LayeredStateOps

end MinimalMpt
