import CfxMinimalExecution.MinimalMpt.FlatMap
import CfxMinimalExecution.MinimalMpt.PrefixRead

/-!
# Settled states

A rotation empties the delta, and the next one the intermediate layer. Behind two periods without a
write the snapshot holds all there is: the roots no longer tell when and in which order the writes
came, nor the period at which the layers rotate, nor whether the state was built from a snapshot.

## Main definitions

* `Op.IsQuiet`: a call that writes nothing
* `SettledRun`: a run of writes, and two periods of quiet calls behind it
* `flatRoot`: the roots of a state that holds a map in its snapshot only

## Main results

* `Layers.Drained.final`: what the layers hold behind quiet calls
* `settled_roots`: states that read alike have the same roots once they are settled
-/

open Std (ExtTreeMap)

namespace MinimalMpt

open StorageKeyWithSpace (Storable)

/-! ## Quiet calls -/

namespace Op

/-- A read or a commit. -/
def IsQuiet : Op → Prop
  | .get _ | .getAllByPrefix _ | .commit => True
  | .set _ _ | .deleteAllByPrefix _ => False

theorem IsQuiet.sets {op : Op} (h : op.IsQuiet) (P : StorageKeyWithSpace → Prop) :
    Layers.Sets P op := by
  cases op with
  | set key value => exact h.elim
  | _ => trivial

end Op

variable {keccak : Bytes → H256}

namespace Layers

/-- A read leaves the layers alone. -/
theorem step_of_isQuiet {L : Layers keccak} {op : Op} (h : op.IsQuiet) (hop : op ≠ .commit) :
    (L.step op).2 = L := by
  show (Fallible.exec (call op) L).2 = L
  cases op with
  | get key =>
    unfold call
    rw [Fallible.exec_bind_ok (Fallible.exec_get L)]
    cases L.get key <;> rfl
  | getAllByPrefix key =>
    unfold call
    rw [Fallible.exec_bind_ok (Fallible.exec_get L)]
    cases L.getAllByPrefix key <;> rfl
  | commit => exact absurd rfl hop
  | set key value => exact h.elim
  | deleteAllByPrefix key => exact h.elim

/-- The number of rotations so far. -/
def periods (L : Layers keccak) : ℕ := L.height.toNat / L.snapshotEpochCount.toNat

/-- The height does not wrap around for `n` commits. -/
def Fits (L : Layers keccak) (n : ℕ) : Prop := L.height.toNat + n < UInt64.size

theorem Fits.toNat_add {L : Layers keccak} {n : ℕ} (h : L.Fits n) :
    (L.height + UInt64.ofNat n).toNat = L.height.toNat + n := by
  have hn : n < UInt64.size := Nat.lt_of_le_of_lt (Nat.le_add_left _ _) h
  rw [UInt64.toNat_add, UInt64.toNat_ofNat_of_lt' hn, Nat.mod_eq_of_lt h]

theorem Fits.final {L : Layers keccak} {ops : List Op} {n : ℕ} (h : L.Fits (commits ops + n)) :
    (Machine.final step L ops).Fits n := by
  have hops : L.Fits (commits ops) := lt_of_le_of_lt (by omega) h
  unfold Fits
  rw [final_height, hops.toNat_add, Nat.add_assoc]
  exact h

/-- A commit rotates the layers when it ends a period. -/
theorem commit_cases {L : Layers keccak} (h : L.Fits 1) :
    (L.commit.periods = L.periods + 1 ∧ L.commit.intermediate.entries = L.delta.entries ∧
        L.commit.delta.entries = ∅) ∨
      (L.commit.periods = L.periods ∧ L.commit.intermediate.entries = L.intermediate.entries ∧
        L.commit.delta.entries = L.delta.entries) := by
  have hnext : (L.height + 1).toNat = L.height.toNat + 1 := h.toNat_add
  have hne : L.height + 1 ≠ 0 := fun hzero => by
    rw [hzero] at hnext
    exact absurd hnext (by simp)
  unfold periods
  rw [commit_snapshotEpochCount, commit_height, hnext, Nat.succ_div]
  unfold commit
  by_cases hperiod : L.snapshotEpochCount.toNat ∣ L.height.toNat + 1
  · rw [if_pos hperiod, if_pos ⟨hne, hnext.symm ▸ hperiod⟩]
    exact .inl ⟨rfl, rfl, rfl⟩
  · rw [if_neg hperiod, if_neg fun hends => hperiod (hnext ▸ hends.2)]
    exact .inr ⟨rfl, rfl, rfl⟩

/-- The layers behind quiet calls: they hold what they held, below the delta after one rotation and
in the snapshot after two. -/
structure Drained (L₀ L : Layers keccak) : Prop where
  keyed : L.Keyed Storable
  epochs : L.snapshotEpochCount = L₀.snapshotEpochCount
  view : L.view = L₀.view
  delta : L₀.periods < L.periods → L.delta.entries = ∅
  intermediate : L₀.periods + 1 < L.periods → L.intermediate.entries = ∅

namespace Drained

variable {L₀ L : Layers keccak}

theorem refl (h : L.Keyed Storable) : Drained L L where
  keyed := h
  epochs := rfl
  view := rfl
  delta hlt := absurd hlt (lt_irrefl _)
  intermediate hlt := absurd hlt (by omega)

theorem commit (h : Drained L₀ L) (hfits : L.Fits 1) : Drained L₀ L.commit where
  keyed := h.keyed.commit fun _ hk => hk
  epochs := (commit_snapshotEpochCount L).trans h.epochs
  view := (view_commit L h.keyed.intermediate).trans h.view
  delta hlt := by
    rcases commit_cases hfits with ⟨-, -, hdelta⟩ | ⟨hperiods, -, hdelta⟩
    · exact hdelta
    · rw [hperiods] at hlt
      exact hdelta.trans (h.delta hlt)
  intermediate hlt := by
    rcases commit_cases hfits with ⟨hperiods, hintermediate, -⟩ | ⟨hperiods, hintermediate, -⟩
    -- what was the delta has been empty for a period
    · rw [hperiods] at hlt
      exact hintermediate.trans (h.delta (by omega))
    · rw [hperiods] at hlt
      exact hintermediate.trans (h.intermediate hlt)

theorem step (h : Drained L₀ L) {op : Op} (hquiet : op.IsQuiet) (hfits : L.Fits (commits [op])) :
    Drained L₀ (L.step op).2 := by
  by_cases hop : op = .commit
  · rw [hop, step_commit]
    rw [hop] at hfits
    exact h.commit hfits
  · rw [step_of_isQuiet hquiet hop]
    exact h

/-- **Quiet calls drain the layers.** -/
theorem final (h : Drained L₀ L) {quiet : List Op} (hquiet : ∀ op ∈ quiet, op.IsQuiet)
    (hfits : L.Fits (commits quiet)) : Drained L₀ (Machine.final Layers.step L quiet) := by
  induction quiet generalizing L with
  | nil => exact h
  | cons op quiet ih =>
    have hcons : commits (op :: quiet) = commits [op] + commits quiet :=
      commits_append [op] quiet
    rw [hcons] at hfits
    have hop : L.Fits (commits [op]) := lt_of_le_of_lt (by omega) hfits
    rw [Machine.final_cons]
    exact ih (h.step (hquiet op List.mem_cons_self) hop)
      (fun op' hop' => hquiet op' (List.mem_cons_of_mem op hop')) (Fits.final (L := L) hfits)

end Drained

/-- The snapshot holds all there is. -/
structure Settled (L : Layers keccak) : Prop where
  keyed : L.Keyed Storable
  intermediate : L.intermediate.entries = ∅
  delta : L.delta.entries = ∅

/-- Two periods of quiet calls settle the layers. -/
theorem settled_final {L : Layers keccak} (h : L.Keyed Storable) {quiet : List Op}
    (hquiet : ∀ op ∈ quiet, op.IsQuiet)
    (hcommits : 2 * L.snapshotEpochCount.toNat ≤ commits quiet) (hfits : L.Fits (commits quiet)) :
    (Machine.final step L quiet).Settled ∧ (Machine.final step L quiet).view = L.view := by
  have hdrained := (Drained.refl h).final hquiet hfits
  have hpos : 0 < L.snapshotEpochCount.toNat := UInt32.lt_iff_toNat_lt.mp L.epochs_pos
  have hperiods : L.periods + 2 ≤ (Machine.final step L quiet).periods := by
    unfold periods
    rw [final_snapshotEpochCount, final_height, hfits.toNat_add, ← Nat.add_mul_div_right _ _ hpos]
    exact Nat.div_le_div_right (Nat.add_le_add_left hcommits _)
  exact ⟨⟨hdrained.keyed, hdrained.intermediate (by omega), hdrained.delta (by omega)⟩,
    hdrained.view⟩

namespace Settled

variable {L L' : Layers keccak}

theorem view_eq (h : L.Settled) : L.view = L.below := by
  have hempty : ∀ {padding : DeltaMptKeyPadding} {l : Layer keccak padding}, l.entries = ∅ →
      l.overlay = fun _ => none := by
    intro padding l hl
    funext k
    unfold Layer.overlay
    rw [hl, ExtTreeMap.getElem?_empty]
    rfl
  unfold view
  rw [hempty h.delta, hempty h.intermediate, Overlay.onto_empty, Overlay.onto_empty]

/-- A settled snapshot is determined by what the layers read as. -/
theorem snapshot_eq (h : L.Settled) (h' : L'.Settled) (hview : L.view = L'.view) :
    L.snapshot = L'.snapshot := by
  rw [h.view_eq, h'.view_eq] at hview
  apply ExtTreeMap.ext_getElem?
  intro c
  by_cases hc : ∃ k : StorageKeyWithSpace, k.Storable ∧ k.canonical = c
  · obtain ⟨k, hk, rfl⟩ := hc
    exact congrFun hview ⟨k, hk⟩
  -- neither snapshot has another key
  · have hnone : ∀ {M : Layers keccak}, M.Settled → M.snapshot[c]? = none := fun hM =>
      ExtTreeMap.getElem?_eq_none fun hmem => hc (hM.keyed.snapshot c hmem)
    rw [hnone h, hnone h']

end Settled

end Layers

/-- The roots of a state that holds a map in its snapshot only. -/
def flatRoot (keccak : Bytes → H256) (m : ExtTreeMap Bytes Bytes) : CommitRoot :=
  .new keccak (trieRoot keccak (liveMap m)) merkleNullNode merkleNullNode
    (DeltaMptKeyPadding.fromRoots keccak (trieRoot keccak (liveMap m)) merkleNullNode)

theorem Layers.Settled.commitRoot_eq {L : Layers keccak} (h : L.Settled) :
    L.commitRoot = flatRoot keccak L.snapshot := by
  have hnull : trieRoot keccak (∅ : ExtTreeMap Bytes MptValue) = merkleNullNode := rfl
  unfold Layers.commitRoot flatRoot Layers.deltaPadding Layers.deltaRoot Layers.intermediateRoot
    Layers.snapshotRoot
  rw [h.delta, h.intermediate, hnull]

/-! ## Settled runs of the state -/

variable (keccak) in
/-- Calls that set storable keys, and two periods of quiet calls behind them. The height does not
wrap around. -/
structure SettledRun where
  origin : Origin
  calls : List Op
  quiet : List Op
  keyed : origin.Keyed Storable
  sets : ∀ op ∈ calls, Layers.Sets Storable op
  isQuiet : ∀ op ∈ quiet, op.IsQuiet
  two_periods : 2 * (origin.state keccak).snapshotEpochCount.toNat ≤ commits quiet
  commits_lt : commits (calls ++ quiet) < UInt64.size

namespace SettledRun

/-- The state behind the calls. -/
def written (r : SettledRun keccak) : State :=
  Machine.final (State.step keccak) (r.origin.state keccak) r.calls

/-- The state in the end. -/
def settled (r : SettledRun keccak) : State :=
  Machine.final (State.step keccak) (r.origin.state keccak) (r.calls ++ r.quiet)

/-- The layers in the end hold what the state reads as behind the calls. -/
theorem exists_settled (r : SettledRun keccak) :
    ∃ L : Layers keccak, r.settled.Represents keccak L ∧ L.Settled ∧
      ∀ key : StorableKey, (State.step keccak r.written (.get key.1)).1 =
        .ok (.value (L.view key)) := by
  obtain ⟨L, hrep, hkeyed⟩ :=
    State.exists_keyed_final keccak Layers.writable_storable r.keyed r.sets
  obtain ⟨L₀, hrep₀⟩ := State.exists_represents_origin keccak r.origin
  have hfinal := State.simulation.final_rel hrep₀ fun o (_ : o ∈ r.calls) => trivial
  -- the period is that of the origin, and the height counts the commits since
  have hepochs : L.snapshotEpochCount = (r.origin.state keccak).snapshotEpochCount := by
    rw [← hrep.snapshotEpochCount, hfinal.snapshotEpochCount, Layers.final_snapshotEpochCount,
      hrep₀.snapshotEpochCount]
  have hheight : L.height = (Machine.final Layers.step L₀ r.calls).height := by
    rw [← hrep.height, hfinal.height]
  have hfits : L.Fits (commits r.quiet) := by
    have hzero : L₀.height = 0 := by
      rw [← hrep₀.height]
      cases r.origin <;> rfl
    have hrun : L₀.Fits (commits r.calls + commits r.quiet) := by
      unfold Layers.Fits
      rw [hzero, UInt64.toNat_zero, Nat.zero_add, ← commits_append]
      exact r.commits_lt
    unfold Layers.Fits
    rw [hheight]
    exact hrun.final
  obtain ⟨hsettled, hview⟩ := Layers.settled_final hkeyed r.isQuiet
    (hepochs.symm ▸ r.two_periods) hfits
  refine ⟨_, ?_, hsettled, fun key => ?_⟩
  · unfold settled
    rw [Machine.final_append]
    exact State.simulation.final_rel hrep fun _ _ => trivial
  · rw [hview]
    refine (hrep.get_reply key.1).trans ?_
    rw [L.get_eq_view]
    rfl

variable (keccak) in
/-- The run of writes from an empty state, with commits behind it. -/
def ofWrites (n : UInt32) (writes : List Write) (count : ℕ)
    (h : 2 * (atLeastOne n).toNat ≤ count) (hcount : writes.length + count < UInt64.size) :
    SettledRun keccak where
  origin := .withSnapshotEpochCount n
  calls := writes.map Write.op
  quiet := List.replicate count .commit
  keyed := trivial
  sets op hop := by
    obtain ⟨write, -, rfl⟩ := List.mem_map.mp hop
    cases write with
    | set key value => exact key.2
    | commit => trivial
  isQuiet op hop := by
    obtain rfl := List.eq_of_mem_replicate hop
    trivial
  two_periods := (commits_replicate count).symm ▸ h
  commits_lt := by
    have hwrites : commits (writes.map Write.op) ≤ writes.length :=
      List.countP_le_length.trans_eq (List.length_map _)
    rw [commits_append, commits_replicate]
    omega

theorem written_ofWrites {n : UInt32} {count : ℕ} {writes : List Write}
    (h : 2 * (atLeastOne n).toNat ≤ count) (hcount : writes.length + count < UInt64.size)
    (key : StorableKey) :
    (State.step keccak (ofWrites keccak n writes count h hcount).written (.get key.1)).1 =
      .ok (.value (FlatMap.after writes key)) := by
  have hrep : State.Represents keccak (ofWrites keccak n writes count h hcount).written
      (Machine.final Layers.step (.ofSnapshot keccak ∅ (atLeastOne n) (atLeastOne_pos n))
        (writes.map Write.op)) :=
    State.simulation.final_rel (State.represents_withSnapshotEpochCount n) fun _ _ => trivial
  have hreads := (Layers.readsAs_empty keccak (atLeastOne n) (atLeastOne_pos n)).final writes
  rw [hrep.get_reply, Layers.get_eq_view, hreads.view]
  rfl

end SettledRun

/-- **Settled roots depend on the logical map only.** Two states that read alike, whatever calls
they come from, at whatever periods and from whatever snapshots, return the same root once each has
seen two periods of quiet calls: that of a state which holds in its snapshot just what is read. -/
theorem settled_roots (r r' : SettledRun keccak)
    (hsame : ∀ key : StorageKeyWithSpace, key.Storable →
      (State.step keccak r.written (.get key)).1 = (State.step keccak r'.written (.get key)).1) :
    ∃ m : ExtTreeMap Bytes Bytes,
      (∀ key : StorageKeyWithSpace, key.Storable →
        (State.step keccak r.written (.get key)).1 = .ok (.value m[key.canonical]?)) ∧
      (∀ c ∈ m, ∃ key : StorageKeyWithSpace, key.Storable ∧ key.canonical = c) ∧
      (State.step keccak r.settled .commit).1 = .ok (.root (flatRoot keccak m)) ∧
      (State.step keccak r'.settled .commit).1 = .ok (.root (flatRoot keccak m)) := by
  obtain ⟨L, hrep, hsettled, hread⟩ := r.exists_settled
  obtain ⟨L', hrep', hsettled', hread'⟩ := r'.exists_settled
  have hview : L.view = L'.view := by
    funext key
    have hkey := hsame key.1 key.2
    rw [hread, hread'] at hkey
    exact Reply.value.inj (Except.ok.inj hkey)
  have hroot : ∀ {s : State} {M : Layers keccak}, s.Represents keccak M → M.Settled →
      (State.step keccak s .commit).1 = .ok (.root (flatRoot keccak M.snapshot)) := by
    intro s M hs hM
    rw [State.simulation.reply trivial hs, Layers.step_commit, hM.commitRoot_eq]
  refine ⟨L.snapshot, fun key hkey => ?_, hsettled.keyed.snapshot, hroot hrep hsettled, ?_⟩
  · rw [hread ⟨key, hkey⟩, hsettled.view_eq]
    rfl
  · rw [hsettled.snapshot_eq hsettled' hview]
    exact hroot hrep' hsettled'

/-- An overwritten value, and two periods that differ. -/
theorem settled_roots_two :
    let key : StorableKey := ⟨⟨.account [1], .native⟩, .inr ⟨[1], rfl, by decide⟩⟩
    let r : SettledRun keccak256 :=
      .ofWrites keccak256 1 [.set key [7], .commit, .set key [8]] 2 (by decide) (by decide)
    let r' : SettledRun keccak256 := .ofWrites keccak256 3 [.set key [8]] 9 (by decide) (by decide)
    ∃ m : ExtTreeMap Bytes Bytes,
      (State.step keccak256 r.settled .commit).1 = .ok (.root (flatRoot keccak256 m)) ∧
      (State.step keccak256 r'.settled .commit).1 = .ok (.root (flatRoot keccak256 m)) := by
  intro key r r'
  have hsame : ∀ k : StorageKeyWithSpace, k.Storable →
      (State.step keccak256 r.written (.get k)).1 =
        (State.step keccak256 r'.written (.get k)).1 := by
    intro k hk
    have hafter : FlatMap.after [.set key [7], .commit, .set key [8]] =
        FlatMap.after [.set key [8]] := Function.update_idem _ _ _
    exact (SettledRun.written_ofWrites _ _ ⟨k, hk⟩).trans
      ((congrArg (fun m : FlatMap => Except.ok (Reply.value (m ⟨k, hk⟩))) hafter).trans
        (SettledRun.written_ofWrites _ _ ⟨k, hk⟩).symm)
  obtain ⟨m, -, -, hroot, hroot'⟩ := settled_roots r r' hsame
  exact ⟨m, hroot, hroot'⟩

end MinimalMpt
