import CfxMinimalExecution.MinimalMpt.StateRefinement

/-!
# The invariant of the state

Every state in use holds its delta twice, has the roots and paddings of its contents, and has only
delta encodings in its upper layers and only live values in its snapshot. Its next commit returns
the roots of the three layers and shifts them at the end of a period.

## Main definitions

* `State.WellFormed`: the invariant
* `State.Commits`: what a commit returns and leaves behind

## Main results

* `State.Represents.wellFormed`, `State.Represents.commits`: representing layers is enough
* `State.wellFormed_final`: the invariant holds after every run from an empty state
* `State.replies_stepIn`: no build panics within the first commits that a word can count
-/

open Std (ExtTreeMap)
open Fallible (exec)

namespace MinimalMpt

namespace State

variable (keccak : Bytes → H256)

/-- The invariant of the state. -/
structure WellFormed (s : State) : Prop where
  deltaInc : s.deltaInc.entries = nibbleMap s.delta
  snapshotRoot : s.snapshotRoot = trieRoot keccak (liveMap s.snapshot.toCanonicalMap)
  intermediateRoot : s.intermediateRoot = trieRoot keccak s.intermediate
  deltaPadding :
    s.deltaPadding = keccak (s.snapshotRoot.asBytes ++ s.intermediateRoot.asBytes)
  delta : ∀ raw ∈ s.delta,
    ∃ key : StorageKeyWithSpace, key.deltaKey keccak s.deltaPadding = .ok raw
  intermediate : ∀ raw ∈ s.intermediate,
    ∃ key : StorageKeyWithSpace, key.deltaKey keccak s.intermediatePadding = .ok raw
  snapshot : s.snapshot.inner.entries = nibbleMap (liveMap s.snapshot.toCanonicalMap)
  noTombstone : ∀ (k : Bytes) (value : MptValue),
    s.snapshot.inner.entries[k]? = some value → value ≠ .tombstone

/-- The layers of `s'` are those of `s`. -/
structure SameLayers (s s' : State) : Prop where
  snapshot : s'.snapshot.toCanonicalMap = s.snapshot.toCanonicalMap
  intermediate : s'.intermediate = s.intermediate
  delta : s'.delta = s.delta
  intermediatePadding : s'.intermediatePadding = s.intermediatePadding

/-- The layers of `s'` are those of `s` shifted down by one: the snapshot has absorbed the re-keyed
intermediate layer, the delta has become the intermediate layer, and the delta is empty. -/
structure ShiftedLayers (s s' : State) : Prop where
  snapshot : ∃ updates, snapshotUpdates s.intermediate = .ok updates ∧
    s'.snapshot.toCanonicalMap = absorb s.snapshot.toCanonicalMap (updates.map record)
  intermediate : s'.intermediate = s.delta
  delta : s'.delta = ∅
  intermediatePadding : s'.intermediatePadding = s.deltaPadding

/-- A commit of `s` at period `n` returns `root` and leaves `s'`. A height that has wrapped around
to 0 ends no period. -/
structure Commits (n : UInt32) (s : State) (root : CommitRoot) (s' : State) : Prop where
  snapshotRoot : root.snapshotRoot = trieRoot keccak (liveMap s.snapshot.toCanonicalMap)
  intermediateDeltaRoot : root.intermediateDeltaRoot = trieRoot keccak s.intermediate
  deltaRoot : root.deltaRoot = trieRoot keccak s.delta
  stateRootHash : root.stateRootHash = keccak (root.snapshotRoot.asBytes ++
    root.intermediateDeltaRoot.asBytes ++ root.deltaRoot.asBytes)
  height : s'.height = s.height + 1
  lastRoot : s'.lastRoot = some root
  shifted : s'.height ≠ 0 → n.toNat ∣ s'.height.toNat → s.ShiftedLayers s'
  kept : ¬ n.toNat ∣ s'.height.toNat → s.SameLayers s'
  wrapped : s'.height = 0 → s.SameLayers s'

variable {keccak} {s s' : State} {L : Layers keccak}

theorem Represents.wellFormed (h : s.Represents keccak L) : s.WellFormed keccak := by
  have hsnapshot := h.snapshot.toCanonicalMap
  have hentries : s.snapshot.inner.entries = nibbleMap (liveMap s.snapshot.toCanonicalMap) := by
    rw [hsnapshot]
    exact h.snapshot.entries
  exact {
    deltaInc := by rw [h.delta]; exact h.deltaInc.entries
    snapshotRoot := by rw [hsnapshot]; exact h.snapshotRoot
    intermediateRoot := by rw [h.intermediate]; exact h.intermediateRoot
    deltaPadding := by rw [h.snapshotRoot, h.intermediateRoot]; exact h.deltaPadding
    delta := by rw [h.delta, h.deltaPadding]; exact L.delta.encoded
    intermediate := by
      rw [h.intermediate, h.intermediatePadding]
      exact L.intermediate.encoded
    snapshot := hentries
    noTombstone := by
      intro k value hget
      rw [hentries] at hget
      obtain ⟨c, -, hc⟩ := (getElem?_mapKeys_eq_some_iff bytesToNibbles_injective).mp hget
      rw [getElem?_liveMap] at hc
      obtain ⟨v, -, rfl⟩ := Option.map_eq_some_iff.mp hc
      simp }

/-- A commit never fails; it returns the roots of the layers, which it shifts at the end of a
period. -/
theorem Represents.commits (h : s.Represents keccak L) :
    ∃ root s', s.step keccak .commit = (.ok (.root root), s') ∧
      Commits keccak L.snapshotEpochCount s root s' := by
  obtain ⟨s', hcommit, h'⟩ := commit_spec h
  have hsnapshot := h.snapshot.toCanonicalMap
  have hsnapshot' := h'.snapshot.toCanonicalMap
  refine ⟨L.commitRoot, s', Fallible.exec_bind_ok hcommit, ?_⟩
  -- a commit at the end of a period rotates the layers
  have hcases : (EndsPeriod (L.height + 1) L.snapshotEpochCount ∧
        L.commit = ({ L with lastRoot := some L.commitRoot, height := L.height + 1 }).rotate) ∨
      (¬ EndsPeriod (L.height + 1) L.snapshotEpochCount ∧
        L.commit = { L with lastRoot := some L.commitRoot, height := L.height + 1 }) := by
    by_cases hperiod : EndsPeriod (L.height + 1) L.snapshotEpochCount
    · exact Or.inl ⟨hperiod, if_pos hperiod⟩
    · exact Or.inr ⟨hperiod, if_neg hperiod⟩
  have hheight : s'.height = L.height + 1 := h'.height.trans L.commit_height
  have hlastRoot : L.commit.lastRoot = some L.commitRoot := by
    rcases hcases with ⟨-, heq⟩ | ⟨-, heq⟩
    · exact congrArg Layers.lastRoot heq
    · exact congrArg Layers.lastRoot heq
  have hkept : ¬ EndsPeriod (L.height + 1) L.snapshotEpochCount → s.SameLayers s' := by
    intro hperiod
    rcases hcases with ⟨hyes, -⟩ | ⟨-, heq⟩
    · exact absurd hyes hperiod
    · rw [heq] at h' hsnapshot'
      exact ⟨hsnapshot'.trans hsnapshot.symm, h'.intermediate.trans h.intermediate.symm,
        h'.delta.trans h.delta.symm, h'.intermediatePadding.trans h.intermediatePadding.symm⟩
  exact {
    snapshotRoot := by rw [hsnapshot]; rfl
    intermediateDeltaRoot := by rw [h.intermediate]; rfl
    deltaRoot := by rw [h.delta]; rfl
    stateRootHash := rfl
    height := by rw [hheight, h.height]
    lastRoot := by rw [h'.lastRoot, hlastRoot]
    shifted := by
      intro hne hperiod
      rw [hheight] at hne hperiod
      rcases hcases with ⟨-, heq⟩ | ⟨hnot, -⟩
      · rw [heq] at h' hsnapshot'
        refine ⟨⟨L.intermediate.updates, ?_, ?_⟩, ?_, h'.delta, ?_⟩
        · rw [h.intermediate, L.intermediate.snapshotUpdates_eq]
        · rw [hsnapshot', hsnapshot]
          rfl
        · exact h'.intermediate.trans h.delta.symm
        · exact h'.intermediatePadding.trans h.deltaPadding.symm
      · exact absurd ⟨hne, hperiod⟩ hnot
    kept := by
      intro hperiod
      rw [hheight] at hperiod
      exact hkept fun hends => hperiod hends.2
    wrapped := by
      intro hzero
      rw [hheight] at hzero
      exact hkept fun hends => hends.1 hzero }

/-- Every run from an empty state ends in a state that represents layers of its period, at the
height that counts its commits. -/
theorem represents_final (keccak : Bytes → H256) (n : UInt32) (ops : List Op) :
    ∃ L : Layers keccak, L.snapshotEpochCount = atLeastOne n ∧
      L.height = UInt64.ofNat (commits ops) ∧
      (Machine.final (step keccak) (withSnapshotEpochCount keccak n) ops).Represents keccak L :=
  ⟨_, Layers.final_snapshotEpochCount _ ops, (Layers.final_height _ ops).trans (UInt64.zero_add _),
    simulation.final_rel (represents_withSnapshotEpochCount n) fun _ _ => trivial⟩

variable (keccak) in
/-- **The invariant of the state.** After every run of calls from an empty state of period `n`, the
state is well formed, and a commit returns the roots of its three layers and shifts them exactly
when the new height, which counts the commits, is a multiple of `n`. -/
theorem wellFormed_final (n : UInt32) (hn : 1 ≤ n) (ops : List Op) :
    WellFormed keccak (Machine.final (step keccak) (withSnapshotEpochCount keccak n) ops) ∧
    ∃ root s', step keccak (Machine.final (step keccak) (withSnapshotEpochCount keccak n) ops)
        .commit = (.ok (.root root), s') ∧
      Commits keccak n (Machine.final (step keccak) (withSnapshotEpochCount keccak n) ops)
        root s' ∧
      s'.height = UInt64.ofNat (commits ops + 1) := by
  obtain ⟨L, hperiod, hheight, h⟩ := represents_final keccak n ops
  have hpos : 0 < n := UInt32.lt_iff_toNat_lt.mpr (UInt32.le_iff_toNat_le.mp hn)
  rw [atLeastOne_of_pos hpos] at hperiod
  obtain ⟨root, s', hcommit, hcommits⟩ := h.commits
  refine ⟨h.wellFormed, root, s', hcommit, hperiod ▸ hcommits, ?_⟩
  rw [hcommits.height, h.height, hheight, UInt64.ofNat_add]
  rfl

/-- A run with a write, a prefix delete and two periods of two epochs. -/
theorem wellFormed_final_two :
    let s := Machine.final (step keccak256) (withSnapshotEpochCount keccak256 2)
      [.set ⟨.account [1], .native⟩ [7], .commit, .commit,
        .deleteAllByPrefix ⟨.addressPrefix [1], .native⟩, .commit, .commit]
    WellFormed keccak256 s ∧
    ∃ root s', step keccak256 s .commit = (.ok (.root root), s') ∧
      Commits keccak256 2 s root s' ∧ s'.height = 5 :=
  wellFormed_final keccak256 2 (by decide) _

/-! ## Builds -/

/-- **No build panics within the first commits that a word can count**: with overflow checks, a run
from a fresh state replies as without. -/
theorem replies_stepIn (profile : Profile) (origin : Origin) {ops : List Op}
    (hcommits : commits ops < UInt64.size) :
    Machine.replies (stepIn keccak profile) (origin.state keccak) ops =
        (Machine.replies (step keccak) (origin.state keccak) ops).map .returned ∧
      Machine.final (stepIn keccak profile) (origin.state keccak) ops =
        Machine.final (step keccak) (origin.state keccak) ops := by
  have hrun : ∀ (ops : List Op) (s : State) (L : Layers keccak), s.Represents keccak L →
      L.height.toNat + commits ops < UInt64.size →
        Machine.replies (stepIn keccak profile) s ops =
            (Machine.replies (step keccak) s ops).map .returned ∧
          Machine.final (stepIn keccak profile) s ops = Machine.final (step keccak) s ops := by
    intro ops
    induction ops with
    | nil => exact fun s L _ _ => ⟨rfl, rfl⟩
    | cons op ops ih =>
      intro s L h hbound
      have hheight := congrArg UInt64.toNat (L.step_height op)
      have hfits : L.height.toNat + (if op.isCommit then 1 else 0) + commits ops < UInt64.size := by
        rw [commits_cons] at hbound
        omega
      have hnext : (L.step op).2.height.toNat = L.height.toNat + if op.isCommit then 1 else 0 := by
        rw [hheight, UInt64.toNat_add]
        cases hop : op.isCommit
        · exact Nat.mod_eq_of_lt L.height.toNat_lt
        · rw [hop, if_pos rfl] at hfits
          exact Nat.mod_eq_of_lt (Nat.lt_of_le_of_lt (Nat.le_add_right _ _) hfits)
      have hreturns : stepIn keccak profile s op =
          (.returned (step keccak s op).1, (step keccak s op).2) := by
        apply if_neg
        rintro ⟨hop, -, hzero⟩
        rw [h.height] at hzero
        rw [hop, if_pos rfl] at hheight hnext hfits
        rw [hheight, hzero] at hnext
        cases hnext
      obtain ⟨hreplies, hfinal⟩ := ih _ _ (simulation.next trivial h) (hnext ▸ hfits)
      simp only [Machine.replies_cons, Machine.final_cons, hreturns, List.map_cons, hreplies, hfinal,
        and_self]
  obtain ⟨L, h, hheight⟩ : ∃ L : Layers keccak, (origin.state keccak).Represents keccak L ∧
      L.height = 0 := by
    obtain ⟨L, h⟩ := exists_represents_origin keccak origin
    refine ⟨L, h, h.height.symm.trans ?_⟩
    cases origin <;> rfl
  exact hrun ops _ L h (by rw [hheight]; exact (Nat.zero_add _).trans_lt hcommits)

end State

end MinimalMpt
