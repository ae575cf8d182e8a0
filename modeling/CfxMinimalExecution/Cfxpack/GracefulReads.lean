import CfxMinimalExecution.Cfxpack.CodecBounds
import CfxMinimalExecution.Cfxpack.Verify
import CfxMinimalExecution.Library.Graceful

/-!
# The readers that return

The readers of numbers check every position before they use it, and so do the readers of the header
and of the tables.

## Main results

* `graceful_readUleb128`, `graceful_readQc5e`, `graceful_readQc8`: the readers of numbers
* `ensureOffsets_eq_ok`: what the offsets of an accepted header are good for
-/

namespace Cfxpack

variable {data : Bytes}

/-! ## Numbers -/

theorem graceful_readU32Le (data : Bytes) (offset : ℕ) : Graceful (readU32Le data offset) := by
  unfold readU32Le
  refine graceful_bind.mpr ⟨graceful_ensure _ _, fun _ hle => graceful_bind.mpr ⟨?_, by simp⟩⟩
  rw [ensure_eq_ok] at hle
  exact graceful_slice.mpr ⟨by omega, hle⟩

theorem graceful_readU64Le (data : Bytes) (offset : ℕ) : Graceful (readU64Le data offset) := by
  unfold readU64Le
  refine graceful_bind.mpr ⟨graceful_ensure _ _, fun _ hle => graceful_bind.mpr ⟨?_, by simp⟩⟩
  rw [ensure_eq_ok] at hle
  exact graceful_slice.mpr ⟨by omega, hle⟩

/-- A step after a check. -/
theorem graceful_run_ensure_bind {α σ : Type} {p : Prop} [Decidable p] {message : String}
    {r : StateT σ Result α} {s : σ} (h : p → Graceful (r.run s)) :
    Graceful ((do ensure p message; r : StateT σ Result α).run s) := by
  refine graceful_run_bind.mpr ⟨graceful_run_liftM.mpr (graceful_ensure _ _), fun _ s' hrun => ?_⟩
  obtain ⟨hp, rfl⟩ := run_liftM_eq_ok.mp hrun
  exact h (ensure_eq_ok.mp hp)

theorem graceful_readUleb128 (data : Bytes) : (readUleb128 data).IsGraceful := by
  have hgroups : ∀ groups shift value, (readUleb128Groups data groups shift value).IsGraceful := by
    intro groups
    induction groups with
    | zero => exact fun _ _ => .lift (graceful_error _)
    | succ groups ih =>
      intro shift value
      refine .get_bind fun offset => graceful_run_ensure_bind fun hlt => ?_
      refine Cursor.IsGraceful.bind (.lift (graceful_indexAt.mpr hlt)) (fun byte => ?_) offset
      refine .set_bind _ ?_
      split
      · exact .pure _
      · exact ih _ _
  exact hgroups 10 0 0

/-- A number that is read lies within the data. -/
theorem bounds_of_readUleb128 {offset stop : ℕ} {value : UInt64}
    (h : (readUleb128 data).run offset = .ok (value, stop)) : offset < stop ∧ stop ≤ data.length := by
  obtain ⟨bs, rest, hdrop, hspelled, -, rfl, -⟩ := readUleb128_eq_ok.mp h
  obtain ⟨init, last, rfl, -, -⟩ := hspelled.exists_snoc
  have hne : init ++ [last] ≠ [] := by simp
  have hpos := List.length_pos_of_ne_nil hne
  exact ⟨by omega, add_length_le_of_drop_eq hdrop hne⟩

theorem graceful_readQc8 (data : Bytes) : (readQc8 data).IsGraceful := by
  refine .get_bind fun offset => graceful_run_ensure_bind fun hlt => ?_
  refine Cursor.IsGraceful.bind (.lift (graceful_indexAt.mpr hlt)) (fun byte => ?_) offset
  refine fun _ => graceful_run_ensure_bind fun hle => ?_
  refine Cursor.IsGraceful.bind (.lift (graceful_slice.mpr ⟨by omega, hle⟩)) (fun bytes => ?_) _
  exact .set_bind _ (.pure _)

theorem graceful_readQc5e (data : Bytes) : (readQc5e data).IsGraceful := by
  refine .get_bind fun offset => graceful_run_ensure_bind fun hlt => ?_
  refine Cursor.IsGraceful.bind (.lift (graceful_indexAt.mpr hlt)) (fun byte => ?_) offset
  dsimp only
  split
  · exact .set_bind _ (.pure _)
  · refine fun _ => graceful_run_ensure_bind fun hle => ?_
    refine Cursor.IsGraceful.bind (.lift (graceful_slice.mpr ⟨by omega, hle⟩)) (fun bytes => ?_) _
    exact .set_bind _ (.pure _)

theorem graceful_skipUleb (data : Bytes) : (skipUleb data).IsGraceful :=
  .bind (graceful_readUleb128 data) fun _ => .pure ()

theorem graceful_skipQc5e (data : Bytes) : (skipQc5e data).IsGraceful := by
  refine .get_bind fun offset => graceful_run_ensure_bind fun hlt => ?_
  refine Cursor.IsGraceful.bind (.lift (graceful_indexAt.mpr hlt)) (fun byte => ?_) offset
  exact fun _ => graceful_run_ensure_bind fun hle => graceful_ok _

theorem graceful_peekTxOffsetUnits (record : Bytes) : Graceful (peekTxOffsetUnits record) := by
  have huleb := graceful_readUleb128 record
  have hqc5e := graceful_readQc5e record
  unfold peekTxOffsetUnits
  rw [StateT.run'_eq, graceful_map]
  exact Cursor.IsGraceful.bind (huleb.times 3) (fun _ => .bind (hqc5e.times 3) fun _ =>
    .bind (huleb.times 3) fun _ => huleb) 45

theorem graceful_skipToTxOffset (record : Bytes) : Graceful (skipToTxOffset record) := by
  have huleb := graceful_skipUleb record
  have hqc5e := graceful_skipQc5e record
  unfold skipToTxOffset
  rw [StateT.run'_eq, graceful_map]
  exact Cursor.IsGraceful.bind huleb (fun _ => .bind huleb fun _ => .bind huleb fun _ =>
    .bind hqc5e fun _ => .bind hqc5e fun _ => .bind hqc5e fun _ => .bind huleb fun _ =>
      .bind huleb fun _ => .bind huleb fun _ => graceful_readUleb128 record) 45

/-! ## The header -/

theorem graceful_readOffsets (data : Bytes) : Graceful (readOffsets data) := by
  unfold readOffsets
  refine graceful_mapM.mpr fun _ i _ _ _ _ => ?_
  exact graceful_bind.mpr ⟨graceful_readU32Le _ _, fun _ _ => graceful_ok _⟩

theorem graceful_ensureOffsets (offsets : List ℕ) (len : ℕ) : Graceful (ensureOffsets offsets len) := by
  unfold ensureOffsets
  refine graceful_bind.mpr ⟨graceful_foldlM.mpr fun _ offset _ previous _ _ => ?_, fun _ _ => graceful_ok _⟩
  exact graceful_bind.mpr ⟨graceful_ensure _ _, fun _ _ =>
    graceful_bind.mpr ⟨graceful_ensure _ _, fun _ _ => graceful_ok _⟩⟩

/-- The offsets of an accepted header are in order and within the data. -/
theorem offsets_of_foldlM {offsets : List ℕ} {len previous last : ℕ}
    (h : offsets.foldlM (fun previous offset => do
      ensure (previous ≤ offset) "offset table is not monotonic"
      ensure (offset ≤ len) "offset exceeds packet length"
      pure offset) previous = (.ok last : Result ℕ)) :
    (previous :: offsets).Pairwise (· ≤ ·) ∧ ∀ offset ∈ offsets, offset ≤ len := by
  induction offsets generalizing previous with
  | nil => simp
  | cons offset offsets ih =>
    rw [List.foldlM_cons] at h
    simp only [Except.bind_eq_ok, ensure_eq_ok, Except.pure_def, Except.ok.injEq] at h
    obtain ⟨_, ⟨_, hprevious, _, hle, rfl⟩, hrest⟩ := h
    obtain ⟨hordered, hbounds⟩ := ih hrest
    refine ⟨List.pairwise_cons.mpr ⟨?_, hordered⟩, List.forall_mem_cons.mpr ⟨hle, hbounds⟩⟩
    obtain ⟨hfirst, -⟩ := List.pairwise_cons.mp hordered
    exact List.forall_mem_cons.mpr ⟨hprevious, fun next hnext => hprevious.trans (hfirst next hnext)⟩

/-- The offsets of an accepted header are in order and within the data. -/
theorem ensureOffsets_eq_ok {offsets : List ℕ} (hoffsets : readOffsets data = .ok offsets)
    (h : ensureOffsets offsets data.length = .ok ()) {i j : ℕ} (hij : i ≤ j)
    (hj : j < headerOffsetCount) :
    offsets.getD i 0 ≤ offsets.getD j 0 ∧ offsets.getD j 0 ≤ data.length := by
  have hlen : offsets.length = headerOffsetCount := by
    have hall := (mapM_eq_ok_iff.mp hoffsets).length_eq
    rw [← hall, List.length_range]
  obtain ⟨last, hfold, -⟩ := Except.bind_eq_ok.mp h
  obtain ⟨hordered, hbounds⟩ := offsets_of_foldlM hfold
  have hi' : i < offsets.length := by omega
  have hj' : j < offsets.length := by omega
  rw [List.getD_eq_getElem _ _ hi', List.getD_eq_getElem _ _ hj']
  refine ⟨?_, hbounds _ (List.getElem_mem hj')⟩
  rcases Nat.eq_or_lt_of_le hij with rfl | hlt
  · exact Nat.le_refl _
  · exact List.pairwise_iff_getElem.mp (List.pairwise_cons.mp hordered).2 i j hi' hj' hlt

/-! ## The tables -/

theorem graceful_decodeAddresses (data : Bytes) : Graceful (decodeAddresses data) :=
  graceful_bind.mpr ⟨graceful_ensure _ _, fun _ _ => graceful_ok _⟩

theorem graceful_decodePosEntries (data : Bytes) : Graceful (decodePosEntries data) :=
  graceful_bind.mpr ⟨graceful_ensure _ _, fun _ _ => graceful_ok _⟩

theorem graceful_decodeU256Table (data : Bytes) : Graceful (decodeU256Table data) := by
  refine graceful_bind.mpr ⟨?_, fun _ _ =>
    graceful_bind.mpr ⟨graceful_ensure _ _, fun _ _ => graceful_ok _⟩⟩
  unfold trimZeroPadding
  dsimp only
  split
  · exact graceful_ok _
  · exact graceful_bind.mpr ⟨graceful_ensure _ _, fun _ _ => graceful_ok _⟩

theorem graceful_decodeSenderBaseNonces (data : Bytes) : Graceful (decodeSenderBaseNonces data) := by
  have hrounds : ∀ rounds, (senderBaseNonceRounds data rounds).IsGraceful := by
    intro rounds
    induction rounds with
    | zero => exact .pure []
    | succ rounds ih =>
      refine .get_bind fun offset => ?_
      split
      · exact Cursor.IsGraceful.bind (graceful_readUleb128 data) (fun _ =>
          .bind (graceful_readUleb128 data) fun _ => .bind ih fun _ => .pure _) offset
      · exact graceful_ok _
  unfold decodeSenderBaseNonces
  rw [StateT.run'_eq, graceful_map]
  exact hrounds _ 0

theorem graceful_tableGet {α : Type} (table : List α) (index : ℕ) : Graceful (tableGet table index) :=
  graceful_okOr _ _

end Cfxpack
