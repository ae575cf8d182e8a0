import CfxMinimalExecution.Extractor.ContainerFile
import CfxMinimalExecution.Extractor.PackTasks
import Mathlib.Data.List.Induction
import Mathlib.Data.List.TakeWhile

/-!
# The order of arrival does not matter

## Main definitions

* `Emitted groups writer`: the writer has taken the groups in order
* `Waiting packets arrived n state`: what the writer keeps of the packets that have arrived

## Main results

* `Emitted.emit`, `Emitted.finish`: what is written for groups in order
* `waiting_receive`: a packet that arrives is kept, and the packets that follow one another are
  taken
* `writeContainers_spec`: the files are those of the groups before the first missing one, in order
-/

namespace Extractor

open Cfxpack

/-! ## Groups in order -/

section InOrder

variable (profile : Profile) {namePrefix : String} {shardEpochs : UInt64} (targetBytes : UInt64)

/-- The file of groups that follow one another. -/
def fileOf (namePrefix : String) (shardEpochs : UInt64) (groups : List PacketOut) : File :=
  (containerPath namePrefix ((groups.head?.map (·.startEpoch)).getD 0)
      ((groups.getLast?.map fun group => group.startEpoch + group.epochCount - 1).getD 0),
    containerFile shardEpochs groups)

/-- The number of epochs of groups. -/
def epochsOf : List PacketOut → ℕ
  | [] => 0
  | group :: groups => group.epochCount.toNat + epochsOf groups

@[simp] theorem epochsOf_append (groups groups' : List PacketOut) :
    epochsOf (groups ++ groups') = epochsOf groups + epochsOf groups' := by
  induction groups with
  | nil => simp [epochsOf]
  | cons group groups ih => simp [epochsOf, ih, Nat.add_assoc]

/-- A group that has epochs, all of them words. -/
def InRange (group : PacketOut) : Prop :=
  0 < group.epochCount ∧ group.startEpoch.toNat + group.epochCount.toNat < UInt64.size

/-- The writer has flushed the groups of `chunks` and holds those of `current`. -/
structure EmittedAs (namePrefix : String) (shardEpochs : UInt64) (chunks : List (List PacketOut))
    (current : List PacketOut) (writer : Writer) : Prop where
  nonempty : ∀ chunk ∈ chunks, chunk ≠ []
  holds : Holds writer.builder current
  endEpoch : writer.builder.endEpoch =
    (current.getLast?.map fun group => group.startEpoch + group.epochCount - 1).getD 0
  written : writer.written = chunks.map (fileOf namePrefix shardEpochs)
  epochCount : writer.summary.epochCount.toNat + writer.builder.epochCount.toNat =
    epochsOf (chunks.flatten ++ current)

/-- The writer has taken the groups in order. -/
def Emitted (namePrefix : String) (shardEpochs : UInt64) (groups : List PacketOut)
    (writer : Writer) : Prop :=
  ∃ chunks current, chunks.flatten ++ current = groups ∧
    EmittedAs namePrefix shardEpochs chunks current writer

theorem emitted_default : Emitted namePrefix shardEpochs [] .default :=
  ⟨[], [], rfl, by simp, holds_default, rfl, rfl, rfl⟩

/-- A flush ends a container. -/
theorem EmittedAs.flush {chunks : List (List PacketOut)} {current : List PacketOut}
    {writer : Writer} (h : EmittedAs namePrefix shardEpochs chunks current writer)
    (hne : current ≠ []) (hcount : epochsOf (chunks.flatten ++ current) < UInt64.size) :
    ∃ writer', flushContainer profile namePrefix shardEpochs writer = .ok writer' ∧
      EmittedAs namePrefix shardEpochs (chunks ++ [current]) [] writer' := by
  obtain ⟨builder, summary, written⟩ := writer
  obtain ⟨group, groups, rfl⟩ := List.exists_cons_of_ne_nil hne
  have hstart : builder.startEpoch = some group.startEpoch := h.holds.startEpoch
  have hsum : summary.epochCount.toNat + builder.epochCount.toNat < UInt64.size := by
    rw [h.epochCount]
    exact hcount
  have hflush : ∃ writer', flushContainer profile namePrefix shardEpochs
      ⟨builder, summary, written⟩ = .ok writer' := by
    rw [flushContainer, hstart, Profile.addU64_of_lt hsum]
    exact ⟨_, rfl⟩
  obtain ⟨writer', hwriter⟩ := hflush
  refine ⟨writer', hwriter, ?_⟩
  simp only [flushContainer, hstart, Profile.addU64_of_lt hsum, Except.ok_bind, Except.pure_def,
    Except.ok.injEq] at hwriter
  subst hwriter
  constructor
  · simpa [or_imp, forall_and] using h.nonempty
  · exact holds_default
  · rfl
  · have hwritten : written = chunks.map (fileOf namePrefix shardEpochs) := h.written
    have hend : builder.endEpoch = _ := h.endEpoch
    simp [hwritten, fileOf, hend, h.holds.containerBytes_eq]
  · have hadd : (summary.epochCount + builder.epochCount).toNat =
        summary.epochCount.toNat + builder.epochCount.toNat := by
      rw [UInt64.toNat_add, Nat.mod_eq_of_lt hsum]
    simpa [hadd, ContainerBuilder.default] using h.epochCount

/-- A packet is pushed to the builder. -/
theorem EmittedAs.push {chunks : List (List PacketOut)} {current : List PacketOut}
    {writer : Writer} {packet : PacketOut}
    (h : EmittedAs namePrefix shardEpochs chunks current writer) (hpacket : InRange packet)
    (hcount : epochsOf (chunks.flatten ++ (current ++ [packet])) < UInt64.size) :
    ∃ builder, writer.builder.push profile packet = .ok builder ∧
      EmittedAs namePrefix shardEpochs chunks (current ++ [packet])
        { writer with builder } := by
  obtain ⟨hpos, hrange⟩ := hpacket
  have hstop : (packet.startEpoch + packet.epochCount).toNat =
      packet.startEpoch.toNat + packet.epochCount.toNat := by
    rw [UInt64.toNat_add, Nat.mod_eq_of_lt hrange]
  have hone : 1 ≤ packet.startEpoch + packet.epochCount := by
    have hpos : 0 < packet.epochCount.toNat := hpos
    rw [UInt64.le_iff_toNat_le, hstop, UInt64.toNat_one]
    omega
  have hepochs := h.epochCount
  have htotal : epochsOf (chunks.flatten ++ (current ++ [packet])) =
      epochsOf (chunks.flatten ++ current) + packet.epochCount.toNat := by
    simp [epochsOf, Nat.add_assoc]
  have hsum : writer.builder.epochCount.toNat + packet.epochCount.toNat < UInt64.size := by omega
  have hpush : ∃ builder, writer.builder.push profile packet = .ok builder := by
    rw [ContainerBuilder.push, Profile.addU64_of_lt hrange, Except.ok_bind,
      Profile.subU64_of_le hone, Except.ok_bind, Profile.addU64_of_lt hsum]
    exact ⟨_, rfl⟩
  obtain ⟨builder, hbuilder⟩ := hpush
  refine ⟨builder, hbuilder, h.nonempty, h.holds.push hbuilder, ?_, h.written, ?_⟩
  all_goals
    simp only [ContainerBuilder.push, Profile.addU64_of_lt hrange, Profile.subU64_of_le hone,
      Profile.addU64_of_lt hsum, Except.ok_bind, Except.pure_def, Except.ok.injEq] at hbuilder
    subst hbuilder
  · simp
  · rw [htotal, UInt64.toNat_add, Nat.mod_eq_of_lt hsum, ← Nat.add_assoc, hepochs]

/-- **The next group is taken.** -/
theorem Emitted.emit {groups : List PacketOut} {writer : Writer} {packet : PacketOut}
    (h : Emitted namePrefix shardEpochs groups writer) (hpacket : InRange packet)
    (hcount : epochsOf (groups ++ [packet]) < UInt64.size) :
    ∃ writer', emit profile namePrefix shardEpochs targetBytes writer packet = .ok writer' ∧
      Emitted namePrefix shardEpochs (groups ++ [packet]) writer' := by
  obtain ⟨chunks, current, rfl, h⟩ := h
  rw [List.append_assoc] at hcount ⊢
  obtain ⟨builder, hpush, hpushed⟩ := h.push profile hpacket hcount
  unfold Extractor.emit
  rw [hpush, Except.ok_bind]
  split
  case isTrue =>
    obtain ⟨writer', hflush, hflushed⟩ := hpushed.flush profile (by simp) hcount
    exact ⟨writer', hflush, chunks ++ [current ++ [packet]], [], by simp, hflushed⟩
  case isFalse => exact ⟨_, rfl, chunks, _, rfl, hpushed⟩

variable (namePrefix shardEpochs) in
/-- The groups are taken one after the other. -/
theorem emitted_foldlM {groups : List PacketOut} (hgroups : ∀ group ∈ groups, InRange group)
    (hcount : epochsOf groups < UInt64.size) :
    ∃ writer, groups.foldlM (Extractor.emit profile namePrefix shardEpochs targetBytes) .default =
      .ok writer ∧ Emitted namePrefix shardEpochs groups writer := by
  induction groups using List.reverseRecOn with
  | nil => exact ⟨_, rfl, emitted_default⟩
  | append_singleton groups packet ih =>
    have hle : epochsOf groups ≤ epochsOf (groups ++ [packet]) := by simp
    obtain ⟨writer, hwriter, hemitted⟩ :=
      ih (fun group hgroup => hgroups group (List.mem_append_left _ hgroup)) (by omega)
    obtain ⟨writer', hemit, hemitted'⟩ :=
      hemitted.emit profile targetBytes (hgroups packet (by simp)) hcount
    refine ⟨writer', ?_, hemitted'⟩
    rw [List.foldlM_append, hwriter, Except.ok_bind, List.foldlM_cons, hemit]
    rfl

/-- **What is written for groups in order**: every group is in one container, in order. -/
theorem Emitted.finish {groups : List PacketOut} {writer : Writer}
    (h : Emitted namePrefix shardEpochs groups writer) (hcount : epochsOf groups < UInt64.size) :
    ∃ (writer' : Writer) (chunks : List (List PacketOut)), finish profile namePrefix shardEpochs writer = .ok writer' ∧
      chunks.flatten = groups ∧ (∀ chunk ∈ chunks, chunk ≠ []) ∧
      writer'.written = chunks.map (fileOf namePrefix shardEpochs) := by
  obtain ⟨chunks, current, rfl, h⟩ := h
  unfold Extractor.finish
  have hempty : writer.builder.isEmpty ↔ current = [] := by
    simp [ContainerBuilder.isEmpty, h.holds.entries, entriesOf]
  split
  case isTrue he =>
    obtain rfl := hempty.mp he
    exact ⟨writer, chunks, rfl, by simp, h.nonempty, h.written⟩
  case isFalse he =>
    obtain ⟨writer', hflush, hflushed⟩ := h.flush profile (mt hempty.mpr he) hcount
    exact ⟨writer', _, hflush, by simp, hflushed.nonempty, hflushed.written⟩

end InOrder

/-! ## Groups as they arrive -/

section Arrival

variable {profile : Profile} {namePrefix : String} {shardEpochs targetBytes : UInt64}
  {packetAt : ℕ → PacketOut} {count : ℕ}

/-- The first groups, in order. -/
def firstGroups (packetAt : ℕ → PacketOut) (n : ℕ) : List PacketOut := (List.range n).map packetAt

/-- The groups before `n` have arrived and are taken; of the others, those that have arrived are
pending. -/
structure Waiting (emit : Writer → PacketOut → Result Writer) (packetAt : ℕ → PacketOut)
    (count : ℕ) (arrived : List ℕ) (n : ℕ) (state : Pending × UInt64 × Writer) : Prop where
  le : n ≤ count
  nextGroup : state.2.1 = UInt64.ofNat n
  taken : ∀ i < n, i ∈ arrived
  pending : ∀ i < UInt64.size, state.1.lookup (UInt64.ofNat i) =
    if n ≤ i ∧ i ∈ arrived then some (packetAt i) else none
  writer : (firstGroups packetAt n).foldlM emit .default = .ok state.2.2

theorem ofNat_inj {i j : ℕ} (hi : i < UInt64.size) (hj : j < UInt64.size) :
    UInt64.ofNat i = UInt64.ofNat j ↔ i = j := by
  rw [← UInt64.toNat_inj, UInt64.toNat_ofNat_of_lt' hi, UInt64.toNat_ofNat_of_lt' hj]

/-- The groups before `n` can be taken. -/
def CanEmit (emit : Writer → PacketOut → Result Writer) (packetAt : ℕ → PacketOut) (count : ℕ) :
    Prop :=
  ∀ n ≤ count, ∃ writer, (firstGroups packetAt n).foldlM emit .default = .ok writer

variable (hemit : CanEmit (emit profile namePrefix shardEpochs targetBytes) packetAt count)
  (hcount : count < UInt64.size)

include hemit hcount

/-- **The drain** takes the pending groups up to the first that has not arrived. -/
theorem waiting_drain {arrived : List ℕ} (harrived : ∀ i ∈ arrived, i < count) (rounds : ℕ) {n : ℕ}
    {state : Pending × UInt64 × Writer} (hrounds : state.1.keys.length ≤ rounds)
    (h : Waiting (emit profile namePrefix shardEpochs targetBytes) packetAt count arrived n state) :
    ∃ n' state', drain profile namePrefix shardEpochs targetBytes rounds state = .ok state' ∧
      Waiting (emit profile namePrefix shardEpochs targetBytes) packetAt count arrived n' state' ∧
      n' ∉ arrived := by
  -- induction on a bound of the packets pending: a round takes one of them
  induction rounds generalizing n state with
  | zero =>
    refine ⟨n, state, rfl, h, fun hn => ?_⟩
    have hlookup := h.pending n (by have := h.le; omega)
    have hkeys : state.1.keys = [] := List.eq_nil_of_length_eq_zero (by omega)
    rw [if_pos ⟨le_rfl, hn⟩, AList.lookup_eq_none.mpr (by simp [AList.mem_keys, hkeys])] at hlookup
    cases hlookup
  | succ rounds ih =>
    obtain ⟨pending, nextGroup, writer⟩ := state
    obtain rfl : nextGroup = UInt64.ofNat n := h.nextGroup
    have hn : n < UInt64.size := h.le.trans_lt hcount
    have hlookup := h.pending n hn
    by_cases hmem : n ∈ arrived
    · rw [if_pos ⟨le_rfl, hmem⟩] at hlookup
      have hlt := harrived n hmem
      obtain ⟨writer', hwriter'⟩ := hemit (n + 1) hlt
      have hstep : emit profile namePrefix shardEpochs targetBytes writer (packetAt n) =
          .ok writer' := by
        rw [firstGroups, List.range_succ, List.map_append, List.foldlM_append, ← firstGroups,
          h.writer, Except.ok_bind, List.map_singleton, List.foldlM_cons] at hwriter'
        obtain ⟨w, hw, hw'⟩ := Except.bind_eq_ok.mp hwriter'
        rw [hw, ← Except.ok.inj hw']
      have hnext : profile.addU64 (UInt64.ofNat n) 1 = .ok (UInt64.ofNat (n + 1)) := by
        rw [Profile.addU64_of_lt (by rw [UInt64.toNat_ofNat_of_lt' hn, UInt64.toNat_one]; omega),
          UInt64.ofNat_add]
        rfl
      have hkey : UInt64.ofNat n ∈ pending.keys := by
        rw [← AList.mem_keys, ← AList.lookup_isSome]
        simpa using congrArg Option.isSome hlookup
      rw [drain, hlookup]
      simp only [hstep, hnext, Except.ok_bind]
      refine ih (n := n + 1) ?_ ⟨hlt, rfl, ?_, ?_, hwriter'⟩
      · simp only at hrounds
        rw [AList.keys_erase, List.length_erase_of_mem hkey]
        omega
      · intro i hi
        rcases Nat.lt_succ_iff_lt_or_eq.mp hi with hi | rfl
        · exact h.taken i hi
        · exact hmem
      · intro i hi
        rcases eq_or_ne i n with rfl | hne
        · rw [AList.lookup_erase, if_neg (by omega)]
        · rw [AList.lookup_erase_ne (mt (ofNat_inj hi hn).mp hne), h.pending i hi]
          exact if_congr (and_congr_left fun _ => by omega) rfl rfl
    -- packet `n` is missing: the loop stops with the packets still pending
    · refine ⟨n, (pending, UInt64.ofNat n, writer), ?_, h, hmem⟩
      rw [if_neg (fun hc => hmem hc.2)] at hlookup
      rw [drain, hlookup]
      rfl

/-- **A group arrives.** -/
theorem waiting_receive {arrived : List ℕ} (harrived : ∀ i ∈ arrived, i < count) {n j : ℕ}
    (hj : j < count) (hnew : j ∉ arrived) (hindex : (packetAt j).groupIndex = UInt64.ofNat j)
    {state : Pending × UInt64 × Writer}
    (h : Waiting (emit profile namePrefix shardEpochs targetBytes) packetAt count arrived n state) :
    ∃ n' state', receive profile namePrefix shardEpochs targetBytes state (packetAt j) =
        .ok state' ∧
      Waiting (emit profile namePrefix shardEpochs targetBytes) packetAt count (arrived ++ [j]) n'
        state' ∧ n' ∉ arrived ++ [j] := by
  have hnj : n ≤ j := Nat.not_lt.mp fun hlt => hnew (h.taken j hlt)
  refine waiting_drain hemit hcount ?_ _ le_rfl (n := n) ⟨h.le, h.nextGroup, ?_, ?_, h.writer⟩
  · simpa [or_imp, forall_and] using ⟨harrived, hj⟩
  · exact fun i hi => List.mem_append_left _ (h.taken i hi)
  · intro i hi
    rw [hindex]
    rcases eq_or_ne i j with rfl | hne
    · rw [AList.lookup_insert, if_pos ⟨hnj, by simp⟩]
    · rw [AList.lookup_insert_ne (mt (ofNat_inj hi (hj.trans hcount)).mp hne), h.pending i hi]
      simp [hne]

/-- **Groups that arrive in any order** are taken up to the first that is missing. -/
theorem waiting_foldlM {arrived : List ℕ} (harrived : ∀ i ∈ arrived, i < count)
    (hnodup : arrived.Nodup) (hindex : ∀ i < count, (packetAt i).groupIndex = UInt64.ofNat i) :
    ∃ n state, (arrived.map packetAt).foldlM (receive profile namePrefix shardEpochs targetBytes)
        (∅, 0, .default) = .ok state ∧
      Waiting (emit profile namePrefix shardEpochs targetBytes) packetAt count arrived n state ∧
      n ∉ arrived := by
  induction arrived using List.reverseRecOn with
  | nil => exact ⟨0, _, rfl, ⟨Nat.zero_le _, rfl, by simp, by simp, rfl⟩, by simp⟩
  | append_singleton arrived j ih =>
    have hj := harrived j (by simp)
    obtain ⟨hnodup, -, hnew⟩ := List.nodup_append.mp hnodup
    have harrived' : ∀ i ∈ arrived, i < count := fun i hi => harrived i (by simp [hi])
    obtain ⟨n, state, hrun, hwaiting, -⟩ := ih harrived' hnodup
    obtain ⟨n', state', hreceive, hwaiting', hmissing⟩ := waiting_receive hemit hcount harrived' hj
      (fun hmem => hnew j hmem j (by simp) rfl) (hindex j hj) hwaiting
    refine ⟨n', state', ?_, hwaiting', hmissing⟩
    rw [List.map_append, List.foldlM_append, hrun, Except.ok_bind, List.map_singleton,
      List.foldlM_cons, hreceive]
    rfl

/-- The writer, over groups that arrive in any order. -/
theorem exists_writeContainers {arrived : List ℕ} (harrived : ∀ i ∈ arrived, i < count)
    (hnodup : arrived.Nodup) (hindex : ∀ i < count, (packetAt i).groupIndex = UInt64.ofNat i) :
    ∃ n ≤ count, (∀ i < n, i ∈ arrived) ∧ n ∉ arrived ∧
      writeContainers profile namePrefix shardEpochs targetBytes (arrived.map packetAt) = (do
        let writer ← (firstGroups packetAt n).foldlM
          (emit profile namePrefix shardEpochs targetBytes) .default
        let writer ← finish profile namePrefix shardEpochs writer
        pure (writer.summary, writer.written)) := by
  obtain ⟨n, ⟨pending, nextGroup, writer⟩, hrun, hwaiting, hmissing⟩ :=
    waiting_foldlM hemit hcount harrived hnodup hindex
  refine ⟨n, hwaiting.le, hwaiting.taken, hmissing, ?_⟩
  rw [writeContainers, hrun, hwaiting.writer]
  rfl

end Arrival

/-! ## Paths -/

/-- The digits of a number end at an underscore. -/
theorem takeWhile_digits (n : ℕ) (rest : List Char) :
    (Nat.toDigits 10 n ++ '_' :: rest).takeWhile (· ≠ '_') = Nat.toDigits 10 n := by
  have hdigits : ∀ c ∈ Nat.toDigits 10 n, c ≠ '_' := by
    rintro c hc rfl
    exact Nat.underscore_not_in_toDigits hc
  rw [List.takeWhile_append_of_pos (by simpa using hdigits)]
  simp

/-- Containers with different first epochs are different files. -/
theorem startEpoch_eq_of_containerPath {namePrefix : String}
    {startEpoch endEpoch startEpoch' endEpoch' : UInt64}
    (h : containerPath namePrefix startEpoch endEpoch =
      containerPath namePrefix startEpoch' endEpoch') : startEpoch = startEpoch' := by
  have hlist := congrArg String.toList h
  have hunderscore : (toString "_").toList = ['_'] := rfl
  simp only [containerPath, String.toList_append, List.append_assoc, List.append_cancel_left_eq,
    hunderscore, List.cons_append, List.cons.injEq, true_and, Nat.toString_eq_repr,
    Nat.toList_repr] at hlist
  have hdigits : Nat.toDigits 10 startEpoch.toNat = Nat.toDigits 10 startEpoch'.toNat := by
    have htake := congrArg (List.takeWhile (· ≠ '_')) hlist
    rwa [takeWhile_digits, takeWhile_digits] at htake
  apply UInt64.toNat_inj.mp
  rw [← Nat.ofDigitChars_ten_toDigits (n := startEpoch.toNat), hdigits,
    Nat.ofDigitChars_ten_toDigits]

/-! ## The files -/

section Files

variable {startEpoch epochCount shardEpochs : UInt64} {count : ℕ}

/-- The packets of the tasks. -/
def packetAt (encoded : PackTask → Bytes × ℕ × ℕ) (startEpoch epochCount shardEpochs : UInt64)
    (i : ℕ) : PacketOut :=
  workerOut encoded (taskAt startEpoch epochCount shardEpochs i)

theorem add_epochsOf {groups : List PacketOut} {start stop : ℕ}
    (h : Tiles start (groups.map fun group => (group.startEpoch.toNat, group.epochCount.toNat)) stop) :
    start + epochsOf groups = stop := by
  induction groups generalizing start with
  | nil => exact h
  | cons group groups ih =>
    obtain ⟨-, hrest⟩ := h
    rw [epochsOf, ← Nat.add_assoc]
    exact ih hrest

theorem inRange_firstGroups {packetAt : ℕ → PacketOut} {n : ℕ} (h : ∀ i < n, InRange (packetAt i)) :
    ∀ group ∈ firstGroups packetAt n, InRange group := by
  intro group hgroup
  obtain ⟨i, hi, rfl⟩ := List.mem_map.mp hgroup
  exact h i (List.mem_range.mp hi)

/-- Files of groups whose start epochs ascend have different paths. -/
theorem nodup_paths (namePrefix : String) {chunks : List (List PacketOut)}
    (hne : ∀ chunk ∈ chunks, chunk ≠ [])
    (hpairwise : chunks.flatten.Pairwise fun group group' => group.startEpoch < group'.startEpoch) :
    (chunks.map fun chunk => (fileOf namePrefix shardEpochs chunk).1).Nodup := by
  rw [List.pairwise_flatten] at hpairwise
  rw [List.Nodup, List.pairwise_map]
  refine hpairwise.2.imp_of_mem fun {chunk chunk'} hchunk hchunk' hlt heq => ?_
  obtain ⟨group, groups, rfl⟩ := List.exists_cons_of_ne_nil (hne chunk hchunk)
  obtain ⟨group', groups', rfl⟩ := List.exists_cons_of_ne_nil (hne chunk' hchunk')
  have hstart := startEpoch_eq_of_containerPath heq
  have hless := hlt group (by simp) group' (by simp)
  simp only [List.head?_cons, Option.map_some, Option.getD_some] at hstart
  rw [hstart] at hless
  exact absurd hless (UInt64.lt_irrefl _)

theorem takeWhile_mem_append {α : Type} [DecidableEq α] {l l' : List α} (h : (l ++ l').Nodup) :
    (l ++ l').takeWhile (· ∈ l) = l := by
  rw [List.takeWhile_append_of_pos (by simp)]
  obtain ⟨-, -, hdisjoint⟩ := List.nodup_append.mp h
  cases l' with
  | nil => simp
  | cons a l' => simp [show a ∉ l from fun hmem => hdisjoint a hmem a (by simp) rfl]

theorem takeWhile_range {p : ℕ → Bool} {n count : ℕ} (hn : n ≤ count) (hp : ∀ i < n, p i)
    (hstop : ¬ p n) : (List.range count).takeWhile p = List.range n := by
  obtain ⟨k, rfl⟩ := Nat.exists_eq_add_of_le hn
  rw [List.range_add, List.takeWhile_append_of_pos (by simpa using hp)]
  cases k with
  | zero => simp
  | succ k => simp [List.range_succ_eq_map, hstop]

section Spec

variable (profile : Profile) (namePrefix : String) (targetBytes : UInt64)
  (encoded : PackTask → Bytes × ℕ × ℕ)

/-- The groups of a run of tasks: each has epochs, all of them words, and they are as many as the
tasks have. -/
theorem packetAt_spec (hshard : 0 < shardEpochs)
    (hsum : startEpoch.toNat + epochCount.toNat < UInt64.size)
    (hcount : ∀ i, i < count ↔ i * shardEpochs.toNat < epochCount.toNat) :
    count < UInt64.size ∧
      (∀ i < count, InRange (packetAt encoded startEpoch epochCount shardEpochs i) ∧
        (packetAt encoded startEpoch epochCount shardEpochs i).groupIndex = UInt64.ofNat i) ∧
      epochsOf (firstGroups (packetAt encoded startEpoch epochCount shardEpochs) count) <
        UInt64.size := by
  have hpos : 0 < shardEpochs.toNat := hshard
  refine ⟨?_, fun i hi => ⟨⟨?_, ?_⟩, rfl⟩, ?_⟩
  -- a group takes an epoch at least, so there are no more groups than epochs
  · by_contra hge
    have hlast := (hcount (count - 1)).mp (by omega)
    have hle := Nat.le_mul_of_pos_right (count - 1) hpos
    have hsize := epochCount.toNat_lt_size
    omega
  · obtain ⟨-, hlen⟩ := span_taskAt ((hcount i).mp hi) hshard hsum
    have hlt := (hcount i).mp hi
    rw [UInt64.lt_iff_toNat_lt]
    exact (show 0 < _ by omega : 0 < min (epochCount.toNat - i * shardEpochs.toNat)
      shardEpochs.toNat).trans_eq hlen.symm
  · obtain ⟨hstart, hlen⟩ := span_taskAt ((hcount i).mp hi) hshard hsum
    have hlt := (hcount i).mp hi
    show (taskAt startEpoch epochCount shardEpochs i).startEpoch.toNat +
      (taskAt startEpoch epochCount shardEpochs i).epochCount.toNat < _
    omega
  · have htiles := tiles_taskAt hshard hsum hcount
    have htotal : startEpoch.toNat +
        epochsOf (firstGroups (packetAt encoded startEpoch epochCount shardEpochs) count) =
          startEpoch.toNat + epochCount.toNat := by
      refine add_epochsOf ?_
      rw [firstGroups, List.map_map]
      exact htiles
    omega

/-- Tasks that arrive are known by the indices of their groups. -/
theorem arrived_eq (hsize : count < UInt64.size) {arrived : List PackTask}
    (hsub : arrived ⊆ (List.range count).map (taskAt startEpoch epochCount shardEpochs)) :
    ∃ indices : List ℕ, arrived = indices.map (taskAt startEpoch epochCount shardEpochs) ∧
      (∀ i ∈ indices, i < count) ∧
      ∀ i < count, taskAt startEpoch epochCount shardEpochs i ∈ arrived ↔ i ∈ indices := by
  have hindex : ∀ i < count, (taskAt startEpoch epochCount shardEpochs i).groupIndex.toNat = i :=
    fun i hi => UInt64.toNat_ofNat_of_lt' (hi.trans hsize)
  -- a task carries the index of its group, from which it is recovered
  refine ⟨arrived.map fun task => task.groupIndex.toNat, ?_, ?_, ?_⟩
  · rw [List.map_map]
    refine (List.map_id arrived).symm.trans (List.map_congr_left fun task htask => ?_)
    obtain ⟨i, hi, rfl⟩ := List.mem_map.mp (hsub htask)
    rw [Function.comp_apply, hindex i (List.mem_range.mp hi), id]
  · intro i hi
    obtain ⟨task, htask, rfl⟩ := List.mem_map.mp hi
    obtain ⟨j, hj, rfl⟩ := List.mem_map.mp (hsub htask)
    rw [hindex j (List.mem_range.mp hj)]
    exact List.mem_range.mp hj
  · intro i hi
    constructor
    · exact fun hmem => List.mem_map.mpr ⟨_, hmem, hindex i hi⟩
    · intro hmem
      obtain ⟨task, htask, heq⟩ := List.mem_map.mp hmem
      obtain ⟨j, hj, rfl⟩ := List.mem_map.mp (hsub htask)
      rw [hindex j (List.mem_range.mp hj)] at heq
      exact heq ▸ htask

/-- What is written for the first groups, in order. -/
theorem exists_chunks (hshard : 0 < shardEpochs)
    (hsum : startEpoch.toNat + epochCount.toNat < UInt64.size)
    (hcount : ∀ i, i < count ↔ i * shardEpochs.toNat < epochCount.toNat) {n : ℕ} (hn : n ≤ count) :
    ∃ (summary : PackSummary) (chunks : List (List PacketOut)),
      (do
        let writer ← (firstGroups (packetAt encoded startEpoch epochCount shardEpochs) n).foldlM
          (emit profile namePrefix shardEpochs targetBytes) .default
        let writer ← finish profile namePrefix shardEpochs writer
        pure (writer.summary, writer.written) : Result (PackSummary × List File)) =
          .ok (summary, chunks.map (fileOf namePrefix shardEpochs)) ∧
      chunks.flatten = firstGroups (packetAt encoded startEpoch epochCount shardEpochs) n ∧
      (∀ chunk ∈ chunks, chunk ≠ []) ∧
      (chunks.map fun chunk => (fileOf namePrefix shardEpochs chunk).1).Nodup := by
  obtain ⟨-, hgroups, hepochs⟩ := packetAt_spec encoded hshard hsum hcount
  obtain ⟨k, rfl⟩ := Nat.exists_eq_add_of_le hn
  have hsplit : firstGroups (packetAt encoded startEpoch epochCount shardEpochs) (n + k) =
      firstGroups (packetAt encoded startEpoch epochCount shardEpochs) n ++
        ((List.range k).map (n + ·)).map (packetAt encoded startEpoch epochCount shardEpochs) := by
    rw [firstGroups, List.range_add, List.map_append]
    rfl
  rw [hsplit, epochsOf_append] at hepochs
  obtain ⟨writer, hrun, hemitted⟩ := emitted_foldlM profile namePrefix shardEpochs targetBytes
    (inRange_firstGroups fun i hi => (hgroups i (hi.trans_le hn)).1) (by omega)
  obtain ⟨writer', chunks, hfinish, hflatten, hne, hwritten⟩ := hemitted.finish profile (by omega)
  refine ⟨writer'.summary, chunks, ?_, hflatten, hne, nodup_paths namePrefix hne ?_⟩
  · rw [hrun, Except.ok_bind, hfinish, Except.ok_bind, hwritten]
    rfl
  · have htiles := (tiles_taskAt hshard hsum hcount).pairwise
    rw [List.pairwise_map] at htiles
    rw [hflatten, firstGroups, List.pairwise_map]
    have hsublist : (List.range n).Sublist (List.range (n + k)) := by
      rw [List.range_add]
      exact List.sublist_append_left _ _
    refine (htiles.sublist hsublist).imp_of_mem fun {i j} hi _ hle => ?_
    have hpos := (hgroups i ((List.mem_range.mp hi).trans_le hn)).1.1
    rw [UInt64.lt_iff_toNat_lt] at hpos ⊢
    exact (Nat.lt_add_of_pos_right hpos).trans_le hle

/-- The writer, over the packets of tasks that arrive in any order. -/
theorem exists_takeWhile (hshard : 0 < shardEpochs)
    (hsum : startEpoch.toNat + epochCount.toNat < UInt64.size)
    (hcount : ∀ i, i < count ↔ i * shardEpochs.toNat < epochCount.toNat) {arrived : List PackTask}
    (hnodup : arrived.Nodup)
    (hsub : arrived ⊆ (List.range count).map (taskAt startEpoch epochCount shardEpochs)) :
    ∃ n ≤ count, ((List.range count).map (taskAt startEpoch epochCount shardEpochs)).takeWhile
        (· ∈ arrived) = (List.range n).map (taskAt startEpoch epochCount shardEpochs) ∧
      writeContainers profile namePrefix shardEpochs targetBytes
          (arrived.map (workerOut encoded)) = (do
        let writer ← (firstGroups (packetAt encoded startEpoch epochCount shardEpochs) n).foldlM
          (emit profile namePrefix shardEpochs targetBytes) .default
        let writer ← finish profile namePrefix shardEpochs writer
        pure (writer.summary, writer.written)) := by
  obtain ⟨hsize, hgroups, hepochs⟩ := packetAt_spec encoded hshard hsum hcount
  obtain ⟨indices, rfl, hlt, hmem⟩ := arrived_eq hsize hsub
  have hcan : CanEmit (emit profile namePrefix shardEpochs targetBytes)
      (packetAt encoded startEpoch epochCount shardEpochs) count := by
    intro n hn
    obtain ⟨k, rfl⟩ := Nat.exists_eq_add_of_le hn
    rw [firstGroups, List.range_add, List.map_append, epochsOf_append] at hepochs
    obtain ⟨writer, hrun, -⟩ := emitted_foldlM profile namePrefix shardEpochs targetBytes
      (inRange_firstGroups fun i hi => (hgroups i (hi.trans_le hn)).1) (by unfold firstGroups; omega)
    exact ⟨writer, hrun⟩
  obtain ⟨n, hn, htaken, hmissing, hwrite⟩ := exists_writeContainers hcan hsize hlt
    hnodup.of_map fun i hi => (hgroups i hi).2
  refine ⟨n, hn, ?_, ?_⟩
  · rw [List.takeWhile_map]
    refine congrArg (List.map _) ?_
    -- either group `n` is missing, or every group has arrived
    rcases Nat.lt_or_ge n count with hlt' | hge
    · refine takeWhile_range hn (fun i hi => ?_) ?_
      · exact decide_eq_true ((hmem i (hi.trans hlt')).mpr (htaken i hi))
      · exact fun hmem' => hmissing ((hmem n hlt').mp (of_decide_eq_true hmem'))
    · obtain rfl := Nat.le_antisymm hn hge
      rw [List.takeWhile_eq_self_iff.mpr]
      intro i hi
      have hi := List.mem_range.mp hi
      exact decide_eq_true ((hmem i hi).mpr (htaken i hi))
  · rw [List.map_map]
    exact hwrite

/-- **The order of arrival does not matter.** The groups of the tasks follow one another from the
first epoch to the last. Whatever groups arrive, and in whatever order, the files are those of the
groups before the first missing one, arriving in order: each of these groups is in one file, in
ascending order, and no file replaces another. -/
theorem writeContainers_spec (startEpoch epochCount shardEpochs : UInt64) (hshard : 0 < shardEpochs)
    (hsum : startEpoch.toNat + epochCount.toNat < UInt64.size) :
    ∃ tasks, buildPackTasks profile startEpoch epochCount shardEpochs = .ok tasks ∧
      Tiles startEpoch.toNat (tasks.map fun task => (task.startEpoch.toNat, task.epochCount.toNat))
        (startEpoch.toNat + epochCount.toNat) ∧
      (∀ task ∈ tasks, 0 < task.epochCount) ∧
      (∀ arrived : List PackTask, arrived.Perm tasks →
        writeContainers profile namePrefix shardEpochs targetBytes
            (arrived.map (workerOut encoded)) =
          writeContainers profile namePrefix shardEpochs targetBytes
            (tasks.map (workerOut encoded))) ∧
      ∀ arrived : List PackTask, arrived.Nodup → arrived ⊆ tasks →
        ∃ (summary : PackSummary) (chunks : List (List PacketOut)),
          writeContainers profile namePrefix shardEpochs targetBytes
            (arrived.map (workerOut encoded)) =
              .ok (summary, chunks.map (fileOf namePrefix shardEpochs)) ∧
          writeContainers profile namePrefix shardEpochs targetBytes
            ((tasks.takeWhile (· ∈ arrived)).map (workerOut encoded)) =
              .ok (summary, chunks.map (fileOf namePrefix shardEpochs)) ∧
          chunks.flatten = (tasks.takeWhile (· ∈ arrived)).map (workerOut encoded) ∧
          (∀ chunk ∈ chunks, chunk ≠ []) ∧
          (chunks.map fun chunk => (fileOf namePrefix shardEpochs chunk).1).Nodup := by
  obtain ⟨count, hcount, htasks⟩ := buildPackTasks_eq profile hshard hsum
  obtain ⟨hsize, hgroups, -⟩ := packetAt_spec encoded hshard hsum hcount
  have hnodup : ((List.range count).map (taskAt startEpoch epochCount shardEpochs)).Nodup := by
    refine List.Nodup.map_on (fun i hi j hj heq => ?_) List.nodup_range
    have hindex := congrArg PackTask.groupIndex heq
    exact (ofNat_inj ((List.mem_range.mp hi).trans hsize)
      ((List.mem_range.mp hj).trans hsize)).mp hindex
  refine ⟨_, htasks, ?_, ?_, ?_, ?_⟩
  · rw [List.map_map]
    exact tiles_taskAt hshard hsum hcount
  · intro task htask
    obtain ⟨i, hi, rfl⟩ := List.mem_map.mp htask
    exact (hgroups i (List.mem_range.mp hi)).1.1
  · intro arrived hperm
    have hall : ∀ arrived : List PackTask,
        arrived.Perm ((List.range count).map (taskAt startEpoch epochCount shardEpochs)) →
        writeContainers profile namePrefix shardEpochs targetBytes
            (arrived.map (workerOut encoded)) = (do
          let writer ← (firstGroups (packetAt encoded startEpoch epochCount shardEpochs) count).foldlM
            (emit profile namePrefix shardEpochs targetBytes) .default
          let writer ← finish profile namePrefix shardEpochs writer
          pure (writer.summary, writer.written)) := by
      intro arrived hperm
      obtain ⟨n, -, htake, hwrite⟩ := exists_takeWhile profile namePrefix targetBytes encoded hshard
        hsum hcount (hperm.symm.nodup hnodup) hperm.subset
      rw [List.takeWhile_eq_self_iff.mpr fun task htask =>
        decide_eq_true (hperm.symm.subset htask)] at htake
      obtain rfl : count = n := by simpa using congrArg List.length htake
      exact hwrite
    rw [hall arrived hperm, hall _ (List.Perm.refl _)]
  · intro arrived hnodup' hsub
    obtain ⟨n, hn, htake, hwrite⟩ :=
      exists_takeWhile profile namePrefix targetBytes encoded hshard hsum hcount hnodup' hsub
    obtain ⟨k, rfl⟩ := Nat.exists_eq_add_of_le hn
    have hsplit : (List.range (n + k)).map (taskAt startEpoch epochCount shardEpochs) =
        (List.range n).map (taskAt startEpoch epochCount shardEpochs) ++
          ((List.range k).map (n + ·)).map (taskAt startEpoch epochCount shardEpochs) := by
      rw [List.range_add, List.map_append]
    have hfirst : (List.range n).map (taskAt startEpoch epochCount shardEpochs) ⊆
        (List.range (n + k)).map (taskAt startEpoch epochCount shardEpochs) := by
      rw [hsplit]
      exact List.subset_append_left _ _
    rw [hsplit] at hnodup
    obtain ⟨n', -, htake', hwrite'⟩ := exists_takeWhile profile namePrefix targetBytes encoded
      hshard hsum hcount (List.nodup_append.mp hnodup).1 hfirst
    rw [hsplit, takeWhile_mem_append hnodup] at htake'
    obtain rfl : n = n' := by simpa using congrArg List.length htake'
    obtain ⟨summary, chunks, hrun, hflatten, hne, hpaths⟩ :=
      exists_chunks profile namePrefix targetBytes encoded hshard hsum hcount hn
    refine ⟨summary, chunks, hwrite.trans hrun, ?_, ?_, hne, hpaths⟩
    · rw [htake]
      exact hwrite'.trans hrun
    · rw [htake, hflatten, List.map_map]
      rfl

/-- Five epochs in groups of two, packed by threes: all groups arrive in another order, and then the
second one is missing. -/
theorem writeContainers_spec_five :
    let tasks : List PackTask := [⟨0, 10, 2⟩, ⟨1, 12, 2⟩, ⟨2, 14, 1⟩]
    let out := workerOut fun task => ([task.groupIndex.toUInt8, 7], 1, 0)
    buildPackTasks ⟨true⟩ 10 5 2 = .ok tasks ∧
      writeContainers ⟨true⟩ "epochs" 2 3 ([⟨2, 14, 1⟩, ⟨0, 10, 2⟩, ⟨1, 12, 2⟩].map out) =
        writeContainers ⟨true⟩ "epochs" 2 3 (tasks.map out) ∧
      ∃ (summary : PackSummary) (chunks : List (List PacketOut)),
        writeContainers ⟨true⟩ "epochs" 2 3 ([⟨2, 14, 1⟩, ⟨0, 10, 2⟩].map out) =
          .ok (summary, chunks.map (fileOf "epochs" 2)) ∧
        chunks.flatten = [out ⟨0, 10, 2⟩] := by
  intro tasks out
  obtain ⟨tasks', htasks, -, -, hperm, hsome⟩ := writeContainers_spec ⟨true⟩ "epochs" 3
    (fun task => ([task.groupIndex.toUInt8, 7], 1, 0)) 10 5 2 (by decide) (by decide)
  obtain rfl : tasks = tasks' := Except.ok.inj htasks
  obtain ⟨summary, chunks, hrun, -, hflatten, -, -⟩ :=
    hsome [⟨2, 14, 1⟩, ⟨0, 10, 2⟩] (by decide) (by decide)
  exact ⟨htasks, hperm [⟨2, 14, 1⟩, ⟨0, 10, 2⟩, ⟨1, 12, 2⟩] (by decide), summary, chunks, hrun,
    hflatten⟩

end Spec

end Files

end Extractor
