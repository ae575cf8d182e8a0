import CfxMinimalExecution.MinimalMpt.LogicalMap

/-!
# The state as a flat map

Under writes of storable keys and commits, a state reads as one map that only the writes change:
re-keying, tombstones and rotations do not show.

## Main definitions

* `Write`: the writes and commits of a run; `lastWritten`: the last value written to a key
* `FlatMap.flatStep`: what a write does to a flat map

## Main results

* `Layers.ReadsAs.step`: one write keeps the layers reading as the flat map
* `State.get_final_eq_lastWritten`: a key reads as the last value written to it
-/

open Std (ExtTreeMap)
open Fallible (exec)

namespace MinimalMpt

/-- A call that writes a storable key, or a commit. -/
inductive Write
  | set (key : StorableKey) (value : Bytes)
  | commit

namespace Write

/-- The call on the state. -/
def op : Write → Op
  | set key value => .set key.1 value
  | commit => .commit

end Write

/-- The value that a run wrote to a key last. -/
def lastWritten (writes : List Write) (key : StorableKey) : Option Bytes :=
  writes.reverse.findSome? fun
    | .set key' value => if key' = key then some value else none
    | .commit => none

/-- A flat map: writing the empty value deletes. -/
abbrev FlatMap := StorableKey → Option Bytes

namespace FlatMap

def empty : FlatMap := fun _ => none

/-- The specification of a write. -/
def flatStep (m : FlatMap) : Write → FlatMap
  | .set key value => Function.update m key (if value = [] then none else some value)
  | .commit => m

/-- The flat map after a run of writes. -/
def after (writes : List Write) : FlatMap := writes.foldl flatStep empty

/-- The flat map holds the value written last, unless it is empty. -/
theorem after_eq_lastWritten (writes : List Write) (key : StorableKey) :
    after writes key =
      (lastWritten writes key).bind fun value => if value = [] then none else some value := by
  induction writes using List.reverseRecOn with
  | nil => rfl
  | append_singleton writes write ih =>
    unfold after lastWritten at ih ⊢
    rw [List.foldl_append, List.reverse_append, List.reverse_singleton, List.singleton_append,
      List.findSome?_cons]
    cases write with
    | set key' value =>
      by_cases hkey : key' = key
      · subst hkey
        simp [flatStep]
      · simp only [if_neg hkey]
        rw [← ih]
        exact Function.update_of_ne (Ne.symm hkey) _ _
    | commit => exact ih

end FlatMap

theorem visibleValue_storedValue (value : Bytes) :
    (storedValue value).visibleValue = if value = [] then none else some value := by
  unfold storedValue
  cases value <;> rfl

namespace Layers

variable {keccak : Bytes → H256}

/-- The layers hold encodings of storable keys and read as the flat map. -/
structure ReadsAs (L : Layers keccak) (m : FlatMap) : Prop where
  keyed : L.Keyed StorageKeyWithSpace.Storable
  view : L.view = m

/-- One write keeps the layers reading as the flat map. -/
theorem ReadsAs.step {L : Layers keccak} {m : FlatMap} (h : L.ReadsAs m) (write : Write) :
    (L.step write.op).2.ReadsAs (m.flatStep write) := by
  cases write with
  | set key value =>
    refine ⟨keyed_step writable_storable h.keyed key.2, ?_⟩
    have hset : (L.step (Write.set key value).op).2 = L.write key.1 (storedValue value) := by
      show (exec (Layers.set key.1 value >>= fun _ => pure Reply.unit) L).2 = _
      rw [Fallible.exec_bind_ok (exec_set L key.2 value)]
      rfl
    rw [hset, view_write, h.view, visibleValue_storedValue]
    rfl
  | commit =>
    refine ⟨keyed_step writable_storable h.keyed trivial, ?_⟩
    exact (view_commit L h.keyed.intermediate).trans h.view

/-- A run of writes keeps the layers reading as the flat map. -/
theorem ReadsAs.final {L : Layers keccak} {m : FlatMap} (h : L.ReadsAs m) (writes : List Write) :
    (Machine.final Layers.step L (writes.map Write.op)).ReadsAs
      (writes.foldl FlatMap.flatStep m) := by
  induction writes generalizing L m with
  | nil => exact h
  | cons write writes ih => exact ih (h.step write)

variable (keccak) in
theorem readsAs_empty (n : UInt32) (hn : 0 < n) : (ofSnapshot keccak ∅ n hn).ReadsAs FlatMap.empty where
  keyed := keyed_ofSnapshot (fun c hc => absurd hc ExtTreeMap.not_mem_empty) n hn
  view := by
    funext k
    show (Layer.empty.overlay.onto (Layer.empty.overlay.onto _)) k = none
    rw [Layer.overlay_empty, Layer.overlay_empty, Overlay.onto_empty, Overlay.onto_empty]
    exact ExtTreeMap.getElem?_empty

end Layers

namespace State

variable (keccak : Bytes → H256)

/-- **The state refines a flat map.** After every run of writes and commits, at any period, a
storable key reads as the last value written to it: `none` if that value was empty or if there was
none, however many rotations lie in between. Nothing is assumed of the hash. -/
theorem get_final_eq_lastWritten (n : UInt32) (writes : List Write) (key : StorableKey) :
    (step keccak (Machine.final (step keccak) (withSnapshotEpochCount keccak n)
      (writes.map Write.op)) (.get key.1)).1 =
      .ok (.value ((lastWritten writes key).bind fun value =>
        if value = [] then none else some value)) := by
  have hn := atLeastOne_pos n
  have hrep : State.Represents keccak
      (Machine.final (step keccak) (withSnapshotEpochCount keccak n) (writes.map Write.op))
      (Machine.final Layers.step (.ofSnapshot keccak ∅ (atLeastOne n) hn) (writes.map Write.op)) :=
    simulation.final_rel (represents_withSnapshotEpochCount n) fun _ _ => trivial
  have hreads := (Layers.readsAs_empty keccak (atLeastOne n) hn).final writes
  rw [hrep.get_reply, Layers.get_eq_view, hreads.view, ← FlatMap.after_eq_lastWritten]
  rfl

end State

end MinimalMpt
