import CfxMinimalExecution.Library.StringMap

/-!
# Overlays

A layer over a map records, for some keys, a live value or a deletion; the keys without a record
are read from below. Layers stack, and a layer can be absorbed into the map below it.

## Main definitions

* `Overlay κ β`: for each key no record, a deletion or a live value
* `Overlay.onto`: what is read through a layer
* `absorb`: the records of a layer written into the map below

## Main results

* `Overlay.onto_update`: a record is read back, and nothing else changes
* `getElem?_absorb_of_mem`, `getElem?_absorb_of_not_mem`: what an absorbed map holds
* `absorb_congr`: the order of the records does not matter
-/

open Std (ExtTreeMap TransOrd LawfulEqOrd)

/-- A layer: no record, a deletion (`some none`) or a live value for each key. -/
abbrev Overlay (κ β : Type*) := κ → Option (Option β)

namespace Overlay

variable {κ β : Type*}

/-- Reading through a layer. -/
def onto (layer : Overlay κ β) (lower : κ → Option β) : κ → Option β :=
  fun k => (layer k).getD (lower k)

theorem onto_of_record {layer : Overlay κ β} {lower : κ → Option β} {k : κ} {r : Option β}
    (h : layer k = some r) : layer.onto lower k = r := by
  rw [onto, h, Option.getD_some]

theorem onto_of_none {layer : Overlay κ β} {lower : κ → Option β} {k : κ}
    (h : layer k = none) : layer.onto lower k = lower k := by
  rw [onto, h, Option.getD_none]

@[simp] theorem onto_empty (lower : κ → Option β) : onto (fun _ => none) lower = lower := rfl

/-- A new record is read back, and nothing else changes. -/
theorem onto_update [DecidableEq κ] (layer : Overlay κ β) (lower : κ → Option β) (k : κ)
    (r : Option β) :
    onto (Function.update layer k (some r)) lower = Function.update (onto layer lower) k r := by
  funext l
  by_cases h : l = k
  · subst h
    rw [Function.update_self]
    exact onto_of_record (Function.update_self l (some r) layer)
  · rw [Function.update_of_ne h]
    unfold onto
    rw [Function.update_of_ne h]

end Overlay

/-! ## Absorbing a layer -/

section Absorb

variable {κ β : Type*} [Ord κ] [TransOrd κ]

/-- One record written into a map: a live value is stored, a deletion erases. -/
def absorbRecord (m : ExtTreeMap κ β) : κ × Option β → ExtTreeMap κ β
  | (k, some v) => m.insert k v
  | (k, none) => m.erase k

/-- The records written into a map, in order. -/
def absorb (m : ExtTreeMap κ β) (records : List (κ × Option β)) : ExtTreeMap κ β :=
  records.foldl absorbRecord m

variable [LawfulEqOrd κ] [DecidableEq κ]

theorem getElem?_absorbRecord (m : ExtTreeMap κ β) (e : κ × Option β) (k : κ) :
    (absorbRecord m e)[k]? = if e.1 = k then e.2 else m[k]? := by
  obtain ⟨l, _ | v⟩ := e
  · exact getElem?_erase_eq m l k
  · exact getElem?_insert_eq m l k v

/-- A key without a record keeps its value. -/
theorem getElem?_absorb_of_not_mem {records : List (κ × Option β)} {k : κ}
    (h : ∀ e ∈ records, e.1 ≠ k) (m : ExtTreeMap κ β) : (absorb m records)[k]? = m[k]? := by
  unfold absorb
  induction records generalizing m with
  | nil => rfl
  | cons e records ih =>
    rw [List.foldl_cons, ih fun e' he' => h e' (List.mem_cons_of_mem e he'),
      getElem?_absorbRecord, if_neg (h e List.mem_cons_self)]

/-- A key with one record gets what the record says. -/
theorem getElem?_absorb_of_mem {records : List (κ × Option β)}
    (hnodup : (records.map Prod.fst).Nodup) {k : κ} {r : Option β} (h : (k, r) ∈ records)
    (m : ExtTreeMap κ β) : (absorb m records)[k]? = r := by
  unfold absorb
  induction records generalizing m with
  | nil => simp at h
  | cons e records ih =>
    rw [List.map_cons, List.nodup_cons] at hnodup
    rw [List.foldl_cons]
    rcases List.mem_cons.mp h with rfl | hmem
    · have hrest : ∀ e' ∈ records, e'.1 ≠ k := by
        intro e' he' heq
        exact hnodup.1 (List.mem_map.mpr ⟨e', he', heq⟩)
      have hkeep := getElem?_absorb_of_not_mem hrest (absorbRecord m (k, r))
      rw [absorb] at hkeep
      rw [hkeep, getElem?_absorbRecord, if_pos rfl]
    · exact ih hnodup.2 hmem _

/-- Absorbing forgets the order of records with distinct keys. -/
theorem absorb_congr {records records' : List (κ × Option β)}
    (hnodup : (records.map Prod.fst).Nodup) (hnodup' : (records'.map Prod.fst).Nodup)
    (h : ∀ e, e ∈ records ↔ e ∈ records') (m : ExtTreeMap κ β) :
    absorb m records = absorb m records' := by
  apply ExtTreeMap.ext_getElem?
  intro k
  by_cases hk : ∃ r, (k, r) ∈ records
  · rcases hk with ⟨r, hr⟩
    rw [getElem?_absorb_of_mem hnodup hr, getElem?_absorb_of_mem hnodup' ((h _).mp hr)]
  · rw [getElem?_absorb_of_not_mem, getElem?_absorb_of_not_mem]
    · rintro ⟨_, r⟩ he rfl
      exact hk ⟨r, (h _).mpr he⟩
    · rintro ⟨_, r⟩ he rfl
      exact hk ⟨r, he⟩

end Absorb
