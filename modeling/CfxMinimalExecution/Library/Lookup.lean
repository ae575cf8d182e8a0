import Mathlib.Data.List.Nodup

/-!
# Hash maps as lists of insertions

## Main definitions

* `Assoc κ ν`: the insertions of a map, the latest first
* `Assoc.collect`: the map of a list of pairs, of which the last for a key counts
* `Assoc.indexOf`: the map from the values of a list to their positions
* `Assoc.entries`: the keys of a map with their values

## Main results

* `Assoc.getElem?_of_get_indexOf`, `Assoc.exists_get_indexOf`: positions of a list
* `Assoc.mem_entries`, `Assoc.nodup_entries`: every key of a map once, with its value
-/

/-- The insertions of a hash map, the latest first. -/
abbrev Assoc (κ ν : Type) := List (κ × ν)

namespace Assoc

variable {κ ν : Type} [DecidableEq κ]

def get (m : Assoc κ ν) (k : κ) : Option ν := m.lookup k

def insert (m : Assoc κ ν) (k : κ) (v : ν) : Assoc κ ν := (k, v) :: m

def collect (pairs : List (κ × ν)) : Assoc κ ν := pairs.reverse

def indexOf (values : List κ) : Assoc κ ℕ := collect values.zipIdx

/-- The keys of a map with their values, each key once. -/
def entries : Assoc κ ν → List (κ × ν)
  | [] => []
  | (k, v) :: m => (k, v) :: (entries m).filter fun entry => entry.1 ≠ k

@[simp] theorem get_nil (k : κ) : get ([] : Assoc κ ν) k = none := rfl

theorem get_insert (m : Assoc κ ν) (k k' : κ) (v : ν) :
    (m.insert k v).get k' = if k' = k then some v else m.get k' := by
  unfold get insert
  rw [List.lookup_cons]
  split <;> simp_all

theorem mem_of_get {m : Assoc κ ν} {k : κ} {v : ν} (h : m.get k = some v) : (k, v) ∈ m := by
  obtain ⟨l₁, l₂, rfl, -⟩ := List.lookup_eq_some_iff.mp h
  simp

theorem exists_get_of_mem {m : Assoc κ ν} {k : κ} {v : ν} (h : (k, v) ∈ m) :
    ∃ v', m.get k = some v' := by
  cases hget : m.get k with
  | some v' => exact ⟨v', rfl⟩
  | none =>
    have hne := List.lookup_eq_none_iff.mp hget _ h
    simp at hne

theorem getElem?_of_get_indexOf {values : List κ} {a : κ} {i : ℕ}
    (h : (indexOf values).get a = some i) : values[i]? = some a := by
  have hmem := List.mem_reverse.mp (mem_of_get h)
  exact (List.mem_zipIdx_iff_getElem?.mp hmem)

theorem exists_get_indexOf {values : List κ} {a : κ} (h : a ∈ values) :
    ∃ i, (indexOf values).get a = some i := by
  obtain ⟨i, hi, rfl⟩ := List.getElem_of_mem h
  refine exists_get_of_mem (v := i) (List.mem_reverse.mpr ?_)
  rw [List.mem_zipIdx_iff_getElem?]
  exact List.getElem?_eq_getElem hi

/-- The entries are what is found in the map. -/
theorem mem_entries {m : Assoc κ ν} {k : κ} {v : ν} : (k, v) ∈ m.entries ↔ m.get k = some v := by
  induction m with
  | nil => simp [entries]
  | cons entry m ih =>
    obtain ⟨k', v'⟩ := entry
    have hget : get ((k', v') :: m) k = _ := get_insert m k' k v'
    rw [hget, entries, List.mem_cons, List.mem_filter, ih, Prod.mk.injEq]
    by_cases hk : k = k'
    · simp [hk, eq_comm]
    · simp [hk]

/-- Every key has one entry. -/
theorem nodup_entries (m : Assoc κ ν) : (m.entries.map Prod.fst).Nodup := by
  induction m with
  | nil => simp [entries]
  | cons entry m ih =>
    obtain ⟨k, v⟩ := entry
    rw [entries, List.map_cons, List.nodup_cons]
    refine ⟨fun hmem => ?_, (List.filter_sublist.map _).nodup ih⟩
    obtain ⟨entry, hentry, rfl⟩ := List.mem_map.mp hmem
    simpa using (List.mem_filter.mp hentry).2

end Assoc
