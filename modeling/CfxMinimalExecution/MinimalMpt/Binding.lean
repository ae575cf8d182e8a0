import CfxMinimalExecution.MinimalMpt.Preimages

/-!
# The root binds the content

Two maps with one root are equal, or the walks over them hash two distinct strings to one value.
Without such a collision the result at a node determines the node's path, the results in its slots
and its value, so the binding rule of folds applies.

## Main definitions

* `ValidEntries`: keys of nibbles, live values non-empty

## Main results

* `node_binding`: one node
* `eq_or_collision_of_trieRoot_eq`: the root
-/

open Std (ExtTreeMap)
open Radix

namespace MinimalMpt

/-- Entries with nibble keys and without an empty live value. -/
structure ValidEntries (S : List Entry) : Prop where
  nibble : ∀ e ∈ S, ∀ x ∈ e.1, x < 16
  live : ∀ e ∈ S, e.2 ≠ .some []

theorem ValidEntries.slot {d : ℕ} {S : List Entry} (h : ValidEntries S) (c : UInt8) :
    ValidEntries (slot d S c) where
  nibble := fun _ he x hx => h.nibble _ (mem_below.mp he) x (List.mem_append_right _ hx)
  live := fun e he => h.live (path d S ++ [c] ++ e.1, e.2) (mem_below.mp he)

theorem ValidEntries.of_reaches {d d' : ℕ} {S S' : List Entry} (h : ValidEntries S)
    (hr : Reaches d S d' S') : ValidEntries S' :=
  hr.preserves (motive := fun _ S => ValidEntries S) (fun _ _ c _ h => h.slot c) h

/-- Non-empty live values and tombstones are told apart by the hashed bytes. -/
theorem merkleValue_inj {v w : MptValue} (hv : v ≠ .some []) (hw : w ≠ .some [])
    (h : v.merkleValue = w.merkleValue) : v = w := by
  cases v with
  | some b =>
    cases w with
    | some b' => exact congrArg MptValue.some h
    | tombstone => exact absurd (congrArg MptValue.some h) hv
  | tombstone =>
    cases w with
    | some b' => exact absurd (congrArg MptValue.some h.symm) hw
    | tombstone => rfl

/-- The hashed bytes at a key determine the value there. -/
theorem ValidEntries.valueAt_inj {S T : List Entry} (hS : ValidEntries S) (hT : ValidEntries T)
    {k : Bytes}
    (h : (valueAt S k).map MptValue.merkleValue = (valueAt T k).map MptValue.merkleValue) :
    valueAt S k = valueAt T k := by
  cases hv : valueAt S k with
  | none =>
    cases hw : valueAt T k with
    | none => rfl
    | some w =>
      rw [hv, hw] at h
      cases h
  | some v =>
    cases hw : valueAt T k with
    | none =>
      rw [hv, hw] at h
      cases h
    | some w =>
      rw [hv, hw] at h
      exact congrArg some (merkleValue_inj (hS.live _ (mem_of_valueAt hv))
        (hT.live _ (mem_of_valueAt hw)) (Option.some.inj h))

theorem ValidEntries.slots_eq_none {keccak : Bytes → H256} {d : ℕ} {S : List Entry}
    (h : ValidEntries S) {c : UInt8} (hc : ¬ c < 16) : slots (trieNode keccak) d S c = none := by
  apply slots_of_nil
  by_contra hne
  obtain ⟨e, he, hroute⟩ := below_ne_nil_iff.mp hne
  exact hc (h.nibble e he c (hroute.subset (by simp)))

section Binding

variable {keccak : Bytes → H256} {P : Bytes → Prop}

/-- Without a collision with the empty string no child's result is null. -/
theorem slots_ne_null (hnull : keccak [] = merkleNullNode) (hP : ¬ Collision keccak P)
    (hnil : P []) {d : ℕ} {S : List Entry}
    (hS : ∀ d' S', Reaches d S d' S' → Hashed keccak P d' S') (c : UInt8) :
    slots (trieNode keccak) d S c ≠ some merkleNullNode := by
  intro hslot
  by_cases hempty : slot d S c = []
  · rw [slots_of_nil hempty] at hslot
    cases hslot
  · rw [slots_of_ne_nil hempty, Option.some.injEq, fold_eq_keccak, ← hnull] at hslot
    have hchild := hS _ _ (Reaches.down c Reaches.refl hempty)
    split at hslot
    · exact nodeBuffer_ne_nil _ _ (eq_of_not_collision hP hchild.node hnil hslot)
    · next hpath =>
      exact pathBuffer_ne_nil _ _ _ (eq_of_not_collision hP (hchild.path hpath) hnil hslot)

/-- **One node.** Without a collision, equal results come from equal paths, slots and values. -/
theorem node_binding (hnull : keccak [] = merkleNullNode) (hP : ¬ Collision keccak P)
    (hnil : P []) {d : ℕ} {S T : List Entry} (hS : ValidEntries S) (hT : ValidEntries T)
    (hSP : ∀ d' S', Reaches d S d' S' → Hashed keccak P d' S')
    (hTP : ∀ d' T', Reaches d T d' T' → Hashed keccak P d' T')
    (h : fold (trieNode keccak) d S = fold (trieNode keccak) d T) :
    path d S = path d T ∧ slots (trieNode keccak) d S = slots (trieNode keccak) d T ∧
      valueAt S (path d S) = valueAt T (path d T) := by
  have hashedS := hSP d S Reaches.refl
  have hashedT := hTP d T Reaches.refl
  -- the path and the hash of the node behind it
  have hnode : path d S = path d T ∧
      keccak (nodeString keccak d S) = keccak (nodeString keccak d T) := by
    rw [fold_eq_keccak, fold_eq_keccak] at h
    -- without a collision the strings are equal, and a node is no path
    by_cases hpS : path d S = [] <;> by_cases hpT : path d T = []
    · rw [if_pos hpS, if_pos hpT] at h
      exact ⟨hpS.trans hpT.symm, h⟩
    · rw [if_pos hpS, if_neg hpT] at h
      have heq := eq_of_not_collision hP hashedS.node (hashedT.path hpT) h
      exact absurd heq (nodeBuffer_ne_pathBuffer _ _ _ _ _)
    · rw [if_neg hpS, if_pos hpT] at h
      have heq := eq_of_not_collision hP (hashedS.path hpS) hashedT.node h
      exact absurd heq.symm (nodeBuffer_ne_pathBuffer _ _ _ _ _)
    · rw [if_neg hpS, if_neg hpT] at h
      have heq := eq_of_not_collision hP (hashedS.path hpS) (hashedT.path hpT) h
      exact pathBuffer_inj hpS hpT (forall_mem_path hS.nibble d)
        (forall_mem_path hT.nibble d) heq
  obtain ⟨hpath, hhash⟩ := hnode
  -- so the nodes have one string, of which the parts can be told apart
  have hstring := eq_of_not_collision hP hashedS.node hashedT.node hhash
  obtain ⟨hchildren, hvalue⟩ := nodeBuffer_inj hstring
  refine ⟨hpath, ?_, ?_⟩
  · exact childVector_inj (fun c hc => hS.slots_eq_none hc) (fun c hc => hT.slots_eq_none hc)
      (slots_ne_null hnull hP hnil hSP) (slots_ne_null hnull hP hnil hTP) hchildren
  · rw [← hpath] at hvalue ⊢
    exact hS.valueAt_inj hT hvalue

end Binding

/-! ## The root -/

theorem validEntries_nibbleMap {kv : ExtTreeMap Bytes MptValue}
    (h : ∀ (k : Bytes) v, kv[k]? = some (MptValue.some v) → v ≠ []) : ValidEntries (nibbleMap kv).toList where
  nibble := fun e he => nibbleMap_lt kv e.1
    (ExtTreeMap.mem_iff_isSome_getElem?.mpr (by simp [StringMap.mem_toList.mp he]))
  live := fun e he heq => by
    rw [toList_nibbleMap, List.mem_map] at he
    obtain ⟨⟨k, v⟩, hmem, rfl⟩ := he
    subst heq
    exact h k [] (StringMap.mem_toList.mp hmem) rfl

/-- The string hashed last for a non-empty map, which is not empty. -/
theorem exists_rootString (keccak : Bytes → H256) {kv : ExtTreeMap Bytes MptValue}
    (hkv : ¬ kv.isEmpty) :
    ∃ s ∈ hashedForRoot keccak kv, s ≠ [] ∧ trieRoot keccak kv = keccak s := by
  refine ⟨nodeString keccak 0 (nibbleMap kv).toList, (hashed_of_reaches hkv Reaches.refl).node,
    nodeBuffer_ne_nil _ _, ?_⟩
  rw [trieRoot_eq_trieFold, trieFold, ExtTreeMap.isEmpty_toList, isEmpty_nibbleMap, if_neg hkv,
    fold_eq_keccak, if_pos (path_zero _)]

/-- **The root binds the content.** Two maps with non-empty live values and one root are equal,
or two distinct strings among the empty string and those hashed for the two roots have one
hash. -/
theorem eq_or_collision_of_trieRoot_eq {keccak : Bytes → H256}
    (hnull : keccak [] = merkleNullNode) {a b : ExtTreeMap Bytes MptValue}
    (ha : ∀ (k : Bytes) v, a[k]? = some (MptValue.some v) → v ≠ [])
    (hb : ∀ (k : Bytes) v, b[k]? = some (MptValue.some v) → v ≠ [])
    (h : trieRoot keccak a = trieRoot keccak b) :
    a = b ∨ Collision keccak fun s =>
      s = [] ∨ s ∈ hashedForRoot keccak a ∨ s ∈ hashedForRoot keccak b := by
  rw [or_iff_not_imp_right]
  intro hP
  by_cases hea : a.isEmpty <;> by_cases heb : b.isEmpty
  · rw [ExtTreeMap.isEmpty_iff.mp hea, ExtTreeMap.isEmpty_iff.mp heb]
  · -- the root of an empty map is the hash of the empty string
    obtain ⟨s, hs, hne, hroot⟩ := exists_rootString keccak heb
    rw [hroot, trieRoot, trieRootAt, if_pos hea, ← hnull] at h
    exact absurd (eq_of_not_collision hP (Or.inl rfl) (Or.inr (Or.inr hs)) h).symm hne
  · obtain ⟨s, hs, hne, hroot⟩ := exists_rootString keccak hea
    rw [hroot, trieRoot, trieRootAt, if_pos heb, ← hnull] at h
    exact absurd (eq_of_not_collision hP (Or.inr (Or.inl hs)) (Or.inl rfl) h) hne
  -- two maps with entries: their tries are bound node by node
  · rw [trieRoot_eq_trieFold, trieRoot_eq_trieFold, trieFold, trieFold, ExtTreeMap.isEmpty_toList,
      ExtTreeMap.isEmpty_toList, isEmpty_nibbleMap, isEmpty_nibbleMap, if_neg hea, if_neg heb] at h
    have hvalues := fold_binding 0 (nibbleMap a).toList (nibbleMap b).toList
      (fun d S T hS hT hfold => node_binding hnull hP (Or.inl rfl)
        ((validEntries_nibbleMap ha).of_reaches hS) ((validEntries_nibbleMap hb).of_reaches hT)
        (fun d' S' hr => (hashed_of_reaches hea (hS.trans hr)).mono fun s hs => Or.inr (Or.inl hs))
        (fun d' T' hr => (hashed_of_reaches heb (hT.trans hr)).mono fun s hs => Or.inr (Or.inr hs))
        hfold) h
    refine ExtTreeMap.ext_getElem? fun k => ?_
    have hk := hvalues (bytesToNibbles k)
    rwa [StringMap.valueAt_toList, StringMap.valueAt_toList, getElem?_nibbleMap,
      getElem?_nibbleMap] at hk

/-- The hash of the crate, on a live value and a tombstone written in either order. -/
theorem eq_or_collision_of_trieRoot_eq_keccak256 :
    ((∅ : ExtTreeMap Bytes MptValue).insert [0x12] (.some [1])).insert [0x13] .tombstone =
        ((∅ : ExtTreeMap Bytes MptValue).insert [0x13] .tombstone).insert [0x12] (.some [1]) ∨
      Collision keccak256 fun s => s = [] ∨
        s ∈ hashedForRoot keccak256 (((∅ : ExtTreeMap Bytes MptValue).insert [0x12]
          (.some [1])).insert [0x13] .tombstone) ∨
        s ∈ hashedForRoot keccak256 (((∅ : ExtTreeMap Bytes MptValue).insert [0x13]
          .tombstone).insert [0x12] (.some [1])) :=
  eq_or_collision_of_trieRoot_eq keccak256_nil
    (fun k v h => by
      simp only [getElem?_insert_eq, ExtTreeMap.getElem?_empty] at h
      split at h <;> try split at h
      all_goals simp_all [eq_comm])
    (fun k v h => by
      simp only [getElem?_insert_eq, ExtTreeMap.getElem?_empty] at h
      split at h <;> try split at h
      all_goals simp_all [eq_comm])
    (congrArg (trieRoot keccak256) (ExtTreeMap.ext_getElem? fun k => by
      simp only [getElem?_insert_eq]
      split <;> split <;> simp_all [eq_comm]))

end MinimalMpt
