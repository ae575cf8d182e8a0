import CfxMinimalExecution.MinimalMpt.StateRefinement

/-!
# The logical map of the layers

On storable keys the layers are two overlays over a map. What they record together is the logical
map of the layers; a rotation leaves it alone.

## Main definitions

* `StorableKey`: the storable keys
* `Layer.overlay`, `Layers.below`, `Layers.view`: the layers as functions of storable keys
* `Layers.Keyed`: the layers hold encodings of storable keys only

## Main results

* `Layers.get_eq_view`: a read of a storable key reads the logical map
* `Layers.view_write`, `Layers.view_commit`: what a write and a commit do to it
* `Layers.keyed_step`, `Layers.Keyed.final`: calls that set storable keys keep the layers keyed
-/

open Std (ExtTreeMap)

namespace MinimalMpt

open StorageKeyWithSpace (fromDeltaMptKey fromKeyBytes Full Short Storable)

/-- The storable keys. -/
abbrev StorableKey := { k : StorageKeyWithSpace // k.Storable }

variable {keccak : Bytes → H256}

/-! ## Keyed layers -/

/-- Every record is that of a key satisfying `P`. -/
def Layer.Keyed {padding : DeltaMptKeyPadding} (l : Layer keccak padding)
    (P : StorageKeyWithSpace → Prop) : Prop :=
  ∀ raw ∈ l.entries, ∃ k : StorageKeyWithSpace, P k ∧ k.rawKey keccak padding = raw

/-- Every record and every snapshot entry is that of a key satisfying `P`. -/
structure Layers.Keyed (L : Layers keccak) (P : StorageKeyWithSpace → Prop) : Prop where
  snapshot : ∀ c ∈ L.snapshot, ∃ k : StorageKeyWithSpace, P k ∧ k.canonical = c
  intermediate : L.intermediate.Keyed P
  delta : L.delta.Keyed P

/-- The canonical key of a storable key's record. -/
theorem canonicalOf_rawKey {k : StorageKeyWithSpace} (h : k.Storable)
    (padding : DeltaMptKeyPadding) : canonicalOf (k.rawKey keccak padding) = k.canonical := by
  unfold canonicalOf
  rw [h.fromDeltaMptKey_rawKey, Except.bind, h.toKeyBytes_eq]
  rfl

namespace Layer

variable {padding : DeltaMptKeyPadding} {l : Layer keccak padding}

theorem keyed_empty (P : StorageKeyWithSpace → Prop) : (empty : Layer keccak padding).Keyed P :=
  fun _ h => absurd h ExtTreeMap.not_mem_empty

theorem Keyed.dropPrefix {P : StorageKeyWithSpace → Prop} (h : l.Keyed P) (deltaPrefix : Bytes) :
    (l.dropPrefix deltaPrefix).Keyed P :=
  fun raw hraw => h raw (ExtTreeMap.mem_of_mem_filter hraw)

/-- A write keeps a layer keyed when the key's delta encoding is that of a key satisfying `P`. -/
theorem Keyed.write {P : StorageKeyWithSpace → Prop} (h : l.Keyed P) {key : StorageKeyWithSpace}
    (hkey : ∀ raw, key.deltaKey keccak padding = .ok raw →
      ∃ k : StorageKeyWithSpace, P k ∧ k.rawKey keccak padding = raw) (value : MptValue) :
    (l.write key value).Keyed P := by
  intro raw' hraw'
  unfold Layer.write at hraw'
  split at hraw'
  · next raw hraw =>
    rcases ExtTreeMap.mem_insert.mp hraw' with heq | hmem
    · exact Std.compare_eq_iff_eq.mp heq ▸ hkey raw hraw
    · exact h raw' hmem
  · exact h raw' hraw'

/-! ## Layers as overlays -/

/-- The records of a layer by storable key. -/
def overlay (l : Layer keccak padding) : Overlay StorableKey Bytes :=
  fun k => l.entries[k.1.rawKey keccak padding]?.map MptValue.visibleValue

@[simp] theorem overlay_empty : (empty : Layer keccak padding).overlay = fun _ => none := by
  funext k
  simp [overlay, empty]

theorem overlay_write (l : Layer keccak padding) (k : StorableKey) (value : MptValue) :
    (l.write k.1 value).overlay = Function.update l.overlay k (some value.visibleValue) := by
  funext k'
  unfold overlay
  rw [entries_write l (k.2.deltaKey_eq keccak padding), getElem?_insert_eq]
  by_cases hk : k' = k
  · subst hk
    rw [if_pos rfl, Function.update_self]
    rfl
  · rw [if_neg, Function.update_of_ne hk]
    intro heq
    exact hk (Subtype.ext (StorageKeyWithSpace.rawKey_injective k'.2 k.2 keccak padding heq.symm))

/-- In a keyed layer the canonical keys of the records tell them apart. -/
theorem Keyed.canonicalOf_injOn (h : l.Keyed Storable) {raw raw' : Bytes} (hraw : raw ∈ l.entries)
    (hraw' : raw' ∈ l.entries) (heq : canonicalOf raw = canonicalOf raw') : raw = raw' := by
  obtain ⟨k, hk, rfl⟩ := h raw hraw
  obtain ⟨k', hk', rfl⟩ := h raw' hraw'
  rw [canonicalOf_rawKey hk, canonicalOf_rawKey hk'] at heq
  rw [StorageKeyWithSpace.canonical_injective hk hk' heq]

theorem mem_entries {raw : Bytes} {value : MptValue} (h : (raw, value) ∈ l.entries.toList) :
    raw ∈ l.entries :=
  ExtTreeMap.mem_iff_isSome_getElem?.mpr (by simp [StringMap.mem_toList.mp h])

/-- The records of a keyed layer have distinct canonical keys. -/
theorem Keyed.nodup_canonical (h : l.Keyed Storable) :
    (l.entries.toList.map fun e => canonicalOf e.1).Nodup := by
  have hnodup := (StringMap.sorted_toList l.entries).nodup_keys.map_on (f := canonicalOf) ?_
  · rw [List.map_map] at hnodup
    exact hnodup
  · intro raw hraw raw' hraw' heq
    obtain ⟨e, he, rfl⟩ := List.mem_map.mp hraw
    obtain ⟨e', he', rfl⟩ := List.mem_map.mp hraw'
    exact h.canonicalOf_injOn (mem_entries he) (mem_entries he') heq

/-- Absorbing a keyed layer reads as the layer over the map. -/
theorem Keyed.getElem?_absorb (h : l.Keyed Storable) (snapshot : ExtTreeMap Bytes Bytes)
    (k : StorableKey) :
    (absorb snapshot (l.updates.map record))[k.1.canonical]? =
      l.overlay.onto (fun k => snapshot[k.1.canonical]?) k := by
  have hmap : l.updates.map record =
      l.entries.toList.map fun e => (canonicalOf e.1, e.2.visibleValue) := by
    unfold updates
    rw [List.map_map]
    rfl
  rw [hmap]
  cases hget : l.entries[k.1.rawKey keccak padding]? with
  | none =>
    have hnone : l.overlay k = none := by rw [overlay, hget, Option.map_none]
    rw [Overlay.onto_of_none hnone]
    refine getElem?_absorb_of_not_mem (fun e he heq => ?_) snapshot
    obtain ⟨⟨raw, value⟩, hmem, rfl⟩ := List.mem_map.mp he
    -- the record would be that of `k`
    obtain ⟨k', hk', rfl⟩ := h raw (mem_entries hmem)
    rw [canonicalOf_rawKey hk'] at heq
    rw [← StorageKeyWithSpace.canonical_injective hk' k.2 heq, StringMap.mem_toList.mp hmem] at hget
    cases hget
  | some value =>
    have hsome : l.overlay k = some value.visibleValue := by
      rw [overlay, hget, Option.map_some]
    rw [Overlay.onto_of_record hsome]
    refine getElem?_absorb_of_mem ?_ ?_ snapshot
    · rw [List.map_map]
      exact h.nodup_canonical
    · refine List.mem_map.mpr ⟨(k.1.rawKey keccak padding, value), StringMap.mem_toList.mpr hget, ?_⟩
      rw [canonicalOf_rawKey k.2]

end Layer

/-! ## The logical map -/

namespace Layers

/-- What the snapshot holds. -/
def below (L : Layers keccak) : StorableKey → Option Bytes := fun k => L.snapshot[k.1.canonical]?

/-- What the layers hold together. -/
def view (L : Layers keccak) : StorableKey → Option Bytes :=
  L.delta.overlay.onto (L.intermediate.overlay.onto L.below)

/-- **A read of a storable key reads the logical map.** -/
theorem get_eq_view (L : Layers keccak) (k : StorableKey) : L.get k.1 = .ok (L.view k) := by
  unfold get view Overlay.onto Layer.overlay below
  rw [k.2.deltaKey_eq, Except.ok_bind]
  show _ = Except.ok ((L.delta.entries[k.1.rawKey keccak L.deltaPadding]?.map _).getD _)
  cases L.delta.entries[k.1.rawKey keccak L.deltaPadding]? with
  | some value => rfl
  | none =>
    dsimp only
    rw [k.2.deltaKey_eq, Except.ok_bind]
    cases L.intermediate.entries[k.1.rawKey keccak L.intermediatePadding]? with
    | some value => rfl
    | none =>
      dsimp only
      rw [k.2.toKeyBytes_eq, Except.ok_bind]
      rfl

/-- A `set` of a storable key does not fail. -/
theorem exec_set (L : Layers keccak) {k : StorageKeyWithSpace} (hk : k.Storable) (value : Bytes) :
    Fallible.exec (set k value) L = (.ok ⟨⟩, L.write k (storedValue value)) := by
  unfold set
  rw [Fallible.exec_bind_ok (Fallible.exec_get L), hk.deltaKey_eq,
    Fallible.exec_bind_ok (Fallible.exec_lift _ L), Fallible.exec_modify]

/-- A write of a storable key is a write of the logical map. -/
theorem view_write (L : Layers keccak) (k : StorableKey) (value : MptValue) :
    (L.write k.1 value).view = Function.update L.view k value.visibleValue := by
  show (L.delta.write k.1 value).overlay.onto _ = _
  rw [Layer.overlay_write, Overlay.onto_update]
  rfl

/-- A rotation leaves the logical map alone: absorbing the intermediate layer is reading through
it. -/
theorem view_rotate (L : Layers keccak) (h : L.intermediate.Keyed Storable) :
    L.rotate.view = L.view := by
  have hbelow : L.rotate.below = L.intermediate.overlay.onto L.below := by
    funext k
    exact h.getElem?_absorb L.snapshot k
  show Layer.empty.overlay.onto (L.delta.overlay.onto L.rotate.below) = _
  rw [Layer.overlay_empty, Overlay.onto_empty, hbelow]
  rfl

/-- A commit leaves the logical map alone. -/
theorem view_commit (L : Layers keccak) (h : L.intermediate.Keyed Storable) :
    L.commit.view = L.view := by
  unfold commit
  split
  · exact view_rotate { L with lastRoot := some L.commitRoot, height := L.height + 1 } h
  · rfl

/-! ## Calls with storable keys -/

theorem keyed_ofSnapshot {P : StorageKeyWithSpace → Prop} {snapshot : ExtTreeMap Bytes Bytes}
    (h : ∀ c ∈ snapshot, ∃ k : StorageKeyWithSpace, P k ∧ k.canonical = c) (n : UInt32) (hn : 0 < n) :
    (ofSnapshot keccak snapshot n hn).Keyed P where
  snapshot := h
  intermediate := Layer.keyed_empty P
  delta := Layer.keyed_empty P

section Keyed

variable {P : StorageKeyWithSpace → Prop} {L : Layers keccak}

theorem Keyed.mono (h : L.Keyed P) {Q : StorageKeyWithSpace → Prop} (hPQ : ∀ k, P k → Q k) :
    L.Keyed Q where
  snapshot := fun c hc => (h.snapshot c hc).imp fun k hk => ⟨hPQ k hk.1, hk.2⟩
  intermediate := fun raw hraw => (h.intermediate raw hraw).imp fun k hk => ⟨hPQ k hk.1, hk.2⟩
  delta := fun raw hraw => (h.delta raw hraw).imp fun k hk => ⟨hPQ k hk.1, hk.2⟩

theorem Keyed.write_key (h : L.Keyed P) {k : StorageKeyWithSpace} (hk : P k) (value : MptValue) :
    (L.write k value).Keyed P where
  snapshot := h.snapshot
  intermediate := h.intermediate
  delta := by
    refine h.delta.write (fun raw hraw => ⟨k, hk, ?_⟩) value
    exact StorageKeyWithSpace.rawKey_of_deltaKey hraw

theorem Keyed.rotate (h : L.Keyed P) (hP : ∀ k, P k → k.Storable) : L.rotate.Keyed P where
  intermediate := h.delta
  delta := Layer.keyed_empty P
  snapshot := by
    intro c hc
    by_contra hnot
    push Not at hnot
    -- neither the snapshot nor a record of the intermediate layer has this key
    have hnone : L.merged[c]? = L.snapshot[c]? := by
      refine getElem?_absorb_of_not_mem (fun e he heq => ?_) L.snapshot
      obtain ⟨update, hupdate, rfl⟩ := List.mem_map.mp he
      obtain ⟨⟨raw, value⟩, hmem, rfl⟩ := List.mem_map.mp hupdate
      obtain ⟨k, hk, rfl⟩ := h.intermediate raw (Layer.mem_entries hmem)
      exact hnot k hk ((canonicalOf_rawKey (hP k hk) _).symm.trans heq)
    have hmem : c ∈ L.snapshot := by
      rw [ExtTreeMap.mem_iff_isSome_getElem?, ← hnone, ← ExtTreeMap.mem_iff_isSome_getElem?]
      exact hc
    obtain ⟨k, hk, heq⟩ := h.snapshot c hmem
    exact hnot k hk heq

theorem Keyed.commit (h : L.Keyed P) (hP : ∀ k, P k → k.Storable) : L.commit.Keyed P := by
  have hnext : ({ L with lastRoot := some L.commitRoot, height := L.height + 1 } :
      Layers keccak).Keyed P := ⟨h.snapshot, h.intermediate, h.delta⟩
  unfold Layers.commit
  split
  · exact hnext.rotate hP
  · exact hnext

/-- The key decoded from the canonical encoding of a storable key has a delta encoding that is
that of a storable key: short snapshot keys are decoded to address prefixes, whose delta encoding
is empty. -/
theorem storable_of_fromKeyBytes {k key : StorageKeyWithSpace} (hk : k.Storable)
    (hkey : fromKeyBytes k.canonical = .ok key) {padding : DeltaMptKeyPadding} {raw : Bytes}
    (hraw : key.deltaKey keccak padding = .ok raw) :
    ∃ k' : StorageKeyWithSpace, k'.Storable ∧ k'.rawKey keccak padding = raw := by
  rcases hk with hk | ⟨bytes, rfl, hlen⟩
  · rw [hk.fromKeyBytes_canonical] at hkey
    obtain rfl := Except.ok.inj hkey
    exact ⟨k, Or.inl hk, StorageKeyWithSpace.rawKey_of_deltaKey hraw⟩
  · rw [StorageKeyWithSpace.canonical_of_toKeyBytes
      (StorageKeyWithSpace.toKeyBytes_of_short hlen .native)] at hkey
    refine ⟨⟨.account [], .native⟩, Or.inr ⟨[], rfl, by decide⟩, ?_⟩
    -- the decoded key is `Empty` or an address prefix
    have hnil : raw = [] := by
      unfold fromKeyBytes at hkey
      by_cases hbytes : bytes = []
      · rw [if_pos hbytes] at hkey
        obtain rfl := Except.ok.inj hkey
        exact (Except.ok.inj hraw).symm
      · rw [if_neg hbytes, if_pos hlen] at hkey
        obtain rfl := Except.ok.inj hkey
        exact (Except.ok.inj hraw).symm
    rw [hnil]
    exact StorageKeyWithSpace.rawKey_of_deltaKey
      (StorageKeyWithSpace.deltaKey_of_short keccak (by decide) .native padding)

variable (keccak) in
/-- Storable keys that stay in `P` when they are decoded from the snapshot and written again. -/
structure Writable (P : StorageKeyWithSpace → Prop) : Prop where
  storable : ∀ k, P k → k.Storable
  decoded : ∀ {k key : StorageKeyWithSpace}, P k → fromKeyBytes k.canonical = .ok key →
    ∀ {padding : DeltaMptKeyPadding} {raw : Bytes}, key.deltaKey keccak padding = .ok raw →
    ∃ k' : StorageKeyWithSpace, P k' ∧ k'.rawKey keccak padding = raw

theorem writable_storable : Writable keccak Storable where
  storable := fun _ => id
  decoded := storable_of_fromKeyBytes

theorem writable_full : Writable keccak Full where
  storable := fun _ => Or.inl
  decoded := by
    intro k key hk hkey padding raw hraw
    rw [hk.fromKeyBytes_canonical] at hkey
    obtain rfl := Except.ok.inj hkey
    exact ⟨k, hk, StorageKeyWithSpace.rawKey_of_deltaKey hraw⟩

/-- A call that writes no other key than one in `P`. -/
def Sets (P : StorageKeyWithSpace → Prop) : Op → Prop
  | .set key _ => P key
  | _ => True

/-- **Calls that set keys in `P` only keep the layers keyed**, whatever prefixes they delete. -/
theorem keyed_step (hP : Writable keccak P) (h : L.Keyed P) {op : Op} (hop : Sets P op) :
    (L.step op).2.Keyed P := by
  refine keeps_step (I := fun L => L.Keyed P) h (fun _ => h.commit hP.storable) ?_ ?_ ?_ ?_
  · rintro key value rfl
    exact h.write_key hop _
  · exact fun deltaPrefix => ⟨h.snapshot, h.intermediate, h.delta.dropPrefix deltaPrefix⟩
  · intro raw hraw storageKey hkey L' h'
    obtain ⟨k, hk, rfl⟩ := h.intermediate raw hraw
    rw [(hP.storable k hk).fromDeltaMptKey_rawKey] at hkey
    obtain rfl := Except.ok.inj hkey
    exact h'.write_key hk _
  · intro c hc storageKey hkey L' h'
    obtain ⟨k, hk, rfl⟩ := h.snapshot c hc
    exact ⟨h'.snapshot, h'.intermediate,
      h'.delta.write (fun raw hraw => hP.decoded hk hkey hraw) .tombstone⟩

/-- A run of such calls keeps the layers keyed. -/
theorem Keyed.final (h : L.Keyed P) (hP : Writable keccak P) {ops : List Op}
    (hops : ∀ op ∈ ops, Sets P op) : (Machine.final step L ops).Keyed P := by
  have hreachable : Machine.Reachable step (Eq L) (Sets P) (Machine.final step L ops) :=
    (Machine.Reachable.start rfl).final hops
  apply hreachable.invariant (I := fun L => L.Keyed P)
  · rintro _ rfl
    exact h
  · intro L op hop h
    exact keyed_step hP h hop

end Keyed

end Layers

end MinimalMpt
