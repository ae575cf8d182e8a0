import CfxMinimalExecution.MinimalMpt.LayeredStateAgreement

/-!
# Prefix deletes of the state and of its reference model

A prefix delete drops the records of the delta under the prefix and writes tombstones for what the
layers below hold. The state and the model write the same tombstones in different orders, which
leaves the same delta, and they return the pairs that a prefix read collects.

## Main definitions

* `Model.tombs`: the model after tombstones
* `afterDelete`: the model that a prefix delete leaves

## Main results

* `Model.tombs_congr`: the order of tombstones does not matter
* `Agrees.deletePrefix`, `Agrees.modelPrefixDelete`: the two prefix deletes
-/

open Std (ExtTreeMap)
open Fallible (exec Ensures)

namespace MinimalMpt

namespace LayeredStateOps

open StorageKeyWithSpace (fromDeltaMptKey fromKeyBytes Full Storable)

variable {keccak : Bytes → H256} {padding : DeltaMptKeyPadding}
  {entries : ExtTreeMap Bytes MptValue} {records : ExtTreeMap Bytes ModelValue}

/-! ## Tombstones -/

variable (keccak) in
/-- The raw key of the key with canonical encoding `c`. -/
def rawOf (padding : DeltaMptKeyPadding) (c : Bytes) : Bytes :=
  ((fromKeyBytes c).bind fun k => k.deltaKey keccak padding).toOption.getD []

theorem rawOf_canonical {k : StorageKeyWithSpace} (hk : k.Full) :
    rawOf keccak padding k.canonical = k.rawKey keccak padding := by
  rw [rawOf, hk.fromKeyBytes_canonical]
  rfl

namespace Model

variable (keccak) in
/-- The model after tombstones at the keys `cs`. -/
def tombs (m : Model) (cs : List Bytes) : Model :=
  { m with
    delta := cs.foldl (fun delta c => delta.insert c ⟨rawOf keccak m.deltaPadding c, none⟩) m.delta }

theorem tombs_append (m : Model) (cs cs' : List Bytes) :
    m.tombs keccak (cs ++ cs') = (m.tombs keccak cs).tombs keccak cs' := by
  rw [tombs, List.foldl_append]
  rfl

theorem getElem?_tombs (m : Model) (cs : List Bytes) (c : Bytes) :
    (m.tombs keccak cs).delta[c]? =
      if c ∈ cs then some ⟨rawOf keccak m.deltaPadding c, none⟩ else m.delta[c]? := by
  induction cs generalizing m with
  | nil => rfl
  | cons c' cs ih =>
    rw [← List.singleton_append, tombs_append]
    apply (ih _).trans
    show (if c ∈ cs then _ else (m.delta.insert c' _)[c]?) = _
    rw [getElem?_insert_eq]
    by_cases hmem : c ∈ cs
    · rw [if_pos hmem, if_pos (List.mem_append_right [c'] hmem)]
      rfl
    · rw [if_neg hmem]
      by_cases heq : c' = c
      · rw [if_pos heq, heq, if_pos (by simp)]
      · rw [if_neg heq, if_neg (by simp [hmem, Ne.symm heq])]

/-- Tombstones at the same keys leave the same layer, in whatever order they are written. -/
theorem tombs_congr (m : Model) {cs cs' : List Bytes} (h : ∀ c, c ∈ cs ↔ c ∈ cs') :
    m.tombs keccak cs = m.tombs keccak cs' := by
  have hdelta : (m.tombs keccak cs).delta = (m.tombs keccak cs').delta := by
    apply ExtTreeMap.ext_getElem?
    intro c
    rw [getElem?_tombs, getElem?_tombs]
    exact if_congr (h c) rfl rfl
  exact congrArg (fun delta => { m with delta := delta }) hdelta

/-- The model without the records of the delta under a prefix of raw keys. -/
def dropped (m : Model) (rawPrefix : Bytes) : Model :=
  { m with delta := m.delta.filter fun _ v => !decide (rawPrefix <+: v.rawKey) }

end Model

/-- The keys of the records that are live. -/
def live (rs : List Record) : List Bytes := (rs.filter fun r => r.2.isSome).map Prod.fst

theorem live_append (rs rs' : List Record) : live (rs ++ rs') = live rs ++ live rs' := by
  rw [live, List.filter_append, List.map_append]
  rfl

theorem mem_live {rs : List Record} {c : Bytes} : c ∈ live rs ↔ ∃ v, (c, some v) ∈ rs := by
  rw [live, List.mem_map]
  constructor
  · rintro ⟨⟨c', r⟩, hmem, rfl⟩
    rcases List.mem_filter.mp hmem with ⟨hrs, hlive⟩
    rcases Option.isSome_iff_exists.mp hlive with ⟨v, rfl⟩
    exact ⟨v, hrs⟩
  · rintro ⟨v, hmem⟩
    exact ⟨(c, some v), List.mem_filter.mpr ⟨hmem, rfl⟩, rfl⟩

variable (keccak) in
/-- The model that a prefix delete leaves: the delta without its records under the prefix, and
then the tombstones. -/
def afterDelete (m : Model) (p : StorageKeyWithSpace) : Model :=
  let intermediate :=
    selected (p.rawKey keccak m.intermediatePadding) (addressPrefixFilter p) m.intermediate
  (m.dropped (p.rawKey keccak m.deltaPadding)).tombs keccak
    (live intermediate ++ (StringMap.scanPrefix m.snapshot p.canonical).map Prod.fst)

/-! ## Prefix deletes of the state -/

namespace Agrees

variable {s : State} {m : Model} {k p : StorageKeyWithSpace}

/-- A tombstone in both. -/
theorem tomb (h : Agrees keccak s m) (hk : k.Full) :
    Ensures (State.set keccak k []) s fun _ s' =>
      Agrees keccak s' (m.tombs keccak [k.canonical]) := by
  have hset := h.set hk []
  rw [Model.tombs, List.foldl_cons, List.foldl_nil, rawOf_canonical hk]
  exact hset

/-- The loop over the intermediate entries buries those that are live. -/
theorem deleteIntermediate (h : Agrees keccak s m) (addressPrefix : Option Bytes)
    {kvs : List MinimalMpt.Entry}
    (hkvs : ∀ e ∈ kvs, ∃ k : StorageKeyWithSpace, k.Full ∧ k.rawKey keccak padding = e.1)
    (found : Collected) :
    Ensures (kvs.foldlM (MinimalMpt.deleteIntermediate (State.set keccak) addressPrefix) found) s
      fun found' s' =>
        found' = (MinimalMpt.selected addressPrefix kvs).foldl Collected.addRecord found ∧
        Agrees keccak s' (m.tombs keccak (live (MinimalMpt.selected addressPrefix kvs))) := by
  apply Ensures.foldlM (fun done found' s' =>
    found' = (MinimalMpt.selected addressPrefix done).foldl Collected.addRecord found ∧
    Agrees keccak s' (m.tombs keccak (live (MinimalMpt.selected addressPrefix done))))
  case h => exact ⟨rfl, h⟩
  rintro done e rest _ s rfl ⟨rfl, h⟩
  rcases hkvs e (by simp) with ⟨k, hk, hkey⟩
  have hdecode : fromDeltaMptKey e.1 = .ok k := hkey ▸ Storable.fromDeltaMptKey_rawKey (.inl hk) _ _
  have hcanonical : canonicalOf e.1 = k.canonical := hkey ▸ canonicalOf_rawKey (.inl hk) padding
  rw [Layers.selected_append, selected_cons, hcanonical]
  apply Ensures.lift_bind hdecode
  apply Ensures.lift_bind (Storable.toKeyBytes_eq (.inl hk))
  cases isFiltered addressPrefix k.canonical with
  | true =>
    have hnone : MinimalMpt.selected addressPrefix [] = [] := rfl
    rw [if_pos rfl, if_pos rfl, hnone, List.append_nil]
    exact Ensures.pure ⟨rfl, h⟩
  | false =>
    rw [if_neg Bool.false_ne_true, if_neg Bool.false_ne_true, List.foldl_append, live_append,
      Model.tombs_append]
    cases hvalue : e.2.visibleValue with
    | none => exact Ensures.pure ⟨rfl, h⟩
    | some v => exact (h.tomb hk).bind fun _ s h => Ensures.pure ⟨rfl, h⟩

/-- The loop over the snapshot entries buries them all. -/
theorem deleteSnapshot (h : Agrees keccak s m) {kvs : List MptKeyValue}
    (hkvs : ∀ e ∈ kvs, ∃ k : StorageKeyWithSpace, k.Full ∧ k.canonical = e.1)
    (found : Collected) :
    Ensures (kvs.foldlM (MinimalMpt.deleteSnapshot (State.set keccak)) found) s
      fun found' s' => found' = (snapshotRecords kvs).foldl Collected.addRecord found ∧
        Agrees keccak s' (m.tombs keccak (kvs.map Prod.fst)) := by
  apply Ensures.foldlM (fun done found' s' =>
    found' = (snapshotRecords done).foldl Collected.addRecord found ∧
    Agrees keccak s' (m.tombs keccak (done.map Prod.fst)))
  case h => exact ⟨rfl, h⟩
  rintro done e rest _ s rfl ⟨rfl, h⟩
  rcases hkvs e (by simp) with ⟨k, hk, hkey⟩
  have hdecode : fromKeyBytes e.1 = .ok k := hkey ▸ hk.fromKeyBytes_canonical
  have hrecords : snapshotRecords (done ++ [e]) = snapshotRecords done ++ [(e.1, some e.2)] :=
    List.map_append
  rw [hrecords, List.foldl_append, List.map_append, Model.tombs_append]
  apply Ensures.lift_bind hdecode
  apply (h.tomb hk).bind
  intro _ s h
  rw [hkey] at h
  exact Ensures.pure ⟨rfl, h⟩

/-- The removal loop over what a scan of the delta finds drops its records. -/
theorem removeDelta (h : Agrees keccak s m) (rawPrefix : Bytes) :
    (State.removeDelta s ((StringMap.scanPrefix s.delta rawPrefix).map Prod.fst)).2 =
      StringMap.scanPrefix s.delta rawPrefix ∧
    Agrees keccak
      (State.removeDelta s ((StringMap.scanPrefix s.delta rawPrefix).map Prod.fst)).1
      (m.dropped rawPrefix) := by
  rcases State.removeDelta_scan keccak s rawPrefix with ⟨delta, deltaInc, heq, -, hget⟩
  rw [heq]
  refine ⟨rfl, { h with delta := h.delta.drop hget ?_ }⟩
  intro c
  exact ExtTreeMap.getElem?_filter'

/-- **A prefix delete of the state** returns what it collects, and leaves the tombstones. -/
theorem deletePrefix (h : Agrees keccak s m) (hp : p.Addressed ∨ p.BytePrefix) :
    Ensures (State.deletePrefix keccak p) s fun values s' =>
      values = collected (stateRecords keccak s m p) ∧
      Agrees keccak s' (afterDelete keccak m p) := by
  rcases Layers.encodes keccak hp with ⟨hcanonical, hraw⟩
  have hdelta : (p.toDeltaMptKeyBytes keccak s.deltaPadding none).1 =
      .ok (p.rawKey keccak m.deltaPadding) := h.deltaPadding ▸ hraw m.deltaPadding
  have hintermediate : (p.toDeltaMptKeyBytes keccak s.intermediatePadding none).1 =
      .ok (p.rawKey keccak m.intermediatePadding) :=
    h.intermediatePadding ▸ hraw m.intermediatePadding
  apply Ensures.lift_bind hcanonical
  apply Ensures.read
  apply Ensures.lift_bind hdelta
  apply Ensures.lift_bind hintermediate
  rcases h.removeDelta (p.rawKey keccak m.deltaPadding) with ⟨hkvs, hdropped⟩
  dsimp only
  rw [hkvs, h.scanSnapshot]
  apply Ensures.bind (Q := fun _ s₁ => Agrees keccak s₁ (m.dropped _)) (Ensures.update hdropped)
  intro _ s₁ h₁
  -- what the loop over the delta collects was scanned before the records were dropped
  apply Ensures.lift_bind
    (collectDeltaKvs_eq h.delta.decodes (h.delta.keyed.nodup_scanPrefix _))
  have hkeys : ∀ e ∈ StringMap.scanPrefix s.intermediate (p.rawKey keccak m.intermediatePadding),
      ∃ k : StorageKeyWithSpace, k.Full ∧ k.rawKey keccak m.intermediatePadding = e.1 := by
    intro e he
    rw [StringMap.scanPrefix_eq_filter] at he
    rcases h.intermediate.exists_of_mem_entries (List.mem_of_mem_filter he) with ⟨k, hk, hkey, -⟩
    exact ⟨k, hk, hkey⟩
  apply (h₁.deleteIntermediate (addressPrefixFilter p) hkeys _).bind
  rintro _ s₂ ⟨rfl, h₂⟩
  have hcanonicals : ∀ e ∈ StringMap.scanPrefix m.snapshot p.canonical,
      ∃ k : StorageKeyWithSpace, k.Full ∧ k.canonical = e.1 := by
    intro e he
    rw [StringMap.scanPrefix_eq_filter] at he
    have hget := StringMap.mem_toList.mp (List.mem_of_mem_filter he)
    exact h.snapshotKeys e.1 (ExtTreeMap.mem_iff_isSome_getElem?.mpr (by simp [hget]))
  apply (h₂.deleteSnapshot hcanonicals _).bind
  rintro _ s₃ ⟨rfl, h₃⟩
  refine Ensures.pure ⟨?_, ?_⟩
  · rw [← List.foldl_append, ← List.foldl_append]
    rfl
  -- the state buries the same keys, in the order of its own
  · have hsame : ∀ c, c ∈ live (selected (p.rawKey keccak m.intermediatePadding)
          (addressPrefixFilter p) m.intermediate) ++
            (StringMap.scanPrefix m.snapshot p.canonical).map Prod.fst ↔
        c ∈ live (MinimalMpt.selected (addressPrefixFilter p)
          (StringMap.scanPrefix s.intermediate (p.rawKey keccak m.intermediatePadding))) ++
            (StringMap.scanPrefix m.snapshot p.canonical).map Prod.fst := by
      intro c
      rw [List.mem_append, List.mem_append, mem_live, mem_live]
      exact or_congr_left (exists_congr fun v => h.intermediate.mem_selected_iff.symm)
    rw [afterDelete, Model.tombs_congr _ hsame, Model.tombs_append]
    exact h₃

end Agrees

/-! ## Prefix deletes of the model -/

/-- The records that the address filter keeps. -/
def chosen (addressPrefix : Option Bytes) (es : List (Bytes × ModelValue)) : List Record :=
  (es.filter fun e => !isFiltered addressPrefix e.1).map fun e => (e.1, e.2.value)

theorem chosen_cons (addressPrefix : Option Bytes) (e : Bytes × ModelValue)
    (es : List (Bytes × ModelValue)) :
    chosen addressPrefix (e :: es) = if isFiltered addressPrefix e.1 then chosen addressPrefix es
      else (e.1, e.2.value) :: chosen addressPrefix es := by
  rw [chosen, List.filter_cons]
  cases isFiltered addressPrefix e.1 <;> rfl

theorem chosen_filter (rawPrefix : Bytes) (addressPrefix : Option Bytes)
    (records : ExtTreeMap Bytes ModelValue) :
    chosen addressPrefix (records.toList.filter fun e => rawPrefix <+: e.2.rawKey) =
      selected rawPrefix addressPrefix records := by
  rw [chosen, selected, List.filter_filter]
  congr 2
  funext e
  rw [Model.skips, Bool.not_or, Bool.not_not, Bool.and_comm]

namespace Model

variable {m : Model} {k : StorageKeyWithSpace} {es : List (Bytes × ModelValue)}

theorem mem_keysUnder {layer : ExtTreeMap Bytes ModelValue} {rawPrefix c : Bytes} :
    c ∈ keysUnder layer rawPrefix ↔
      ∃ v : ModelValue, layer[c]? = some v ∧ rawPrefix <+: v.rawKey := by
  rw [keysUnder, List.mem_map]
  constructor
  · rintro ⟨⟨c', v⟩, hmem, rfl⟩
    rcases List.mem_filter.mp hmem with ⟨hlist, hextends⟩
    exact ⟨v, StringMap.mem_toList.mp hlist, of_decide_eq_true hextends⟩
  · rintro ⟨v, hv, hextends⟩
    have hlist := StringMap.mem_toList.mpr hv
    exact ⟨(c, v), List.mem_filter.mpr ⟨hlist, decide_eq_true hextends⟩, rfl⟩

theorem bury_canonical (m : Model) (hk : k.Full) :
    m.bury keccak k.canonical = some (m.tombs keccak [k.canonical]) := by
  have hkey : (k.toDeltaMptKeyBytes keccak m.deltaPadding none).1 =
      .ok (k.rawKey keccak m.deltaPadding) := Storable.deltaKey_eq (.inl hk) keccak m.deltaPadding
  rw [bury, hk.fromKeyBytes_canonical]
  show (_ : Option Bytes).bind _ = _
  rw [hkey, tombs, List.foldl_cons, List.foldl_nil, rawOf_canonical hk]
  rfl

/-- The loop over the delta keys collects their records and removes them. -/
theorem foldlM_deleteDelta (addressPrefix : Option Bytes) (hnodup : (es.map Prod.fst).Nodup)
    (hes : ∀ e ∈ es, m.delta[e.1]? = some e.2) (found : Collected) :
    ∃ delta : ExtTreeMap Bytes ModelValue,
      (es.map Prod.fst).foldlM (deleteDelta addressPrefix) (m, found) =
        some ({ m with delta := delta },
          (chosen addressPrefix es).foldl Collected.overwrite found) ∧
      ∀ c : Bytes, delta[c]? = if c ∈ es.map Prod.fst then none else m.delta[c]? := by
  induction es generalizing m found with
  | nil => exact ⟨m.delta, rfl, fun c => rfl⟩
  | cons e es ih =>
    rw [List.map_cons, List.nodup_cons] at hnodup
    -- the keys left are still there once the first one is gone
    have hrest : ∀ e' ∈ es, (m.delta.erase e.1)[e'.1]? = some e'.2 := by
      intro e' he'
      rw [getElem?_erase_eq, if_neg, hes e' (List.mem_cons_of_mem e he')]
      intro heq
      exact hnodup.1 (List.mem_map.mpr ⟨e', he', heq.symm⟩)
    have hround : deleteDelta addressPrefix (m, found) e.1 =
        some ({ m with delta := m.delta.erase e.1 },
          if isFiltered addressPrefix e.1 then found else found.overwrite (e.1, e.2.value)) := by
      rw [deleteDelta, hes e List.mem_cons_self]
      cases isFiltered addressPrefix e.1 <;> rfl
    rcases ih (m := { m with delta := m.delta.erase e.1 }) hnodup.2 hrest
      (if isFiltered addressPrefix e.1 then found else found.overwrite (e.1, e.2.value)) with
      ⟨delta, hloop, hget⟩
    refine ⟨delta, ?_, ?_⟩
    · rw [List.map_cons, List.foldlM_cons, hround]
      apply hloop.trans
      rw [chosen_cons]
      cases isFiltered addressPrefix e.1 <;> rfl
    · intro c
      rw [hget c, List.map_cons, getElem?_erase_eq]
      by_cases hmem : c ∈ es.map Prod.fst
      · rw [if_pos hmem, if_pos (List.mem_cons_of_mem e.1 hmem)]
      · rw [if_neg hmem]
        by_cases heq : e.1 = c
        · rw [if_pos heq, if_pos (heq ▸ List.mem_cons_self)]
        · rw [if_neg heq, if_neg]
          rw [List.mem_cons, not_or]
          exact ⟨Ne.symm heq, hmem⟩

/-- The loop over the intermediate keys buries those that are live. -/
theorem foldlM_deleteIntermediate (addressPrefix : Option Bytes)
    (hes : ∀ e ∈ es, m.intermediate[e.1]? = some e.2)
    (hkeys : ∀ e ∈ es, ∃ k : StorageKeyWithSpace, k.Full ∧ k.canonical = e.1)
    (found : Collected) :
    (es.map Prod.fst).foldlM (deleteIntermediate keccak addressPrefix) (m, found) =
      some (m.tombs keccak (live (chosen addressPrefix es)),
        (chosen addressPrefix es).foldl Collected.addRecord found) := by
  induction es generalizing m found with
  | nil => rfl
  | cons e es ih =>
    rcases hkeys e List.mem_cons_self with ⟨k, hk, hkey⟩
    have hround : deleteIntermediate keccak addressPrefix (m, found) e.1 =
        some (m.tombs keccak (live (chosen addressPrefix [e])),
          (chosen addressPrefix [e]).foldl Collected.addRecord found) := by
      rw [deleteIntermediate, hes e List.mem_cons_self, chosen_cons]
      cases isFiltered addressPrefix e.1 with
      | true => rfl
      | false =>
        cases hvalue : e.2.value with
        | none => simp [hvalue, live, tombs, chosen, Collected.addRecord]
        | some v =>
          simp [hvalue, live, chosen, Collected.addRecord, ← hkey, bury_canonical m hk]
    have happend : chosen addressPrefix (e :: es) =
        chosen addressPrefix [e] ++ chosen addressPrefix es := by
      rw [chosen_cons, chosen_cons]
      cases isFiltered addressPrefix e.1 <;> rfl
    rw [List.map_cons, List.foldlM_cons, hround, happend, live_append, tombs_append,
      List.foldl_append]
    exact ih (m := m.tombs keccak (live (chosen addressPrefix [e])))
      (fun e' he' => hes e' (List.mem_cons_of_mem e he'))
      (fun e' he' => hkeys e' (List.mem_cons_of_mem e he')) _

/-- The loop over the snapshot keys buries them all. -/
theorem foldlM_deleteSnapshot {kvs : List MptKeyValue}
    (hkvs : ∀ e ∈ kvs, m.snapshot[e.1]? = some e.2)
    (hkeys : ∀ e ∈ kvs, ∃ k : StorageKeyWithSpace, k.Full ∧ k.canonical = e.1)
    (found : Collected) :
    (kvs.map Prod.fst).foldlM (deleteSnapshot keccak) (m, found) =
      some (m.tombs keccak (kvs.map Prod.fst),
        (snapshotRecords kvs).foldl Collected.addRecord found) := by
  induction kvs generalizing m found with
  | nil => rfl
  | cons e kvs ih =>
    rcases hkeys e List.mem_cons_self with ⟨k, hk, hkey⟩
    have hround : deleteSnapshot keccak (m, found) e.1 =
        some (m.tombs keccak [e.1], found.addRecord (e.1, some e.2)) := by
      rw [deleteSnapshot, hkvs e List.mem_cons_self, ← hkey]
      show (m.bury keccak k.canonical).bind _ = _
      rw [bury_canonical m hk]
      rfl
    rw [List.map_cons, List.foldlM_cons, hround, ← List.singleton_append, tombs_append]
    exact ih (m := m.tombs keccak [e.1])
      (fun e' he' => hkvs e' (List.mem_cons_of_mem e he'))
      (fun e' he' => hkeys e' (List.mem_cons_of_mem e he')) _

end Model

namespace Agrees

variable {s : State} {m : Model} {p : StorageKeyWithSpace}

/-- The loop of the model over the delta drops the records under a prefix. -/
theorem loopDelta (m : Model) (rawPrefix : Bytes) (addressPrefix : Option Bytes) :
    (Model.keysUnder m.delta rawPrefix).foldlM (Model.deleteDelta addressPrefix) (m, .empty) =
      some (m.dropped rawPrefix,
        (selected rawPrefix addressPrefix m.delta).foldl Collected.addRecord .empty) := by
  have hnodup : ((m.delta.toList.filter fun e => rawPrefix <+: e.2.rawKey).map Prod.fst).Nodup :=
    ((StringMap.sorted_toList m.delta).filter _).nodup_keys
  have hes : ∀ e ∈ m.delta.toList.filter (fun e => rawPrefix <+: e.2.rawKey),
      m.delta[e.1]? = some e.2 :=
    fun e he => StringMap.mem_toList.mp (List.mem_of_mem_filter he)
  rcases Model.foldlM_deleteDelta addressPrefix hnodup hes .empty with ⟨delta, hloop, hget⟩
  have hdelta : delta = (m.dropped rawPrefix).delta := by
    apply ExtTreeMap.ext_getElem?
    intro c
    have hc : delta[c]? = if c ∈ Model.keysUnder m.delta rawPrefix then none else m.delta[c]? :=
      hget c
    rw [hc, Model.dropped, ExtTreeMap.getElem?_filter']
    by_cases hmem : c ∈ Model.keysUnder m.delta rawPrefix
    · rw [if_pos hmem]
      rcases Model.mem_keysUnder.mp hmem with ⟨v, hv, hextends⟩
      rw [hv]
      exact (if_neg (by simp [hextends])).symm
    · rw [if_neg hmem]
      cases hv : m.delta[c]? with
      | none => rfl
      | some v =>
        have hextends : ¬ rawPrefix <+: v.rawKey :=
          fun hextends => hmem (Model.mem_keysUnder.mpr ⟨v, hv, hextends⟩)
        exact (if_pos (by simp [hextends])).symm
  have hdropped : ({ m with delta := delta } : Model) = m.dropped rawPrefix :=
    congrArg (fun delta => { m with delta := delta }) hdelta
  rw [chosen_filter, hdropped, Collected.foldl_overwrite_eq (nodup_selected _ _)
    fun r _ => by simp [Collected.empty]] at hloop
  exact hloop

/-- The loop of the model over the intermediate layer, in which every key is full. -/
theorem loopIntermediate (h : SameRecords keccak padding entries m.intermediate)
    (rawPrefix : Bytes) (addressPrefix : Option Bytes) (found : Collected) :
    (Model.keysUnder m.intermediate rawPrefix).foldlM
        (Model.deleteIntermediate keccak addressPrefix) (m, found) =
      some (m.tombs keccak (live (selected rawPrefix addressPrefix m.intermediate)),
        (selected rawPrefix addressPrefix m.intermediate).foldl Collected.addRecord found) := by
  rw [← chosen_filter]
  apply Model.foldlM_deleteIntermediate
  · intro e he
    exact StringMap.mem_toList.mp (List.mem_of_mem_filter he)
  · intro e he
    rcases h.exists_of_mem_toList (List.mem_of_mem_filter he) with ⟨k, v, hk, hkey, -⟩
    exact ⟨k, hk, hkey⟩

variable (keccak) in
/-- The loop of the model over the snapshot, in which every key is full. -/
theorem loopSnapshot (h : ∀ c ∈ m.snapshot, ∃ k : StorageKeyWithSpace, k.Full ∧ k.canonical = c)
    (canonicalPrefix : Bytes) (found : Collected) :
    ((StringMap.scanPrefix m.snapshot canonicalPrefix).map Prod.fst).foldlM
        (Model.deleteSnapshot keccak) (m, found) =
      some (m.tombs keccak ((StringMap.scanPrefix m.snapshot canonicalPrefix).map Prod.fst),
        (snapshotRecords (StringMap.scanPrefix m.snapshot canonicalPrefix)).foldl
          Collected.addRecord found) := by
  have hget : ∀ e ∈ StringMap.scanPrefix m.snapshot canonicalPrefix,
      m.snapshot[e.1]? = some e.2 := by
    intro e he
    rw [StringMap.scanPrefix_eq_filter] at he
    exact StringMap.mem_toList.mp (List.mem_of_mem_filter he)
  apply Model.foldlM_deleteSnapshot hget
  intro e he
  exact h e.1 (ExtTreeMap.mem_iff_isSome_getElem?.mpr (by simp [hget e he]))

/-- **A prefix delete of the model** returns what it collects, and leaves the tombstones. -/
theorem modelPrefixDelete (h : Agrees keccak s m) (hp : p.Addressed ∨ p.BytePrefix) :
    m.prefixDelete keccak p =
      some (nonEmpty (collected (modelRecords keccak m p)), afterDelete keccak m p) := by
  rcases Layers.encodes keccak hp with ⟨hcanonical, hraw⟩
  have hdelta : (p.toDeltaMptKeyBytes keccak m.deltaPadding none).1 =
      .ok (p.rawKey keccak m.deltaPadding) := hraw m.deltaPadding
  have hintermediate : (p.toDeltaMptKeyBytes keccak m.intermediatePadding none).1 =
      .ok (p.rawKey keccak m.intermediatePadding) := hraw m.intermediatePadding
  let dropped := m.dropped (p.rawKey keccak m.deltaPadding)
  have hloop := loopIntermediate (m := dropped) h.intermediate
    (p.rawKey keccak m.intermediatePadding) (addressPrefixFilter p)
  have hlast := loopSnapshot keccak (m := dropped.tombs keccak (live (selected
    (p.rawKey keccak m.intermediatePadding) (addressPrefixFilter p) m.intermediate)))
    h.snapshotKeys p.canonical
  rw [Model.prefixDelete, hcanonical, hdelta, hintermediate]
  show ((Model.keysUnder m.delta _).foldlM (Model.deleteDelta _) (m, .empty)).bind _ = _
  rw [loopDelta]
  show ((Model.keysUnder dropped.intermediate _).foldlM (Model.deleteIntermediate keccak _)
    (dropped, _)).bind _ = _
  rw [hloop]
  show (List.foldlM (Model.deleteSnapshot keccak) _ _).bind _ = _
  apply (congrArg (Option.bind · _) (hlast _)).trans
  rw [afterDelete, Model.tombs_append, ← List.foldl_append, ← List.foldl_append]
  rfl

end Agrees

end LayeredStateOps

end MinimalMpt
