import CfxMinimalExecution.MinimalMpt.TrieFold

/-!
# The hashed strings

What the walk hashes determines the node it is hashed for: a node's buffer gives back its children
and its value, a path's buffer its nibbles and the hash of its node, and the first byte tells the
two apart. The length of a path is recovered from its count byte and the number of packed bytes.

## Main definitions

* `nodeString`: the buffer of a node of the trie
* `Hashed`: the strings of a node are among given strings

## Main results

* `nodeBuffer_inj`, `pathBuffer_inj`, `nodeBuffer_ne_pathBuffer`: the buffers can be told apart
* `childVector_inj`: the child slots determine the results in the slots
* `hashed_of_reaches`: the walk hashes the strings of every node of the trie
-/

open Std (ExtTreeMap)
open Radix SortedList

namespace MinimalMpt

/-! ## Packed nibbles -/

@[simp] theorem packChunks_cons_cons (hi lo : UInt8) (rest : Bytes) :
    packChunks (hi :: lo :: rest) = (hi <<< 4 ||| lo) :: packChunks rest := rfl

theorem length_packChunks : ∀ nibbles : Bytes,
    (packChunks nibbles).length = (nibbles.length + 1) / 2
  | [] => rfl
  | [hi] => by simp [packChunks]
  | hi :: lo :: rest => by
    rw [packChunks_cons_cons, List.length_cons, length_packChunks rest, List.length_cons,
      List.length_cons]
    omega

theorem pack_inj {hi lo hi' lo' : UInt8} (hhi : hi < 16) (hlo : lo < 16) (hhi' : hi' < 16)
    (hlo' : lo' < 16) (h : hi <<< 4 ||| lo = hi' <<< 4 ||| lo') : hi = hi' ∧ lo = lo' := by
  have hnat := congrArg UInt8.toNat h
  rw [toNat_pack hhi hlo, toNat_pack hhi' hlo'] at hnat
  rw [UInt8.lt_iff_toNat_lt] at hlo hlo'
  have h16 : (16 : UInt8).toNat = 16 := rfl
  rw [← UInt8.toNat_inj, ← UInt8.toNat_inj]
  omega

/-- Nibbles of equal number are recovered from their packing. -/
theorem packChunks_inj : ∀ {k l : Bytes}, k.length = l.length → (∀ x ∈ k, x < 16) →
    (∀ x ∈ l, x < 16) → packChunks k = packChunks l → k = l
  | [], [], _, _, _, _ => rfl
  | [a], [b], _, hk, hl, h => by
    have hpack : a <<< 4 ||| (0 : UInt8) = b <<< 4 ||| 0 := by simpa [packChunks] using h
    have hab := pack_inj (hk a (by simp)) (by decide) (hl b (by simp)) (by decide) hpack
    rw [hab.1]
  | a :: a' :: k, b :: b' :: l, hlen, hk, hl, h => by
    rw [packChunks_cons_cons, packChunks_cons_cons, List.cons.injEq] at h
    obtain ⟨rfl, rfl⟩ := pack_inj (hk a (by simp)) (hk a' (by simp)) (hl b (by simp))
      (hl b' (by simp)) h.1
    have hrest := packChunks_inj (by simpa using hlen) (fun x hx => hk x (by simp [hx]))
      (fun x hx => hl x (by simp [hx])) h.2
    rw [hrest]

theorem length_compressNibbles {nibbles : Bytes} (hne : nibbles ≠ []) (withoutFirst : Bool) :
    (compressNibbles nibbles withoutFirst).length =
      if withoutFirst then nibbles.length / 2 + 1 else (nibbles.length + 1) / 2 := by
  cases withoutFirst with
  | false => exact length_packChunks nibbles
  | true =>
    cases nibbles with
    | nil => exact absurd rfl hne
    | cons first rest =>
      show (packChunks rest).length + 1 = _
      rw [length_packChunks]
      rfl

theorem compressNibbles_inj {k l : Bytes} {withoutFirst : Bool} (hlen : k.length = l.length)
    (hk : ∀ x ∈ k, x < 16) (hl : ∀ x ∈ l, x < 16)
    (h : compressNibbles k withoutFirst = compressNibbles l withoutFirst) : k = l := by
  cases withoutFirst with
  | false => exact packChunks_inj hlen hk hl h
  | true =>
    cases k with
    | nil => exact (List.length_eq_zero_iff.mp hlen.symm).symm
    | cons a k =>
      cases l with
      | nil => simp at hlen
      | cons b l =>
        obtain ⟨rfl, hrest⟩ := List.cons.inj h
        rw [packChunks_inj (by simpa using hlen) (fun x hx => hk x (List.mem_cons_of_mem _ hx))
          (fun x hx => hl x (List.mem_cons_of_mem _ hx)) hrest]

/-! ## The count byte -/

/-- The count byte as a number: the length is first reduced to a byte. -/
theorem toNat_pathInfo (pathLen : ℕ) (withoutFirst : Bool) :
    (pathInfo pathLen withoutFirst).toNat =
      128 + 64 * (if withoutFirst then 1 else 0) + pathLen % 256 % 63 := by
  have hmod : pathLen % 256 % 63 < 63 := Nat.mod_lt _ (by decide)
  cases withoutFirst with
  | false =>
    simp [pathInfo]
    omega
  | true =>
    simp [pathInfo]
    omega

/-- Neighbouring lengths have different counts. -/
theorem count_succ_ne (n : ℕ) : (n + 1) % 256 % 63 ≠ n % 256 % 63 := by
  by_cases hwrap : n % 256 = 255
  · rw [show (n + 1) % 256 = 0 by omega, hwrap]
    decide
  · rw [show (n + 1) % 256 = n % 256 + 1 by omega]
    generalize n % 256 = r
    omega

/-- A path's length is recovered from its count byte and the number of its packed bytes. -/
theorem length_eq_of_pathInfo {k l : Bytes} (hk : k ≠ []) (hl : l ≠ []) {withoutFirst : Bool}
    (hinfo : pathInfo k.length withoutFirst = pathInfo l.length withoutFirst)
    (hlen : (compressNibbles k withoutFirst).length = (compressNibbles l withoutFirst).length) :
    k.length = l.length := by
  have hnat := congrArg UInt8.toNat hinfo
  rw [toNat_pathInfo, toNat_pathInfo] at hnat
  rw [length_compressNibbles hk, length_compressNibbles hl] at hlen
  -- the packed bytes fix the length up to one
  have hcases : k.length = l.length ∨ k.length = l.length + 1 ∨ l.length = k.length + 1 := by
    cases withoutFirst <;> simp only [Bool.false_eq_true, if_false, if_true] at hlen <;> omega
  rcases hcases with heq | heq | heq
  · exact heq
  · rw [heq, Nat.add_left_cancel_iff] at hnat
    exact absurd hnat (count_succ_ne _)
  · rw [heq, Nat.add_left_cancel_iff] at hnat
    exact absurd hnat.symm (count_succ_ne _)

/-! ## Buffers -/

/-- The value suffix of a node's buffer. -/
theorem valueSuffix_inj {v v' : Option Bytes}
    (h : (v.map fun value => (0x76 : UInt8) :: value).getD [] =
      (v'.map fun value => (0x76 : UInt8) :: value).getD []) : v = v' := by
  cases v with
  | none =>
    cases v' with
    | none => rfl
    | some value => cases h
  | some value =>
    cases v' with
    | none => cases h
    | some value' => rw [(List.cons.inj h).2]

/-- A node's buffer gives back its children and its value. -/
theorem nodeBuffer_inj {children children' : Vector H256 16} {v v' : Option Bytes}
    (h : nodeBuffer (some children) v = nodeBuffer (some children') v') :
    children = children' ∧ v = v' := by
  obtain ⟨hchildren, hvalue⟩ := List.append_inj (List.cons.inj h).2 (by
    rw [Option.getD_some, Option.getD_some, List.length_flatMap, List.length_flatMap]
    simp)
  exact ⟨Vector.toList_inj.mp (flatMap_asBytes_inj (by simp) hchildren), valueSuffix_inj hvalue⟩

/-- A path's buffer gives back its nibbles and the hash of its node. -/
theorem pathBuffer_inj {k l : Bytes} (hk : k ≠ []) (hl : l ≠ []) (hkn : ∀ x ∈ k, x < 16)
    (hln : ∀ x ∈ l, x < 16) {d : ℕ} {h h' : H256} (heq : pathBuffer k d h = pathBuffer l d h') :
    k = l ∧ h = h' := by
  obtain ⟨hinfo, hrest⟩ := List.cons.inj heq
  obtain ⟨hpacked, hhash⟩ := List.append_inj' hrest (by simp)
  have hlen := length_eq_of_pathInfo hk hl hinfo (congrArg List.length hpacked)
  exact ⟨compressNibbles_inj hlen hkn hln hpacked, H256.asBytes_injective hhash⟩

/-- The first byte tells a node's buffer from a path's. -/
theorem nodeBuffer_ne_pathBuffer (children : Option (Vector H256 16)) (v : Option Bytes)
    (k : Bytes) (d : ℕ) (h : H256) : nodeBuffer children v ≠ pathBuffer k d h := by
  intro heq
  have hnat := congrArg UInt8.toNat (List.cons.inj heq).1
  rw [toNat_pathInfo] at hnat
  have h6e : (0x6e : UInt8).toNat = 110 := rfl
  omega

theorem nodeBuffer_ne_nil (children : Option (Vector H256 16)) (v : Option Bytes) :
    nodeBuffer children v ≠ [] :=
  List.cons_ne_nil _ _

theorem pathBuffer_ne_nil (k : Bytes) (d : ℕ) (h : H256) : pathBuffer k d h ≠ [] :=
  List.cons_ne_nil _ _

/-- Results that are never null and lie in slots below 16 are recovered from the child slots. -/
theorem childVector_inj {s s' : UInt8 → Option H256} (hs : ∀ c, ¬ c < 16 → s c = none)
    (hs' : ∀ c, ¬ c < 16 → s' c = none) (hnull : ∀ c, s c ≠ some merkleNullNode)
    (hnull' : ∀ c, s' c ≠ some merkleNullNode) (h : childVector s = childVector s') : s = s' := by
  funext c
  by_cases hc : c < 16
  · have hlt : c.toNat < 16 := UInt8.lt_iff_toNat_lt.mp hc
    have hget := congrArg (fun v : Vector H256 16 => v[c.toNat]) h
    simp only [childVector, Vector.getElem_ofFn, UInt8.ofNat_toNat] at hget
    have hn := hnull c
    have hn' := hnull' c
    cases hsc : s c with
    | none =>
      cases hsc' : s' c with
      | none => rfl
      | some x =>
        rw [hsc, hsc'] at hget
        exact absurd (hsc'.trans (congrArg some hget.symm)) hn'
    | some x =>
      cases hsc' : s' c with
      | none =>
        rw [hsc, hsc'] at hget
        exact absurd (hsc.trans (congrArg some hget)) hn
      | some y =>
        rw [hsc, hsc'] at hget
        exact congrArg some hget
  · rw [hs c hc, hs' c hc]

/-- The keys below every node of the trie of a map are nibbles. -/
theorem nibble_of_reaches {kv : ExtTreeMap Bytes MptValue} {d : ℕ} {S : List Entry}
    (hr : Reaches 0 (nibbleMap kv).toList d S) : ∀ e ∈ S, ∀ x ∈ e.1, x < 16 := by
  refine hr.preserves (motive := fun _ S => ∀ e ∈ S, ∀ x ∈ e.1, x < 16) ?_ ?_
  · intro d S c _ h e he x hx
    exact h _ (mem_below.mp he) x (List.mem_append_right _ hx)
  · intro e he
    exact nibbleMap_lt kv e.1
      (ExtTreeMap.mem_iff_isSome_getElem?.mpr (by simp [StringMap.mem_toList.mp he]))

/-! ## The strings of the nodes -/

section Strings

variable (keccak : Bytes → H256)

/-- The buffer of the node of `S` at depth `d`. -/
def nodeString (d : ℕ) (S : List Entry) : Bytes :=
  nodeBuffer (some (childVector (slots (trieNode keccak) d S)))
    ((valueAt S (path d S)).map MptValue.merkleValue)

/-- The result at a node is the hash of its last string. -/
theorem fold_eq_keccak (d : ℕ) (S : List Entry) :
    fold (trieNode keccak) d S =
      if path d S = [] then keccak (nodeString keccak d S)
      else keccak (pathBuffer (path d S) d (keccak (nodeString keccak d S))) := by
  rw [fold_eq, trieNode, computePathMerkle, computeNodeMerkle, ← nodeString]
  simp only [List.isEmpty_iff]

/-- The strings of the node of `S` at depth `d` are among `strings`. -/
structure Hashed (strings : Bytes → Prop) (d : ℕ) (S : List Entry) : Prop where
  node : strings (nodeString keccak d S)
  path : path d S ≠ [] → strings (pathBuffer (path d S) d (keccak (nodeString keccak d S)))

variable {keccak}

theorem Hashed.mono {P Q : Bytes → Prop} {d : ℕ} {S : List Entry} (h : Hashed keccak P d S)
    (hPQ : ∀ s, P s → Q s) : Hashed keccak Q d S :=
  ⟨hPQ _ h.node, fun hpath => hPQ _ (h.path hpath)⟩

/-- The strings the walk hashes at a block: those of the children's blocks and its own. -/
theorem mem_hashedForNode {fuel : ℕ} {rp : Bytes} {entries : List Entry} (hb : Block rp entries)
    (hfuel : ∀ e ∈ entries, e.1.length < rp.length + (fuel + 1)) {s : Bytes} :
    s ∈ hashedForNode keccak (fuel + 1) entries rp.length (decide (rp.length ≠ 0)) ↔
      (∃ c, childBlock (rp ++ path rp.length (below rp entries)) c entries ≠ [] ∧
        s ∈ hashedForNode keccak fuel
          (childBlock (rp ++ path rp.length (below rp entries)) c entries)
          ((rp ++ path rp.length (below rp entries)).length + 1) true) ∨
      s = nodeString keccak rp.length (below rp entries) ∨
      (path rp.length (below rp entries) ≠ [] ∧
        s = pathBuffer (path rp.length (below rp entries)) rp.length
          (keccak (nodeString keccak rp.length (below rp entries)))) := by
  generalize hF : rp ++ path rp.length (below rp entries) = F
  have hdepth : rp.length + (path rp.length (below rp entries)).length = F.length := by
    rw [← hF, List.length_append]
  have hchildren := hb.childSlots_eq keccak fun _ block =>
    merkleForNode keccak parallelHashThreshold fuel block (F.length + 1) false true
  have hpath := hb.slice_firstKey rp.length
  have hvalue := hb.valueAtDepth_eq rp.length
  rw [hF] at hchildren hpath hvalue
  -- the hashes of the children are the slots of the node
  have hvector := hchildren fun c hne => by
    have hrec := merkleForNode_eq_fold keccak parallelHashThreshold fuel false (hb.child hne)
      fun e he => by
        have := hfuel e (mem_childBlock.mp he).1
        simp only [← hF, List.length_append, List.length_singleton]
        omega
    have hlen : F.length + 1 = (F ++ [c]).length := by simp
    rw [hlen, ← hrec]
    simp
  have hfull : ∀ e ∈ entries, F <+: e.1 := hF ▸ hb.full rp.length
  obtain ⟨hsound, hcomplete⟩ := childRanges_spec hb.sorted hfull
  rw [hashedForNode, nodeString]
  simp only [hb.common_eq, hdepth, hvector, nodeBuffer_hasChildren, hpath, hvalue,
    List.mem_append, List.mem_flatMap, List.mem_cons, List.isEmpty_iff]
  -- a string is hashed below a child, for the node, or for its path
  refine or_congr ?_ (or_congr Iff.rfl ?_)
  · constructor
    · rintro ⟨⟨c, start, stop⟩, hrange, hmem⟩
      obtain ⟨hslice, hne⟩ := hsound c start stop hrange
      exact ⟨c, hne, hslice ▸ hmem⟩
    · rintro ⟨c, hne, hmem⟩
      obtain ⟨start, stop, hrange⟩ := hcomplete c hne
      exact ⟨(c, start, stop), hrange, by rwa [(hsound c start stop hrange).1]⟩
  · split
    · next hnil => simp [hnil]
    · next hne => simp [hne]

/-- The walk over a block hashes the strings of every node of its trie. -/
theorem hashedForNode_of_reaches (keccak : Bytes → H256) (fuel : ℕ) :
    ∀ {rp : Bytes} {entries : List Entry}, Block rp entries →
      (∀ e ∈ entries, e.1.length < rp.length + fuel) →
      ∀ {d : ℕ} {S : List Entry}, Reaches rp.length (below rp entries) d S →
        Hashed keccak (· ∈ hashedForNode keccak fuel entries rp.length (decide (rp.length ≠ 0)))
          d S := by
  induction fuel with
  | zero =>
    intro rp entries hb hfuel
    obtain ⟨e, he⟩ := List.exists_mem_of_ne_nil _ hb.ne_nil
    have hlen := (hb.routed e he).length_le
    have hlt := hfuel e he
    omega
  -- induction on the fuel: either the node itself, or one below a child
  | succ fuel ih =>
    intro rp entries hb hfuel d S hr
    rcases hr.cases_head with ⟨rfl, rfl⟩ | ⟨c, hslot, hrest⟩
    · constructor
      · exact (mem_hashedForNode hb hfuel).mpr (Or.inr (Or.inl rfl))
      · exact fun hpath => (mem_hashedForNode hb hfuel).mpr (Or.inr (Or.inr ⟨hpath, rfl⟩))
    -- the child has a longer prefix, and its strings are among those of the block
    · generalize hF : rp ++ path rp.length (below rp entries) = F at *
      rw [slot_below, hF] at hslot
      have hne : childBlock F c entries ≠ [] := childBlock_ne_nil_iff.mpr hslot
      have hlen : rp.length + (path rp.length (below rp entries)).length + 1 =
          (F ++ [c]).length := by
        rw [← hF]
        simp only [List.length_append, List.length_singleton]
      rw [slot_below, hF, ← below_childBlock, hlen] at hrest
      have hrec := ih (hb.child hne) (fun e he => by
        have hlt := hfuel e (mem_childBlock.mp he).1
        omega) hrest
      refine hrec.mono fun s hs => (mem_hashedForNode hb hfuel).mpr (Or.inl ⟨c, ?_⟩)
      rw [hF]
      exact ⟨hne, by simpa using hs⟩

/-- The walk hashes the strings of every node of the trie of a map. -/
theorem hashed_of_reaches {kv : ExtTreeMap Bytes MptValue} (hkv : ¬ kv.isEmpty) {d : ℕ}
    {S : List Entry} (hr : Reaches 0 (nibbleMap kv).toList d S) :
    Hashed keccak (· ∈ hashedForRoot keccak kv) d S := by
  have hentries : nibbleEntries kv = (nibbleMap kv).toList := (toList_nibbleMap kv).symm
  have hb : Block [] (nibbleMap kv).toList := by
    refine ⟨StringMap.sorted_toList _, fun hnil => hkv ?_, fun _ _ => List.nil_prefix⟩
    rw [toList_nibbleMap, List.map_eq_nil_iff] at hnil
    rw [← ExtTreeMap.isEmpty_toList, hnil]
    rfl
  have hwalk := hashedForNode_of_reaches keccak (walkFuel (nibbleMap kv).toList) hb
    (fun e he => by simpa using length_lt_walkFuel he) (by rwa [below_empty])
  rw [hashedForRoot, if_neg hkv, hentries]
  simpa using hwalk

end Strings

end MinimalMpt
