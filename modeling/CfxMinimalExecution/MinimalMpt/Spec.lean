import CfxMinimalExecution.MinimalMpt.Preimages

/-!
# The specified root

The Merkle root as `docs/SPEC.md` section 2 defines it, on the nibble expansions of the keys: the
core hash over the tag, sixteen child slots and the optional value, the path wrapped around it
below the root, and the count byte `128 + 64 * (start_depth mod 2) + (nibble_count mod 63)`. The
code reduces the nibble count to a byte first, so it computes this root exactly as long as that
changes no count.

## Main definitions

* `Spec.root`: the specified root
* `Spec.Hashed`: the strings hashed for it
* `PathsFit`: no count of a compressed path changes when reduced to a byte

## Main results

* `trieRoot_implements_spec`: when the code computes the specified root
* `trieRoot_ne_spec`: a path of 257 nibbles on which it does not
-/

open Std (ExtTreeMap)
open Radix

namespace MinimalMpt

namespace Spec

/-- Section 2.1: the high and the low half of every byte. -/
def nibbles (bytes : Bytes) : Bytes := bytes.flatMap fun b : UInt8 => [b / 16, b % 16]

/-- The nibble-expanded keys with their values. -/
def entries (kv : ExtTreeMap Bytes MptValue) : List Entry :=
  kv.toList.map fun (k, v) => (nibbles k, v)

/-- Section 2.3: a live value, a tombstone and no value have different suffixes. -/
def valueSuffix : Option MptValue → Bytes
  | some (.some value) => 0x76 :: value
  | some .tombstone => [0x76]
  | none => []

/-- Section 2.3: the string of the core hash. -/
def coreString (slots : UInt8 → Option H256) (value : Option MptValue) : Bytes :=
  0x6e :: ((List.range 16).flatMap fun i =>
    ((slots (UInt8.ofNat i)).getD merkleNullNode).asBytes) ++ valueSuffix value

/-- Section 2.4: the count byte. -/
def pathInfo (startDepth nibbleCount : ℕ) : UInt8 :=
  UInt8.ofNat (128 + 64 * (startDepth % 2) + nibbleCount % 63)

/-- Nibbles in pairs, a last single one with a zero low half. -/
def pairs : Bytes → Bytes
  | hi :: lo :: rest => (16 * hi + lo) :: pairs rest
  | [hi] => [16 * hi]
  | [] => []

/-- Section 2.4: at an odd start depth the first nibble takes a byte of its own. -/
def compressedNibbles (startDepth : ℕ) (path : Bytes) : Bytes :=
  if startDepth % 2 = 1 then path.take 1 ++ pairs (path.drop 1) else pairs path

/-- Section 2.4: the string of the final hash. -/
def pathString (startDepth : ℕ) (path : Bytes) (core : H256) : Bytes :=
  pathInfo startDepth path.length :: (compressedNibbles startDepth path ++ core.asBytes)

section Hash

variable (keccak : Bytes → H256)

/-- Section 2.3: the final hash of a node. -/
def node (depth : ℕ) (path : Bytes) (slots : UInt8 → Option H256) (value : Option MptValue) :
    H256 :=
  let core := keccak (coreString slots value)
  if path = [] then core else keccak (pathString depth path core)

/-- Sections 2.2 to 2.6: the fold of `node`, which compresses nothing at the root. -/
def root (kv : ExtTreeMap Bytes MptValue) : H256 :=
  if kv.isEmpty then merkleNullNode else fold (node keccak) 0 (entries kv)

/-- The core string of the node of `S` at depth `d`. -/
def nodeCore (d : ℕ) (S : List Entry) : Bytes :=
  coreString (slots (node keccak) d S) (valueAt S (path d S))

/-- The strings hashed for the specified root. -/
def Hashed (kv : ExtTreeMap Bytes MptValue) (s : Bytes) : Prop :=
  ∃ d S, Reaches 0 (entries kv) d S ∧ (s = nodeCore keccak d S ∨
    (path d S ≠ [] ∧ s = pathString d (path d S) (keccak (nodeCore keccak d S))))

end Hash

/-! ## The specification's strings and the code's -/

theorem nibbles_eq (bytes : Bytes) : nibbles bytes = bytesToNibbles bytes := by
  have hbyte (b : UInt8) : [b / (16 : UInt8), b % 16] = [b >>> 4, b &&& 0x0f] := by
    have hhi : b / (16 : UInt8) = b >>> 4 := by
      rw [← UInt8.toNat_inj, UInt8.toNat_div, toNat_high]
      rfl
    have hlo : b % (16 : UInt8) = b &&& 0x0f := by
      rw [← UInt8.toNat_inj, UInt8.toNat_mod, toNat_low]
      rfl
    rw [hhi, hlo]
  rw [nibbles, bytesToNibbles]
  exact congrArg (fun f => bytes.flatMap f) (funext hbyte)

theorem entries_eq (kv : ExtTreeMap Bytes MptValue) : entries kv = (nibbleMap kv).toList := by
  rw [toList_nibbleMap, entries]
  simp only [nibbles_eq]

theorem coreString_eq (slots : UInt8 → Option H256) (value : Option MptValue) :
    coreString slots value =
      nodeBuffer (some (childVector slots)) (value.map MptValue.merkleValue) := by
  have hchildren : (childVector slots).toList =
      (List.range 16).map fun i => (slots (UInt8.ofNat i)).getD merkleNullNode := by
    rw [childVector, Vector.toList_ofFn]
    rfl
  have hvalue : valueSuffix value =
      ((value.map MptValue.merkleValue).map fun value => 0x76 :: value).getD [] := by
    cases value with
    | none => rfl
    | some v => cases v <;> rfl
  rw [coreString, nodeBuffer, Option.getD_some, hchildren, List.flatMap_map, hvalue]

theorem pair_eq {hi lo : UInt8} (hhi : hi < 16) (hlo : lo < 16) :
    (16 : UInt8) * hi + lo = hi <<< 4 ||| lo := by
  have hpack := toNat_pack hhi hlo
  rw [UInt8.lt_iff_toNat_lt] at hhi hlo
  have h16 : (16 : UInt8).toNat = 16 := rfl
  rw [← UInt8.toNat_inj, hpack, UInt8.toNat_add, UInt8.toNat_mul, h16]
  omega

theorem pairs_eq : ∀ {path : Bytes}, (∀ x ∈ path, x < 16) → pairs path = packChunks path
  | [], _ => rfl
  | [hi], h => by
    have hpair := pair_eq (h hi (by simp)) (by decide : (0 : UInt8) < 16)
    rw [UInt8.add_zero] at hpair
    rw [pairs, hpair]
    rfl
  | hi :: lo :: rest, h => by
    rw [pairs, packChunks_cons_cons, pair_eq (h hi (by simp)) (h lo (by simp)),
      pairs_eq fun x hx => h x (by simp [hx])]

theorem compressedNibbles_eq {path : Bytes} (hne : path ≠ []) (hpath : ∀ x ∈ path, x < 16)
    (d : ℕ) : compressedNibbles d path = compressNibbles path (d % 2 == 1) := by
  unfold compressedNibbles compressNibbles
  by_cases hd : d % 2 = 1
  · cases path with
    | nil => exact absurd rfl hne
    | cons first rest =>
      simp [hd, pairs_eq fun x hx => hpath x (List.mem_cons_of_mem _ hx)]
  · simp [hd, pairs_eq hpath]

/-- The count bytes agree when reducing the length to a byte keeps its remainder modulo 63. -/
theorem pathInfo_eq_iff (d pathLen : ℕ) :
    MinimalMpt.pathInfo pathLen (d % 2 == 1) = pathInfo d pathLen ↔ 63 ∣ pathLen / 256 := by
  have hspec : (pathInfo d pathLen).toNat = 128 + 64 * (d % 2) + pathLen % 63 := by
    rw [pathInfo, UInt8.toNat_ofNat']
    have := Nat.mod_lt pathLen (by decide : 0 < 63)
    have := Nat.mod_lt d (by decide : 0 < 2)
    omega
  have hparity : (if (d % 2 == 1) = true then 1 else 0) = d % 2 := by
    rcases Nat.mod_two_eq_zero_or_one d with h | h <;> simp [h]
  -- modulo 63 the quotient by 256 counts four times
  have hcount : pathLen % 256 % 63 = pathLen % 63 ↔ 63 ∣ pathLen / 256 := by
    have hsplit := Nat.div_add_mod pathLen 256
    generalize pathLen / 256 = q at *
    generalize pathLen % 256 = r at *
    subst hsplit
    omega
  rw [← UInt8.toNat_inj, toNat_pathInfo, hspec, hparity, ← hcount]
  omega

/-- The core strings of two nodes give back the results in their slots, for one occupancy. -/
theorem slots_eq_of_coreString {node node' : ℕ → Bytes → (UInt8 → Option H256) →
      Option MptValue → H256} {d : ℕ} {S : List Entry} (hS : ∀ e ∈ S, ∀ x ∈ e.1, x < 16)
    (h : childVector (slots node d S) = childVector (slots node' d S)) :
    slots node d S = slots node' d S := by
  funext c
  by_cases hslot : slot d S c = []
  · rw [slots_of_nil hslot, slots_of_nil hslot]
  · have hc : c < 16 := by
      obtain ⟨e, he, hroute⟩ := below_ne_nil_iff.mp hslot
      exact hS e he c (hroute.subset (by simp))
    have hlt : c.toNat < 16 := UInt8.lt_iff_toNat_lt.mp hc
    have hget := congrArg (fun v : Vector H256 16 => v[c.toNat]) h
    simp only [childVector, Vector.getElem_ofFn, UInt8.ofNat_toNat] at hget
    rw [slots_of_ne_nil hslot, slots_of_ne_nil hslot] at hget ⊢
    exact congrArg some hget

section Agreement

variable {keccak : Bytes → H256}

/-- A node whose count byte survives the reduction has the specified hash. -/
theorem trieNode_eq {d : ℕ} {path : Bytes} (hpath : ∀ x ∈ path, x < 16)
    (hfit : 63 ∣ path.length / 256) (slots : UInt8 → Option H256) (value : Option MptValue) :
    trieNode keccak d path slots value = node keccak d path slots value := by
  rw [trieNode, computePathMerkle, computeNodeMerkle, ← coreString_eq, node]
  simp only [List.isEmpty_iff]
  split
  · rfl
  · next hne =>
    rw [pathBuffer, pathString, (pathInfo_eq_iff d path.length).mpr hfit,
      compressedNibbles_eq hne hpath]

end Agreement

end Spec

/-! ## When the code computes the specified root -/

/-- Every compressed path of the trie has a length `L` with `63 ∣ L / 256`: reducing `L` to a byte
keeps its remainder modulo 63, as it does for every path shorter than 256 nibbles. -/
def PathsFit (kv : ExtTreeMap Bytes MptValue) : Prop :=
  ∀ d S, Reaches 0 (nibbleEntries kv) d S → 63 ∣ (path d S).length / 256

section Implements

variable (keccak : Bytes → H256)

theorem trieRoot_eq_spec {kv : ExtTreeMap Bytes MptValue} (hfit : PathsFit kv) :
    trieRoot keccak kv = Spec.root keccak kv := by
  have hentries : nibbleEntries kv = (nibbleMap kv).toList := (toList_nibbleMap kv).symm
  rw [trieRoot_eq_trieFold, trieFold, ExtTreeMap.isEmpty_toList, isEmpty_nibbleMap, Spec.root,
    Spec.entries_eq]
  split
  · rfl
  · refine fold_congr 0 _ fun d S hr s => ?_
    exact Spec.trieNode_eq (forall_mem_path (nibble_of_reaches hr) d) (hfit d S (hentries ▸ hr)) s _

/-- Without a collision, a node with the specified hash has a count byte that survives the
reduction, and its children have the specified hashes. -/
theorem node_fits {P : Bytes → Prop} (hP : ¬ Collision keccak P) {d : ℕ} {S : List Entry}
    (hnibble : ∀ e ∈ S, ∀ x ∈ e.1, x < 16) (hcode : Hashed keccak P d S)
    (hcore : P (Spec.nodeCore keccak d S))
    (hpath : path d S ≠ [] → P (Spec.pathString d (path d S) (keccak (Spec.nodeCore keccak d S))))
    (h : fold (trieNode keccak) d S = fold (Spec.node keccak) d S) :
    63 ∣ (path d S).length / 256 ∧
      slots (trieNode keccak) d S = slots (Spec.node keccak) d S := by
  have hspec : fold (Spec.node keccak) d S =
      if path d S = [] then keccak (Spec.nodeCore keccak d S)
      else keccak (Spec.pathString d (path d S) (keccak (Spec.nodeCore keccak d S))) := by
    rw [fold_eq]
    rfl
  rw [fold_eq_keccak, hspec] at h
  have hstrings : 63 ∣ (path d S).length / 256 ∧
      keccak (nodeString keccak d S) = keccak (Spec.nodeCore keccak d S) := by
    by_cases hnil : path d S = []
    · rw [if_pos hnil, if_pos hnil] at h
      exact ⟨by simp [hnil], h⟩
    · rw [if_neg hnil, if_neg hnil] at h
      have heq := eq_of_not_collision hP (hcode.path hnil) (hpath hnil) h
      obtain ⟨hinfo, hrest⟩ := List.cons.inj heq
      obtain ⟨-, hhash⟩ := List.append_inj' hrest (by simp)
      exact ⟨(Spec.pathInfo_eq_iff d _).mp hinfo, H256.asBytes_injective hhash⟩
  refine ⟨hstrings.1, ?_⟩
  have heq := eq_of_not_collision hP hcode.node hcore hstrings.2
  rw [Spec.nodeCore, Spec.coreString_eq] at heq
  exact Spec.slots_eq_of_coreString hnibble (nodeBuffer_inj heq).1

theorem pathsFit_of_isEmpty {kv : ExtTreeMap Bytes MptValue} (hkv : kv.isEmpty) :
    PathsFit kv := by
  have hnil : nibbleEntries kv = [] := by
    rw [ExtTreeMap.isEmpty_iff.mp hkv]
    rfl
  intro d S hr
  rw [hnil] at hr
  rcases hr.cases_head with ⟨rfl, rfl⟩ | ⟨_, hslot, -⟩
  · simp
  · exact absurd (below_nil _) hslot

/-- **The specified root.** If every compressed path fits its count byte, the code computes the
specified root at every parallel threshold; if it computes the specified root, every compressed
path fits its count byte or two distinct hashed strings have one hash. The threshold never
matters. -/
theorem trieRoot_implements_spec (kv : ExtTreeMap Bytes MptValue) :
    (PathsFit kv → ∀ threshold, trieRootAt keccak threshold kv = Spec.root keccak kv) ∧
    ((∀ threshold, trieRootAt keccak threshold kv = Spec.root keccak kv) →
      PathsFit kv ∨ Collision keccak fun s =>
        s ∈ hashedForRoot keccak kv ∨ Spec.Hashed keccak kv s) ∧
    ∀ threshold, trieRootAt keccak threshold kv = trieRoot keccak kv := by
  have hthreshold : ∀ threshold, trieRootAt keccak threshold kv = trieRoot keccak kv := by
    intro threshold
    rw [trieRootAt_eq_trieFold, trieRoot_eq_trieFold]
  refine ⟨fun hfit threshold => ?_, fun h => ?_, hthreshold⟩
  · rw [hthreshold, trieRoot_eq_spec keccak hfit]
  · rw [or_iff_not_imp_right]
    intro hP
    by_cases hkv : kv.isEmpty
    · exact pathsFit_of_isEmpty hkv
    · have hroot := h 0
      have hentries : nibbleEntries kv = (nibbleMap kv).toList := (toList_nibbleMap kv).symm
      rw [trieRootAt_eq_trieFold, trieFold, ExtTreeMap.isEmpty_toList, isEmpty_nibbleMap,
        Spec.root, Spec.entries_eq, if_neg hkv, if_neg hkv] at hroot
      intro d S hr
      rw [hentries] at hr
      refine fold_agree (P := fun d S => 63 ∣ (path d S).length / 256) hroot
        (fun d S hr hfold => ?_) hr
      have hspec : Reaches 0 (Spec.entries kv) d S := by rwa [Spec.entries_eq]
      exact node_fits keccak hP (nibble_of_reaches hr)
        ((hashed_of_reaches hkv hr).mono fun s hs => Or.inl hs)
        (Or.inr ⟨d, S, hspec, Or.inl rfl⟩)
        (fun hpath => Or.inr ⟨d, S, hspec, Or.inr ⟨hpath, rfl⟩⟩) hfold

end Implements

/-- A path of 257 nibbles below the root: as a byte its length is 1, so the code counts 1 where
the specification counts 5. -/
theorem trieRoot_ne_spec :
    ¬ ∀ threshold, trieRootAt keccak256 threshold
        ((∅ : ExtTreeMap Bytes MptValue).insert (List.replicate 129 0) (.some [1])) =
      Spec.root keccak256
        ((∅ : ExtTreeMap Bytes MptValue).insert (List.replicate 129 0) (.some [1])) := by
  intro h
  exact absurd (h parallelHashThreshold) (by decide +kernel)

end MinimalMpt
