import CfxMinimalExecution.Library.StringMap
import CfxMinimalExecution.MinimalMpt.Types

/-!
# The stateless trie root

`trie.rs`: the Merkle root of a byte-keyed map, computed by recursion over slices of its sorted
nibble entries. A key's nibbles are bytes below 16. The walk takes the fuel its recursion needs,
which `rootForEntriesAt` bounds by the length of the longest key.

## Main definitions

* `MptValue`: a live value or a tombstone
* `computeNodeMerkle`, `computePathMerkle`: the two hashes of a node
* `merkleForNode`, `trieRoot`: the walk and the root
* `hashedForNode`, `hashedForRoot`: the strings hashed by the walk
-/

open Std (ExtTreeMap)

namespace MinimalMpt

/-- `PARALLEL_HASH_THRESHOLD`. -/
def parallelHashThreshold : ℕ := 4096

inductive MptValue
  | some (value : Bytes)
  | tombstone
deriving DecidableEq

namespace MptValue

def visibleValue : MptValue → Option Bytes
  | .some v => Option.some v
  | .tombstone => none

def merkleValue : MptValue → Bytes
  | .some v => v
  | .tombstone => []

end MptValue

/-- A byte's high and low half, `bytes_to_nibbles`. -/
def bytesToNibbles (bytes : Bytes) : Bytes :=
  bytes.flatMap fun b : UInt8 => [b >>> 4, b &&& 0x0f]

/-- `rest.chunks(2)` packed: the first nibble high, a missing second one zero. -/
def packChunks : Bytes → Bytes
  | [] => []
  | [hi] => [hi <<< 4 ||| 0]
  | hi :: lo :: rest => (hi <<< 4 ||| lo) :: packChunks rest

/-- `compress_nibbles`. -/
def compressNibbles (nibbles : Bytes) (withoutFirstNibble : Bool) : Bytes :=
  if withoutFirstNibble then
    match nibbles with
    | [] => []  -- unreachable: the path is non-empty
    | first :: rest => first :: packChunks rest
  else packChunks nibbles

/-- `path_info`: the length is cast to a byte before the remainder is taken. -/
def pathInfo (pathLen : ℕ) (withoutFirstNibble : Bool) : UInt8 :=
  128 + 64 * (if withoutFirstNibble then 1 else 0) + UInt8.ofNat pathLen % 63

/-- The buffer hashed by `compute_node_merkle`. -/
def nodeBuffer (childrenMerkles : Option (Vector H256 16)) (maybeValue : Option Bytes) : Bytes :=
  let children := childrenMerkles.getD (Vector.replicate 16 merkleNullNode)
  (0x6e :: children.toList.flatMap H256.asBytes) ++
    (maybeValue.map fun value => 0x76 :: value).getD []

/-- The buffer hashed by `compute_path_merkle` for a non-empty path. -/
def pathBuffer (pathNibbles : Bytes) (startDepth : ℕ) (nodeMerkle : H256) : Bytes :=
  let withoutFirstNibble := startDepth % 2 == 1
  pathInfo pathNibbles.length withoutFirstNibble ::
    (compressNibbles pathNibbles withoutFirstNibble ++ nodeMerkle.asBytes)

/-- A trie entry: its nibbles and its value. -/
abbrev Entry := Bytes × MptValue

/-- `common_prefix_len` of `trie.rs`: how far the first key's nibbles from `depth` on are shared
by all entries. -/
def commonPrefixLen (entries : List Entry) (depth : ℕ) : ℕ :=
  match entries with
  | [] => 0
  | (first, _) :: rest =>
    if depth ≤ first.length then
      (((first.drop depth).zipIdx depth).takeWhile fun (nibble, idx) =>
        rest.all fun (key, _) => key[idx]? == some nibble).length
    else 0

/-- The child ranges of a slice, `(child, start, end)` with `start` counted from `idx`: the
maximal runs of entries with one nibble at `node_depth`, the entries that end there skipped. -/
def childRangesFrom (nodeDepth : ℕ) (idx : ℕ) : List Entry → List (UInt8 × ℕ × ℕ)
  | [] => []
  | (key, _) :: rest =>
    if key.length = nodeDepth then childRangesFrom nodeDepth (idx + 1) rest
    else
      let child := key.getD nodeDepth 0
      let run := (rest.takeWhile fun (key, _) =>
        decide (key.length > nodeDepth) && key.getD nodeDepth 0 == child).length
      (child, idx, idx + 1 + run) :: childRangesFrom nodeDepth (idx + 1 + run) (rest.drop run)
termination_by entries => entries.length
decreasing_by all_goals simp only [List.length_cons, List.length_drop]; omega

def childRanges (entries : List Entry) (nodeDepth : ℕ) : List (UInt8 × ℕ × ℕ) :=
  childRangesFrom nodeDepth 0 entries

/-- `&entries[start..end]`. -/
def slice {ε : Type*} (l : List ε) (start stop : ℕ) : List ε := (l.drop start).take (stop - start)

/-- The value of the entry that ends at `node_depth`. -/
def valueAtDepth (entries : List Entry) (nodeDepth : ℕ) : Option Bytes :=
  (entries.find? fun (key, _) => key.length == nodeDepth).map fun (_, value) => value.merkleValue

/-- The child slots filled from the child hashes. -/
def childSlots (childHashes : List (UInt8 × H256)) : Vector H256 16 :=
  childHashes.foldl (fun children (child, hash) => children.setIfInBounds child.toNat hash)
    (Vector.replicate 16 merkleNullNode)

/-- `has_children`: some slot is not null. -/
def hasChildren (children : Vector H256 16) : Bool :=
  children.toList.any fun h => h != merkleNullNode

/-- `entries[0].0`. -/
def firstKey : List Entry → Bytes
  | [] => []  -- unreachable: a node has entries
  | (key, _) :: _ => key

/-- Fuel for a walk over the entries: more than the length of the longest key. -/
def walkFuel (entries : List Entry) : ℕ := (entries.map fun e => e.1.length).foldr max 0 + 1

theorem length_lt_walkFuel {entries : List Entry} {e : Entry} (he : e ∈ entries) :
    e.1.length < walkFuel entries := by
  rw [walkFuel, Nat.lt_succ_iff]
  induction entries with
  | nil => cases he
  | cons f entries ih =>
    rw [List.map_cons, List.foldr_cons]
    rcases List.mem_cons.mp he with rfl | he
    · exact Nat.le_max_left _ _
    · exact (ih he).trans (Nat.le_max_right _ _)

section Walk

variable (keccak : Bytes → H256)

/-- `compute_node_merkle`. -/
def computeNodeMerkle (childrenMerkles : Option (Vector H256 16)) (maybeValue : Option Bytes) :
    H256 :=
  keccak (nodeBuffer childrenMerkles maybeValue)

/-- `compute_path_merkle`. -/
def computePathMerkle (pathNibbles : Bytes) (startDepth : ℕ) (nodeMerkle : H256) : H256 :=
  if pathNibbles.isEmpty then nodeMerkle
  else keccak (pathBuffer pathNibbles startDepth nodeMerkle)

/-- `merkle_for_node`. A parallel map collects in order, so both branches map over the ranges;
only the `parallel` flag passed on differs. -/
def merkleForNode (threshold : ℕ) : ℕ → List Entry → ℕ → Bool → Bool → H256
  | 0, _, _, _, _ => merkleNullNode
  | fuel + 1, entries, depth, parallel, allowPathCompression =>
    let common := if allowPathCompression then commonPrefixLen entries depth else 0
    let nodeDepth := depth + common
    let maybeValue := valueAtDepth entries nodeDepth
    let ranges := childRanges entries nodeDepth
    let childHashes :=
      if parallel && decide (entries.length ≥ threshold) then
        ranges.map fun (child, start, stop) =>
          (child, merkleForNode threshold fuel (slice entries start stop) (nodeDepth + 1) true true)
      else
        ranges.map fun (child, start, stop) =>
          (child, merkleForNode threshold fuel (slice entries start stop) (nodeDepth + 1) false
            true)
    let children := childSlots childHashes
    let nodeHash :=
      computeNodeMerkle keccak (if hasChildren children then some children else none) maybeValue
    computePathMerkle keccak (slice (firstKey entries) depth nodeDepth) depth nodeHash

/-- `root_for_entries`, at any parallel threshold. -/
def rootForEntriesAt (threshold : ℕ) (entries : List Entry) : H256 :=
  if entries.isEmpty then merkleNullNode
  else
    merkleForNode keccak threshold (walkFuel entries) entries 0
      (decide (entries.length ≥ threshold)) false

/-- The nibble entries of a byte-keyed map. -/
def nibbleEntries (kv : ExtTreeMap Bytes MptValue) : List Entry :=
  kv.toList.map fun (k, v) => (bytesToNibbles k, v)

/-- `trie_root`, at any parallel threshold. -/
def trieRootAt (threshold : ℕ) (kv : ExtTreeMap Bytes MptValue) : H256 :=
  if kv.isEmpty then merkleNullNode
  else rootForEntriesAt keccak threshold (nibbleEntries kv)

/-- `trie_root`. -/
def trieRoot (kv : ExtTreeMap Bytes MptValue) : H256 :=
  trieRootAt keccak parallelHashThreshold kv

/-! ## The hashed strings -/

/-- The strings `merkle_for_node` hashes: those of the children, the node's buffer and, for a
non-empty path, the path's buffer. -/
def hashedForNode : ℕ → List Entry → ℕ → Bool → List Bytes
  | 0, _, _, _ => []
  | fuel + 1, entries, depth, allowPathCompression =>
    let common := if allowPathCompression then commonPrefixLen entries depth else 0
    let nodeDepth := depth + common
    let maybeValue := valueAtDepth entries nodeDepth
    let ranges := childRanges entries nodeDepth
    let children := childSlots (ranges.map fun (child, start, stop) =>
      (child, merkleForNode keccak parallelHashThreshold fuel (slice entries start stop)
        (nodeDepth + 1) false true))
    let buffer := nodeBuffer (if hasChildren children then some children else none) maybeValue
    let pathNibbles := slice (firstKey entries) depth nodeDepth
    (ranges.flatMap fun (_, start, stop) =>
      hashedForNode fuel (slice entries start stop) (nodeDepth + 1) true) ++
    buffer ::
      if pathNibbles.isEmpty then [] else [pathBuffer pathNibbles depth (keccak buffer)]

/-- The strings hashed while computing `trie_root`. -/
def hashedForRoot (kv : ExtTreeMap Bytes MptValue) : List Bytes :=
  if kv.isEmpty then []
  else hashedForNode keccak (walkFuel (nibbleEntries kv)) (nibbleEntries kv) 0 false

end Walk

end MinimalMpt
