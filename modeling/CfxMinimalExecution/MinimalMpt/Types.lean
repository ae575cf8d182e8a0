import CfxMinimalExecution.Library.Keccak

/-!
# The types of the trie crate

The hash constants, key spaces, errors and commit roots of `types.rs`. The hash is the parameter
`keccak` of every definition that hashes; `keccak256` is the function the crate uses.

## Main definitions

* `merkleNullNode`: the root of the empty trie
* `CommitRoot.new`: the roots of one commit and the hash of their concatenation
-/

namespace MinimalMpt

/-- `MERKLE_NULL_NODE`. -/
def merkleNullNode : H256 :=
  ⟨#v[0xc5, 0xd2, 0x46, 0x01, 0x86, 0xf7, 0x23, 0x3c, 0x92, 0x7e, 0x7d, 0xb2, 0xdc, 0xc7, 0x03,
    0xc0, 0xe5, 0x00, 0xb6, 0x53, 0xca, 0x82, 0x27, 0x3b, 0x7b, 0xfa, 0xd8, 0x04, 0x5d, 0x85,
    0xa4, 0x70]⟩

/-- The null node is the hash of the empty string. -/
theorem keccak256_nil : keccak256 [] = merkleNullNode := by decide +kernel

inductive Space
  | native
  | ethereum
deriving DecidableEq

/-- `MptKeyValue`. -/
abbrev MptKeyValue := Bytes × Bytes

structure CommitRoot where
  snapshotRoot : H256
  intermediateDeltaRoot : H256
  deltaRoot : H256
  stateRootHash : H256
  deltaMptKeyPadding : H256
deriving DecidableEq

/-- `CommitRoot::new`. -/
def CommitRoot.new (keccak : Bytes → H256)
    (snapshotRoot intermediateDeltaRoot deltaRoot deltaMptKeyPadding : H256) : CommitRoot where
  snapshotRoot := snapshotRoot
  intermediateDeltaRoot := intermediateDeltaRoot
  deltaRoot := deltaRoot
  stateRootHash :=
    keccak (snapshotRoot.asBytes ++ intermediateDeltaRoot.asBytes ++ deltaRoot.asBytes)
  deltaMptKeyPadding := deltaMptKeyPadding

/-- The errors of the crate; an I/O or a codec error carries the text of the failing layer. -/
inductive Error
  | invalidKey (msg : String)
  | io (e : String)
  | codec (e : String)
deriving DecidableEq

end MinimalMpt
