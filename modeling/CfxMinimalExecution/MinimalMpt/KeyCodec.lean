import CfxMinimalExecution.MinimalMpt.Nibbles

/-!
# Storage keys and their encodings

`key_codec.rs`: a storage key has a canonical encoding, under which the snapshot stores it, and a
delta encoding under a padding, under which the delta and the intermediate layer store it. A
cache of account key derivations, stamped with the padding it was filled for, is threaded through
the delta encoding.

## Main definitions

* `StorageKeyWithSpace.toKeyBytes`, `fromKeyBytes`: the canonical encoding
* `StorageKeyWithSpace.toDeltaMptKeyBytes`, `fromDeltaMptKey`: the delta encoding
* `AccountKeyCache`: the cache of account key derivations
-/

open Std (ExtTreeMap)

namespace MinimalMpt

/-- `ACCOUNT_BYTES`. -/
def accountBytes : ℕ := 20

/-- `ACCOUNT_KEYPART_BYTES`. -/
def accountKeypartBytes : ℕ := 32

/-- `ACCOUNT_PADDING_BYTES`. -/
def accountPaddingBytes : ℕ := 12

/-- `KEY_PADDING_BYTES`. -/
def keyPaddingBytes : ℕ := 32

/-- `EVM_SPACE_TYPE`. -/
def evmSpaceType : UInt8 := 0x81

/-- `STORAGE_PREFIX`, the bytes of `data`. -/
def storagePrefix : Bytes := [0x64, 0x61, 0x74, 0x61]

/-- `CODE_HASH_PREFIX`, the bytes of `code`. -/
def codeHashPrefix : Bytes := [0x63, 0x6f, 0x64, 0x65]

/-- `DEPOSIT_LIST_PREFIX`, the bytes of `deposit`. -/
def depositListPrefix : Bytes := [0x64, 0x65, 0x70, 0x6f, 0x73, 0x69, 0x74]

/-- `VOTE_LIST_PREFIX`, the bytes of `vote`. -/
def voteListPrefix : Bytes := [0x76, 0x6f, 0x74, 0x65]

inductive StorageKey
  | account (address : Bytes)
  | storageRoot (address : Bytes)
  | storage (address storageKey : Bytes)
  | codeRoot (address : Bytes)
  | code (address codeHash : Bytes)
  | depositList (address : Bytes)
  | voteList (address : Bytes)
  | empty
  | addressPrefix (bytes : Bytes)
deriving DecidableEq

structure StorageKeyWithSpace where
  key : StorageKey
  space : Space
deriving DecidableEq

/-- `DeltaMptKeyPadding`, 32 bytes. -/
abbrev DeltaMptKeyPadding := H256

/-- `checked_address`. -/
def checkedAddress (address : Bytes) : Except Error Bytes :=
  if address.length = accountBytes then .ok address
  else .error (.invalidKey "address must be 20 bytes")

/-- `add_space_to_snapshot_key`. -/
def addSpaceToSnapshotKey (key : Bytes) (space : Space) : Bytes :=
  if space = .ethereum then key.take accountBytes ++ evmSpaceType :: key.drop accountBytes else key

/-- `add_space_to_delta_key`. -/
def addSpaceToDeltaKey (key : Bytes) (space : Space) : Bytes :=
  if space = .ethereum then
    key.take accountKeypartBytes ++ evmSpaceType :: key.drop accountKeypartBytes
  else key

section Padding

variable (keccak : Bytes → H256)

/-- `DeltaMptKeyPadding::from_roots`. -/
def DeltaMptKeyPadding.fromRoots (snapshotRoot intermediateDeltaRoot : H256) :
    DeltaMptKeyPadding :=
  keccak (snapshotRoot.asBytes ++ intermediateDeltaRoot.asBytes)

/-- `DeltaMptKeyPadding::genesis`. -/
def DeltaMptKeyPadding.genesis : DeltaMptKeyPadding :=
  DeltaMptKeyPadding.fromRoots keccak merkleNullNode merkleNullNode

/-- The cache of account keys; `built_for` is the padding its entries were derived with. -/
structure AccountKeyCache where
  builtFor : DeltaMptKeyPadding
  map : ExtTreeMap Bytes Bytes

/-- `AccountKeyCache::default`. -/
def AccountKeyCache.default : AccountKeyCache := ⟨DeltaMptKeyPadding.genesis keccak, ∅⟩

/-- `account_key_uncached`. -/
def accountKeyUncached (address : Bytes) (padding : DeltaMptKeyPadding) : Bytes :=
  (keccak (padding.asBytes.take accountPaddingBytes ++ address)).asBytes.take accountPaddingBytes
    ++ address

/-- `new_account_key`. -/
def newAccountKey (address : Bytes) (padding : DeltaMptKeyPadding) :
    Option AccountKeyCache → Bytes × Option AccountKeyCache
  | none => (accountKeyUncached keccak address padding, none)
  | some cache =>
    let cache := if cache.builtFor ≠ padding then ⟨padding, ∅⟩ else cache
    match cache.map[address]? with
    | some hit => (hit, some cache)
    | none =>
      let key := accountKeyUncached keccak address padding
      (key, some { cache with map := cache.map.insert address key })

/-- `storage_key_padding`. -/
def storageKeyPadding (storageKey : Bytes) (padding : DeltaMptKeyPadding) : DeltaMptKeyPadding :=
  keccak (padding.asBytes ++ storageKey)

end Padding

namespace StorageKeyWithSpace

def native (key : StorageKey) : StorageKeyWithSpace := ⟨key, .native⟩

def ethereum (key : StorageKey) : StorageKeyWithSpace := ⟨key, .ethereum⟩

/-- A key of `to_key_bytes` after its `append_prefix` calls. -/
def snapshotKey (address suffix : Bytes) (space : Space) : Except Error Bytes :=
  (checkedAddress address).map fun address => addSpaceToSnapshotKey (address ++ suffix) space

/-- `to_key_bytes`. -/
def toKeyBytes (k : StorageKeyWithSpace) : Except Error Bytes :=
  match k.key with
  | .account address =>
    if address.length < accountBytes then .ok address  -- no space marker
    else snapshotKey address [] k.space
  | .storageRoot address => snapshotKey address storagePrefix k.space
  | .storage address storageKey => snapshotKey address (storagePrefix ++ storageKey) k.space
  | .codeRoot address => snapshotKey address codeHashPrefix k.space
  | .code address codeHash => snapshotKey address (codeHashPrefix ++ codeHash) k.space
  | .depositList address => snapshotKey address depositListPrefix k.space
  | .voteList address => snapshotKey address voteListPrefix k.space
  | .empty => .ok []
  | .addressPrefix bytes => .ok bytes

/-- A key of `to_delta_mpt_key_bytes` after its `extend_from_slice` calls. The address is checked
before the cache is touched. -/
def deltaMptKey (keccak : Bytes → H256) (address suffix : Bytes) (space : Space)
    (padding : DeltaMptKeyPadding) (cache : Option AccountKeyCache) :
    Except Error Bytes × Option AccountKeyCache :=
  match checkedAddress address with
  | .error e => (.error e, cache)
  | .ok address =>
    let (key, cache) := newAccountKey keccak address padding cache
    (.ok (addSpaceToDeltaKey (key ++ suffix) space), cache)

/-- `to_delta_mpt_key_bytes`. -/
def toDeltaMptKeyBytes (keccak : Bytes → H256) (k : StorageKeyWithSpace)
    (padding : DeltaMptKeyPadding) (cache : Option AccountKeyCache) :
    Except Error Bytes × Option AccountKeyCache :=
  match k.key with
  | .account address =>
    if address.length < accountBytes then (.ok address, cache)
    else deltaMptKey keccak address [] k.space padding cache
  | .storageRoot address => deltaMptKey keccak address storagePrefix k.space padding cache
  | .storage address storageKey =>
    let hashed := (storageKeyPadding keccak storageKey padding).asBytes.drop storagePrefix.length
    deltaMptKey keccak address (storagePrefix ++ hashed ++ storageKey) k.space padding cache
  | .codeRoot address => deltaMptKey keccak address codeHashPrefix k.space padding cache
  | .code address codeHash =>
    deltaMptKey keccak address (codeHashPrefix ++ codeHash) k.space padding cache
  | .depositList address => deltaMptKey keccak address depositListPrefix k.space padding cache
  | .voteList address => deltaMptKey keccak address voteListPrefix k.space padding cache
  | .empty | .addressPrefix _ => (.ok [], cache)

/-- The end of `from_delta_mpt_key`: what follows the account key and the space marker. -/
def fromDeltaSuffix (address : Bytes) (space : Space) (rest : Bytes) :
    Except Error StorageKeyWithSpace :=
  if storagePrefix <+: rest then
    if rest.length = storagePrefix.length then .ok ⟨.storageRoot address, space⟩
    else if rest.length < keyPaddingBytes then
      .error (.invalidKey "storage delta key missing padded storage key")
    else .ok ⟨.storage address (rest.drop keyPaddingBytes), space⟩
  else if codeHashPrefix <+: rest then
    let codeHash := rest.drop codeHashPrefix.length
    if codeHash = [] then .ok ⟨.codeRoot address, space⟩
    else .ok ⟨.code address codeHash, space⟩
  else if depositListPrefix <+: rest then .ok ⟨.depositList address, space⟩
  else if voteListPrefix <+: rest then .ok ⟨.voteList address, space⟩
  else .error (.invalidKey "unknown delta key suffix")

/-- `from_delta_mpt_key`. -/
def fromDeltaMptKey (raw : Bytes) : Except Error StorageKeyWithSpace :=
  if raw.length < accountKeypartBytes then .ok (native (.account raw))
  else
    let address := (raw.drop accountPaddingBytes).take (accountKeypartBytes - accountPaddingBytes)
    let marker := raw.getD accountKeypartBytes 0
    if raw.length = accountKeypartBytes then .ok (native (.account address))
    else if raw.length = accountKeypartBytes + 1 ∧ marker = evmSpaceType then
      .ok (ethereum (.account address))
    else if marker &&& 0x80 ≠ 0 then
      if marker ≠ evmSpaceType then .error (.invalidKey "unknown delta space marker")
      else fromDeltaSuffix address .ethereum (raw.drop (accountKeypartBytes + 1))
    else fromDeltaSuffix address .native (raw.drop accountKeypartBytes)

/-- The end of `from_key_bytes`: what follows the address and the space marker. -/
def fromSnapshotSuffix (address : Bytes) (space : Space) (rest : Bytes) :
    Except Error StorageKeyWithSpace :=
  if rest = [] then .ok ⟨.account address, space⟩
  else if storagePrefix <+: rest then
    let suffix := rest.drop storagePrefix.length
    if suffix = [] then .ok ⟨.storageRoot address, space⟩
    else .ok ⟨.storage address suffix, space⟩
  else if codeHashPrefix <+: rest then
    let suffix := rest.drop codeHashPrefix.length
    if suffix = [] then .ok ⟨.codeRoot address, space⟩
    else .ok ⟨.code address suffix, space⟩
  else if rest = depositListPrefix then .ok ⟨.depositList address, space⟩
  else if rest = voteListPrefix then .ok ⟨.voteList address, space⟩
  else .error (.invalidKey "unknown snapshot key suffix")

/-- `from_key_bytes`. -/
def fromKeyBytes (raw : Bytes) : Except Error StorageKeyWithSpace :=
  if raw = [] then .ok (native .empty)
  else if raw.length < accountBytes then .ok (native (.addressPrefix raw))
  else if raw.length > accountBytes ∧ raw.getD accountBytes 0 = evmSpaceType then
    fromSnapshotSuffix (raw.take accountBytes) .ethereum (raw.drop (accountBytes + 1))
  else fromSnapshotSuffix (raw.take accountBytes) .native (raw.drop accountBytes)

end StorageKeyWithSpace

end MinimalMpt
