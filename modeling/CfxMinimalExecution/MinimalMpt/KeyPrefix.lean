import CfxMinimalExecution.MinimalMpt.LogicalMap

/-!
# Prefix keys

A prefix operation scans the snapshot for the canonical encoding of its prefix key and the upper
layers for the delta encoding. For the prefix keys below both select the same storable keys: a
prefix key with an address hashes like the keys it is meant for, and an address prefix has the
empty delta encoding and is filtered on the canonical key instead.

## Main definitions

* `StorageKeyWithSpace.FieldPrefix`, `BytePrefix`, `PrefixKey`: the prefix keys
* `StorageKeyWithSpace.Matches`: the storable keys a prefix key is meant for; `Misses`: the keys
  it is not meant for

## Main results

* `rawKey_isPrefix_iff`: delta prefixes and canonical prefixes select the same keys
* `selects_iff`: what the scan of a layer and the address filter select
-/

namespace MinimalMpt

namespace StorageKeyWithSpace

/-- A prefix key made of whole fields: a full key that is not a storage entry. -/
def FieldPrefix (p : StorageKeyWithSpace) : Prop :=
  p.Full ∧ ∀ address storageKey, p.key ≠ .storage address storageKey

/-- A prefix key made of bytes, which match from the start of the address. -/
def BytePrefix (p : StorageKeyWithSpace) : Prop :=
  p.key = .empty ∨ ∃ bytes, p.key = .addressPrefix bytes

/-- The prefix keys. -/
def PrefixKey (p : StorageKeyWithSpace) : Prop := p.FieldPrefix ∨ p.BytePrefix

/-- The canonical encoding of `k` starts with that of `p`. -/
def Matches (p k : StorageKeyWithSpace) : Prop := p.canonical <+: k.canonical

instance (p k : StorageKeyWithSpace) : Decidable (p.Matches k) :=
  inferInstanceAs (Decidable (p.canonical <+: k.canonical))

/-- The canonical encoding of `q`, if it has one, does not start with that of `p`. -/
def Misses (p q : StorageKeyWithSpace) : Prop := ∀ c, q.toKeyBytes = .ok c → ¬ p.canonical <+: c

theorem accountKeyUncached_inj {keccak : Bytes → H256} {padding : DeltaMptKeyPadding}
    {address address' : Bytes} : accountKeyUncached keccak address padding =
      accountKeyUncached keccak address' padding ↔ address = address' := by
  constructor
  · intro h
    rw [← drop_accountKeyUncached keccak address padding, h, drop_accountKeyUncached]
  · rintro rfl
    rfl

/-- Suffixes without a space marker match behind markers when the spaces agree, or when a native
prefix ends where the marker of an eSpace key stands. -/
theorem marker_isPrefix_iff {space space' : Space} {rest rest' : Bytes} (hrest : Unmarked rest)
    (hrest' : Unmarked rest') : marker space ++ rest <+: marker space' ++ rest' ↔
      (space = space' ∧ rest <+: rest') ∨ (space = .native ∧ space' = .ethereum ∧ rest = []) := by
  have hne := hrest.getD_ne
  have hne' := hrest'.getD_ne
  cases space <;> cases space'
  · simp [marker]
  · cases rest with
    | nil => simp [marker]
    | cons x rest =>
      have hx : x ≠ evmSpaceType := hne
      simp [marker, hx]
  · cases rest' with
    | nil => simp [marker]
    | cons x rest' =>
      have hx : evmSpaceType ≠ x := Ne.symm hne'
      simp [marker, hx]
  · simp [marker]

/-- A suffix extends to the same delta and canonical suffixes, unless it is that of a storage entry:
the hash of a storage key follows the bytes that tell the kinds of keys apart. -/
theorem suffix_isPrefix_iff {key : StorageKey}
    (h : ∀ address storageKey, key ≠ .storage address storageKey) (keccak : Bytes → H256)
    (padding : DeltaMptKeyPadding) (key' : StorageKey) :
    suffix key <+: deltaSuffix keccak padding key' ↔ suffix key <+: suffix key' := by
  by_cases hkey : ∃ address storageKey, key' = .storage address storageKey
  · obtain ⟨address, storageKey, rfl⟩ := hkey
    cases key with
    | account bytes => simp [suffix]
    | storageRoot bytes => simp [suffix, deltaSuffix]
    | storage bytes storageKey => exact absurd rfl (h bytes storageKey)
    | codeRoot bytes => simp [suffix, deltaSuffix, storagePrefix, codeHashPrefix]
    | code bytes codeHash => simp [suffix, deltaSuffix, storagePrefix, codeHashPrefix]
    | depositList bytes => simp [suffix, deltaSuffix, storagePrefix, depositListPrefix]
    | voteList bytes => simp [suffix, deltaSuffix, storagePrefix, voteListPrefix]
    | empty => simp [suffix]
    | addressPrefix bytes => simp [suffix]
  · push Not at hkey
    rw [deltaSuffix_eq_suffix keccak padding hkey]

/-- Of the keys with a full address, delta prefixes and canonical prefixes select the same ones. -/
theorem rawKey_isPrefix_iff_of_address {p k : StorageKeyWithSpace}
    (haddress : (address p.key).length = accountBytes)
    (hp : ∀ address storageKey, p.key ≠ .storage address storageKey)
    (hk : (address k.key).length = accountBytes) (keccak : Bytes → H256)
    (padding : DeltaMptKeyPadding) :
    p.rawKey keccak padding <+: k.rawKey keccak padding ↔ p.Matches k := by
  have hlength : (address p.key).length = (address k.key).length := haddress.trans hk.symm
  unfold Matches
  rw [rawKey_of_deltaKey (deltaKey_of_address haddress keccak padding),
    rawKey_of_deltaKey (deltaKey_of_address hk keccak padding),
    canonical_of_toKeyBytes (toKeyBytes_of_address haddress),
    canonical_of_toKeyBytes (toKeyBytes_of_address hk),
    deltaSuffix_eq_suffix keccak padding hp,
    List.prefix_append_inj_of_length_eq (by simp [hlength]),
    List.prefix_append_inj_of_length_eq hlength,
    accountKeyUncached_inj,
    marker_isPrefix_iff (unmarked_suffix _) (unmarked_deltaSuffix keccak padding _),
    marker_isPrefix_iff (unmarked_suffix _) (unmarked_suffix _),
    suffix_isPrefix_iff hp keccak padding k.key]

/-- A key with a full address is no prefix of a short one, in either encoding. -/
theorem not_isPrefix_of_short {p : StorageKeyWithSpace}
    (haddress : (address p.key).length = accountBytes) {bytes : Bytes}
    (hlen : bytes.length < accountBytes) (keccak : Bytes → H256) (padding : DeltaMptKeyPadding) :
    ¬ p.rawKey keccak padding <+: bytes ∧ ¬ p.canonical <+: bytes := by
  rw [rawKey_of_deltaKey (deltaKey_of_address haddress keccak padding),
    canonical_of_toKeyBytes (toKeyBytes_of_address haddress)]
  constructor
  · intro h
    have hle := h.length_le
    rw [List.length_append, length_accountKeyUncached, haddress] at hle
    omega
  · intro h
    have hle := h.length_le
    rw [List.length_append, haddress] at hle
    omega

/-- **Delta prefixes and canonical prefixes select the same keys.** -/
theorem rawKey_isPrefix_iff {p k : StorageKeyWithSpace} (hp : p.FieldPrefix) (hk : k.Storable)
    (keccak : Bytes → H256) (padding : DeltaMptKeyPadding) :
    p.rawKey keccak padding <+: k.rawKey keccak padding ↔ p.Matches k := by
  rcases hk with hk | ⟨bytes, rfl, hlen⟩
  · exact rawKey_isPrefix_iff_of_address hp.1.address_length hp.2 hk.address_length keccak padding
  · unfold Matches
    rw [rawKey_of_deltaKey (deltaKey_of_short keccak hlen .native padding),
      canonical_of_toKeyBytes (toKeyBytes_of_short hlen .native)]
    obtain ⟨hraw, hcanonical⟩ := not_isPrefix_of_short hp.1.address_length hlen keccak padding
    exact ⟨fun h => absurd h hraw, fun h => absurd h hcanonical⟩

/-! ## What a scan selects -/

section Scan

variable {p k : StorageKeyWithSpace}

theorem BytePrefix.toKeyBytes_eq (h : p.BytePrefix) : p.toKeyBytes = .ok p.canonical := by
  obtain ⟨key, space⟩ := p
  rcases h with rfl | ⟨bytes, rfl⟩
  · rfl
  · rfl

theorem BytePrefix.deltaKey_eq (h : p.BytePrefix) (keccak : Bytes → H256)
    (padding : DeltaMptKeyPadding) : p.deltaKey keccak padding = .ok [] := by
  obtain ⟨key, space⟩ := p
  rcases h with rfl | ⟨bytes, rfl⟩
  · rfl
  · rfl

theorem PrefixKey.toKeyBytes_eq (h : p.PrefixKey) : p.toKeyBytes = .ok p.canonical := by
  rcases h with h | h
  · exact Storable.toKeyBytes_eq (Or.inl h.1)
  · exact h.toKeyBytes_eq

theorem PrefixKey.deltaKey_eq (h : p.PrefixKey) (keccak : Bytes → H256)
    (padding : DeltaMptKeyPadding) : p.deltaKey keccak padding = .ok (p.rawKey keccak padding) := by
  rcases h with h | h
  · exact Storable.deltaKey_eq (Or.inl h.1) keccak padding
  · rw [rawKey_of_deltaKey (h.deltaKey_eq keccak padding)]
    exact h.deltaKey_eq keccak padding

theorem FieldPrefix.addressPrefixFilter_eq (h : p.FieldPrefix) : addressPrefixFilter p = none := by
  obtain ⟨key, space⟩ := p
  cases key with
  | addressPrefix bytes => cases h.1
  | _ => rfl

/-- The address filter of a byte prefix keeps the keys it matches. -/
theorem BytePrefix.isFiltered_eq (h : p.BytePrefix) (c : Bytes) :
    isFiltered (addressPrefixFilter p) c = !decide (p.canonical <+: c) := by
  obtain ⟨key, space⟩ := p
  rcases h with rfl | ⟨bytes, rfl⟩
  · have hnil : canonical ⟨.empty, space⟩ = [] := rfl
    simp [hnil, addressPrefixFilter, isFiltered]
  · rfl

/-- **The scan of a layer and the address filter together select the keys that match.** -/
theorem selects_iff (hp : p.PrefixKey) (hk : k.Storable) (keccak : Bytes → H256)
    (padding : DeltaMptKeyPadding) :
    (p.rawKey keccak padding <+: k.rawKey keccak padding ∧
      isFiltered (addressPrefixFilter p) k.canonical = false) ↔ p.Matches k := by
  rcases hp with hp | hp
  · rw [rawKey_isPrefix_iff hp hk, hp.addressPrefixFilter_eq]
    exact and_iff_left rfl
  · rw [rawKey_of_deltaKey (hp.deltaKey_eq keccak padding), hp.isFiltered_eq]
    simp [Matches]

end Scan

end StorageKeyWithSpace

end MinimalMpt
