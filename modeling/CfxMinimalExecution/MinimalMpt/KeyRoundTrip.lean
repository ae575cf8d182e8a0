import CfxMinimalExecution.MinimalMpt.KeyCodec

/-!
# Keys and their encodings agree

A storable key is recovered from its canonical encoding and from its delta encoding under any
padding, so both encodings are injective on storable keys. Any other key that has a delta
encoding is decoded to a key with the same canonical encoding, the address prefixes apart.

## Main definitions

* `StorageKeyWithSpace.Full`, `StorageKeyWithSpace.Storable`: the keys a state is used with
* `StorageKeyWithSpace.deltaKey`: the delta encoding without a cache
* `AccountKeyCache.Valid`: a cache that holds derivations of its own padding

## Main results

* `toDeltaMptKeyBytes_spec`: a valid cache does not change the encoding
* `fromDeltaMptKey_deltaKey`: what a delta encoding decodes to
* `canonical_injective`, `rawKey_injective`: both encodings tell storable keys apart
-/

open Std (ExtTreeMap)

namespace MinimalMpt

/-! ## The cache of account keys -/

section Cache

variable (keccak : Bytes → H256)

/-- Every entry is the derivation under the padding of the stamp. -/
def AccountKeyCache.Valid (cache : AccountKeyCache) : Prop :=
  ∀ address key : Bytes, cache.map[address]? = some key →
    key = accountKeyUncached keccak address cache.builtFor

theorem AccountKeyCache.valid_empty (padding : DeltaMptKeyPadding) :
    AccountKeyCache.Valid keccak ⟨padding, ∅⟩ := by
  intro address key h
  simp at h

theorem AccountKeyCache.valid_default :
    (AccountKeyCache.default keccak).Valid keccak :=
  AccountKeyCache.valid_empty keccak _

variable {keccak} in
theorem AccountKeyCache.valid_some {cache : AccountKeyCache} (h : cache.Valid keccak) :
    ∀ c ∈ some cache, c.Valid keccak := by
  intro c hc
  rwa [← Option.some.inj hc]

variable {keccak} in
theorem AccountKeyCache.valid_getD {cache : AccountKeyCache} {cache' : Option AccountKeyCache}
    (h : cache.Valid keccak) (h' : ∀ c ∈ cache', c.Valid keccak) :
    (cache'.getD cache).Valid keccak := by
  cases cache' with
  | none => exact h
  | some c => exact h' c rfl

/-- A cache whose stamp differs from the padding is emptied, so that every hit is a derivation
under the padding. -/
theorem newAccountKey_spec (address : Bytes) (padding : DeltaMptKeyPadding)
    {cache : Option AccountKeyCache} (hcache : ∀ c ∈ cache, c.Valid keccak) :
    (newAccountKey keccak address padding cache).1 = accountKeyUncached keccak address padding ∧
    ∀ c ∈ (newAccountKey keccak address padding cache).2, c.Valid keccak := by
  rcases cache with _ | cache
  · exact ⟨rfl, by simp [newAccountKey]⟩
  · unfold newAccountKey
    -- the stamped cache is valid and stamped with the padding
    obtain ⟨stamped, hstamped, hvalid, hstamp⟩ : ∃ stamped : AccountKeyCache,
        (if cache.builtFor ≠ padding then ⟨padding, ∅⟩ else cache) = stamped ∧
        stamped.Valid keccak ∧ stamped.builtFor = padding := by
      refine ⟨_, rfl, ?_⟩
      split
      · exact ⟨AccountKeyCache.valid_empty keccak padding, rfl⟩
      · next h => exact ⟨hcache cache rfl, not_not.mp h⟩
    simp only [hstamped]
    split
    · next hit hget =>
      refine ⟨?_, by simpa using hvalid⟩
      rw [hvalid address hit hget, hstamp]
    · refine ⟨rfl, ?_⟩
      intro c hc
      obtain rfl := Option.some.inj hc
      intro address' key hget
      rw [getElem?_insert_eq] at hget
      split at hget
      · next heq => rw [← Option.some.inj hget, ← heq, hstamp]
      · exact hvalid address' key hget

end Cache

namespace StorageKeyWithSpace

section DeltaKey

variable (keccak : Bytes → H256)

/-- The delta encoding without a cache. -/
def deltaKey (k : StorageKeyWithSpace) (padding : DeltaMptKeyPadding) : Except Error Bytes :=
  (k.toDeltaMptKeyBytes keccak padding none).1

theorem deltaMptKey_spec (address suffix : Bytes) (space : Space) (padding : DeltaMptKeyPadding)
    {cache : Option AccountKeyCache} (hcache : ∀ c ∈ cache, c.Valid keccak) :
    (deltaMptKey keccak address suffix space padding cache).1 =
      (deltaMptKey keccak address suffix space padding none).1 ∧
    ∀ c ∈ (deltaMptKey keccak address suffix space padding cache).2, c.Valid keccak := by
  unfold deltaMptKey
  cases checkedAddress address with
  | error e => exact ⟨rfl, hcache⟩
  | ok address =>
    obtain ⟨hkey, hvalid⟩ := newAccountKey_spec keccak address padding hcache
    refine ⟨?_, hvalid⟩
    simp only [hkey]
    rfl

/-- A valid cache does not change the encoding, and stays valid. -/
theorem toDeltaMptKeyBytes_spec (k : StorageKeyWithSpace) (padding : DeltaMptKeyPadding)
    {cache : Option AccountKeyCache} (hcache : ∀ c ∈ cache, c.Valid keccak) :
    (k.toDeltaMptKeyBytes keccak padding cache).1 = k.deltaKey keccak padding ∧
    ∀ c ∈ (k.toDeltaMptKeyBytes keccak padding cache).2, c.Valid keccak := by
  unfold deltaKey toDeltaMptKeyBytes
  cases k.key with
  | account address =>
    by_cases h : address.length < accountBytes
    · simp only [if_pos h, true_and]
      exact hcache
    · simp only [if_neg h]
      exact deltaMptKey_spec keccak address [] k.space padding hcache
  | storageRoot address => exact deltaMptKey_spec keccak address _ k.space padding hcache
  | storage address storageKey => exact deltaMptKey_spec keccak address _ k.space padding hcache
  | codeRoot address => exact deltaMptKey_spec keccak address _ k.space padding hcache
  | code address codeHash => exact deltaMptKey_spec keccak address _ k.space padding hcache
  | depositList address => exact deltaMptKey_spec keccak address _ k.space padding hcache
  | voteList address => exact deltaMptKey_spec keccak address _ k.space padding hcache
  | empty => exact ⟨rfl, hcache⟩
  | addressPrefix bytes => exact ⟨rfl, hcache⟩

/-- Whether a key has a delta encoding does not depend on the padding. -/
theorem deltaKey_eq_error {k : StorageKeyWithSpace} {padding : DeltaMptKeyPadding} {e : Error}
    (h : k.deltaKey keccak padding = .error e) (padding' : DeltaMptKeyPadding) :
    k.deltaKey keccak padding' = .error e := by
  have hunchecked : ∀ (bytes rest rest' : Bytes) (space : Space),
      (deltaMptKey keccak bytes rest space padding none).1 = .error e →
      (deltaMptKey keccak bytes rest' space padding' none).1 = .error e := by
    intro bytes rest rest' space herror
    unfold deltaMptKey at herror ⊢
    cases hchecked : checkedAddress bytes with
    | error e' =>
      rw [hchecked] at herror
      exact herror
    | ok address =>
      rw [hchecked] at herror
      cases herror
  obtain ⟨key, space⟩ := k
  unfold deltaKey toDeltaMptKeyBytes at h ⊢
  cases key with
  | account bytes =>
    by_cases hlen : bytes.length < accountBytes
    · simp only [if_pos hlen] at h
      cases h
    · simp only [if_neg hlen] at h ⊢
      exact hunchecked bytes [] [] space h
  | empty => cases h
  | addressPrefix bytes => cases h
  | _ => exact hunchecked _ _ _ space h

end DeltaKey

/-! ## The parts of an encoding -/

/-- What follows the account part in the canonical encoding. -/
def suffix : StorageKey → Bytes
  | .storageRoot _ => storagePrefix
  | .storage _ storageKey => storagePrefix ++ storageKey
  | .codeRoot _ => codeHashPrefix
  | .code _ codeHash => codeHashPrefix ++ codeHash
  | .depositList _ => depositListPrefix
  | .voteList _ => voteListPrefix
  | .account _ | .empty | .addressPrefix _ => []

/-- What follows the account part in the delta encoding. -/
def deltaSuffix (keccak : Bytes → H256) (padding : DeltaMptKeyPadding) : StorageKey → Bytes
  | .storage _ storageKey =>
    storagePrefix ++ (storageKeyPadding keccak storageKey padding).asBytes.drop storagePrefix.length
      ++ storageKey
  | key => suffix key

/-- The address of a key. -/
def address : StorageKey → Bytes
  | .account address | .storageRoot address | .storage address _ | .codeRoot address
  | .code address _ | .depositList address | .voteList address => address
  | .empty | .addressPrefix _ => []

/-- The byte that marks the space, if any. -/
def marker : Space → Bytes
  | .native => []
  | .ethereum => [evmSpaceType]

/-- A suffix that cannot be mistaken for a space marker. -/
def Unmarked (rest : Bytes) : Prop := rest.getD 0 0 &&& 0x80 = 0

theorem unmarked_suffix (key : StorageKey) : Unmarked (suffix key) := by
  unfold Unmarked
  cases key with
  | account address => simp [suffix]
  | storageRoot address => show (0x64 : UInt8) &&& 0x80 = 0; decide
  | storage address storageKey => show (0x64 : UInt8) &&& 0x80 = 0; decide
  | codeRoot address => show (0x63 : UInt8) &&& 0x80 = 0; decide
  | code address codeHash => show (0x63 : UInt8) &&& 0x80 = 0; decide
  | depositList address => show (0x64 : UInt8) &&& 0x80 = 0; decide
  | voteList address => show (0x76 : UInt8) &&& 0x80 = 0; decide
  | empty => simp [suffix]
  | addressPrefix bytes => simp [suffix]

/-- The two suffixes differ for storage entries only. -/
theorem deltaSuffix_eq_suffix (keccak : Bytes → H256) (padding : DeltaMptKeyPadding)
    {key : StorageKey} (h : ∀ address storageKey, key ≠ .storage address storageKey) :
    deltaSuffix keccak padding key = suffix key := by
  cases key with
  | storage address storageKey => exact absurd rfl (h address storageKey)
  | _ => rfl

theorem unmarked_deltaSuffix (keccak : Bytes → H256) (padding : DeltaMptKeyPadding)
    (key : StorageKey) : Unmarked (deltaSuffix keccak padding key) := by
  by_cases h : ∃ address storageKey, key = .storage address storageKey
  · obtain ⟨address, storageKey, rfl⟩ := h
    show (0x64 : UInt8) &&& 0x80 = 0
    decide
  · push Not at h
    rw [deltaSuffix_eq_suffix keccak padding h]
    exact unmarked_suffix key

theorem Unmarked.getD_ne {rest : Bytes} (h : Unmarked rest) : rest.getD 0 0 ≠ evmSpaceType := by
  intro heq
  rw [Unmarked, heq] at h
  exact absurd h (by decide)

@[simp] theorem length_accountKeyUncached (keccak : Bytes → H256) (address : Bytes)
    (padding : DeltaMptKeyPadding) :
    (accountKeyUncached keccak address padding).length = accountPaddingBytes + address.length := by
  simp [accountKeyUncached, accountPaddingBytes]

theorem drop_accountKeyUncached (keccak : Bytes → H256) (address : Bytes)
    (padding : DeltaMptKeyPadding) :
    (accountKeyUncached keccak address padding).drop accountPaddingBytes = address := by
  unfold accountKeyUncached
  exact List.drop_left' (by simp [accountPaddingBytes])

theorem checkedAddress_of_length {address : Bytes} (h : address.length = accountBytes) :
    checkedAddress address = .ok address :=
  if_pos h

theorem snapshotKey_of_length {address : Bytes} (h : address.length = accountBytes)
    (rest : Bytes) (space : Space) :
    snapshotKey address rest space = .ok (address ++ (marker space ++ rest)) := by
  unfold snapshotKey
  rw [checkedAddress_of_length h, Except.map]
  refine congrArg Except.ok ?_
  cases space with
  | native => rfl
  | ethereum =>
    unfold addSpaceToSnapshotKey
    rw [if_pos rfl, List.take_left' h, List.drop_left' h]
    rfl

theorem deltaMptKey_of_length (keccak : Bytes → H256) {address : Bytes}
    (h : address.length = accountBytes) (rest : Bytes) (space : Space)
    (padding : DeltaMptKeyPadding) :
    (deltaMptKey keccak address rest space padding none).1 =
      .ok (accountKeyUncached keccak address padding ++ (marker space ++ rest)) := by
  unfold deltaMptKey
  rw [checkedAddress_of_length h]
  refine congrArg Except.ok ?_
  have hlen : (accountKeyUncached keccak address padding).length = accountKeypartBytes := by
    rw [length_accountKeyUncached, h]
    rfl
  cases space with
  | native => rfl
  | ethereum =>
    unfold addSpaceToDeltaKey
    rw [if_pos rfl, newAccountKey, List.take_left' hlen, List.drop_left' hlen]
    rfl

/-! ## Decoding -/

/-- A delta encoding is decoded along its parts. -/
theorem fromDeltaMptKey_append {part : Bytes} (hpart : part.length = accountKeypartBytes)
    (space : Space) {rest : Bytes} (hrest : Unmarked rest) :
    fromDeltaMptKey (part ++ (marker space ++ rest)) =
      if rest = [] then .ok ⟨.account (part.drop accountPaddingBytes), space⟩
      else fromDeltaSuffix (part.drop accountPaddingBytes) space rest := by
  -- the address and the marker stand at fixed places
  have haddress : ((part ++ (marker space ++ rest)).drop accountPaddingBytes).take
      (accountKeypartBytes - accountPaddingBytes) = part.drop accountPaddingBytes := by
    rw [List.drop_append_of_le_length (by rw [hpart]; decide)]
    exact List.take_left' (by rw [List.length_drop, hpart])
  have hmarker : (part ++ (marker space ++ rest)).getD accountKeypartBytes 0 =
      (marker space ++ rest).getD 0 0 := by
    rw [List.getD_append_right _ _ _ _ hpart.le, hpart, Nat.sub_self]
  have hlength : (part ++ (marker space ++ rest)).length =
      accountKeypartBytes + (marker space ++ rest).length := by
    rw [List.length_append, hpart]
  unfold fromDeltaMptKey
  dsimp only
  rw [if_neg (by omega), haddress, hmarker, hlength]
  -- without a marker, the rest follows the address
  cases space with
  | native =>
    have hdrop : (part ++ (marker .native ++ rest)).drop accountKeypartBytes = rest :=
      List.drop_left' hpart
    have hgetD : (marker .native ++ rest).getD 0 0 = rest.getD 0 0 := rfl
    have hzero : ¬ rest.getD 0 0 &&& 0x80 ≠ 0 := not_not.mpr hrest
    have hmark : ¬ (accountKeypartBytes + (marker .native ++ rest).length =
        accountKeypartBytes + 1 ∧ rest.getD 0 0 = evmSpaceType) := fun h => hrest.getD_ne h.2
    rw [hgetD, if_neg hmark, if_neg hzero, hdrop]
    refine if_congr ?_ rfl rfl
    rw [Nat.add_eq_left, List.length_eq_zero_iff]
    rfl
  -- with the marker, the rest follows one byte later
  | ethereum =>
    have hdrop : (part ++ (marker .ethereum ++ rest)).drop (accountKeypartBytes + 1) = rest := by
      rw [← List.drop_drop, List.drop_left' hpart]
      rfl
    have hgetD : (marker .ethereum ++ rest).getD 0 0 = evmSpaceType := rfl
    have hlen : (marker .ethereum ++ rest).length = rest.length + 1 := rfl
    have hneq : ¬ accountKeypartBytes + (rest.length + 1) = accountKeypartBytes := by omega
    rw [hgetD, hlen, if_neg hneq, if_pos (show evmSpaceType &&& 0x80 ≠ 0 by decide),
      if_neg (not_not.mpr rfl), hdrop]
    refine if_congr ?_ rfl rfl
    rw [and_iff_left rfl, ← List.length_eq_zero_iff]
    omega

/-- A canonical encoding is decoded along its parts. -/
theorem fromKeyBytes_append {part : Bytes} (hpart : part.length = accountBytes) (space : Space)
    {rest : Bytes} (hrest : Unmarked rest) :
    fromKeyBytes (part ++ (marker space ++ rest)) = fromSnapshotSuffix part space rest := by
  have hmarker : (part ++ (marker space ++ rest)).getD accountBytes 0 =
      (marker space ++ rest).getD 0 0 := by
    rw [List.getD_append_right _ _ _ _ hpart.le, hpart, Nat.sub_self]
  have hlength : (part ++ (marker space ++ rest)).length =
      accountBytes + (marker space ++ rest).length := by
    rw [List.length_append, hpart]
  have hne : part ++ (marker space ++ rest) ≠ [] := by
    refine List.ne_nil_of_length_pos ?_
    rw [hlength]
    exact Nat.add_pos_left (by decide) _
  unfold fromKeyBytes
  rw [if_neg hne, if_neg (by omega), hmarker, List.take_left' hpart]
  cases space with
  | native =>
    rw [if_neg fun h => hrest.getD_ne h.2, List.drop_left' hpart]
    rfl
  | ethereum =>
    have hdrop : (part ++ (marker .ethereum ++ rest)).drop (accountBytes + 1) = rest := by
      rw [← List.drop_drop, List.drop_left' hpart]
      rfl
    rw [hlength, if_pos ⟨Nat.lt_add_of_pos_right (Nat.succ_pos _), rfl⟩, hdrop]

/-! ## Storable keys -/

/-- A 20-byte address and a non-empty storage key or code hash. -/
def Full (k : StorageKeyWithSpace) : Prop :=
  match k.key with
  | .account address | .storageRoot address | .codeRoot address | .depositList address
  | .voteList address => address.length = accountBytes
  | .storage address rest | .code address rest => address.length = accountBytes ∧ rest ≠ []
  | .empty | .addressPrefix _ => False

/-- Native accounts with a short address, which both encodings leave as it is. -/
def Short (k : StorageKeyWithSpace) : Prop :=
  ∃ bytes : Bytes, k = ⟨.account bytes, .native⟩ ∧ bytes.length < accountBytes

/-- The keys a state is used with. -/
def Storable (k : StorageKeyWithSpace) : Prop := k.Full ∨ k.Short

theorem Full.address_length {k : StorageKeyWithSpace} (h : k.Full) :
    (address k.key).length = accountBytes := by
  obtain ⟨key, space⟩ := k
  cases key with
  | storage address storageKey => exact h.1
  | code address codeHash => exact h.1
  | empty => cases h
  | addressPrefix bytes => cases h
  | _ => exact h

section Encodings

variable {k : StorageKeyWithSpace}

theorem toKeyBytes_of_address (h : (address k.key).length = accountBytes) :
    k.toKeyBytes = .ok (address k.key ++ (marker k.space ++ suffix k.key)) := by
  obtain ⟨key, space⟩ := k
  cases key with
  | account address =>
    unfold toKeyBytes
    exact (if_neg (Nat.not_lt.mpr h.ge)).trans (snapshotKey_of_length h [] space)
  | empty => cases h
  | addressPrefix bytes => cases h
  | _ => exact snapshotKey_of_length h _ space

theorem deltaKey_of_address (h : (address k.key).length = accountBytes) (keccak : Bytes → H256)
    (padding : DeltaMptKeyPadding) :
    k.deltaKey keccak padding = .ok (accountKeyUncached keccak (address k.key) padding ++
      (marker k.space ++ deltaSuffix keccak padding k.key)) := by
  obtain ⟨key, space⟩ := k
  cases key with
  | account address =>
    unfold deltaKey toDeltaMptKeyBytes
    exact (congrArg Prod.fst (if_neg (Nat.not_lt.mpr h.ge))).trans
      (deltaMptKey_of_length keccak h [] space padding)
  | empty => cases h
  | addressPrefix bytes => cases h
  | _ => exact deltaMptKey_of_length keccak h _ space padding

theorem toKeyBytes_of_short {bytes : Bytes} (h : bytes.length < accountBytes) (space : Space) :
    toKeyBytes ⟨.account bytes, space⟩ = .ok bytes :=
  if_pos h

theorem deltaKey_of_short (keccak : Bytes → H256) {bytes : Bytes}
    (h : bytes.length < accountBytes) (space : Space) (padding : DeltaMptKeyPadding) :
    deltaKey keccak ⟨.account bytes, space⟩ padding = .ok bytes :=
  congrArg Prod.fst (if_pos h)

end Encodings

/-- The key that the delta encoding of `k` stands for. -/
def normalize (k : StorageKeyWithSpace) : StorageKeyWithSpace :=
  match k.key with
  | .account bytes => if bytes.length < accountBytes then native (.account bytes) else k
  | .code address codeHash => if codeHash = [] then ⟨.codeRoot address, k.space⟩ else k
  | .empty | .addressPrefix _ => native (.account [])
  | .storageRoot _ | .storage _ _ | .codeRoot _ | .depositList _ | .voteList _ => k

theorem Storable.normalize_eq {k : StorageKeyWithSpace} (h : k.Storable) : k.normalize = k := by
  rcases h with h | ⟨bytes, rfl, hlen⟩
  · obtain ⟨key, space⟩ := k
    cases key with
    | account address => exact if_neg (Nat.not_lt.mpr (show address.length = _ from h).ge)
    | code address codeHash => exact if_neg h.2
    | empty => cases h
    | addressPrefix bytes => cases h
    | _ => rfl
  · exact if_pos hlen

section Decoding

variable (keccak : Bytes → H256) {k : StorageKeyWithSpace}

/-- A key has a delta encoding if its address has 20 bytes, if it is a short account, or if it is
an address prefix, whose delta encoding is empty. -/
theorem deltaKey_cases {padding : DeltaMptKeyPadding} {raw : Bytes}
    (h : k.deltaKey keccak padding = .ok raw) :
    (address k.key).length = accountBytes ∨
    (∃ bytes space, k = ⟨.account bytes, space⟩ ∧ bytes.length < accountBytes ∧ raw = bytes) ∨
    ((∃ space, k = ⟨.empty, space⟩ ∨ ∃ bytes, k = ⟨.addressPrefix bytes, space⟩) ∧ raw = []) := by
  have hchecked : ∀ (bytes rest : Bytes) (space : Space),
      (deltaMptKey keccak bytes rest space padding none).1 = .ok raw →
      bytes.length = accountBytes := by
    intro bytes rest space hok
    unfold deltaMptKey checkedAddress at hok
    by_contra hne
    rw [if_neg hne] at hok
    cases hok
  obtain ⟨key, space⟩ := k
  cases key with
  | account bytes =>
    by_cases hlen : bytes.length < accountBytes
    · rw [deltaKey_of_short keccak hlen] at h
      exact Or.inr (Or.inl ⟨bytes, space, rfl, hlen, (Except.ok.inj h).symm⟩)
    · refine Or.inl (hchecked bytes [] space ?_)
      rw [← h]
      exact (congrArg Prod.fst (if_neg hlen)).symm
  | empty => exact Or.inr (Or.inr ⟨⟨space, Or.inl rfl⟩, (Except.ok.inj h).symm⟩)
  | addressPrefix bytes => exact Or.inr (Or.inr ⟨⟨space, Or.inr ⟨bytes, rfl⟩⟩, (Except.ok.inj h).symm⟩)
  | _ => exact Or.inl (hchecked _ _ _ h)

/-- The suffix of a delta encoding is decoded to the normalized key. -/
theorem fromDeltaSuffix_deltaSuffix (padding : DeltaMptKeyPadding) (key : StorageKey)
    (space : Space) (h : (address key).length = accountBytes) :
    (if deltaSuffix keccak padding key = [] then .ok ⟨.account (address key), space⟩
      else fromDeltaSuffix (address key) space (deltaSuffix keccak padding key)) =
      Except.ok (normalize ⟨key, space⟩) := by
  cases key with
  | account bytes =>
    have hlen : ¬ bytes.length < accountBytes := Nat.not_lt.mpr (show bytes.length = _ from h).ge
    simp [deltaSuffix, suffix, normalize, address, hlen]
  | storageRoot bytes =>
    simp [deltaSuffix, suffix, normalize, address, fromDeltaSuffix, storagePrefix]
  | storage bytes storageKey =>
    simp [deltaSuffix, normalize, address, fromDeltaSuffix, storagePrefix, keyPaddingBytes]
  | codeRoot bytes =>
    simp [deltaSuffix, suffix, normalize, address, fromDeltaSuffix, storagePrefix, codeHashPrefix]
  | code bytes codeHash =>
    by_cases hcode : codeHash = []
    · simp [deltaSuffix, suffix, normalize, address, fromDeltaSuffix, storagePrefix,
        codeHashPrefix, hcode]
    · simp [deltaSuffix, suffix, normalize, address, fromDeltaSuffix, storagePrefix,
        codeHashPrefix, hcode]
  | depositList bytes =>
    simp [deltaSuffix, suffix, normalize, address, fromDeltaSuffix, storagePrefix, codeHashPrefix,
      depositListPrefix]
  | voteList bytes =>
    simp [deltaSuffix, suffix, normalize, address, fromDeltaSuffix, storagePrefix, codeHashPrefix,
      depositListPrefix, voteListPrefix]
  | empty => cases h
  | addressPrefix bytes => cases h

/-- **A delta encoding decodes to the key it stands for.** -/
theorem fromDeltaMptKey_deltaKey {padding : DeltaMptKeyPadding} {raw : Bytes}
    (h : k.deltaKey keccak padding = .ok raw) : fromDeltaMptKey raw = .ok k.normalize := by
  rcases deltaKey_cases keccak h with hlen | ⟨bytes, space, rfl, hlen, rfl⟩ |
    ⟨⟨space, rfl | ⟨bytes, rfl⟩⟩, rfl⟩
  · rw [deltaKey_of_address hlen] at h
    obtain rfl := Except.ok.inj h
    have hpart : (accountKeyUncached keccak (address k.key) padding).length =
        accountKeypartBytes := by
      rw [length_accountKeyUncached, hlen]
      rfl
    rw [fromDeltaMptKey_append hpart k.space (unmarked_deltaSuffix keccak padding k.key),
      drop_accountKeyUncached]
    exact fromDeltaSuffix_deltaSuffix keccak padding k.key k.space hlen
  · have hnormalize : normalize ⟨.account raw, space⟩ = native (.account raw) := if_pos hlen
    rw [hnormalize]
    exact if_pos (Nat.lt_trans hlen (by decide))
  · rfl
  · rfl

/-- The key that a delta encoding stands for has the same canonical encoding. -/
theorem toKeyBytes_normalize {padding : DeltaMptKeyPadding} {raw : Bytes}
    (h : k.deltaKey keccak padding = .ok raw) (hne : raw ≠ []) :
    k.normalize.toKeyBytes = k.toKeyBytes := by
  rcases deltaKey_cases keccak h with hlen | ⟨bytes, space, rfl, hlen, rfl⟩ | ⟨-, hnil⟩
  · obtain ⟨key, space⟩ := k
    cases key with
    | account bytes =>
      exact congrArg toKeyBytes (if_neg (Nat.not_lt.mpr (show bytes.length = _ from hlen).ge))
    | code bytes codeHash =>
      by_cases hcode : codeHash = []
      · subst hcode
        calc toKeyBytes ⟨.codeRoot bytes, space⟩
            = .ok (bytes ++ (marker space ++ codeHashPrefix)) := toKeyBytes_of_address hlen
          _ = toKeyBytes ⟨.code bytes [], space⟩ := (toKeyBytes_of_address hlen).symm
      · exact congrArg toKeyBytes (if_neg hcode)
    | empty => cases hlen
    | addressPrefix bytes => cases hlen
    | _ => rfl
  · have hnormalize : normalize ⟨.account raw, space⟩ = native (.account raw) := if_pos hlen
    rw [hnormalize, toKeyBytes_of_short hlen]
    exact toKeyBytes_of_short hlen .native
  · exact absurd hnil hne

/-- The key that a delta encoding stands for has a canonical encoding. -/
theorem exists_toKeyBytes_normalize {padding : DeltaMptKeyPadding} {raw : Bytes}
    (h : k.deltaKey keccak padding = .ok raw) : ∃ c, k.normalize.toKeyBytes = .ok c := by
  by_cases hne : raw = []
  · rcases deltaKey_cases keccak h with hlen | ⟨bytes, space, rfl, hlen, rfl⟩ |
      ⟨⟨space, rfl | ⟨bytes, rfl⟩⟩, -⟩
    · rw [deltaKey_of_address hlen, hne] at h
      have hnil := congrArg List.length (Except.ok.inj h)
      simp [accountPaddingBytes] at hnil
    · exact ⟨[], by rw [hne]; rfl⟩
    · exact ⟨[], rfl⟩
    · exact ⟨[], rfl⟩
  · rw [toKeyBytes_normalize keccak h hne]
    rcases deltaKey_cases keccak h with hlen | ⟨bytes, space, rfl, hlen, -⟩ | ⟨-, hnil⟩
    · exact ⟨_, toKeyBytes_of_address hlen⟩
    · exact ⟨bytes, toKeyBytes_of_short hlen space⟩
    · exact absurd hnil hne

end Decoding

/-! ## The encodings of storable keys -/

section Storable

variable {k l : StorageKeyWithSpace}

/-- The canonical encoding of a key that has one. -/
def canonical (k : StorageKeyWithSpace) : Bytes := k.toKeyBytes.toOption.getD []

/-- The delta encoding of a key that has one. -/
def rawKey (keccak : Bytes → H256) (padding : DeltaMptKeyPadding) (k : StorageKeyWithSpace) :
    Bytes :=
  (k.deltaKey keccak padding).toOption.getD []

theorem canonical_of_toKeyBytes {c : Bytes} (h : k.toKeyBytes = .ok c) : k.canonical = c := by
  rw [canonical, h]
  rfl

theorem rawKey_of_deltaKey {keccak : Bytes → H256} {padding : DeltaMptKeyPadding} {raw : Bytes}
    (h : k.deltaKey keccak padding = .ok raw) : k.rawKey keccak padding = raw := by
  rw [rawKey, h]
  rfl

theorem Full.canonical_eq (h : k.Full) :
    k.canonical = address k.key ++ (marker k.space ++ suffix k.key) :=
  canonical_of_toKeyBytes (toKeyBytes_of_address h.address_length)

theorem Full.rawKey_eq (h : k.Full) (keccak : Bytes → H256) (padding : DeltaMptKeyPadding) :
    k.rawKey keccak padding = accountKeyUncached keccak (address k.key) padding ++
      (marker k.space ++ deltaSuffix keccak padding k.key) :=
  rawKey_of_deltaKey (deltaKey_of_address h.address_length keccak padding)

theorem Storable.toKeyBytes_eq (h : k.Storable) : k.toKeyBytes = .ok k.canonical := by
  rcases h with h | ⟨bytes, rfl, hlen⟩
  · rw [h.canonical_eq]
    exact toKeyBytes_of_address h.address_length
  · have hbytes := toKeyBytes_of_short hlen .native
    rw [canonical_of_toKeyBytes hbytes]
    exact hbytes

theorem Storable.deltaKey_eq (h : k.Storable) (keccak : Bytes → H256)
    (padding : DeltaMptKeyPadding) :
    k.deltaKey keccak padding = .ok (k.rawKey keccak padding) := by
  rcases h with h | ⟨bytes, rfl, hlen⟩
  · rw [h.rawKey_eq]
    exact deltaKey_of_address h.address_length keccak padding
  · have hbytes := deltaKey_of_short keccak hlen .native padding
    rw [rawKey_of_deltaKey hbytes]
    exact hbytes

/-- **A storable key is recovered from its delta encoding.** -/
theorem Storable.fromDeltaMptKey_rawKey (h : k.Storable) (keccak : Bytes → H256)
    (padding : DeltaMptKeyPadding) : fromDeltaMptKey (k.rawKey keccak padding) = .ok k := by
  rw [fromDeltaMptKey_deltaKey keccak (h.deltaKey_eq keccak padding), h.normalize_eq]

/-- **Delta encodings tell storable keys apart.** -/
theorem rawKey_injective (hk : k.Storable) (hl : l.Storable) (keccak : Bytes → H256)
    (padding : DeltaMptKeyPadding) (h : k.rawKey keccak padding = l.rawKey keccak padding) :
    k = l := by
  have hok := hk.fromDeltaMptKey_rawKey keccak padding
  rw [h, hl.fromDeltaMptKey_rawKey keccak padding] at hok
  exact (Except.ok.inj hok).symm

theorem Full.length_canonical (h : k.Full) : accountBytes ≤ k.canonical.length := by
  rw [h.canonical_eq, List.length_append, h.address_length]
  exact Nat.le_add_right _ _

theorem Full.rawKey_ne_nil (h : k.Full) (keccak : Bytes → H256) (padding : DeltaMptKeyPadding) :
    k.rawKey keccak padding ≠ [] := by
  rw [h.rawKey_eq, ← List.length_pos_iff, List.length_append, length_accountKeyUncached]
  exact Nat.lt_of_lt_of_le (by decide) (Nat.le_trans (Nat.le_add_right accountPaddingBytes _)
    (Nat.le_add_right _ _))

theorem Short.length_canonical (h : k.Short) : k.canonical.length < accountBytes := by
  obtain ⟨bytes, rfl, hlen⟩ := h
  rw [canonical_of_toKeyBytes (toKeyBytes_of_short hlen .native)]
  exact hlen

/-- **A full key is recovered from its canonical encoding.** -/
theorem Full.fromKeyBytes_canonical (h : k.Full) : fromKeyBytes k.canonical = .ok k := by
  rw [h.canonical_eq, fromKeyBytes_append h.address_length k.space (unmarked_suffix k.key)]
  obtain ⟨key, space⟩ := k
  cases key with
  | account bytes => rfl
  | storageRoot bytes => simp [suffix, address, fromSnapshotSuffix, storagePrefix]
  | storage bytes storageKey =>
    have hne : storageKey ≠ [] := h.2
    simp [suffix, address, fromSnapshotSuffix, storagePrefix, hne]
  | codeRoot bytes =>
    simp [suffix, address, fromSnapshotSuffix, storagePrefix, codeHashPrefix]
  | code bytes codeHash =>
    have hne : codeHash ≠ [] := h.2
    simp [suffix, address, fromSnapshotSuffix, storagePrefix, codeHashPrefix, hne]
  | depositList bytes =>
    simp [suffix, address, fromSnapshotSuffix, storagePrefix, codeHashPrefix, depositListPrefix]
  | voteList bytes =>
    simp [suffix, address, fromSnapshotSuffix, storagePrefix, codeHashPrefix, depositListPrefix,
      voteListPrefix]
  | empty => cases h
  | addressPrefix bytes => cases h

/-- **Canonical encodings tell storable keys apart.** -/
theorem canonical_injective (hk : k.Storable) (hl : l.Storable) (h : k.canonical = l.canonical) :
    k = l := by
  rcases hk with hk | hk <;> rcases hl with hl | hl
  · have hok := hk.fromKeyBytes_canonical
    rw [h, hl.fromKeyBytes_canonical] at hok
    exact (Except.ok.inj hok).symm
  · exact absurd hk.length_canonical (by rw [h]; exact Nat.not_le.mpr hl.length_canonical)
  · exact absurd hl.length_canonical (by rw [← h]; exact Nat.not_le.mpr hk.length_canonical)
  · obtain ⟨bytes, rfl, hlen⟩ := hk
    obtain ⟨bytes', rfl, hlen'⟩ := hl
    rw [canonical_of_toKeyBytes (toKeyBytes_of_short hlen .native),
      canonical_of_toKeyBytes (toKeyBytes_of_short hlen' .native)] at h
    rw [h]

end Storable

end StorageKeyWithSpace

end MinimalMpt
