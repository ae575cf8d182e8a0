import CfxMinimalExecution.Library.Keccak
import CfxMinimalExecution.MinimalMpt.KeyRoundTrip

/-!
# Keys and identity

Two keys have the same delta encoding exactly when they have the same canonical encoding, except
for a storage root and the storage entry with an empty storage key.

## Main definitions

* `StorageKeyWithSpace.Record`: the keys of records
* `StorageKeyWithSpace.Shadowed`: a storage root and the entry with an empty storage key

## Main results

* `keyCodec_spec`: the encodings are inverse to each other
* `deltaKey_eq_iff`: when two delta encodings agree
-/

namespace MinimalMpt

namespace StorageKeyWithSpace

/-! ## The encodings are inverse to each other -/

/-- The suffix of a canonical encoding makes up the key. -/
theorem fromSnapshotSuffix_eq_ok {bytes rest : Bytes} {space : Space} {k : StorageKeyWithSpace}
    (h : fromSnapshotSuffix bytes space rest = .ok k) :
    address k.key = bytes ∧ k.space = space ∧ suffix k.key = rest := by
  -- by cases on the branches of the decoder: the suffix is the one that was matched
  unfold fromSnapshotSuffix at h
  split at h
  · obtain rfl := Except.ok.inj h
    exact ⟨rfl, rfl, by simp [suffix, *]⟩
  split at h
  case isTrue hbytes =>
    obtain ⟨storageKey, rfl⟩ := hbytes
    simp only [List.drop_left] at h
    split at h
    · obtain rfl := Except.ok.inj h
      exact ⟨rfl, rfl, by simp [suffix, *]⟩
    · obtain rfl := Except.ok.inj h
      exact ⟨rfl, rfl, rfl⟩
  split at h
  case isTrue hbytes =>
    obtain ⟨codeHash, rfl⟩ := hbytes
    simp only [List.drop_left] at h
    split at h
    · obtain rfl := Except.ok.inj h
      exact ⟨rfl, rfl, by simp [suffix, *]⟩
    · obtain rfl := Except.ok.inj h
      exact ⟨rfl, rfl, rfl⟩
  split at h
  · obtain rfl := Except.ok.inj h
    exact ⟨rfl, rfl, by simp [suffix, *]⟩
  split at h
  · obtain rfl := Except.ok.inj h
    exact ⟨rfl, rfl, by simp [suffix, *]⟩
  · cases h

/-- **What is decoded is encoded to the same bytes.** -/
theorem toKeyBytes_of_fromKeyBytes {raw : Bytes} {k : StorageKeyWithSpace}
    (h : fromKeyBytes raw = .ok k) : k.toKeyBytes = .ok raw := by
  unfold fromKeyBytes at h
  split at h
  case isTrue hnil =>
    obtain rfl := Except.ok.inj h
    rw [hnil]
    rfl
  split at h
  · obtain rfl := Except.ok.inj h
    rfl
  case isFalse hlen =>
    have htake : (raw.take accountBytes).length = accountBytes := by
      rw [List.length_take]
      omega
    split at h
    case isTrue hmarker =>
      obtain ⟨haddress, hspace, hsuffix⟩ := fromSnapshotSuffix_eq_ok h
      obtain ⟨hlt, hget⟩ := hmarker
      rw [List.getD_eq_getElem _ _ hlt] at hget
      have hdrop : raw.drop accountBytes = evmSpaceType :: raw.drop (accountBytes + 1) := by
        rw [List.drop_eq_getElem_cons hlt, hget]
      rw [toKeyBytes_of_address (haddress ▸ htake), haddress, hspace, hsuffix, marker,
        List.singleton_append, ← hdrop]
      exact congrArg Except.ok (List.take_append_drop _ _)
    case isFalse =>
      obtain ⟨haddress, hspace, hsuffix⟩ := fromSnapshotSuffix_eq_ok h
      rw [toKeyBytes_of_address (haddress ▸ htake), haddress, hspace, hsuffix]
      exact congrArg Except.ok (List.take_append_drop _ _)

/-- **The codecs are inverse to each other.** -/
theorem keyCodec_spec (keccak : Bytes → H256) :
    (∀ k : StorageKeyWithSpace, k.Full →
      (∃ c, k.toKeyBytes = .ok c ∧ fromKeyBytes c = .ok k) ∧
        ∀ padding, ∃ raw, k.deltaKey keccak padding = .ok raw ∧ fromDeltaMptKey raw = .ok k) ∧
    (∀ raw (k : StorageKeyWithSpace), fromKeyBytes raw = .ok k → k.toKeyBytes = .ok raw) ∧
    ∀ (k : StorageKeyWithSpace) padding raw, k.key ≠ .empty → (∀ bytes, k.key ≠ .addressPrefix bytes) →
      k.deltaKey keccak padding = .ok raw → ∃ k' c, fromDeltaMptKey raw = .ok k' ∧
        k'.toKeyBytes = .ok c ∧ k.toKeyBytes = .ok c := by
  refine ⟨fun k hk => ⟨?_, fun padding => ?_⟩, fun raw k h => toKeyBytes_of_fromKeyBytes h,
    fun k padding raw hempty hbytes h => ?_⟩
  · have hstorable : k.Storable := .inl hk
    exact ⟨k.canonical, hstorable.toKeyBytes_eq, hk.fromKeyBytes_canonical⟩
  · have hstorable : k.Storable := .inl hk
    exact ⟨k.rawKey keccak padding, hstorable.deltaKey_eq keccak padding,
      hstorable.fromDeltaMptKey_rawKey keccak padding⟩
  -- by cases on the keys with a delta encoding: an address, or bytes shorter than one
  · refine ⟨k.normalize, ?_⟩
    rw [fromDeltaMptKey_deltaKey keccak h]
    rcases deltaKey_cases keccak h with hlen | ⟨bytes, space, rfl, hlen, rfl⟩ |
      ⟨⟨space, rfl | ⟨bytes, rfl⟩⟩, -⟩
    · have hne : raw ≠ [] := by
        rw [deltaKey_of_address hlen] at h
        rintro rfl
        simpa [accountPaddingBytes] using congrArg List.length (Except.ok.inj h)
      rw [toKeyBytes_normalize keccak h hne]
      exact ⟨_, rfl, toKeyBytes_of_address hlen, toKeyBytes_of_address hlen⟩
    · have hnormalize : normalize ⟨.account raw, space⟩ = native (.account raw) := if_pos hlen
      rw [hnormalize]
      exact ⟨raw, rfl, toKeyBytes_of_short hlen .native, toKeyBytes_of_short hlen space⟩
    · exact absurd rfl hempty
    · exact absurd rfl (hbytes bytes)

/-- A storage entry of the other space is recovered. -/
theorem keyCodec_spec_storage : ∃ raw,
    deltaKey keccak256 ⟨.storage (List.replicate 20 1) [2], .ethereum⟩ merkleNullNode = .ok raw ∧
      fromDeltaMptKey raw = .ok ⟨.storage (List.replicate 20 1) [2], .ethereum⟩ := by
  have hfull : Full ⟨.storage (List.replicate 20 1) [2], .ethereum⟩ := ⟨rfl, nofun⟩
  exact ((keyCodec_spec keccak256).1 _ hfull).2 merkleNullNode

/-! ## Identity -/

/-- The keys of records: an account has an address of 20 bytes at most. -/
def Record (k : StorageKeyWithSpace) : Prop :=
  (∀ bytes, k.key = .account bytes → bytes.length ≤ accountBytes) ∧ k.key ≠ .empty ∧
    ∀ bytes, k.key ≠ .addressPrefix bytes

/-- A storage root and the storage entry with an empty storage key. -/
def Shadowed (k l : StorageKeyWithSpace) : Prop :=
  ∃ bytes space, bytes.length = accountBytes ∧
    ((k = ⟨.storageRoot bytes, space⟩ ∧ l = ⟨.storage bytes [], space⟩) ∨
      (k = ⟨.storage bytes [], space⟩ ∧ l = ⟨.storageRoot bytes, space⟩))

/-- The error of both encodings. -/
def addressError : Error := .invalidKey "address must be 20 bytes"

/-- The shapes of a record key: a full address, a short account, or an address that is refused. -/
theorem Record.cases {k : StorageKeyWithSpace} (h : k.Record) :
    (address k.key).length = accountBytes ∨
      (∃ bytes space, k = ⟨.account bytes, space⟩ ∧ bytes.length < accountBytes) ∨
      (k.toKeyBytes = .error addressError ∧
        ∀ keccak padding, k.deltaKey keccak padding = .error addressError) := by
  by_cases hlen : (address k.key).length = accountBytes
  · exact .inl hlen
  have hsnapshot : ∀ bytes rest space, bytes.length ≠ accountBytes →
      snapshotKey bytes rest space = .error addressError := by
    intro bytes rest space hne
    rw [snapshotKey, checkedAddress, if_neg hne]
    rfl
  have hdelta : ∀ keccak bytes rest space padding, bytes.length ≠ accountBytes →
      (deltaMptKey keccak bytes rest space padding none).1 = .error addressError := by
    intro keccak bytes rest space padding hne
    rw [deltaMptKey, checkedAddress, if_neg hne]
    rfl
  obtain ⟨key, space⟩ := k
  cases key with
  | account bytes =>
    exact .inr (.inl ⟨bytes, space, rfl, lt_of_le_of_ne (h.1 bytes rfl) hlen⟩)
  | empty => exact absurd rfl h.2.1
  | addressPrefix bytes => exact absurd rfl (h.2.2 bytes)
  | _ => exact .inr (.inr ⟨hsnapshot _ _ space hlen, fun keccak padding =>
      hdelta keccak _ _ space padding hlen⟩)

/-- The marker and what follows it are told apart. -/
theorem marker_append_inj {space space' : Space} {rest rest' : Bytes} (hrest : Unmarked rest)
    (hrest' : Unmarked rest') (h : marker space ++ rest = marker space' ++ rest') :
    space = space' ∧ rest = rest' := by
  cases space with
  | native =>
    cases space' with
    | native => exact ⟨rfl, h⟩
    | ethereum =>
      have hrest : rest = evmSpaceType :: rest' := h
      exact absurd rfl ((hrest ▸ ‹Unmarked rest›).getD_ne)
  | ethereum =>
    cases space' with
    | native =>
      have hrest' : evmSpaceType :: rest = rest' := h
      exact absurd rfl ((hrest' ▸ ‹Unmarked rest'›).getD_ne)
    | ethereum => exact ⟨rfl, (List.cons.inj h).2⟩

/-- Keys of one address with the same canonical suffix have the same delta suffix, unless one of
them is shadowed. -/
theorem deltaSuffix_eq (keccak : Bytes → H256) (padding : DeltaMptKeyPadding) {key key' : StorageKey}
    (haddress : address key = address key') (h : suffix key = suffix key')
    (hlen : (address key).length = accountBytes) {space : Space}
    (hshadowed : ¬ Shadowed ⟨key, space⟩ ⟨key', space⟩) :
    deltaSuffix keccak padding key = deltaSuffix keccak padding key' := by
  cases key with
  | storage bytes storageKey =>
    cases key' with
    | storage bytes' storageKey' =>
      obtain rfl := List.append_cancel_left h
      rfl
    | storageRoot bytes' =>
      obtain rfl : storageKey = [] := List.append_right_eq_self.mp h
      obtain rfl : bytes = bytes' := haddress
      exact absurd ⟨bytes, space, hlen, .inr ⟨rfl, rfl⟩⟩ hshadowed
    | _ => simp [suffix, storagePrefix, codeHashPrefix, depositListPrefix, voteListPrefix] at h
  | storageRoot bytes =>
    cases key' with
    | storage bytes' storageKey =>
      obtain rfl : storageKey = [] := by simpa [suffix] using h.symm
      obtain rfl : bytes = bytes' := haddress
      exact absurd ⟨bytes, space, hlen, .inl ⟨rfl, rfl⟩⟩ hshadowed
    | _ => exact h
  | _ =>
    cases key' with
    | storage bytes' storageKey =>
      simp [suffix, storagePrefix, codeHashPrefix, depositListPrefix, voteListPrefix] at h
    | _ => exact h

/-- The encodings of a shadowed pair. -/
theorem Shadowed.deltaKey_ne {k l : StorageKeyWithSpace} (h : Shadowed k l)
    (keccak : Bytes → H256) (padding : DeltaMptKeyPadding) :
    k.deltaKey keccak padding ≠ l.deltaKey keccak padding := by
  obtain ⟨bytes, space, hlen, ⟨rfl, rfl⟩ | ⟨rfl, rfl⟩⟩ := h
  all_goals
    have hroot := deltaKey_of_address (k := ⟨.storageRoot bytes, space⟩) hlen keccak padding
    have hentry := deltaKey_of_address (k := ⟨.storage bytes [], space⟩) hlen keccak padding
    intro heq
    simp only [hroot, hentry, Except.ok.injEq] at heq
    simpa [deltaSuffix, suffix, address, storagePrefix] using congrArg List.length heq

theorem Record.eq_error {k : StorageKeyWithSpace} (h : k.Record) {keccak : Bytes → H256}
    {padding : DeltaMptKeyPadding} {e : Error} (herror : k.deltaKey keccak padding = .error e) :
    k.toKeyBytes = .error addressError ∧ e = addressError := by
  rcases h.cases with hlen | ⟨bytes, space, rfl, hlen⟩ | ⟨hcanonical, hdelta⟩
  · rw [deltaKey_of_address hlen] at herror
    cases herror
  · rw [deltaKey_of_short keccak hlen] at herror
    cases herror
  · rw [hdelta] at herror
    exact ⟨hcanonical, (Except.error.inj herror).symm⟩

/-- **Both key spaces agree on identity**, except for shadowed pairs. -/
theorem deltaKey_eq_iff (keccak : Bytes → H256) (padding : DeltaMptKeyPadding)
    {k l : StorageKeyWithSpace} (hk : k.Record) (hl : l.Record) :
    k.deltaKey keccak padding = l.deltaKey keccak padding ↔
      k.toKeyBytes = l.toKeyBytes ∧ ¬ Shadowed k l := by
  constructor
  · intro h
    refine ⟨?_, fun hshadowed => hshadowed.deltaKey_ne keccak padding h⟩
    cases hraw : k.deltaKey keccak padding with
    | ok raw =>
      obtain ⟨-, -, hcodec⟩ := keyCodec_spec keccak
      obtain ⟨k', c, hdecode, hc, hkc⟩ := hcodec k padding raw hk.2.1 hk.2.2 hraw
      obtain ⟨l', c', hdecode', hc', hlc⟩ := hcodec l padding raw hl.2.1 hl.2.2 (h ▸ hraw)
      obtain rfl := Except.ok.inj (hdecode.symm.trans hdecode')
      rw [hkc, hlc, ← hc, ← hc']
    | error e => rw [(hk.eq_error hraw).1, (hl.eq_error (h ▸ hraw)).1]
  · rintro ⟨h, hshadowed⟩
    rcases hk.cases with hlen | ⟨bytes, space, rfl, hlen⟩ | ⟨hcanonical, hdelta⟩
    · rcases hl.cases with hlen' | ⟨bytes, space, rfl, hlen'⟩ | ⟨hcanonical, -⟩
      · simp only [toKeyBytes_of_address hlen, toKeyBytes_of_address hlen', Except.ok.injEq] at h
        obtain ⟨haddress, hrest⟩ := List.append_inj h (hlen.trans hlen'.symm)
        obtain ⟨hspace, hsuffix⟩ :=
          marker_append_inj (unmarked_suffix k.key) (unmarked_suffix l.key) hrest
        obtain ⟨key, space⟩ := k
        obtain ⟨key', space'⟩ := l
        obtain rfl : space = space' := hspace
        rw [deltaKey_of_address hlen, deltaKey_of_address hlen', haddress,
          deltaSuffix_eq keccak padding haddress hsuffix hlen hshadowed]
      -- a canonical key of an address is longer than a short one
      · rw [toKeyBytes_of_address hlen, toKeyBytes_of_short hlen', Except.ok.injEq] at h
        have hle := congrArg List.length h
        rw [List.length_append, hlen] at hle
        omega
      · rw [toKeyBytes_of_address hlen, hcanonical] at h
        cases h
    · rcases hl.cases with hlen' | ⟨bytes', space', rfl, hlen'⟩ | ⟨hcanonical, -⟩
      · rw [toKeyBytes_of_short hlen, toKeyBytes_of_address hlen', Except.ok.injEq] at h
        have hle := congrArg List.length h
        rw [List.length_append, hlen'] at hle
        omega
      · rw [toKeyBytes_of_short hlen, toKeyBytes_of_short hlen'] at h
        rw [deltaKey_of_short keccak hlen, deltaKey_of_short keccak hlen', h]
      · rw [toKeyBytes_of_short hlen, hcanonical] at h
        cases h
    · rcases hl.cases with hlen' | ⟨bytes', space', rfl, hlen'⟩ | ⟨-, hdelta'⟩
      · rw [hcanonical, toKeyBytes_of_address hlen'] at h
        cases h
      · rw [hcanonical, toKeyBytes_of_short hlen'] at h
        cases h
      · rw [hdelta, hdelta']

/-- A code entry with an empty hash is the code root in both key spaces. -/
theorem deltaKey_code_nil :
    deltaKey keccak256 ⟨.code (List.replicate 20 1) [], .ethereum⟩ merkleNullNode =
      deltaKey keccak256 ⟨.codeRoot (List.replicate 20 1), .ethereum⟩ merkleNullNode := by
  have hcode : Record ⟨.code (List.replicate 20 1) [], .ethereum⟩ := ⟨nofun, nofun, nofun⟩
  have hroot : Record ⟨.codeRoot (List.replicate 20 1), .ethereum⟩ := ⟨nofun, nofun, nofun⟩
  refine (deltaKey_eq_iff keccak256 merkleNullNode hcode hroot).mpr ⟨rfl, ?_⟩
  rintro ⟨bytes, space, -, ⟨hroot, -⟩ | ⟨hentry, -⟩⟩
  · cases hroot
  · cases hentry

/-- A storage root and the entry with an empty storage key share the canonical encoding only. -/
theorem storageRoot_conflated :
    toKeyBytes ⟨.storageRoot (List.replicate 20 1), .native⟩ =
        toKeyBytes ⟨.storage (List.replicate 20 1) [], .native⟩ ∧
      deltaKey keccak256 ⟨.storageRoot (List.replicate 20 1), .native⟩ merkleNullNode ≠
        deltaKey keccak256 ⟨.storage (List.replicate 20 1) [], .native⟩ merkleNullNode :=
  ⟨rfl, Shadowed.deltaKey_ne ⟨List.replicate 20 1, .native, rfl, .inl ⟨rfl, rfl⟩⟩ _ _⟩

end StorageKeyWithSpace

end MinimalMpt
