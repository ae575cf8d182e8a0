import CfxMinimalExecution.MinimalMpt.KeyIdentity
import CfxMinimalExecution.MinimalMpt.KeyPrefix

/-!
# What a prefix reaches

The snapshot is scanned for canonical encodings and the upper layers for delta encodings. An
incomplete storage key hashes to another value than the keys it is a prefix of, and a short account
is a prefix of addresses that are hashed in the upper layers: the canonical keys that such a prefix
reaches in every layer are fewer than those that extend it.

## Main definitions

* `Selects`: the records that the scan of a layer and the address filter select
* `Reaches`: the canonical keys that a prefix finds in every layer
* `Covers`: the keys of which it finds the records

## Main results

* `Reaches.selects_iff`: of the keys it reaches, a prefix selects those it covers, in every layer
* `Reaches.exists_covers`: every canonical key that is reached belongs to a covered key
-/

namespace MinimalMpt

namespace StorageKeyWithSpace

/-- The scan of a layer and the address filter select the record of `k`. -/
def Selects (keccak : Bytes → H256) (padding : DeltaMptKeyPadding) (p k : StorageKeyWithSpace) :
    Prop :=
  p.rawKey keccak padding <+: k.rawKey keccak padding ∧
    isFiltered (addressPrefixFilter p) k.canonical = false

/-- The canonical keys that `p` finds in every layer. A storage key finds only its own one, and a
short account only the short ones. -/
def Reaches (p : StorageKeyWithSpace) (c : Bytes) : Prop :=
  match p.key with
  | .storage _ _ => c = p.canonical
  | .account bytes => bytes ≠ [] → bytes.length < accountBytes → c.length < accountBytes
  | _ => True

/-- The prefix `p` is meant for `k`, which is not the storage root beside an entry `p` with an empty
storage key. -/
def Covers (p k : StorageKeyWithSpace) : Prop :=
  p.Matches k ∧ ∀ bytes space, p = ⟨.storage bytes [], space⟩ → k ≠ ⟨.storageRoot bytes, space⟩

/-! ## Keys with both encodings -/

/-- A full address, or a short account. -/
def Addressed (k : StorageKeyWithSpace) : Prop :=
  (address k.key).length = accountBytes ∨
    ∃ bytes space, k = ⟨.account bytes, space⟩ ∧ bytes.length < accountBytes

section Addressed

variable {p k : StorageKeyWithSpace}

/-- A key of a record that has a canonical encoding. -/
theorem Record.addressed (h : k.Record) {c : Bytes} (hc : k.toKeyBytes = .ok c) :
    k.Addressed := by
  rcases h.cases with hlen | hshort | ⟨herror, -⟩
  · exact .inl hlen
  · exact .inr hshort
  · rw [herror] at hc
    cases hc

theorem Addressed.record (h : k.Addressed) : k.Record := by
  rcases h with hlen | ⟨bytes, space, rfl, hlen⟩
  · obtain ⟨key, space⟩ := k
    cases key with
    | account bytes => exact ⟨by rintro _ ⟨⟩; exact hlen.le, nofun, nofun⟩
    | empty => cases hlen
    | addressPrefix bytes => cases hlen
    | _ => exact ⟨nofun, nofun, nofun⟩
  · exact ⟨by rintro _ ⟨⟩; exact hlen.le, nofun, nofun⟩

theorem Addressed.toKeyBytes_eq (h : k.Addressed) : k.toKeyBytes = .ok k.canonical := by
  rcases h with hlen | ⟨bytes, space, rfl, hlen⟩
  · rw [canonical_of_toKeyBytes (toKeyBytes_of_address hlen)]
    exact toKeyBytes_of_address hlen
  · rw [canonical_of_toKeyBytes (toKeyBytes_of_short hlen space)]
    exact toKeyBytes_of_short hlen space

theorem Addressed.deltaKey_eq (h : k.Addressed) (keccak : Bytes → H256)
    (padding : DeltaMptKeyPadding) : k.deltaKey keccak padding = .ok (k.rawKey keccak padding) := by
  rcases h with hlen | ⟨bytes, space, rfl, hlen⟩
  · rw [rawKey_of_deltaKey (deltaKey_of_address hlen keccak padding)]
    exact deltaKey_of_address hlen keccak padding
  · rw [rawKey_of_deltaKey (deltaKey_of_short keccak hlen space padding)]
    exact deltaKey_of_short keccak hlen space padding

/-- A key with a full address has a longer canonical encoding. -/
theorem length_canonical_of_address (h : (address k.key).length = accountBytes) :
    accountBytes ≤ k.canonical.length := by
  rw [canonical_of_toKeyBytes (toKeyBytes_of_address h), List.length_append, h]
  exact Nat.le_add_right _ _

/-- The key that a delta encoding is decoded to has the same delta encodings. -/
theorem deltaKey_normalize (keccak : Bytes → H256) (h : k.Addressed)
    (padding : DeltaMptKeyPadding) :
    k.normalize.deltaKey keccak padding = k.deltaKey keccak padding := by
  rcases h with hlen | ⟨bytes, space, rfl, hlen⟩
  · obtain ⟨key, space⟩ := k
    cases key with
    | account bytes =>
      exact congrArg (deltaKey keccak · padding)
        (if_neg (Nat.not_lt.mpr (show bytes.length = _ from hlen).ge))
    | code bytes codeHash =>
      by_cases hcode : codeHash = []
      · subst hcode
        calc deltaKey keccak ⟨.codeRoot bytes, space⟩ padding
            = .ok (accountKeyUncached keccak bytes padding ++ (marker space ++ codeHashPrefix)) :=
              deltaKey_of_address hlen keccak padding
          _ = deltaKey keccak ⟨.code bytes [], space⟩ padding :=
              (deltaKey_of_address hlen keccak padding).symm
      · exact congrArg (deltaKey keccak · padding) (if_neg hcode)
    | empty => cases hlen
    | addressPrefix bytes => cases hlen
    | _ => rfl
  · have hnormalize : normalize ⟨.account bytes, space⟩ = native (.account bytes) := if_pos hlen
    rw [hnormalize, deltaKey_of_short keccak hlen space]
    exact deltaKey_of_short keccak hlen .native padding

end Addressed

/-! ## Scans -/

section Scan

variable {p k : StorageKeyWithSpace} {keccak : Bytes → H256} {padding : DeltaMptKeyPadding}

/-- A prefix that is no byte prefix is not filtered on the canonical key. -/
theorem selects_iff_isPrefix (h : ∀ bytes, p.key ≠ .addressPrefix bytes) :
    p.Selects keccak padding k ↔ p.rawKey keccak padding <+: k.rawKey keccak padding := by
  have hfilter : addressPrefixFilter p = none := by
    obtain ⟨key, space⟩ := p
    cases key with
    | addressPrefix bytes => exact absurd rfl (h bytes)
    | _ => rfl
  unfold Selects
  rw [hfilter]
  exact and_iff_left rfl

/-- A prefix that is no storage key covers what it matches. -/
theorem covers_iff_matches (h : ∀ bytes storageKey, p.key ≠ .storage bytes storageKey) :
    p.Covers k ↔ p.Matches k := by
  refine and_iff_left ?_
  rintro bytes space rfl
  exact absurd rfl (h bytes [])

/-- A full address, without a storage key, selects what it matches. -/
theorem selects_iff_of_address (haddress : (address p.key).length = accountBytes)
    (hp : ∀ bytes storageKey, p.key ≠ .storage bytes storageKey) (hk : k.Addressed) :
    p.Selects keccak padding k ↔ p.Matches k := by
  rw [selects_iff_isPrefix fun bytes hkey => by rw [hkey] at haddress; cases haddress]
  rcases hk with hk | ⟨bytes, space, rfl, hlen⟩
  · exact rawKey_isPrefix_iff_of_address haddress hp hk keccak padding
  · unfold Matches
    rw [rawKey_of_deltaKey (deltaKey_of_short keccak hlen space padding),
      canonical_of_toKeyBytes (toKeyBytes_of_short hlen space)]
    obtain ⟨hraw, hcanonical⟩ := not_isPrefix_of_short haddress hlen keccak padding
    exact ⟨fun h => absurd h hraw, fun h => absurd h hcanonical⟩

/-- A short account selects what it matches, among the keys that it reaches. -/
theorem selects_iff_of_short {bytes : Bytes} {space : Space} (hlen : bytes.length < accountBytes)
    (hk : k.Addressed) (hreach : bytes ≠ [] → k.canonical.length < accountBytes) :
    Selects keccak padding ⟨.account bytes, space⟩ k ↔ Matches ⟨.account bytes, space⟩ k := by
  rw [selects_iff_isPrefix fun bytes h => by cases h]
  unfold Matches
  rw [rawKey_of_deltaKey (deltaKey_of_short keccak hlen space padding),
    canonical_of_toKeyBytes (toKeyBytes_of_short hlen space)]
  by_cases hnil : bytes = []
  · rw [hnil]
    exact ⟨fun _ => List.nil_prefix, fun _ => List.nil_prefix⟩
  · rcases hk with hk | ⟨bytes', space', rfl, hlen'⟩
    · exact absurd (hreach hnil) (Nat.not_lt.mpr (length_canonical_of_address hk))
    · rw [rawKey_of_deltaKey (deltaKey_of_short keccak hlen' space' padding),
        canonical_of_toKeyBytes (toKeyBytes_of_short hlen' space')]

theorem BytePrefix.selects_iff (hp : p.BytePrefix) :
    p.Selects keccak padding k ↔ p.Matches k := by
  unfold Selects
  rw [rawKey_of_deltaKey (hp.deltaKey_eq keccak padding), hp.isFiltered_eq]
  simp [Matches]

/-- A storage key selects its own record, and none beside it that has its canonical encoding. -/
theorem selects_iff_of_storage {bytes storageKey : Bytes} {space : Space}
    (hlen : bytes.length = accountBytes) (hk : k.Addressed)
    (hreach : k.canonical = canonical ⟨.storage bytes storageKey, space⟩) :
    Selects keccak padding ⟨.storage bytes storageKey, space⟩ k ↔
      Covers ⟨.storage bytes storageKey, space⟩ k := by
  have hp : Addressed ⟨.storage bytes storageKey, space⟩ := .inl hlen
  have hmatches : Matches ⟨.storage bytes storageKey, space⟩ k := by
    rw [Matches, hreach]
  rw [selects_iff_isPrefix (by simp)]
  by_cases hshadowed : Shadowed k ⟨.storage bytes storageKey, space⟩
  · -- the delta encoding of the storage root is shorter
    obtain ⟨bytes', space', hlen', ⟨rfl, heq⟩ | ⟨-, heq⟩⟩ := hshadowed
    · cases heq
      have hroot : (address (.storageRoot bytes)).length = accountBytes := hlen
      have hentry : (address (.storage bytes [])).length = accountBytes := hlen
      rw [rawKey_of_deltaKey (k := ⟨.storage bytes [], space⟩)
          (deltaKey_of_address hentry keccak padding),
        rawKey_of_deltaKey (k := ⟨.storageRoot bytes, space⟩)
          (deltaKey_of_address hroot keccak padding)]
      constructor
      · intro h
        have hle := h.length_le
        simp [address, deltaSuffix, suffix, storagePrefix] at hle
      · exact fun h => absurd rfl (h.2 bytes space rfl)
    · cases heq
  -- otherwise equal canonical keys have equal delta encodings
  · have hcanonical : k.toKeyBytes = toKeyBytes ⟨.storage bytes storageKey, space⟩ := by
      rw [hk.toKeyBytes_eq, hp.toKeyBytes_eq, hreach]
    have hraw := (deltaKey_eq_iff keccak padding hk.record hp.record).mpr ⟨hcanonical, hshadowed⟩
    rw [hk.deltaKey_eq, hp.deltaKey_eq, Except.ok.injEq] at hraw
    rw [hraw]
    refine iff_of_true (List.prefix_refl _) ⟨hmatches, ?_⟩
    rintro bytes' space' heq rfl
    cases heq
    exact hshadowed ⟨bytes, space, hlen, .inl ⟨rfl, rfl⟩⟩

/-- **Of the keys it reaches, a prefix selects those it covers**, in every layer. -/
theorem Reaches.selects_iff (hp : p.Addressed ∨ p.BytePrefix) (hk : k.Addressed)
    (h : p.Reaches k.canonical) : p.Selects keccak padding k ↔ p.Covers k := by
  rcases hp with (haddress | ⟨bytes, space, rfl, hlen⟩) | hbyte
  · by_cases hstorage : ∃ bytes storageKey, p.key = .storage bytes storageKey
    · obtain ⟨bytes, storageKey, hkey⟩ := hstorage
      obtain ⟨key, space⟩ := p
      obtain rfl : key = .storage bytes storageKey := hkey
      exact selects_iff_of_storage haddress hk h
    · push Not at hstorage
      rw [covers_iff_matches hstorage]
      exact selects_iff_of_address haddress hstorage hk
  · rw [covers_iff_matches fun bytes storageKey hkey => by cases hkey]
    exact selects_iff_of_short hlen hk fun hnil => h hnil hlen
  · rw [covers_iff_matches fun bytes storageKey hkey => ?_]
    · exact hbyte.selects_iff
    · rcases hbyte with hempty | ⟨bytes', hbytes⟩
      · rw [hempty] at hkey
        cases hkey
      · rw [hbytes] at hkey
        cases hkey

/-- **Every canonical key that is reached belongs to a covered key.** -/
theorem Reaches.exists_covers (hp : p.Addressed ∨ p.BytePrefix) (hk : k.Addressed)
    (h : p.Reaches k.canonical) (hmatches : p.Matches k) :
    ∃ k' : StorageKeyWithSpace, k'.Addressed ∧ k'.canonical = k.canonical ∧ p.Covers k' := by
  by_cases hstorage : ∃ bytes storageKey, p.key = .storage bytes storageKey
  · obtain ⟨bytes, storageKey, hkey⟩ := hstorage
    obtain ⟨key, space⟩ := p
    obtain rfl : key = .storage bytes storageKey := hkey
    have hself : Addressed ⟨.storage bytes storageKey, space⟩ := by
      rcases hp with hp | hempty | ⟨_, hbytes⟩
      · exact hp
      · cases hempty
      · cases hbytes
    have hcanonical : k.canonical = canonical ⟨.storage bytes storageKey, space⟩ := h
    refine ⟨_, hself, hcanonical.symm, List.prefix_refl _, ?_⟩
    rintro _ _ heq ⟨⟩
  · push Not at hstorage
    exact ⟨k, hk, rfl, (covers_iff_matches hstorage).mpr hmatches⟩

end Scan

end StorageKeyWithSpace

end MinimalMpt
