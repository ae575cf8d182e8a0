import CfxMinimalExecution.Cfxpack.PacketReads

/-!
# A transaction that is read back

## Main definitions

* `Packet.baseNonces`: the base nonces of a sender, in the order of the table
* `KeepsNonce`: base nonces from which a nonce is read back

## Main results

* `txItem_readBack`: what is read of a transaction is written again as the same item
* `nonceAndGas_readTx_iff`: when a nonce and a gas limit survive
-/

namespace Cfxpack

variable {T : PrimitiveTypes} {crates : Crates T} {input : Packet T}

/-! ## Words of 256 bits -/

@[simp] theorem U256.toNat_ofU64 (value : UInt64) : (U256.ofU64 value).toNat = value.toNat := by
  have hlt := value.toNat_lt
  rw [U256.ofU64, BitVec.toNat_ofNat]
  exact Nat.mod_eq_of_lt (by omega)

@[simp] theorem lowU64_ofU64 (value : UInt64) : lowU64 (U256.ofU64 value) = value := by
  simp [lowU64]

theorem toNat_lowU64 (value : U256) : (lowU64 value).toNat = value.toNat % UInt64.size := by
  simp [lowU64]

/-- A word of 64 bits is a value exactly when it has as many units. -/
theorem U256.ofU64_eq_iff {word : UInt64} {value : U256} :
    U256.ofU64 word = value ↔ word.toNat = value.toNat := by
  rw [BitVec.toNat_eq, U256.toNat_ofU64]

theorem U256.ofU64_lowU64_eq_iff {value : U256} :
    U256.ofU64 (lowU64 value) = value ↔ value.toNat < UInt64.size := by
  rw [U256.ofU64_eq_iff, toNat_lowU64, Nat.mod_eq_iff_lt (by decide)]

/-! ## The fields of a transaction -/

/-- Only the nonce and the gas of a transaction change. -/
theorem fields_recoded (hlawful : crates.primitives.Lawful) (tx : Transaction T) (nonce gas : U256) :
    crates.primitives.fields (tx.recoded nonce gas) =
      { crates.primitives.fields tx with nonce, gas } := by
  rcases tx with (_ | _ | _) | (_ | _ | _ | _) <;>
    simp only [Transaction.recoded, hlawful.fields_cip155, hlawful.fields_cip2930,
      hlawful.fields_cip1559, hlawful.fields_eip155, hlawful.fields_eip2930, hlawful.fields_eip1559,
      hlawful.fields_eip7702]

theorem unsigned_readBack (hlawful : crates.primitives.Lawful) (tx : SignedTransaction T)
    (nonce : UInt64) : (tx.readBack crates nonce).unsigned =
      tx.unsigned.recoded (U256.ofU64 nonce)
        (U256.ofU64 (lowU64 (crates.primitives.fields tx.unsigned).gas)) :=
  hlawful.unsigned_fakeSignRpc _ _ _

theorem sender_readBack (hlawful : crates.primitives.Lawful) (tx : SignedTransaction T)
    (nonce : UInt64) : (tx.readBack crates nonce).sender = tx.sender :=
  hlawful.sender_fakeSignRpc _ _ _

theorem fields_readBack (hlawful : crates.primitives.Lawful) (tx : SignedTransaction T)
    (nonce : UInt64) : crates.primitives.fields (tx.readBack crates nonce).unsigned =
      { crates.primitives.fields tx.unsigned with
        nonce := U256.ofU64 nonce
        gas := U256.ofU64 (lowU64 (crates.primitives.fields tx.unsigned).gas) } := by
  rw [unsigned_readBack hlawful, fields_recoded hlawful]

/-- **A transaction is written again as the same item**, when its nonce is. -/
theorem txItem_readBack (hlawful : crates.primitives.Lawful) {tx : SignedTransaction T}
    {nonce : UInt64} {senderNonceIndex : Assoc ℕ UInt64} {senderIndex : ℕ}
    (hnonce : encodedNonce senderNonceIndex senderIndex nonce =
      encodedNonce senderNonceIndex senderIndex
        (lowU64 (crates.primitives.fields tx.unsigned).nonce))
    (blockEpoch : UInt64) (gasPriceIndex : Assoc U256 ℕ) (action : RlpItem T) :
    txItem crates blockEpoch gasPriceIndex senderNonceIndex (tx.readBack crates nonce) senderIndex
      action = txItem crates blockEpoch gasPriceIndex senderNonceIndex tx senderIndex action := by
  unfold txItem
  simp only [unsigned_readBack hlawful, fields_recoded hlawful, lowU64_ofU64, hnonce]
  rcases tx.unsigned with (_ | _ | _) | (_ | _ | _ | _) <;>
    simp only [Transaction.recoded, hlawful.epochHeight_cip155, hlawful.epochHeight_cip2930,
      hlawful.epochHeight_cip1559, hlawful.storageLimit_cip155, hlawful.storageLimit_cip2930,
      hlawful.storageLimit_cip1559]

/-! ## The base nonces -/

/-- The base nonces of a sender, in the order of the table. -/
def Packet.baseNonces (input : Packet T) (senderIndex : ℕ) : List UInt64 :=
  (input.senderBaseNonces.filter (·.senderIndex.toNat = senderIndex)).map (·.baseNonce)

/-- The decoder goes by the first base nonce of a sender. -/
theorem baseNonceOf_eq (input : Packet T) (senderIndex : ℕ) :
    baseNonceOf input.senderBaseNonces senderIndex =
      (input.baseNonces senderIndex).head?.getD 0 := by
  rw [baseNonceOf, Packet.baseNonces, List.head?_map, List.head?_filter]

/-- The encoder goes by the last. -/
theorem get_senderNonceIndex (input : Packet T) (senderIndex : ℕ) :
    (senderNonceIndex input).get senderIndex = (input.baseNonces senderIndex).getLast? := by
  unfold senderNonceIndex Packet.baseNonces Assoc.get Assoc.collect
  rw [← List.head?_reverse, ← List.map_reverse, ← List.map_reverse, ← List.filter_reverse]
  induction input.senderBaseNonces.reverse with
  | nil => rfl
  | cons entry entries ih =>
    rw [List.map_cons, List.lookup_cons, List.filter_cons, ih]
    by_cases hsender : entry.senderIndex.toNat = senderIndex
    · simp [hsender]
    · have hne : (senderIndex == entry.senderIndex.toNat) = false := by simpa using Ne.symm hsender
      simp [hsender, hne]

/-- The base nonces that the encoder and the decoder go by give a nonce back. -/
def KeepsNonce (bases : List UInt64) (nonce : U256) : Prop :=
  nonce.toNat < UInt64.size ∧ ∀ first last, bases.head? = some first → bases.getLast? = some last →
    (last.toNat ≤ nonce.toNat ∧ first = last) ∨
      (nonce.toNat < last.toNat ∧ first.toNat = nonce.toNat)

/-- The sum of the first base nonce and the offset from the last. -/
theorem add_saturatingSub_eq_iff {first last nonce : UInt64} :
    first + saturatingSub nonce last = nonce ↔
      (last.toNat ≤ nonce.toNat ∧ first = last) ∨
        (nonce.toNat < last.toNat ∧ first.toNat = nonce.toNat) := by
  have hfirst := first.toNat_lt
  have hlast := last.toNat_lt
  have hnonce := nonce.toNat_lt
  rw [← UInt64.toNat_inj, UInt64.toNat_add, toNat_saturatingSub, ← UInt64.toNat_inj]
  omega

/-- **When a nonce is read back.** -/
theorem nonce_eq_iff {senderIndex : ℕ} {nonce : U256} {word : UInt64}
    (h : crates.addU64 (baseNonceOf input.senderBaseNonces senderIndex)
      (encodedNonce (senderNonceIndex input) senderIndex (lowU64 nonce)) = .ok word) :
    U256.ofU64 word = nonce ↔ KeepsNonce (input.baseNonces senderIndex) nonce := by
  obtain rfl := crates.addU64_eq_ok h
  rw [baseNonceOf_eq, encodedNonce, get_senderNonceIndex, KeepsNonce, U256.ofU64_eq_iff]
  rcases input.baseNonces senderIndex with _ | ⟨base, bases⟩
  · -- without a base the nonce is written as it is
    simp only [List.head?_nil, List.getLast?_nil, Option.getD_none, Option.map_none, UInt64.zero_add,
      toNat_lowU64]
    simp
  · rw [List.getLast?_cons, List.head?_cons, Option.map_some, Option.getD_some, Option.getD_some]
    generalize bases.getLast?.getD base = last
    have hword : nonce.toNat < UInt64.size → (lowU64 nonce).toNat = nonce.toNat := fun hlt => by
      rw [toNat_lowU64, Nat.mod_eq_of_lt hlt]
    constructor
    · intro heq
      have hlt : nonce.toNat < UInt64.size := heq ▸ UInt64.toNat_lt _
      have hsame : base + saturatingSub (lowU64 nonce) last = lowU64 nonce := by
        rw [← UInt64.toNat_inj, heq, hword hlt]
      rw [add_saturatingSub_eq_iff, hword hlt] at hsame
      refine ⟨hlt, ?_⟩
      rintro _ _ ⟨⟩ ⟨⟩
      exact hsame
    · rintro ⟨hlt, hkeeps⟩
      have hsame := hkeeps _ _ rfl rfl
      rw [← hword hlt, ← add_saturatingSub_eq_iff] at hsame
      rw [hsame, hword hlt]

/-! ## What is read of a transaction -/

theorem readTx_eq_some {tx tx' : SignedTransaction T} :
    readTx crates input tx = some tx' ↔ ∃ senderIndex nonce,
      (Assoc.indexOf input.addresses).get tx.sender = some senderIndex ∧
      crates.addU64 (baseNonceOf input.senderBaseNonces senderIndex)
        (encodedNonce (senderNonceIndex input) senderIndex
          (lowU64 (crates.primitives.fields tx.unsigned).nonce)) = .ok nonce ∧
      tx' = tx.readBack crates nonce := by
  have htoOption : ∀ {r : Result UInt64} {nonce}, r.toOption = some nonce ↔ r = .ok nonce := by
    intro r nonce
    cases r <;> simp [Except.toOption]
  simp only [readTx, Option.bind_eq_bind, Option.bind_eq_some_iff, htoOption, Option.pure_def,
    Option.some.injEq]
  constructor
  · rintro ⟨senderIndex, hsender, nonce, hnonce, rfl⟩
    exact ⟨senderIndex, nonce, hsender, hnonce, rfl⟩
  · rintro ⟨senderIndex, nonce, hsender, hnonce, rfl⟩
    exact ⟨senderIndex, hsender, nonce, hnonce, rfl⟩

/-- The nonce and the gas of a transaction. -/
def SignedTransaction.nonceAndGas (crates : Crates T) (tx : SignedTransaction T) : U256 × U256 :=
  ((crates.primitives.fields tx.unsigned).nonce, (crates.primitives.fields tx.unsigned).gas)

/-- A transaction that is written in full keeps its nonce and its gas. -/
def KeepsNonceAndGas (crates : Crates T) (input : Packet T) (tx : SignedTransaction T) : Prop :=
  (∀ senderIndex, (Assoc.indexOf input.addresses).get tx.sender = some senderIndex →
      KeepsNonce (input.baseNonces senderIndex) (tx.nonceAndGas crates).1) ∧
    (tx.nonceAndGas crates).2.toNat < UInt64.size

/-- **When the nonce and the gas of a transaction are read back.** -/
theorem nonceAndGas_readTx_iff (hlawful : crates.primitives.Lawful) {tx tx' : SignedTransaction T}
    (h : readTx crates input tx = some tx') :
    tx'.nonceAndGas crates = tx.nonceAndGas crates ↔ KeepsNonceAndGas crates input tx := by
  obtain ⟨senderIndex, nonce, hsender, hnonce, rfl⟩ := readTx_eq_some.mp h
  rw [SignedTransaction.nonceAndGas, fields_readBack hlawful, KeepsNonceAndGas,
    SignedTransaction.nonceAndGas, Prod.mk.injEq, U256.ofU64_lowU64_eq_iff, nonce_eq_iff hnonce,
    hsender]
  simp

end Cfxpack
