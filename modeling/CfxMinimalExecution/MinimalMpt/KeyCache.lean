import CfxMinimalExecution.Library.Machine
import CfxMinimalExecution.MinimalMpt.KeyRoundTrip

/-!
# The caches of account keys over a run

A cache stands in a slot. At the end of a period the cache of one slot is moved to another, and a
default cache takes its place.

## Main definitions

* `CacheOp`: the calls that use a cache, and the move
* `cachedStep`, `uncachedStep`: the machine with the caches, and the one without

## Main results

* `replies_cached_eq`: the two machines reply alike
-/

namespace MinimalMpt

/-- What is done with the caches. -/
inductive CacheOp where
  /-- `to_delta_mpt_key_bytes` with the cache of a slot. -/
  | encode (slot : ℕ) (key : StorageKeyWithSpace) (padding : DeltaMptKeyPadding)
  /-- The cache of a slot is taken and put in another. -/
  | rotate (source target : ℕ)

section Machines

variable (keccak : Bytes → H256)

/-- The cache of a slot is replaced. -/
def putCache (slots : ℕ → AccountKeyCache) (slot : ℕ) (cache : AccountKeyCache) :
    ℕ → AccountKeyCache :=
  fun i => if i = slot then cache else slots i

/-- The machine with the caches. A move has no reply. -/
def cachedStep (slots : ℕ → AccountKeyCache) :
    CacheOp → Option (Except Error Bytes) × (ℕ → AccountKeyCache)
  | .encode slot key padding =>
    let (raw, cache) := key.toDeltaMptKeyBytes keccak padding (some (slots slot))
    (some raw, putCache slots slot (cache.getD (slots slot)))
  | .rotate source target =>
    let taken := putCache slots source (AccountKeyCache.default keccak)
    (none, putCache taken target (slots source))

/-- The machine without a cache. -/
def uncachedStep (_ : Unit) : CacheOp → Option (Except Error Bytes) × Unit
  | .encode _ key padding => (some (key.toDeltaMptKeyBytes keccak padding none).1, ())
  | .rotate _ _ => (none, ())

/-- Every cache holds derivations of its own padding. -/
def SlotsValid (slots : ℕ → AccountKeyCache) : Prop := ∀ slot, (slots slot).Valid keccak

variable {keccak}

theorem SlotsValid.putCache {slots : ℕ → AccountKeyCache} (h : SlotsValid keccak slots) (slot : ℕ)
    {cache : AccountKeyCache} (hcache : cache.Valid keccak) :
    SlotsValid keccak (putCache slots slot cache) := by
  intro i
  unfold MinimalMpt.putCache
  split
  · exact hcache
  · exact h i

/-- **One step**: a valid cache replies as no cache does, and every slot stays valid. -/
theorem simulation_cached : Machine.Simulation (cachedStep keccak) (uncachedStep keccak)
    (fun _ => True) fun slots _ => SlotsValid keccak slots where
  reply {slots _ op} _ h := by
    cases op with
    | encode slot key padding =>
      obtain ⟨hraw, -⟩ := key.toDeltaMptKeyBytes_spec keccak padding
        (AccountKeyCache.valid_some (h slot))
      exact congrArg some hraw
    | rotate source target => rfl
  next {slots _ op} _ h := by
    cases op with
    | encode slot key padding =>
      obtain ⟨-, hcache⟩ := key.toDeltaMptKeyBytes_spec keccak padding
        (AccountKeyCache.valid_some (h slot))
      exact h.putCache slot (AccountKeyCache.valid_getD (h slot) hcache)
    | rotate source target =>
      -- the moved cache is still stamped with the padding it was filled for
      have htaken := h.putCache source (AccountKeyCache.valid_default keccak)
      exact htaken.putCache target (h source)

variable (keccak)

/-- **The caches are transparent.** -/
theorem replies_cached_eq (ops : List CacheOp) :
    Machine.replies (cachedStep keccak) (fun _ => AccountKeyCache.default keccak) ops =
      Machine.replies (uncachedStep keccak) () ops :=
  simulation_cached.replies_eq (fun _ => AccountKeyCache.valid_default keccak) fun _ _ => trivial

end Machines

end MinimalMpt
