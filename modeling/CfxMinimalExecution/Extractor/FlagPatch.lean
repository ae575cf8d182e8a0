import CfxMinimalExecution.Cfxpack.Container
import CfxMinimalExecution.Cfxpack.Decode

/-!
# The patcher of the zero-reward flag

## Main definitions

* `parseContainer`: the patcher's own reader of the directory
* `collectSites`: the places of the flags of all blocks of a container
* `patchContainerBytes`: the flag is set at the places that the workers found
-/

namespace Extractor

open Cfxpack

/-- One round of the loop over the directory. -/
def readSpan (profile : Profile) (data : Bytes) : Cursor (ℕ × ℕ) := do
  let pos ← get
  ensure (pos + dirEntryLen ≤ data.length) "truncated directory"
  let offset := (← u64FromLe data (pos + 16)).toNat
  let length := (← u64FromLe data (pos + 24)).toNat
  let stop ← profile.addUsize offset length
  ensure (stop ≤ data.length) "payload out of bounds"
  set (pos + dirEntryLen)
  pure (offset, length)

def parseContainer (profile : Profile) (data : Bytes) : Result (List (ℕ × ℕ)) := do
  ensure (containerHeaderLen ≤ data.length ∧ data.take 8 = magic) "not a cfxpack container"
  let groupCount ← u32FromLe data 12
  ((List.range groupCount.toNat).mapM fun _ => readSpan profile data).run' containerHeaderLen

/-- The sites of the blocks of a group, from the start of the container. -/
def groupSites (profile : Profile) (data : Bytes) (span : ℕ × ℕ) : Result (List (ℕ × H256)) := do
  let packet ← slice data span.1 (← profile.addUsize span.1 span.2)
  let sites ← blockFlagSites packet
  sites.mapM fun site => do
    let abs ← profile.addUsize span.1 site.1
    pure (abs, site.2)

/-- The sites of all blocks of a container. -/
def collectSites (profile : Profile) (data : Bytes) : Result (List (ℕ × H256)) := do
  let entries ← parseContainer profile data
  let sites ← entries.mapM (groupSites profile data)
  pure sites.flatten

/-- What a worker finds among the sites it has claimed: a block without a reward has none to pay. -/
def workerFlips (readReward : H256 → Result (Option U256)) (sites : List (ℕ × H256))
    (claimed : List ℕ) : Result (List ℕ) := do
  let flips ← claimed.mapM fun i => do
    let (abs, hash) ← indexAt sites i
    let totalReward := (← readReward hash).getD 0
    pure (if totalReward = 0 then some abs else none)
  pure (flips.filterMap id)

/-- One round of the loop over the flips. -/
def applyFlip (patched : Bytes × Bool) (abs : ℕ) : Result (Bytes × Bool) := do
  let byte ← indexAt patched.1 abs
  if byte &&& flagZeroTotalReward = 0 then
    pure (patched.1.set abs (byte ||| flagZeroTotalReward), true)
  else pure patched

structure Patched where
  data : Bytes
  blocksSeen : ℕ
  blocksFlagged : ℕ
  changed : Bool

/-- The patch of a container. The schedule has the indices that each worker claims, in the order
in which the workers finish. -/
def patchContainerBytes (profile : Profile) (readReward : H256 → Result (Option U256))
    (schedule : List (List ℕ)) (data : Bytes) : Result Patched := do
  let sites ← collectSites profile data
  let flips ← schedule.mapM (workerFlips readReward sites)
  let flips := flips.flatten
  let (data, changed) ← flips.foldlM applyFlip (data, false)
  pure { data, blocksSeen := sites.length, blocksFlagged := flips.length, changed }

end Extractor
