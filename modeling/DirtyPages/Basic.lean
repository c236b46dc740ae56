import Mathlib.Algebra.Ring.Nat
import Mathlib.Tactic.Common

/-!
# Constants, return codes and faults

The constants of Section 2 of `dirtPages.c` for `PAGE_SIZE` 4096, the `MERGE_ERR_*` codes of the
dirty-detection path, and the ways in which a function of the model can stop instead of returning.
Where no build is mentioned an `unsigned long` has 64 bits.
-/

namespace DirtyPages

/-- `PAGE_SIZE` on x86. -/
def pageSize : ℕ := 4096

/-- `HASH_STRENGTH_FULL`: the number of u32 words of a page. -/
def hashStrengthFull : ℕ := pageSize / 4

/-- `HASH_STRENGTH_MAX`: ten positions beyond a full page, looping back to its first ones. -/
def hashStrengthMax : ℕ := hashStrengthFull + 10

/-- `HASH_STRENGTH_DELTA_MAX`: the largest exponent of the step of `hash_strength`. -/
def hashStrengthDeltaMax : ℕ := 5

@[simp] theorem hashStrengthFull_eq : hashStrengthFull = 1024 := rfl

@[simp] theorem hashStrengthMax_eq : hashStrengthMax = 1034 := rfl

@[simp] theorem hashStrengthDeltaMax_eq : hashStrengthDeltaMax = 5 := rfl

instance : NeZero hashStrengthFull := ⟨by decide⟩

/-- The `MERGE_ERR_*` codes. -/
inductive MergeErr
  | pgerr
  | colli
  | colliMax
  | changed
  deriving DecidableEq, Repr

/-- How a function of the model stops without returning. -/
inductive Fault
  /-- `BUG_ON(!benefit.scanned)` in `encode_benefit` -/
  | bugOnScanned
  /-- `BUG()` in a `default:` branch of `rshash_adjust` -/
  | bugDefault
  /-- `BUG_ON(!list_empty(..))` in `stable_tree_delta_hash` -/
  | bugOnTreeNodeList
  /-- `BUG_ON(!*new)` in `stable_node_reinsert` -/
  | bugOnEmptySubRoot
  /-- a division by zero in `div64_u64` -/
  | divideByZero
  /-- a null pointer is followed -/
  | nullPointer
  /-- a freed object is read -/
  | useAfterFree
  /-- an array is read or written outside its allocation -/
  | outOfBounds
  /-- a loop is stopped by the fuel of the model -/
  | outOfFuel
  deriving DecidableEq, Repr

end DirtyPages
