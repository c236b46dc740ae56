import DirtyPages.HashTable
import Mathlib.Data.Nat.Log
import Mathlib.Order.Bounds.Basic

/-!
# The number of buckets

`init_hash_table` doubles a word until it is at least the requested number.  Up to a request of
`2 ^ 63` the loop ends at the least power of two that is large enough, and a mask with its
predecessor is the remainder.  Beyond that the only bit is shifted out, and the loop goes on with 0
for ever.
-/

namespace DirtyPages

open Outcome

/-! ### The words of the loop -/

/-- The word `2 ^ k`, which is 0 once the bit has left the word. -/
def doubled (k : ℕ) : UInt64 := UInt64.ofNat (2 ^ k)

theorem doubled_toNat {k : ℕ} (hk : k < 64) : (doubled k).toNat = 2 ^ k := by
  rw [doubled, UInt64.toNat_ofNat']
  exact Nat.mod_eq_of_lt (Nat.pow_lt_pow_right (by decide) hk)

theorem doubled_shiftLeft (k : ℕ) : doubled k <<< 1 = doubled (k + 1) := by
  have hsucc : 2 ^ (k + 1) = 2 ^ k * 2 := pow_succ 2 k
  apply UInt64.toNat_inj.mp
  rw [UInt64.toNat_shiftLeft, doubled, doubled, UInt64.toNat_ofNat', UInt64.toNat_ofNat', hsucc]
  show (2 ^ k % 2 ^ 64) <<< 1 % 2 ^ 64 = _
  rw [Nat.shiftLeft_eq, Nat.pow_one, Nat.mod_mul_mod]

/-- No word of the loop exceeds `2 ^ 63`. -/
theorem doubled_le (k : ℕ) : (doubled k).toNat ≤ 2 ^ 63 := by
  by_cases hk : k < 64
  · rw [doubled_toNat hk]
    exact Nat.pow_le_pow_right (by decide) (by omega)
  · have hzero : 2 ^ k % 2 ^ 64 = 0 := Nat.mod_eq_zero_of_dvd (Nat.pow_dvd_pow 2 (by omega))
    rw [doubled, UInt64.toNat_ofNat', hzero]
    exact Nat.zero_le _

/-! ### Where the loop ends -/

variable {bucketCount : UInt64}

/-- Up to `2 ^ 63` the loop ends, after as many doublings as the result has. -/
theorem roundUp_doubled (h : bucketCount.toNat ≤ 2 ^ 63) {k fuel : ℕ}
    (hk : k ≤ Nat.clog 2 bucketCount.toNat) (hfuel : Nat.clog 2 bucketCount.toNat < k + fuel) :
    roundUp fuel (doubled k) bucketCount = .ok (doubled (Nat.clog 2 bucketCount.toNat)) := by
  have hclog : Nat.clog 2 bucketCount.toNat ≤ 63 := Nat.clog_le_of_le_pow h
  induction fuel generalizing k with
  | zero => omega
  | succ fuel ih =>
    rw [roundUp]
    by_cases hend : k = Nat.clog 2 bucketCount.toNat
    · have hle : ¬doubled k < bucketCount := by
        rw [UInt64.lt_iff_toNat_lt, doubled_toNat (by omega), not_lt, hend]
        exact Nat.le_pow_clog (by decide) _
      rw [if_neg hle, hend]
    · have hlt : doubled k < bucketCount := by
        rw [UInt64.lt_iff_toNat_lt, doubled_toNat (by omega)]
        exact Nat.pow_lt_of_lt_clog (by omega)
      rw [if_pos hlt, doubled_shiftLeft]
      exact ih (by omega) (by omega)

/-- Beyond `2 ^ 63` the loop never ends. -/
theorem roundUp_endless (h : 2 ^ 63 < bucketCount.toNat) (k fuel : ℕ) :
    roundUp fuel (doubled k) bucketCount = .error .outOfFuel := by
  induction fuel generalizing k with
  | zero => rfl
  | succ fuel ih =>
    have hlt : doubled k < bucketCount := by
      rw [UInt64.lt_iff_toNat_lt]
      exact lt_of_le_of_lt (doubled_le k) h
    rw [roundUp, if_pos hlt, doubled_shiftLeft]
    exact ih (k + 1)

/-! ### The table that is made -/

/-- The least power of two that is at least 1 and at least the request. -/
def IsRoundedUp (bucketCount n : UInt64) : Prop :=
  IsLeast {m : ℕ | (∃ k, m = 2 ^ k) ∧ max 1 bucketCount.toNat ≤ m} n.toNat

/-- A mask with the predecessor of `n` is the remainder modulo `n`, and an index below `n`. -/
def MasksModulo (n : UInt64) : Prop :=
  ∀ h : UInt64, h &&& (n - 1) < n ∧ (h &&& (n - 1)).toNat = h.toNat % n.toNat

theorem isRoundedUp_clog (h : bucketCount.toNat ≤ 2 ^ 63) :
    IsRoundedUp bucketCount (doubled (Nat.clog 2 bucketCount.toNat)) := by
  have hclog : Nat.clog 2 bucketCount.toNat ≤ 63 := Nat.clog_le_of_le_pow h
  rw [IsRoundedUp, doubled_toNat (by omega)]
  constructor
  · exact ⟨⟨_, rfl⟩, max_le Nat.one_le_two_pow (Nat.le_pow_clog (by decide) _)⟩
  · rintro m ⟨⟨k, rfl⟩, hle⟩
    refine Nat.pow_le_pow_right (by decide) (Nat.clog_le_of_le_pow ?_)
    exact le_trans (le_max_right _ _) hle

theorem masksModulo_doubled {k : ℕ} (hk : k < 64) : MasksModulo (doubled k) := by
  have hpos : 1 ≤ 2 ^ k := Nat.one_le_two_pow
  have hone : (1 : UInt64) ≤ doubled k := by
    rw [UInt64.le_iff_toNat_le, doubled_toNat hk, UInt64.toNat_one]
    exact hpos
  have hne : doubled k ≠ 0 := by
    intro hzero
    rw [hzero] at hone
    exact absurd hone (by decide)
  intro h
  refine ⟨and_pred_lt hne h, ?_⟩
  rw [UInt64.toNat_and, UInt64.toNat_sub_of_le _ _ hone, UInt64.toNat_one, doubled_toNat hk,
    Nat.and_two_pow_sub_one_eq_mod]

/-- `init_hash_table` ends, and makes a table whose number of buckets is the request rounded up, or
returns 0 when `calloc` fails, exactly for the requests up to `2 ^ 63`. -/
theorem initHashTable_rounds_up (calloc : UInt64 → Bool) (bucketCount : UInt64) :
    (∃ n enough, IsRoundedUp bucketCount n ∧ MasksModulo n ∧ ∀ fuel ≥ enough,
      initHashTable fuel calloc bucketCount =
        .ok (if calloc n then some ⟨fun _ => [], n, 0⟩ else none)) ↔
      bucketCount.toNat ≤ 2 ^ 63 := by
  constructor
  · rintro ⟨n, enough, _, _, hruns⟩
    by_contra hlarge
    have hrun := hruns enough le_rfl
    rw [initHashTable, show (1 : UInt64) = doubled 0 from rfl,
      roundUp_endless (by omega) 0 enough] at hrun
    cases hrun
  · intro h
    have hclog : Nat.clog 2 bucketCount.toNat ≤ 63 := Nat.clog_le_of_le_pow h
    refine ⟨doubled (Nat.clog 2 bucketCount.toNat), Nat.clog 2 bucketCount.toNat + 1,
      isRoundedUp_clog h, masksModulo_doubled (by omega), fun fuel hfuel => ?_⟩
    rw [initHashTable, show (1 : UInt64) = doubled 0 from rfl,
      roundUp_doubled h (Nat.zero_le _) (by omega)]
    show (if _ then _ else _ : Except Fault (Option FhTable)) = _
    split_ifs <;> rfl

/-- A request of `2 ^ 63 + 1` buckets is never answered, whether `calloc` would succeed or not. -/
theorem initHashTable_hangs :
    ¬∃ fuel calloc r, initHashTable fuel calloc 0x8000000000000001 = .ok r := by
  rintro ⟨fuel, calloc, r, hrun⟩
  have hlarge : 2 ^ 63 < UInt64.toNat 0x8000000000000001 := by decide +kernel
  rw [initHashTable, show (1 : UInt64) = doubled 0 from rfl, roundUp_endless hlarge 0 fuel] at hrun
  cases hrun

end DirtyPages
