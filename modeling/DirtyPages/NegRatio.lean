import DirtyPages.Adapt

/-!
# The ratio of negative to positive work

`get_current_neg_ratio` computes `100 * neg / pos` in 64-bit words.  Where the product would not fit
it divides `pos` by 100 beforehand instead.  The quotient by the divided number is at most one above
the exact percentage, and never above 100.
-/

namespace DirtyPages

open Outcome

/-! ### Dividing the divisor beforehand -/

section Prescaled

variable {d x y : ℕ}

/-- The smaller divisor only makes the quotient larger. -/
theorem le_prescaled_div (hd : 0 < d) (hq : 0 < y / d) : d * x / y ≤ x / (y / d) := by
  calc d * x / y
      ≤ d * x / (d * (y / d)) := Nat.div_le_div_left (Nat.mul_div_le y d) (Nat.mul_pos hd hq)
    _ = x / (y / d) := Nat.mul_div_mul_left x (y / d) hd

/-- What the division of the divisor cuts off stays below one of its own units. -/
theorem lt_prescaled (hd : 0 < d) : y < d * (y / d + 1) := by
  have hmod : d * (y / d) + y % d = y := Nat.div_add_mod y d
  have hlt : y % d < d := Nat.mod_lt y hd
  rw [Nat.mul_add, Nat.mul_one]
  omega

theorem prescaled_div_le_scale (hd : 0 < d) (hq : d < y / d) (hx : x ≤ y) : x / (y / d) ≤ d := by
  have hy : y < d * (y / d + 1) := lt_prescaled hd
  rw [← Nat.lt_succ_iff, Nat.div_lt_iff_lt_mul (by omega)]
  calc x ≤ y := hx
    _ < d * (y / d + 1) := hy
    _ = d * (y / d) + d := by rw [Nat.mul_add, Nat.mul_one]
    _ ≤ d * (y / d) + y / d := by omega
    _ = (d + 1) * (y / d) := by rw [Nat.add_mul, Nat.one_mul]

/-- With a large enough divisor the quotient is at most one above the exact one. -/
theorem prescaled_div_le (hd : 0 < d) (hq : d < y / d) (hx : x ≤ y) :
    x / (y / d) ≤ d * x / y + 1 := by
  have hpos : 0 < y := by
    rcases Nat.eq_zero_or_pos y with rfl | hpos
    · rw [Nat.zero_div] at hq
      omega
    · exact hpos
  have hratio : d * x / y ≤ d := Nat.div_le_of_le_mul (by rw [Nat.mul_comm y]; gcongr)
  have hfloor : d * x < (d * x / y + 1) * y := by
    rw [Nat.mul_comm (d * x / y + 1)]
    exact Nat.lt_mul_div_succ (d * x) hpos
  have hx' : x < (d * x / y + 1) * (y / d + 1) := by
    refine Nat.lt_of_mul_lt_mul_left (a := d) ?_
    calc d * x < (d * x / y + 1) * y := hfloor
      _ ≤ (d * x / y + 1) * (d * (y / d + 1)) := Nat.mul_le_mul_left _ (lt_prescaled hd).le
      _ = d * ((d * x / y + 1) * (y / d + 1)) := by rw [Nat.mul_left_comm]
  rw [← Nat.lt_succ_iff, Nat.div_lt_iff_lt_mul (by omega)]
  calc x < (d * x / y + 1) * (y / d + 1) := hx'
    _ = (d * x / y + 1) * (y / d) + (d * x / y + 1) := by rw [Nat.mul_add, Nat.mul_one]
    _ ≤ (d * x / y + 1) * (y / d) + y / d := by omega
    _ = (d * x / y + 1 + 1) * (y / d) := by rw [Nat.add_mul (d * x / y + 1), Nat.one_mul]

/-- The quotient stays below the exact ratio and one more. -/
theorem prescaled_div_mul_lt (hd : 0 < d) (hq : d < y / d) (hx : x ≤ y) :
    x / (y / d) * y < d * x + y := by
  have hle : x / (y / d) ≤ d := prescaled_div_le_scale hd hq hx
  have hfloor : x / (y / d) * (y / d) ≤ x := Nat.div_mul_le_self x (y / d)
  have hsplit : d * (y / d) + y % d = y := Nat.div_add_mod y d
  have hrest : x / (y / d) * (y % d) < d * d :=
    lt_of_le_of_lt (Nat.mul_le_mul_right _ hle) ((Nat.mul_lt_mul_left hd).mpr (Nat.mod_lt y hd))
  have hlarge : d * d ≤ d * (y / d) := Nat.mul_le_mul_left d hq.le
  calc x / (y / d) * y
      = x / (y / d) * (d * (y / d) + y % d) := by rw [hsplit]
    _ = d * (x / (y / d) * (y / d)) + x / (y / d) * (y % d) := by ring
    _ ≤ d * x + x / (y / d) * (y % d) := Nat.add_le_add_right (Nat.mul_le_mul_left d hfloor) _
    _ < d * x + y := by omega

end Prescaled

/-! ### The four ways to the ratio -/

/-- The largest `neg` whose hundredfold fits 64 bits. -/
theorem toNat_negLimit : (u64Max / 100).toNat = (2 ^ 64 - 1) / 100 := by
  rw [UInt64.toNat_div, toNat_u64Max]
  rfl

theorem getCurrentNegRatio_of_zero {b : Benefit} (h : b.neg = 0) :
    getCurrentNegRatio b = .ok 0 := by
  rw [getCurrentNegRatio, if_pos h]

theorem getCurrentNegRatio_of_above {b : Benefit} (h : b.neg > b.pos) :
    getCurrentNegRatio b = .ok 100 := by
  have hneg : b.neg ≠ 0 := by
    rintro hzero
    rw [hzero] at h
    exact absurd h UInt64.not_lt_zero
  rw [getCurrentNegRatio, if_neg hneg, if_pos (Or.inr h)]

section Below

variable {b : Benefit}

theorem pos_ne_zero_of_neg (hneg : 0 < b.neg) (hle : b.neg ≤ b.pos) : b.pos ≠ 0 := by
  rw [UInt64.lt_iff_toNat_lt] at hneg
  rw [UInt64.le_iff_toNat_le] at hle
  intro hzero
  rw [hzero] at hle
  exact absurd (lt_of_lt_of_le hneg hle) (Nat.lt_irrefl _)

theorem getCurrentNegRatio_below (hneg : 0 < b.neg) (hle : b.neg ≤ b.pos) :
    getCurrentNegRatio b =
      if b.neg > u64Max / 100 then div64U64 b.neg (b.pos / 100)
      else div64U64 (b.neg * 100) b.pos := by
  have hlimit : div64U64 u64Max 100 = .ok (u64Max / 100) := div64U64_of_ne_zero (by decide)
  have hhundred : div64U64 b.pos 100 = .ok (b.pos / 100) := div64U64_of_ne_zero (by decide)
  have hguard : ¬(b.pos = 0 ∨ b.neg > b.pos) := by
    rintro (hzero | hgt)
    · exact pos_ne_zero_of_neg hneg hle hzero
    · exact absurd hle (UInt64.not_le.mpr hgt)
  rw [getCurrentNegRatio, if_neg (UInt64.pos_iff_ne_zero.mp hneg), if_neg hguard, hlimit]
  show (if b.neg > u64Max / 100 then div64U64 b.pos 100 >>= fun pos => div64U64 b.neg pos
    else div64U64 (b.neg * 100) b.pos) = _
  rw [hhundred]
  rfl

/-- Up to the limit the product is exact, and so is the percentage. -/
theorem getCurrentNegRatio_scaled (hneg : 0 < b.neg) (hle : b.neg ≤ b.pos)
    (hsmall : b.neg ≤ u64Max / 100) :
    ∃ r, getCurrentNegRatio b = .ok r ∧ r.toNat = 100 * b.neg.toNat / b.pos.toNat := by
  refine ⟨b.neg * 100 / b.pos, ?_, ?_⟩
  · rw [getCurrentNegRatio_below hneg hle, if_neg (UInt64.not_lt.mpr hsmall),
      div64U64_of_ne_zero (pos_ne_zero_of_neg hneg hle)]
  · rw [UInt64.le_iff_toNat_le, toNat_negLimit] at hsmall
    rw [UInt64.toNat_div, UInt64.toNat_mul, Nat.mul_comm 100]
    have hfit : b.neg.toNat * (100 : UInt64).toNat < 2 ^ 64 := by
      show b.neg.toNat * 100 < 2 ^ 64
      omega
    rw [Nat.mod_eq_of_lt hfit]
    rfl

/-- Above the limit the divisor is divided, and still far above 100. -/
theorem getCurrentNegRatio_prescaled (hneg : 0 < b.neg) (hle : b.neg ≤ b.pos)
    (hlarge : b.neg > u64Max / 100) :
    ∃ r, getCurrentNegRatio b = .ok r ∧ r.toNat = b.neg.toNat / (b.pos.toNat / 100) ∧
      100 < b.pos.toNat / 100 := by
  rw [UInt64.le_iff_toNat_le] at hle
  have hlimit := hlarge
  rw [gt_iff_lt, UInt64.lt_iff_toNat_lt, toNat_negLimit] at hlimit
  have hdivisor : 100 < b.pos.toNat / 100 := by omega
  have hquot : (b.pos / 100).toNat = b.pos.toNat / 100 := UInt64.toNat_div _ _
  have hne : b.pos / 100 ≠ 0 := by
    intro hzero
    rw [hzero] at hquot
    have hquot0 : 0 = b.pos.toNat / 100 := hquot
    omega
  refine ⟨b.neg / (b.pos / 100), ?_, ?_, hdivisor⟩
  · rw [getCurrentNegRatio_below hneg (UInt64.le_iff_toNat_le.mpr hle), if_pos hlarge,
      div64U64_of_ne_zero hne]
  · rw [UInt64.toNat_div, hquot]

end Below

/-! ### The main result -/

/-- For all totals the ratio is computed without a division by zero, its one multiplication does not
wrap, and it is the percentage of `neg` in `pos`: at most 100, 0 exactly for no negative work, 100
for more negative than positive work, and otherwise rounded down or, where `pos` is divided
beforehand, at most one above that. -/
theorem getCurrentNegRatio_accurate (b : Benefit) :
    (¬b.neg > u64Max / 100 → (b.neg * 100).toNat = b.neg.toNat * 100) ∧
    ∃ r, getCurrentNegRatio b = .ok r ∧ r.toNat ≤ 100 ∧
      (b.neg = 0 → r = 0) ∧ (b.neg > b.pos → r = 100) ∧
      (0 < b.neg → b.neg ≤ b.pos →
        100 * b.neg.toNat / b.pos.toNat ≤ r.toNat ∧
        r.toNat ≤ 100 * b.neg.toNat / b.pos.toNat + 1 ∧
        (b.neg ≤ u64Max / 100 → r.toNat = 100 * b.neg.toNat / b.pos.toNat)) := by
  refine ⟨?_, ?_⟩
  · intro hsmall
    rw [UInt64.not_lt, UInt64.le_iff_toNat_le, toNat_negLimit] at hsmall
    rw [UInt64.toNat_mul]
    exact Nat.mod_eq_of_lt (show b.neg.toNat * 100 < 2 ^ 64 by omega)
  by_cases hzero : b.neg = 0
  · refine ⟨0, getCurrentNegRatio_of_zero hzero, Nat.zero_le _, fun _ => rfl, ?_, ?_⟩
    · intro habove
      rw [hzero] at habove
      exact absurd habove UInt64.not_lt_zero
    · intro hneg
      exact absurd hzero (UInt64.pos_iff_ne_zero.mp hneg)
  by_cases habove : b.neg > b.pos
  · refine ⟨100, getCurrentNegRatio_of_above habove, Nat.le_refl 100, fun h => absurd h hzero,
      fun _ => rfl, ?_⟩
    intro _ hle
    exact absurd habove (UInt64.not_lt.mpr hle)
  have hneg : 0 < b.neg := UInt64.pos_iff_ne_zero.mpr hzero
  have hle : b.neg ≤ b.pos := UInt64.not_lt.mp habove
  have hleNat : b.neg.toNat ≤ b.pos.toNat := UInt64.le_iff_toNat_le.mp hle
  by_cases hlarge : b.neg > u64Max / 100
  · obtain ⟨r, hr, hvalue, hdivisor⟩ := getCurrentNegRatio_prescaled hneg hle hlarge
    refine ⟨r, hr, ?_, fun h => absurd h hzero, fun h => absurd h habove, fun _ _ => ⟨?_, ?_, ?_⟩⟩
    · rw [hvalue]
      exact prescaled_div_le_scale (by decide) hdivisor hleNat
    · rw [hvalue]
      exact le_prescaled_div (by decide) (by omega)
    · rw [hvalue]
      exact prescaled_div_le (by decide) hdivisor hleNat
    · intro hsmall
      exact absurd hlarge (UInt64.not_lt.mpr hsmall)
  · have hsmall : b.neg ≤ u64Max / 100 := UInt64.not_lt.mp hlarge
    obtain ⟨r, hr, hvalue⟩ := getCurrentNegRatio_scaled hneg hle hsmall
    refine ⟨r, hr, ?_, fun h => absurd h hzero, fun h => absurd h habove,
      fun _ _ => ⟨hvalue.ge, by omega, fun _ => hvalue⟩⟩
    rw [hvalue]
    exact Nat.div_le_of_le_mul (by rw [Nat.mul_comm b.pos.toNat]; gcongr)

end DirtyPages
