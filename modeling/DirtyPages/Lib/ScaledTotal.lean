import Mathlib.Tactic.Ring

/-!
# Totals in scaled units

A total of fixed width that keeps growing is kept in units of a power of two.  Each amount is cut
down to whole units when it is taken in, and when the count would not fit, count and amount are
halved and the unit doubles.  The count never stands for too much, and for each amount that was
taken in it falls short by at most one unit, however often the unit has doubled in between.
-/

namespace ScaledTotal

/-- What a count may fall short by after `taken` amounts: nothing as long as the unit is 1. -/
def gap (scale taken : ℕ) : ℕ := if scale = 0 then 0 else (taken + 1) * 2 ^ scale

theorem gap_mono {scale taken taken' : ℕ} (h : taken ≤ taken') :
    gap scale taken ≤ gap scale taken' := by
  rw [gap, gap]
  split_ifs
  · exact Nat.le_refl 0
  · exact Nat.mul_le_mul_right _ (Nat.succ_le_succ h)

/-- `count` units of `2 ^ scale` stand for a sum of `taken` amounts. -/
structure Stands (scale count sum taken : ℕ) : Prop where
  lower : count * 2 ^ scale ≤ sum
  upper : sum ≤ count * 2 ^ scale + gap scale taken

theorem stands_zero : Stands 0 0 0 0 := ⟨Nat.le_refl 0, Nat.le_refl 0⟩

section Take

variable {scale count sum taken : ℕ}

/-- The next amount, in whole units. -/
theorem Stands.take (h : Stands scale count sum taken) (x : ℕ) :
    Stands scale (count + x / 2 ^ scale) (sum + x) (taken + 1) := by
  have hlow : x / 2 ^ scale * 2 ^ scale ≤ x := Nat.div_mul_le_self x _
  have hhigh : x < x / 2 ^ scale * 2 ^ scale + 2 ^ scale :=
    Nat.lt_div_mul_add (Nat.two_pow_pos scale)
  obtain ⟨hlower, hupper⟩ := h
  constructor
  · rw [Nat.add_mul]
    omega
  · rw [Nat.add_mul]
    by_cases hzero : scale = 0
    · subst hzero
      simp only [gap, if_true, pow_zero, Nat.div_one, Nat.mul_one] at hupper ⊢
      omega
    · rw [gap, if_neg hzero] at hupper ⊢
      have hnext : (taken + 1 + 1) * 2 ^ scale = (taken + 1) * 2 ^ scale + 2 ^ scale := by ring
      omega

/-- The next amount, when the unit doubles: count and amount are halved before the addition. -/
theorem Stands.take_halved (h : Stands scale count sum taken) (x : ℕ) :
    Stands (scale + 1) (count / 2 + x / 2 ^ (scale + 1)) (sum + x) (taken + 1) := by
  have hlow : x / 2 ^ scale * 2 ^ scale ≤ x := Nat.div_mul_le_self x _
  have hhigh : x < x / 2 ^ scale * 2 ^ scale + 2 ^ scale :=
    Nat.lt_div_mul_add (Nat.two_pow_pos scale)
  have hhalf : x / 2 ^ (scale + 1) = x / 2 ^ scale / 2 := by rw [pow_succ, Nat.div_div_eq_div_mul]
  have hgap : gap scale taken ≤ (taken + 1) * 2 ^ scale := by
    rw [gap]
    split_ifs
    · exact Nat.zero_le _
    · exact Nat.le_refl _
  have hdouble : ∀ n, n * 2 ^ (scale + 1) = 2 * n * 2 ^ scale := by
    intro n
    ring
  obtain ⟨hlower, hupper⟩ := h
  rw [hhalf]
  constructor
  · calc (count / 2 + x / 2 ^ scale / 2) * 2 ^ (scale + 1)
        = 2 * (count / 2 + x / 2 ^ scale / 2) * 2 ^ scale := hdouble _
      _ ≤ (count + x / 2 ^ scale) * 2 ^ scale := Nat.mul_le_mul_right _ (by omega)
      _ = count * 2 ^ scale + x / 2 ^ scale * 2 ^ scale := Nat.add_mul _ _ _
      _ ≤ sum + x := by omega
  · rw [gap, if_neg (Nat.succ_ne_zero scale), ← Nat.add_mul, hdouble]
    calc sum + x
        ≤ count * 2 ^ scale + (taken + 1) * 2 ^ scale +
            (x / 2 ^ scale * 2 ^ scale + 2 ^ scale) := by omega
      _ = (count + x / 2 ^ scale + taken + 2) * 2 ^ scale := by ring
      _ ≤ 2 * (count / 2 + x / 2 ^ scale / 2 + (taken + 1 + 1)) * 2 ^ scale :=
        Nat.mul_le_mul_right _ (by omega)

/-- Where the count would pass a limit, so many units have been taken in. -/
theorem Stands.limit_le (h : Stands scale count sum taken) {x limit : ℕ}
    (hfull : limit ≤ count + x / 2 ^ scale) : limit * 2 ^ scale ≤ sum + x :=
  (Nat.mul_le_mul_right _ hfull).trans (h.take x).lower

end Take

/-! ### Ratios of two totals in the same unit -/

section Ratios

variable {scale p n P N taken d r : ℕ}

/-- A ratio that is not too large for the counts is not too large for the sums. -/
theorem Stands.ratio_lt (hp : Stands scale p P taken) (hn : Stands scale n N taken) (hr : r ≤ d)
    (hP : 0 < P) (h : 0 < p → r * p < d * n + p) : r * P < d * N + P + d * gap scale taken := by
  have hsums : d * (n * 2 ^ scale) + p * 2 ^ scale ≤ d * N + P :=
    Nat.add_le_add (Nat.mul_le_mul_left d hn.lower) hp.lower
  have hgap : r * gap scale taken ≤ d * gap scale taken := Nat.mul_le_mul_right _ hr
  have hupper : r * P ≤ r * p * 2 ^ scale + r * gap scale taken := by
    calc r * P ≤ r * (p * 2 ^ scale + gap scale taken) := Nat.mul_le_mul_left r hp.upper
      _ = r * p * 2 ^ scale + r * gap scale taken := by ring
  rcases Nat.eq_zero_or_pos p with rfl | hpos
  · -- all of the positive sum is in the gap
    simp only [Nat.mul_zero, Nat.zero_mul] at hupper
    omega
  · have hcounts : r * p * 2 ^ scale < d * (n * 2 ^ scale) + p * 2 ^ scale := by
      calc r * p * 2 ^ scale < (d * n + p) * 2 ^ scale :=
            (Nat.mul_lt_mul_right (Nat.two_pow_pos scale)).mpr (h hpos)
        _ = d * (n * 2 ^ scale) + p * 2 ^ scale := by ring
    omega

/-- A ratio that is not too small for the counts is not too small for the sums. -/
theorem Stands.lt_ratio (hp : Stands scale p P taken) (hn : Stands scale n N taken) (hP : 0 < P)
    (h : 0 < p → d * n < (r + 1) * p) (hnone : p = 0 → n = 0) :
    d * N < (r + 1) * P + d * gap scale taken := by
  have hsum : (r + 1) * (p * 2 ^ scale) ≤ (r + 1) * P := Nat.mul_le_mul_left _ hp.lower
  have hupper : d * N ≤ d * n * 2 ^ scale + d * gap scale taken := by
    calc d * N ≤ d * (n * 2 ^ scale + gap scale taken) := Nat.mul_le_mul_left d hn.upper
      _ = d * n * 2 ^ scale + d * gap scale taken := by ring
  rcases Nat.eq_zero_or_pos p with hzero | hpos
  · have hpart : 0 < (r + 1) * P := Nat.mul_pos (Nat.succ_pos r) hP
    rw [hnone hzero, Nat.mul_zero, Nat.zero_mul] at hupper
    omega
  · have hcounts : d * n * 2 ^ scale < (r + 1) * (p * 2 ^ scale) := by
      calc d * n * 2 ^ scale < (r + 1) * p * 2 ^ scale :=
            (Nat.mul_lt_mul_right (Nat.two_pow_pos scale)).mpr (h hpos)
        _ = (r + 1) * (p * 2 ^ scale) := by ring
    omega

/-- A sum of which nothing is counted is within the gap. -/
theorem Stands.le_gap (hn : Stands scale 0 N taken) : N ≤ gap scale taken := by
  have hupper := hn.upper
  rwa [Nat.zero_mul, Nat.zero_add] at hupper

/-- Nothing is counted of nothing. -/
theorem Stands.eq_zero (hn : Stands scale n 0 taken) : n = 0 := by
  have hlower := Nat.eq_zero_of_le_zero hn.lower
  exact (Nat.mul_eq_zero.mp hlower).resolve_right (Nat.two_pow_pos scale).ne'

end Ratios

end ScaledTotal
