import DirtyPages.Adapt

/-!
# The drift of the benefit from its baseline

`judge_rshash_direction` takes its last decision on the drift of the current benefit from
`stable_benefit`, in percent.  The percentage is computed in 64 bits and the product with 100 is not
guarded, unlike the product in `get_current_neg_ratio`.  A wrap-around makes the drift smaller and
never larger, so the test misses large drifts and invents none.
-/

namespace DirtyPages

open Outcome

/-! ### The test of the source and the exact test -/

/-- The distance of the current benefit from the baseline, as the source computes it. -/
def driftDelta (current stable : UInt64) : UInt64 :=
  if current > stable then current - stable else if current < stable then stable - current else 0

/-- The same distance over the natural numbers. -/
def distance (current stable : UInt64) : ℕ :=
  (current.toNat - stable.toNat) + (stable.toNat - current.toNat)

/-- The drift in percent of the baseline, rounded down, over the natural numbers. -/
def driftPercent (current stable : UInt64) : ℕ :=
  100 * distance current stable / stable.toNat

/-- The end of `judge_rshash_direction`, given whether the drift is large: with a large drift
`rshash_cont_obscure` counts, and from the third time on the answer is `OBSCURE`. -/
def judgedByDrift (large : Prop) [Decidable large] (a : Adaptation) : RshashDirect × Adaptation :=
  if large then
    (if a.rshashContObscure + 1 > 2 then .obscure else .still,
      { a with rshashNegContZero := 0, rshashContObscure := a.rshashContObscure + 1 })
  else
    (.still, { a with rshashNegContZero := 0, rshashContObscure := 0 })

/-- The product of the distance with 100 either stays below 51 baselines, or is at least that also
modulo `2 ^ 64`. -/
def DriftSeen (current stable : UInt64) : Prop :=
  100 * distance current stable < 51 * stable.toNat ∨
    51 * stable.toNat ≤ 100 * distance current stable % 2 ^ 64

instance (current stable : UInt64) : Decidable (DriftSeen current stable) :=
  inferInstanceAs (Decidable (_ ∨ _))

theorem driftDelta_toNat (current stable : UInt64) :
    (driftDelta current stable).toNat = distance current stable := by
  rw [driftDelta, distance]
  by_cases hmore : current > stable
  · have hlt := hmore
    rw [gt_iff_lt, UInt64.lt_iff_toNat_lt] at hlt
    rw [if_pos hmore, UInt64.toNat_sub_of_le _ _ (UInt64.le_of_lt hmore)]
    omega
  · rw [if_neg hmore]
    rw [gt_iff_lt, UInt64.lt_iff_toNat_lt] at hmore
    by_cases hless : current < stable
    · have hlt := hless
      rw [UInt64.lt_iff_toNat_lt] at hlt
      rw [if_pos hless, UInt64.toNat_sub_of_le _ _ (UInt64.le_of_lt hless)]
      omega
    · rw [if_neg hless, UInt64.toNat_zero]
      rw [UInt64.lt_iff_toNat_lt] at hless
      omega

/-- The test of the source compares the product modulo `2 ^ 64`. -/
theorem driftTest_iff {current stable : UInt64} (hstable : stable ≠ 0) :
    100 * driftDelta current stable / stable > 50 ↔
      51 * stable.toNat ≤ 100 * distance current stable % 2 ^ 64 := by
  have hpos : 0 < stable.toNat := Nat.pos_of_ne_zero fun h => hstable (UInt64.toNat_inj.mp h)
  rw [gt_iff_lt, UInt64.lt_iff_toNat_lt, UInt64.toNat_div, UInt64.toNat_mul, driftDelta_toNat]
  show 50 < 100 * distance current stable % 2 ^ 64 / stable.toNat ↔ _
  rw [← Nat.succ_le_iff, Nat.le_div_iff_mul_le hpos]

theorem driftPercent_iff {current stable : UInt64} (hstable : stable ≠ 0) :
    50 < driftPercent current stable ↔
      51 * stable.toNat ≤ 100 * distance current stable := by
  have hpos : 0 < stable.toNat := Nat.pos_of_ne_zero fun h => hstable (UInt64.toNat_inj.mp h)
  rw [driftPercent, ← Nat.succ_le_iff, Nat.le_div_iff_mul_le hpos]

/-- The two tests agree exactly when a large drift is seen. -/
theorem driftTests_agree_iff {current stable : UInt64} (hstable : stable ≠ 0) :
    (100 * driftDelta current stable / stable > 50 ↔ 50 < driftPercent current stable) ↔
      DriftSeen current stable := by
  have hle := Nat.mod_le (100 * distance current stable) (2 ^ 64)
  rw [driftTest_iff hstable, driftPercent_iff hstable, DriftSeen]
  omega

/-! ### The decision -/

/-- With a ratio between 1 and 90 and a baseline, the decision is taken on the drift. -/
theorem judgeRshashDirection_drift {round : UInt64} {b : Benefit} {a : Adaptation} {ratio : UInt64}
    (hround : round &&& 0xFF ≠ 10) (hscanned : b.scanned ≠ 0)
    (hratio : getCurrentNegRatio b = .ok ratio) (hlow : 1 ≤ ratio) (hhigh : ratio ≤ 90)
    (hstable : a.rshashState.stableBenefit ≠ 0) :
    judgeRshashDirection round b a =
      .ok (judgedByDrift (100 * driftDelta (netBenefit b) a.rshashState.stableBenefit /
        a.rshashState.stableBenefit > 50) a) := by
  have hzero : ratio ≠ 0 := by
    intro h
    rw [h] at hlow
    exact absurd hlow (by decide)
  have hninety : ¬ratio > 90 := UInt64.not_lt.mpr hhigh
  rw [judgeRshashDirection, if_neg hround, hratio]
  show (if ratio = 0 then _ else _) = _
  rw [if_neg hzero]
  show (if ratio > 90 then _ else _) = _
  rw [if_neg hninety, getCurrentBenefit_eq_ok hscanned]
  show (if a.rshashState.stableBenefit = 0 then _ else _) = _
  rw [if_neg hstable, div64U64_of_ne_zero hstable]
  show (if 100 * driftDelta (netBenefit b) a.rshashState.stableBenefit /
    a.rshashState.stableBenefit > 50 then _ else _) = _
  rw [judgedByDrift]
  split_ifs <;> rfl

theorem add_one_eq_zero_iff (x : UInt64) : x + 1 = 0 ↔ x = u64Max := by
  have hx := x.toNat_lt
  rw [← UInt64.toNat_inj, ← UInt64.toNat_inj, UInt64.toNat_add, toNat_u64Max, UInt64.toNat_one,
    UInt64.toNat_zero]
  omega

/-- The two outcomes differ, unless the count of obscure rounds wraps to 0. -/
theorem judgedByDrift_true_eq_false (a : Adaptation) :
    judgedByDrift True a = judgedByDrift False a ↔ a.rshashContObscure = u64Max := by
  rw [judgedByDrift, judgedByDrift, if_pos True.intro, if_neg not_false, ← add_one_eq_zero_iff]
  constructor
  · intro h
    exact congrArg (fun p => p.2.rshashContObscure) h
  · intro h
    rw [h]
    rfl

theorem judgedByDrift_congr {large large' : Prop} [Decidable large] [Decidable large']
    (h : large ↔ large') (a : Adaptation) : judgedByDrift large a = judgedByDrift large' a := by
  rw [judgedByDrift, judgedByDrift]
  by_cases hl : large
  · rw [if_pos hl, if_pos (h.mp hl)]
  · rw [if_neg hl, if_neg fun hl' => hl (h.mpr hl')]

theorem judgedByDrift_eq_iff (large large' : Prop) [Decidable large] [Decidable large']
    (a : Adaptation) :
    judgedByDrift large a = judgedByDrift large' a ↔
      (large ↔ large') ∨ a.rshashContObscure = u64Max := by
  by_cases hl : large
  · rw [judgedByDrift_congr (iff_true_intro hl)]
    by_cases hl' : large'
    · rw [judgedByDrift_congr (iff_true_intro hl')]
      exact iff_of_true rfl (Or.inl (iff_of_true hl hl'))
    · rw [judgedByDrift_congr (iff_false_intro hl'), judgedByDrift_true_eq_false]
      exact ⟨Or.inr, fun h => h.resolve_left fun hiff => hl' (hiff.mp hl)⟩
  · rw [judgedByDrift_congr (iff_false_intro hl)]
    by_cases hl' : large'
    · rw [judgedByDrift_congr (iff_true_intro hl'), eq_comm, judgedByDrift_true_eq_false]
      exact ⟨Or.inr, fun h => h.resolve_left fun hiff => hl (hiff.mpr hl')⟩
    · rw [judgedByDrift_congr (iff_false_intro hl')]
      exact iff_of_true rfl (Or.inl (iff_of_false hl hl'))

/-! ### The main result -/

/-- With pages counted, a ratio between 1 and 90, a baseline, and no periodic re-probe due, the
decision is the one by the exact drift exactly when the drift is seen; or when
`rshash_cont_obscure` stands at `U64_MAX`, where both branches end alike. -/
theorem driftTest_exact (round : UInt64) (b : Benefit) (a : Adaptation) (ratio : UInt64)
    (hround : round &&& 0xFF ≠ 10) (hscanned : b.scanned ≠ 0)
    (hratio : getCurrentNegRatio b = .ok ratio) (hlow : 1 ≤ ratio) (hhigh : ratio ≤ 90)
    (hstable : a.rshashState.stableBenefit ≠ 0) :
    judgeRshashDirection round b a =
        .ok (judgedByDrift (50 < driftPercent (netBenefit b) a.rshashState.stableBenefit) a) ↔
      DriftSeen (netBenefit b) a.rshashState.stableBenefit ∨ a.rshashContObscure = u64Max := by
  rw [judgeRshashDirection_drift hround hscanned hratio hlow hhigh hstable, Except.ok.injEq,
    judgedByDrift_eq_iff, driftTests_agree_iff hstable]

/-- A benefit of 50 against a baseline of 10: a drift of 400 percent. -/
theorem driftTest_exact_fourfold :
    judgeRshashDirection 1 ⟨100, 50, 1, 0⟩ (enterStill 10 initialAdaptation) =
      .ok (judgedByDrift (50 < driftPercent (netBenefit ⟨100, 50, 1, 0⟩) 10)
        (enterStill 10 initialAdaptation)) :=
  (driftTest_exact 1 ⟨100, 50, 1, 0⟩ (enterStill 10 initialAdaptation) 50 (by decide) (by decide)
    (by decide +kernel) (by decide) (by decide) (by decide)).mpr (Or.inl (by decide +kernel))

/-- A benefit of `2 ^ 62 + 1` against a baseline of 1, with a ratio of 20: the product wraps to 0
and the drift is not seen. -/
theorem driftTest_wraps :
    let b : Benefit := ⟨0x5000000000000001, 0x1000000000000000, 1, 0⟩
    let a := enterStill 1 initialAdaptation
    getCurrentNegRatio b = .ok 20 ∧ (netBenefit b).toNat = 2 ^ 62 + 1 ∧
    driftPercent (netBenefit b) 1 = 100 * 2 ^ 62 ∧
    judgeRshashDirection 1 b a = .ok (.still, a) ∧
    judgedByDrift (50 < driftPercent (netBenefit b) 1) a =
      (.still, { a with rshashContObscure := 1 }) ∧
    judgeRshashDirection 1 b a ≠
      .ok (judgedByDrift (50 < driftPercent (netBenefit b) 1) a) := by
  intro b a
  refine ⟨?_, ?_, ?_, ?_, ?_, ?_⟩ <;> decide +kernel

end DirtyPages
