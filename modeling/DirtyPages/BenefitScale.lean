import DirtyPages.Benefit
import Mathlib.Data.UInt
import Mathlib.Tactic.Ring

/-!
# The scale of the benefit

The three totals of `benefit` count units of `2 ^ base`.  `encode_benefit` shifts the pending
amounts to this scale, and halves all totals together and raises the base when one of the sums would
not fit.  Each total then stands for what it stood for before plus its pending amount, up to less
than two units.
-/

namespace DirtyPages

open Outcome

/-! ### One total -/

/-- The total `X`, which counts units of `2 ^ b`, takes in the pending amount `x` and becomes `X'`,
which counts units of `2 ^ b'`. -/
structure Carried (b b' X x X' : ℕ) : Prop where
  sum : X' = X / 2 ^ (b' - b) + x / 2 ^ b'
  lower : X' * 2 ^ b' ≤ X * 2 ^ b + x
  upper : X * 2 ^ b + x < (X' + 2) * 2 ^ b'

/-- The amount that a total stands for lies within one unit of the sum at the same scale. -/
theorem scaled_sum (b X x : ℕ) :
    (X + x / 2 ^ b) * 2 ^ b ≤ X * 2 ^ b + x ∧ X * 2 ^ b + x < (X + x / 2 ^ b + 1) * 2 ^ b := by
  have hlow : x / 2 ^ b * 2 ^ b ≤ x := Nat.div_mul_le_self x _
  have hhigh : x < x / 2 ^ b * 2 ^ b + 2 ^ b := Nat.lt_div_mul_add (Nat.two_pow_pos b)
  constructor
  · rw [Nat.add_mul]
    omega
  · rw [Nat.add_mul, Nat.add_mul, Nat.one_mul]
    omega

theorem carried_same (b X x : ℕ) : Carried b b X x (X + x / 2 ^ b) := by
  obtain ⟨hlow, hhigh⟩ := scaled_sum b X x
  refine ⟨?_, hlow, lt_of_lt_of_le hhigh (Nat.mul_le_mul_right _ (by omega))⟩
  rw [Nat.sub_self, pow_zero, Nat.div_one]

/-- When the scale doubles, the total and the shifted amount lose at most a half unit more each. -/
theorem carried_halved (b X x : ℕ) : Carried b (b + 1) X x (X / 2 + x / 2 ^ (b + 1)) := by
  obtain ⟨hlow, hhigh⟩ := scaled_sum b X x
  have hhalf : x / 2 ^ (b + 1) = x / 2 ^ b / 2 := by rw [pow_succ, Nat.div_div_eq_div_mul]
  have hscale : ∀ n, n * 2 ^ (b + 1) = 2 * n * 2 ^ b := by
    intro n
    ring
  refine ⟨?_, ?_, ?_⟩
  · rw [Nat.add_sub_cancel_left, pow_one]
  · calc (X / 2 + x / 2 ^ (b + 1)) * 2 ^ (b + 1)
        = 2 * (X / 2 + x / 2 ^ (b + 1)) * 2 ^ b := hscale _
      _ ≤ (X + x / 2 ^ b) * 2 ^ b := Nat.mul_le_mul_right _ (by omega)
      _ ≤ X * 2 ^ b + x := hlow
  · calc X * 2 ^ b + x
        < (X + x / 2 ^ b + 1) * 2 ^ b := hhigh
      _ ≤ 2 * (X / 2 + x / 2 ^ (b + 1) + 2) * 2 ^ b := Nat.mul_le_mul_right _ (by omega)
      _ = (X / 2 + x / 2 ^ (b + 1) + 2) * 2 ^ (b + 1) := (hscale _).symm

/-! ### The three totals -/

theorem toNat_shiftRight_base (x : UInt64) {base : UInt64} (h : base.toNat < 64) :
    (x >>> base).toNat = x.toNat / 2 ^ base.toNat := by
  rw [UInt64.toNat_shiftRight, Nat.mod_eq_of_lt h, Nat.shiftRight_eq_div_pow]

theorem toNat_shiftRight_one (x : UInt64) : (x >>> 1).toNat = x.toNat / 2 := by
  rw [UInt64.toNat_shiftRight]
  rfl

/-- Two halves always fit. -/
theorem toNat_add_halves (x y : UInt64) :
    ((x >>> 1) + (y >>> 1)).toNat = x.toNat / 2 + y.toNat / 2 := by
  have hx := x.toNat_lt
  have hy := y.toNat_lt
  rw [UInt64.toNat_add, toNat_shiftRight_one, toNat_shiftRight_one]
  omega

/-- One of the three sums of `encode_benefit` does not fit at the current scale. -/
def Counters.MustHalve (c : Counters) : Prop :=
  canOverflowU64 c.benefit.pos (c.rshashPos >>> c.benefit.base) ∨
    canOverflowU64 c.benefit.neg (c.rshashNeg >>> c.benefit.base) ∨
    canOverflowU64 c.benefit.scanned
      ((c.uksmPagesScanned - c.uksmPagesScannedLast) >>> c.benefit.base)

/-- The stored benefit when the totals are halved. -/
theorem encodedBenefit_of_mustHalve {c : Counters} (h : c.MustHalve) :
    encodedBenefit c = c.benefit.halve.add (c.rshashPos >>> c.benefit.base >>> 1)
      (c.rshashNeg >>> c.benefit.base >>> 1)
      ((c.uksmPagesScanned - c.uksmPagesScannedLast) >>> c.benefit.base >>> 1) := by
  rw [encodedBenefit]
  exact if_pos h

theorem encodedBenefit_of_not_mustHalve {c : Counters} (h : ¬c.MustHalve) :
    encodedBenefit c = c.benefit.add (c.rshashPos >>> c.benefit.base)
      (c.rshashNeg >>> c.benefit.base)
      ((c.uksmPagesScanned - c.uksmPagesScannedLast) >>> c.benefit.base) := by
  rw [encodedBenefit]
  exact if_neg h

/-- One of the three sums at the current scale exceeds `U64_MAX`. -/
def Counters.Overflows (c : Counters) : Prop :=
  let b := c.benefit.base.toNat
  2 ^ 64 ≤ c.benefit.pos.toNat + c.rshashPos.toNat / 2 ^ b ∨
    2 ^ 64 ≤ c.benefit.neg.toNat + c.rshashNeg.toNat / 2 ^ b ∨
    2 ^ 64 ≤ c.benefit.scanned.toNat + (c.uksmPagesScanned - c.uksmPagesScannedLast).toNat / 2 ^ b

theorem overflows_iff {c : Counters} (hbase : c.benefit.base.toNat < 64) :
    c.MustHalve ↔ c.Overflows := by
  simp only [Counters.MustHalve, canOverflowU64_iff, toNat_shiftRight_base _ hbase,
    Counters.Overflows]

/-- The totals at the current scale, when all three sums fit. -/
theorem encodedBenefit_of_fits {c : Counters} (hbase : c.benefit.base.toNat < 64)
    (h : ¬c.Overflows) :
    (encodedBenefit c).base = c.benefit.base ∧
      (encodedBenefit c).pos.toNat =
        c.benefit.pos.toNat + c.rshashPos.toNat / 2 ^ c.benefit.base.toNat ∧
      (encodedBenefit c).neg.toNat =
        c.benefit.neg.toNat + c.rshashNeg.toNat / 2 ^ c.benefit.base.toNat ∧
      (encodedBenefit c).scanned.toNat = c.benefit.scanned.toNat +
        (c.uksmPagesScanned - c.uksmPagesScannedLast).toNat / 2 ^ c.benefit.base.toNat := by
  rw [← overflows_iff hbase] at h
  have hfits := h
  rw [Counters.MustHalve, not_or, not_or] at hfits
  rw [encodedBenefit_of_not_mustHalve h, Benefit.add]
  simp only [toNat_add_of_not_canOverflow hfits.1, toNat_add_of_not_canOverflow hfits.2.1,
    toNat_add_of_not_canOverflow hfits.2.2, toNat_shiftRight_base _ hbase, and_self]

/-- The totals at the doubled scale, when one of the sums does not fit. -/
theorem encodedBenefit_of_overflows {c : Counters} (hbase : c.benefit.base.toNat < 64)
    (h : c.Overflows) :
    (encodedBenefit c).base.toNat = c.benefit.base.toNat + 1 ∧
      (encodedBenefit c).pos.toNat =
        c.benefit.pos.toNat / 2 + c.rshashPos.toNat / 2 ^ (c.benefit.base.toNat + 1) ∧
      (encodedBenefit c).neg.toNat =
        c.benefit.neg.toNat / 2 + c.rshashNeg.toNat / 2 ^ (c.benefit.base.toNat + 1) ∧
      (encodedBenefit c).scanned.toNat = c.benefit.scanned.toNat / 2 +
        (c.uksmPagesScanned - c.uksmPagesScannedLast).toNat / 2 ^ (c.benefit.base.toNat + 1) := by
  rw [← overflows_iff hbase] at h
  have hhalf : ∀ x : ℕ, x / 2 ^ (c.benefit.base.toNat + 1) = x / 2 ^ c.benefit.base.toNat / 2 := by
    intro x
    rw [pow_succ, Nat.div_div_eq_div_mul]
  rw [encodedBenefit_of_mustHalve h, Benefit.add, Benefit.halve]
  simp only [toNat_add_halves, toNat_shiftRight_base _ hbase, hhalf, and_self, and_true]
  rw [UInt64.toNat_add, UInt64.toNat_one]
  omega

/-! ### The main result -/

/-- With pages scanned since the last transfer and the base below 64, `encode_benefit` moves each
total to the new scale without a wrap-around and with bounded rounding; the scale doubles only when
one of the sums would not fit; and a call that returns has left nothing pending. -/
theorem encodeBenefit_carries (c : Counters) (hbase : c.benefit.base.toNat < 64)
    (hscanned : c.uksmPagesScanned ≠ c.uksmPagesScannedLast) :
    let b := c.benefit.base.toNat
    let b' := (encodedBenefit c).base.toNat
    (b' = b ∨ b' = b + 1) ∧
    Carried b b' c.benefit.pos.toNat c.rshashPos.toNat (encodedBenefit c).pos.toNat ∧
    Carried b b' c.benefit.neg.toNat c.rshashNeg.toNat (encodedBenefit c).neg.toNat ∧
    Carried b b' c.benefit.scanned.toNat (c.uksmPagesScanned - c.uksmPagesScannedLast).toNat
      (encodedBenefit c).scanned.toNat ∧
    (b' = b + 1 → c.Overflows) ∧
    ∀ r c', encodeBenefit c = .ok (r, c') → r = true ∧ c'.benefit = encodedBenefit c ∧
      c'.rshashPos = 0 ∧ c'.rshashNeg = 0 ∧ c'.uksmPagesScanned - c'.uksmPagesScannedLast = 0 := by
  intro b b'
  have hreturns : ∀ r c', encodeBenefit c = .ok (r, c') → r = true ∧
      c'.benefit = encodedBenefit c ∧ c'.rshashPos = 0 ∧ c'.rshashNeg = 0 ∧
      c'.uksmPagesScanned - c'.uksmPagesScannedLast = 0 := by
    intro r c' h
    rcases encodeBenefit_eq_ok.mp h with ⟨_, hsame, _⟩ | ⟨hr, _, benefit, hbenefit, _, rfl⟩
    · exact absurd hsame hscanned
    · exact ⟨hr, hbenefit, rfl, rfl, UInt64.sub_self _⟩
  by_cases hover : c.Overflows
  · obtain ⟨hb', hpos, hneg, hscan⟩ := encodedBenefit_of_overflows hbase hover
    have hbb : b' = b + 1 := hb'
    refine ⟨Or.inr hbb, ?_, ?_, ?_, fun _ => hover, hreturns⟩
    · rw [hbb, hpos]
      exact carried_halved b _ _
    · rw [hbb, hneg]
      exact carried_halved b _ _
    · rw [hbb, hscan]
      exact carried_halved b _ _
  · obtain ⟨hb', hpos, hneg, hscan⟩ := encodedBenefit_of_fits hbase hover
    have hbb : b' = b := congrArg UInt64.toNat hb'
    refine ⟨Or.inl hbb, ?_, ?_, ?_, fun h => by omega, hreturns⟩
    · rw [hbb, hpos]
      exact carried_same b _ _
    · rw [hbb, hneg]
      exact carried_same b _ _
    · rw [hbb, hscan]
      exact carried_same b _ _

/-- Three pages and a full `rshash_neg` on top of a full `benefit.neg`, at the base 5. -/
theorem encodeBenefit_carries_full :
    let c : Counters := ⟨100, u64Max, ⟨7, u64Max, 9, 5⟩, 96, 0, 0, 0⟩
    (encodedBenefit c).base.toNat = 6 ∧
      Carried 5 6 c.benefit.neg.toNat c.rshashNeg.toNat (encodedBenefit c).neg.toNat := by
  intro c
  have hbase : (encodedBenefit c).base.toNat = 6 := by decide +kernel
  obtain ⟨_, _, hneg, _⟩ := encodeBenefit_carries c (by decide +kernel) (by decide +kernel)
  rw [hbase] at hneg
  exact ⟨hbase, hneg⟩

end DirtyPages
