import Mathlib.Data.BitVec

/-!
# Xor-shift mixing of machine words

`fold n x = x ^^^ (x >>> n)` is the xor-shift used by integer hashes.  Folding twice by `n` is
folding once by `n + n`, and folding by at least the word width does nothing, so two folds undo one
fold as soon as the fourfold shift leaves the word.  Each fold is therefore a permutation of the
words, with an inverse that is itself computed by folds.
-/

namespace XorShift

variable {w : ℕ}

/-- Xor a word with its own right shift. -/
def fold (n : ℕ) (x : BitVec w) : BitVec w := x ^^^ (x >>> n)

theorem fold_fold (n : ℕ) (x : BitVec w) : fold n (fold n x) = fold (n + n) x := by
  simp only [fold, BitVec.ushiftRight_xor_distrib, ← BitVec.shiftRight_add]
  rw [BitVec.xor_assoc, ← BitVec.xor_assoc (x >>> n), BitVec.xor_self, BitVec.zero_xor]

theorem fold_comm (m n : ℕ) (x : BitVec w) : fold m (fold n x) = fold n (fold m x) := by
  simp only [fold, BitVec.ushiftRight_xor_distrib, ← BitVec.shiftRight_add, Nat.add_comm n m]
  ac_rfl

theorem fold_of_le {n : ℕ} (h : w ≤ n) (x : BitVec w) : fold n x = x := by
  rw [fold, BitVec.ushiftRight_eq_zero h, BitVec.xor_zero]

/-- Folding by `n` and by `n + n` undoes a fold by `n`. -/
theorem unfold_fold {n : ℕ} (h : w ≤ n + n + (n + n)) (x : BitVec w) :
    fold (n + n) (fold n (fold n x)) = x := by
  rw [fold_fold, fold_fold, fold_of_le h]

/-- The same two folds are undone by a fold by `n`. -/
theorem fold_unfold {n : ℕ} (h : w ≤ n + n + (n + n)) (x : BitVec w) :
    fold n (fold (n + n) (fold n x)) = x := by
  rw [fold_comm n (n + n), unfold_fold h]

theorem fold_bijective {n : ℕ} (h : w ≤ n + n + (n + n)) :
    Function.Bijective (fold n : BitVec w → BitVec w) :=
  Function.bijective_iff_has_inverse.mpr
    ⟨fun x => fold (n + n) (fold n x), unfold_fold h, fold_unfold h⟩

end XorShift
