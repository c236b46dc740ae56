import Mathlib.Algebra.Group.End
import Mathlib.Data.List.Basic

/-!
# Walks of reversible steps

A track assigns to every position `n` a permutation `track n` of the state space.  `climb track n`
performs the steps of positions `0, 1, …, n - 1` in order, and `travel track a b` carries a state
that has climbed to `a` over to `b`.  Because every step is reversible the result depends on the two
end points only: `travel` is path independent, and going up is a fold of the steps while going down
is a fold of their inverses in the opposite order.
-/

namespace ReversibleWalk

variable {σ : Type*}

/-- The steps of positions `0, …, n - 1`, in this order. -/
def climb (track : ℕ → Equiv.Perm σ) : ℕ → Equiv.Perm σ
  | 0 => Equiv.refl σ
  | n + 1 => (climb track n).trans (track n)

/-- Undo the climb to `a`, then climb to `b`. -/
def travel (track : ℕ → Equiv.Perm σ) (a b : ℕ) : Equiv.Perm σ :=
  (climb track a).symm.trans (climb track b)

theorem travel_zero (track : ℕ → Equiv.Perm σ) (b : ℕ) (s : σ) :
    travel track 0 b s = climb track b s := rfl

/-- Path independence: a stop on the way, wherever it lies, does not change the arrival. -/
theorem travel_travel (track : ℕ → Equiv.Perm σ) (a b c : ℕ) (s : σ) :
    travel track b c (travel track a b s) = travel track a c s := by
  simp only [travel, Equiv.trans_apply, Equiv.symm_apply_apply]

theorem travel_self (track : ℕ → Equiv.Perm σ) (a : ℕ) (s : σ) : travel track a a s = s := by
  simp only [travel, Equiv.trans_apply, Equiv.apply_symm_apply]

/-- One position further up is one more step. -/
theorem travel_succ (track : ℕ → Equiv.Perm σ) (a b : ℕ) (s : σ) :
    travel track a (b + 1) s = track b (travel track a b s) := rfl

/-- Starting one position lower performs that position's step first. -/
theorem travel_of_succ (track : ℕ → Equiv.Perm σ) (a b : ℕ) (s : σ) :
    travel track (a + 1) b (track a s) = travel track a b s := by
  rw [← travel_travel track a (a + 1) b s, travel_succ, travel_self]

/-- Upwards, `travel` is the fold of the steps it passes. -/
theorem travel_up (track : ℕ → Equiv.Perm σ) (a n : ℕ) (s : σ) :
    travel track a (a + n) s = (List.range' a n).foldl (fun s i => track i s) s := by
  induction n generalizing a s with
  | zero => exact travel_self track a s
  | succ n ih =>
    rw [List.range'_succ, List.foldl_cons, ← ih (a + 1) (track a s),
      show a + 1 + n = a + (n + 1) by omega, travel_of_succ]

/-- A walk upwards depends on the steps it passes only. -/
theorem travel_congr {track track' : ℕ → Equiv.Perm σ} {a b : ℕ} (hab : a ≤ b)
    (hsteps : ∀ i, a ≤ i → i < b → track i = track' i) (s : σ) :
    travel track a b s = travel track' a b s := by
  rw [← Nat.add_sub_cancel' hab, travel_up, travel_up]
  apply List.foldl_ext
  intro s i hi
  rw [List.mem_range'_1] at hi
  rw [hsteps i hi.1 (by omega)]

/-- Downwards, `travel` is the fold of the inverse steps, last position first. -/
theorem travel_down (track : ℕ → Equiv.Perm σ) (b n : ℕ) (s : σ) :
    travel track (b + n) b s =
      (List.range' b n).reverse.foldl (fun s i => (track i).symm s) s := by
  induction n generalizing b s with
  | zero => exact travel_self track b s
  | succ n ih =>
    rw [List.range'_succ, List.reverse_cons, List.foldl_append, ← ih (b + 1) s,
      show b + 1 + n = b + (n + 1) by omega]
    simp only [List.foldl_cons, List.foldl_nil]
    rw [Equiv.eq_symm_apply, ← travel_succ]

end ReversibleWalk
