import DirtyPages.Lib.Shuffle
import Mathlib.Algebra.BigOperators.Fin
import Mathlib.Data.Finite.Sigma
import Mathlib.Data.List.GetD
import Mathlib.Data.Nat.Factorial.Basic
import Mathlib.SetTheory.Cardinal.Finite

/-!
# Counting shuffles

The draws for `n + 1` entries are a first draw and the draws for `n` entries, so the draws with a
property are counted by their first draw.  Each entry comes to the front for one first draw; this
gives the number of draws that bring only entries of one kind into the first places.
-/

namespace Shuffle

open Nat

variable {α : Type*}

/-! ### Draws by the first draw -/

/-- The draws with a property, by their first draw. -/
def consEquiv (n : ℕ) (P : List ℕ → Prop) :
    {rs // ValidDraws (n + 1) rs ∧ P rs} ≃
      Σ r : Fin (n + 1), {rs // ValidDraws n rs ∧ P (r :: rs)} where
  toFun
    | ⟨[], h⟩ => h.1.elim
    | ⟨r :: rs, h⟩ => ⟨⟨r, Nat.lt_succ_of_le h.1.1⟩, rs, h.1.2, h.2⟩
  invFun q := ⟨q.1 :: q.2.1, ⟨Nat.le_of_lt_succ q.1.isLt, q.2.2.1⟩, q.2.2.2⟩
  left_inv
    | ⟨[], h⟩ => h.1.elim
    | ⟨_ :: _, _⟩ => rfl
  right_inv _ := rfl

instance finite_draws (n : ℕ) (P : List ℕ → Prop) : Finite {rs // ValidDraws n rs ∧ P rs} := by
  induction n generalizing P with
  | zero =>
    have : Subsingleton {rs // ValidDraws 0 rs ∧ P rs} :=
      ⟨fun a b => Subtype.ext (a.2.1.trans b.2.1.symm)⟩
    exact Finite.of_subsingleton
  | succ n ih =>
    have (r : Fin (n + 1)) : Finite {rs // ValidDraws n rs ∧ P (r :: rs)} :=
      ih fun rs => P (r :: rs)
    exact Finite.of_equiv _ (consEquiv n P).symm

theorem card_succ (n : ℕ) (P : List ℕ → Prop) :
    Nat.card {rs // ValidDraws (n + 1) rs ∧ P rs} =
      ∑ r : Fin (n + 1), Nat.card {rs // ValidDraws n rs ∧ P (r :: rs)} := by
  rw [Nat.card_congr (consEquiv n P), Nat.card_sigma]

/-- There are as many draws as orders of the entries. -/
theorem card_draws (n : ℕ) : Nat.card {rs // ValidDraws n rs ∧ True} = n ! := by
  induction n with
  | zero =>
    have : Unique {rs // ValidDraws 0 rs ∧ True} :=
      ⟨⟨⟨[], rfl, trivial⟩⟩, fun a => Subtype.ext a.2.1⟩
    exact Nat.card_unique
  | succ n ih =>
    rw [card_succ]
    simp only [ih]
    rw [Finset.sum_const, Finset.card_univ, Fintype.card_fin, smul_eq_mul, Nat.factorial_succ]

/-! ### The first places -/

/-- The places of the entries of one kind, each with the same weight. -/
theorem sum_places (p : α → Bool) (c : ℕ) (l : List α) :
    (∑ r : Fin l.length, if p l[r] = true then c else 0) = l.countP p * c := by
  induction l with
  | nil => simp
  | cons x xs ih =>
    have hrest : (∑ r : Fin xs.length, if p (x :: xs)[r.succ] = true then c else 0) =
        xs.countP p * c := ih
    show (∑ r : Fin (xs.length + 1), if p (x :: xs)[r] = true then c else 0) = _
    rw [Fin.sum_univ_succ, hrest, List.countP_cons]
    show (if p x = true then c else 0) + _ = _
    split_ifs
    · rw [Nat.add_mul, Nat.one_mul, Nat.add_comm]
    · rw [Nat.zero_add, Nat.add_zero]

/-- The draws that bring only entries of one kind into the first `s` places. -/
theorem card_take (p : α → Bool) {s : ℕ} {l : List α} (hs : s ≤ l.length) :
    Nat.card {rs // ValidDraws l.length rs ∧ ∀ y ∈ (shuffle rs l).take s, p y = true} =
      (l.countP p).descFactorial s * (l.length - s)! := by
  induction s generalizing l with
  | zero =>
    simp only [List.take_zero, List.not_mem_nil, false_imp_iff, implies_true]
    rw [card_draws, Nat.descFactorial_zero, Nat.one_mul, Nat.sub_zero]
  | succ s ih =>
    cases l with
    | nil => exact absurd hs (Nat.not_succ_le_zero s)
    | cons x xs =>
      have hfirst : ∀ r : Fin (xs.length + 1),
          Nat.card {rs // ValidDraws xs.length rs ∧
            ∀ y ∈ (shuffle (r :: rs) (x :: xs)).take (s + 1), p y = true} =
          if p (x :: xs)[r] = true then
            ((x :: xs).countP p - 1).descFactorial s * (xs.length - s)! else 0 := by
        intro r
        have hr : r.val ≤ xs.length := Nat.le_of_lt_succ r.isLt
        have hfront : (x :: xs)[r] = (exchange x xs r).1 := by
          have hget := exchange_fst (x := x) hr
          rw [List.getElem?_eq_getElem r.isLt] at hget
          exact Option.some.inj hget
        have hcount := (exchange_perm (x := x) hr).countP_eq p
        simp only [shuffle, List.take_succ_cons, List.forall_mem_cons]
        rw [hfront]
        rw [List.countP_cons] at hcount
        split_ifs with hp
        · rw [if_pos hp] at hcount
          have hrest := ih (l := (exchange x xs r).2) (by
            rw [exchange_length]
            exact Nat.le_of_succ_le_succ hs)
          rw [exchange_length, show (exchange x xs r).2.countP p = (x :: xs).countP p - 1 by omega]
            at hrest
          simp only [hp, true_and]
          exact hrest
        · have : IsEmpty {rs // ValidDraws xs.length rs ∧ p (exchange x xs r).1 = true ∧
              ∀ y ∈ (shuffle rs (exchange x xs r).2).take s, p y = true} :=
            ⟨fun rs => hp rs.2.2.1⟩
          exact Nat.card_of_isEmpty
      show Nat.card {rs // ValidDraws (xs.length + 1) rs ∧ _} = _
      rw [card_succ]
      simp only [hfirst]
      refine (sum_places p _ (x :: xs)).trans ?_
      rw [List.length_cons, Nat.add_sub_add_right]
      cases hn : (x :: xs).countP p with
      | zero => rw [Nat.zero_mul, Nat.zero_descFactorial_succ, Nat.zero_mul]
      | succ n =>
        rw [Nat.succ_sub_one, ← Nat.mul_assoc, Nat.succ_descFactorial_succ]

theorem forall_mem_take {l : List α} {s : ℕ} (hs : s ≤ l.length) (d : α) {q : α → Prop} :
    (∀ y ∈ l.take s, q y) ↔ ∀ i < s, q (l.getD i d) := by
  constructor
  · intro h i hi
    rw [List.getD_eq_getElem l d (by omega)]
    exact h _ (List.mem_take_iff_getElem.mpr ⟨i, by omega, rfl⟩)
  · intro h y hy
    obtain ⟨i, hi, rfl⟩ := List.mem_take_iff_getElem.mp hy
    rw [← List.getD_eq_getElem l d]
    exact h i (by omega)

/-- The same for the places read one by one. -/
theorem card_places (p : α → Bool) (d : α) {s : ℕ} {l : List α} (hs : s ≤ l.length) :
    Nat.card {rs // ValidDraws l.length rs ∧ ∀ i < s, p ((shuffle rs l).getD i d) = true} =
      (l.countP p).descFactorial s * (l.length - s)! := by
  rw [← card_take p hs]
  refine Nat.card_congr (Equiv.subtypeEquivRight fun rs => and_congr_right fun hrs => ?_)
  have hlen : (shuffle rs l).length = l.length := (shuffle_perm hrs).length_eq
  exact (forall_mem_take (q := fun y => p y = true) (hlen.symm ▸ hs) d).symm

end Shuffle
