import Mathlib.Data.List.Perm.Basic
import Mathlib.Data.Nat.Notation
import Mathlib.Tactic.Common

/-!
# The Fisher–Yates shuffle

The shuffle walks over a list and exchanges each entry with one of those not yet passed, as a draw
says: with `n` entries left the draw is one of `n`.  On a list without repetitions the draws and the
rearrangements correspond one to one, since the entry that ends in front is the one that the first
draw picks, and the rest is a shuffle of what the exchange leaves behind.
-/

namespace Shuffle

open scoped List

variable {α : Type*}

/-- The front `x` of a list with the tail `xs` exchanged with the entry `r` places behind it. -/
def exchange (x : α) (xs : List α) : ℕ → α × List α
  | 0 => (x, xs)
  | r + 1 => (xs.getD r x, xs.set r x)

/-- The list shuffled by the draws, one for each entry. -/
def shuffle : List ℕ → List α → List α
  | r :: rs, x :: xs => (exchange x xs r).1 :: shuffle rs (exchange x xs r).2
  | _, l => l

/-- The draws for `n` entries: with `k` entries left the draw is below `k`. -/
def ValidDraws : ℕ → List ℕ → Prop
  | 0, rs => rs = []
  | _ + 1, [] => False
  | n + 1, r :: rs => r ≤ n ∧ ValidDraws n rs

theorem ValidDraws.length_eq {n : ℕ} {rs : List ℕ} (h : ValidDraws n rs) : rs.length = n := by
  induction n generalizing rs with
  | zero =>
    rw [ValidDraws] at h
    rw [h, List.length_nil]
  | succ n ih =>
    cases rs with
    | nil => exact h.elim
    | cons r rs => rw [List.length_cons, ih h.2]

/-- The draws, one by one: the one for the entry at `i` is below the number of entries from `i`
on. -/
theorem validDraws_iff {n : ℕ} {rs : List ℕ} :
    ValidDraws n rs ↔ rs.length = n ∧ ∀ i r, rs[i]? = some r → r < n - i := by
  induction n generalizing rs with
  | zero =>
    rw [ValidDraws]
    constructor
    · rintro rfl
      exact ⟨rfl, fun i r h => by simp at h⟩
    · exact fun h => List.length_eq_zero_iff.mp h.1
  | succ n ih =>
    cases rs with
    | nil => simp [ValidDraws]
    | cons r rs =>
      rw [ValidDraws, ih, List.length_cons]
      constructor
      · rintro ⟨hr, hlen, hrest⟩
        refine ⟨by omega, fun i r' h => ?_⟩
        cases i with
        | zero =>
          rw [List.getElem?_cons_zero, Option.some_inj] at h
          omega
        | succ i =>
          rw [List.getElem?_cons_succ] at h
          have hlt := hrest i r' h
          omega
      · rintro ⟨hlen, hall⟩
        refine ⟨?_, by omega, fun i r' h => ?_⟩
        · have hlt := hall 0 r rfl
          omega
        · have hlt := hall (i + 1) r' h
          omega

/-! ### One exchange -/

section Exchange

variable {x : α} {xs : List α} {r : ℕ}

@[simp] theorem exchange_length : (exchange x xs r).2.length = xs.length := by
  cases r with
  | zero => rfl
  | succ r => exact List.length_set

/-- With the drawn entry already in front, the exchange is one more write. -/
theorem exchange_eq_set :
    ((exchange x xs r).1 :: xs).set r x = (exchange x xs r).1 :: (exchange x xs r).2 := by
  cases r with
  | zero => rfl
  | succ r => rfl

/-- The entry that a draw brings to the front. -/
theorem exchange_fst (hr : r ≤ xs.length) : (x :: xs)[r]? = some (exchange x xs r).1 := by
  cases r with
  | zero => rfl
  | succ r =>
    rw [List.getElem?_cons_succ, exchange, List.getD_eq_getElem?_getD, List.getElem?_eq_getElem hr]
    rfl

theorem exchange_perm (hr : r ≤ xs.length) :
    ((exchange x xs r).1 :: (exchange x xs r).2).Perm (x :: xs) := by
  cases r with
  | zero => exact List.Perm.refl _
  | succ r =>
    obtain ⟨before, after, hsplit, _, hset⟩ :
        ∃ before after, xs = before ++ xs[r] :: after ∧ before.length = r ∧
          xs.set r x = before ++ x :: after := List.exists_of_set hr
    rw [exchange, List.getD_eq_getElem?_getD, List.getElem?_eq_getElem hr, Option.getD_some, hset]
    generalize xs[r] = y at hsplit
    rw [hsplit]
    calc y :: (before ++ x :: after)
        ~ y :: x :: (before ++ after) := List.perm_middle.cons y
      _ ~ x :: y :: (before ++ after) := List.Perm.swap x y _
      _ ~ x :: (before ++ y :: after) := List.perm_middle.symm.cons x

end Exchange

/-! ### The whole shuffle -/

theorem shuffle_perm {rs : List ℕ} {l : List α} (h : ValidDraws l.length rs) :
    (shuffle rs l).Perm l := by
  induction rs generalizing l with
  | nil =>
    cases l with
    | nil => exact List.Perm.refl _
    | cons x xs => exact h.elim
  | cons r rs ih =>
    cases l with
    | nil => exact absurd h (List.cons_ne_nil r rs)
    | cons x xs =>
      have hrest : ValidDraws (exchange x xs r).2.length rs := by
        rw [exchange_length]
        exact h.2
      exact ((ih hrest).cons _).trans (exchange_perm h.1)

/-- On a list without repetitions every rearrangement comes from exactly one choice of draws. -/
theorem shuffle_existsUnique {l p : List α} (hl : l.Nodup) (hp : p.Perm l) :
    ∃! rs, ValidDraws l.length rs ∧ shuffle rs l = p := by
  induction p generalizing l with
  | nil =>
    rw [List.nil_perm] at hp
    subst hp
    exact ⟨[], ⟨rfl, rfl⟩, fun rs h => h.1⟩
  | cons y ys ih =>
    cases l with
    | nil => exact absurd hp.symm (List.not_perm_nil_cons y ys)
    | cons x xs =>
      -- the first draw must bring `y` to the front, and one draw does
      obtain ⟨r, hr⟩ := List.mem_iff_getElem?.mp (hp.subset List.mem_cons_self)
      have hrlt : r < xs.length + 1 := (List.getElem?_eq_some_iff.mp hr).1
      have hfst : (exchange x xs r).1 = y := by
        rw [exchange_fst (Nat.lt_succ_iff.mp hrlt)] at hr
        exact Option.some_inj.mp hr
      have hback : (y :: (exchange x xs r).2) ~ x :: xs := by
        rw [← hfst]
        exact exchange_perm (Nat.lt_succ_iff.mp hrlt)
      have hnodup : (exchange x xs r).2.Nodup := (List.nodup_cons.mp (hback.nodup_iff.mpr hl)).2
      have hrest : ys ~ (exchange x xs r).2 := (hp.trans hback.symm).cons_inv
      obtain ⟨rs, ⟨hvalid, hshuffle⟩, hunique⟩ := ih hnodup hrest
      rw [exchange_length] at hvalid
      refine ⟨r :: rs, ⟨⟨Nat.lt_succ_iff.mp hrlt, hvalid⟩, ?_⟩, ?_⟩
      · rw [shuffle, hfst, hshuffle]
      · rintro (_ | ⟨r', rs'⟩) ⟨hvalid', hshuffle'⟩
        · exact hvalid'.elim
        rw [shuffle, List.cons.injEq] at hshuffle'
        have hr' : r' = r := by
          have hget := exchange_fst (x := x) hvalid'.1
          rw [hshuffle'.1, ← hr] at hget
          exact (List.getElem?_inj (Nat.lt_succ_iff.mpr hvalid'.1) hl).mp hget
        subst hr'
        have hvalid'' : ValidDraws (exchange x xs r').2.length rs' := by
          rw [exchange_length]
          exact hvalid'.2
        rw [hunique rs' ⟨hvalid'', hshuffle'.2⟩]

end Shuffle
