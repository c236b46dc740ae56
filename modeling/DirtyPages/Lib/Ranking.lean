import DirtyPages.Lib.Outcome

/-!
# Ranking functions for runs

Some operations of a run count and the others are idle.  When every operation that counts brings a
state with a smaller rank, until the state is good, and a good state stays good, then a run in which
more operations count than the rank at its beginning ends in a good state.
-/

namespace Outcome

universe u

variable {ε ι : Type*} {σ : Type u}

/-- How many operations of a run count, each in the state that it finds. -/
def countAlong (step : σ → ι → Except ε σ) (counts : σ → ι → Bool) : σ → List ι → ℕ
  | _, [] => 0
  | s, o :: ops =>
    (if counts s o then 1 else 0) +
      match step s o with
      | .ok s' => countAlong step counts s' ops
      | .error _ => 0

variable {step : σ → ι → Except ε σ} {counts : σ → ι → Bool} {cond : σ → ι → Prop}
  {inv good : σ → Prop} {rank : σ → ℕ} {s s' : σ} {o : ι} {ops : List ι}

theorem countAlong_cons (ho : step s o = .ok s') :
    countAlong step counts s (o :: ops) =
      (if counts s o then 1 else 0) + countAlong step counts s' ops := by
  rw [countAlong, ho]

variable (step counts cond inv good rank) in
/-- What one operation does to the invariant, to good states and to the rank. -/
structure Ranked : Prop where
  keeps : ∀ s o s', inv s → cond s o → step s o = .ok s' → inv s'
  stays : ∀ s o s', inv s → cond s o → step s o = .ok s' → good s → good s'
  idle : ∀ s o s', inv s → cond s o → step s o = .ok s' → counts s o = false → rank s' ≤ rank s
  falls : ∀ s o s', inv s → cond s o → step s o = .ok s' → counts s o = true → ¬good s →
    good s' ∨ rank s' < rank s

/-- The run rule. -/
theorem Ranked.reaches (h : Ranked step counts cond inv good rank) (hs : inv s)
    (halong : Along step cond s ops) (hrun : ops.foldlM step s = .ok s')
    (hcount : good s ∨ rank s < countAlong step counts s ops) : good s' ∧ inv s' := by
  induction ops generalizing s with
  | nil =>
    cases hrun
    refine ⟨hcount.resolve_right (Nat.not_lt_zero _), hs⟩
  | cons o ops ih =>
    rw [List.foldlM_cons] at hrun
    obtain ⟨s₁, ho, hrest⟩ := bind_eq_ok.mp hrun
    apply ih (h.keeps s o s₁ hs halong.1 ho) (halong.2 s₁ ho) hrest
    rw [countAlong_cons ho] at hcount
    by_cases hgood : good s
    · exact Or.inl (h.stays s o s₁ hs halong.1 ho hgood)
    have hlt := hcount.resolve_left hgood
    cases hc : counts s o with
    | false =>
      rw [hc] at hlt
      have hle := h.idle s o s₁ hs halong.1 ho hc
      exact Or.inr (by simpa using Nat.lt_of_le_of_lt hle hlt)
    | true =>
      rw [hc, if_pos rfl] at hlt
      refine (h.falls s o s₁ hs halong.1 ho hc hgood).imp_right ?_
      intro hfall
      omega

/-- Checking a condition along a run. -/
def alongCheck (step : σ → ι → Except ε σ) (check : σ → ι → Bool) : σ → List ι → Bool
  | _, [] => true
  | s, o :: ops =>
    check s o &&
      match step s o with
      | .ok s' => alongCheck step check s' ops
      | .error _ => true

theorem along_of_check {check : σ → ι → Bool} (h : alongCheck step check s ops = true) :
    Along step (fun s o => check s o = true) s ops := by
  induction ops generalizing s with
  | nil => exact True.intro
  | cons o ops ih =>
    rw [alongCheck, Bool.and_eq_true] at h
    refine ⟨h.1, ?_⟩
    intro s₁ ho
    have hrest := h.2
    rw [ho] at hrest
    exact ih hrest

end Outcome
