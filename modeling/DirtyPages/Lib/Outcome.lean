import Mathlib.Data.Nat.Notation

/-!
# Outcomes of fallible programs

`Meets allowed post x` reads: the fallible computation `x` either returns a value satisfying `post`
or stops with an error in `allowed`.  Partial correctness is `allowed := fun _ => True`, total
correctness is `allowed := fun _ => False`, and the sets in between say which stops are excused.
The rules below follow the shape of a program: return, sequence, branch, and fold over a list.
-/

namespace Outcome

universe u

variable {ε ι : Type*} {α β σ : Type u}

/-- `x` returns a value satisfying `post`, or stops with an error in `allowed`. -/
def Meets (allowed : ε → Prop) (post : α → Prop) : Except ε α → Prop
  | .ok a => post a
  | .error e => allowed e

@[simp] theorem meets_ok {allowed : ε → Prop} {post : α → Prop} {a : α} :
    Meets allowed post (.ok a : Except ε α) ↔ post a := Iff.rfl

@[simp] theorem meets_error {allowed : ε → Prop} {post : α → Prop} {e : ε} :
    Meets allowed post (.error e : Except ε α) ↔ allowed e := Iff.rfl

@[simp] theorem meets_pure {allowed : ε → Prop} {post : α → Prop} {a : α} :
    Meets allowed post (pure a : Except ε α) ↔ post a := Iff.rfl

/-- Sequencing: the second step starts from whatever the first one guarantees. -/
theorem Meets.bind {allowed : ε → Prop} {mid : α → Prop} {post : β → Prop} {x : Except ε α}
    {f : α → Except ε β} (hx : Meets allowed mid x) (hf : ∀ a, mid a → Meets allowed post (f a)) :
    Meets allowed post (x >>= f) := by
  cases x with
  | error e => exact hx
  | ok a => exact hf a hx

/-- A function of the result, applied to it. -/
theorem Meets.map_imp {allowed : ε → Prop} {post : α → Prop} {post' : β → Prop} {x : Except ε α}
    {f : α → β} (hx : Meets allowed post x) (hf : ∀ a, post a → post' (f a)) :
    Meets allowed post' (f <$> x) := by
  cases x with
  | error e => exact hx
  | ok a => exact hf a hx

theorem Meets.map {allowed : ε → Prop} {x : Except ε α} (hx : Meets allowed (fun _ => True) x)
    (f : α → β) : Meets allowed (fun _ => True) (f <$> x) :=
  hx.map_imp fun _ _ => True.intro

/-- Weakening both the excused errors and the postcondition. -/
theorem Meets.mono {allowed allowed' : ε → Prop} {post post' : α → Prop} {x : Except ε α}
    (hx : Meets allowed post x) (ha : ∀ e, allowed e → allowed' e) (hp : ∀ a, post a → post' a) :
    Meets allowed' post' x := by
  cases x with
  | error e => exact ha e hx
  | ok a => exact hp a hx

theorem Meets.imp {allowed : ε → Prop} {post post' : α → Prop} {x : Except ε α}
    (hx : Meets allowed post x) (hp : ∀ a, post a → post' a) : Meets allowed post' x :=
  hx.mono (fun _ h => h) hp

/-- Nothing is claimed. -/
theorem meets_any (x : Except ε α) : Meets (fun _ => True) (fun _ => True) x := by
  cases x with
  | error e => exact True.intro
  | ok a => exact True.intro

/-- Two facts about one computation. -/
theorem Meets.and {allowed allowed' : ε → Prop} {post post' : α → Prop} {x : Except ε α}
    (hx : Meets allowed post x) (hx' : Meets allowed' post' x) :
    Meets (fun e => allowed e ∧ allowed' e) (fun a => post a ∧ post' a) x := by
  cases x with
  | error e => exact ⟨hx, hx'⟩
  | ok a => exact ⟨hx, hx'⟩

/-- What a returned value satisfies. -/
theorem Meets.of_ok {allowed : ε → Prop} {post : α → Prop} {x : Except ε α} {a : α}
    (hx : Meets allowed post x) (h : x = .ok a) : post a := by
  rw [h] at hx
  exact hx

/-- Which errors a stopped computation can carry. -/
theorem Meets.of_error {allowed : ε → Prop} {post : α → Prop} {x : Except ε α} {e : ε}
    (hx : Meets allowed post x) (h : x = .error e) : allowed e := by
  rw [h] at hx
  exact hx

/-- With no excused error the computation returns. -/
theorem Meets.exists_ok {post : α → Prop} {x : Except ε α} (hx : Meets (fun _ => False) post x) :
    ∃ a, x = .ok a ∧ post a := by
  cases x with
  | error e => exact hx.elim
  | ok a => exact ⟨a, rfl, hx⟩

/-- An invariant kept by every step is kept by the fold, whatever the steps are. -/
theorem Meets.foldlM {allowed : ε → Prop} {inv : σ → Prop} {step : σ → ι → Except ε σ}
    (hstep : ∀ s o, inv s → Meets allowed inv (step s o)) (ops : List ι) (s : σ) (hs : inv s) :
    Meets allowed inv (ops.foldlM step s) := by
  induction ops generalizing s with
  | nil => exact hs
  | cons o ops ih =>
    rw [List.foldlM_cons]
    exact (hstep s o hs).bind fun s' hs' => ih s' hs'

/-- Steps that return are a plain fold. -/
theorem foldlM_eq_ok {step : σ → ι → Except ε σ} {f : σ → ι → σ} (ops : List ι) (s : σ)
    (h : ∀ o ∈ ops, ∀ s, step s o = .ok (f s o)) : ops.foldlM step s = .ok (ops.foldl f s) := by
  induction ops generalizing s with
  | nil => rfl
  | cons o ops ih =>
    rw [List.foldlM_cons, h o List.mem_cons_self, List.foldl_cons]
    exact ih (f s o) fun o' ho' => h o' (List.mem_cons_of_mem o ho')

/-- Some sequence of operations leads from `s` to `s'`. -/
def Reaches (step : σ → ι → Except ε σ) (s s' : σ) : Prop :=
  ∃ ops : List ι, ops.foldlM step s = .ok s'

section Reaches

variable {step : σ → ι → Except ε σ} {s s' s'' : σ}

theorem Reaches.refl (step : σ → ι → Except ε σ) (s : σ) : Reaches step s s := ⟨[], rfl⟩

theorem Reaches.trans (h : Reaches step s s') (h' : Reaches step s' s'') :
    Reaches step s s'' := by
  obtain ⟨ops, hrun⟩ := h
  obtain ⟨ops', hrun'⟩ := h'
  refine ⟨ops ++ ops', ?_⟩
  rw [List.foldlM_append, hrun]
  exact hrun'

theorem Reaches.single {o : ι} (h : step s o = .ok s') : Reaches step s s' := by
  refine ⟨[o], ?_⟩
  rw [List.foldlM_cons, h]
  rfl

/-- What every operation keeps, a sequence of them keeps. -/
theorem Reaches.keeps (inv : σ → Prop) (hstep : ∀ s o s', inv s → step s o = .ok s' → inv s')
    (h : Reaches step s s') (hs : inv s) : inv s' := by
  obtain ⟨ops, hrun⟩ := h
  induction ops generalizing s with
  | nil =>
    cases hrun
    exact hs
  | cons o ops ih =>
    rw [List.foldlM_cons] at hrun
    cases ho : step s o with
    | error e =>
      rw [ho] at hrun
      cases hrun
    | ok s₁ =>
      rw [ho] at hrun
      exact ih (hstep s o s₁ hs ho) hrun

/-- Operations of one kind, seen as operations of another kind that do the same. -/
theorem Reaches.map {κ : Type*} {step' : σ → κ → Except ε σ} (f : ι → κ)
    (hf : ∀ s o, step' s (f o) = step s o) (h : Reaches step s s') : Reaches step' s s' := by
  obtain ⟨ops, hrun⟩ := h
  refine ⟨ops.map f, ?_⟩
  rw [List.foldlM_map]
  simp only [hf]
  exact hrun

end Reaches

section Along

variable (step : σ → ι → Except ε σ) (cond : σ → ι → Prop)

/-- Every operation of a run meets the condition in the state that it finds. -/
def Along : σ → List ι → Prop
  | _, [] => True
  | s, o :: ops => cond s o ∧ ∀ s', step s o = .ok s' → Along s' ops

instance decidableAlong [∀ s o, Decidable (cond s o)] :
    ∀ s (ops : List ι), Decidable (Along step cond s ops)
  | _, [] => inferInstanceAs (Decidable True)
  | s, o :: ops =>
    have : Decidable (∀ s', step s o = .ok s' → Along step cond s' ops) :=
      match step s o with
      | .error _ => isTrue fun _ h => nomatch h
      | .ok s₁ =>
        have := decidableAlong s₁ ops
        decidable_of_iff (Along step cond s₁ ops)
          ⟨fun h _ hs => Except.ok.inj hs ▸ h, fun h => h s₁ rfl⟩
    inferInstanceAs (Decidable (cond s o ∧ ∀ s', step s o = .ok s' → Along step cond s' ops))

/-- When a single operation stops with the error `e` exactly where it does not meet the condition,
a run stops with it exactly when not all its operations do. -/
theorem foldlM_eq_error_iff (inv : σ → Prop) {e : ε}
    (hkeep : ∀ s o s', inv s → step s o = .ok s' → inv s')
    (hstop : ∀ s o, inv s → (step s o = .error e ↔ ¬cond s o)) (ops : List ι) (s : σ)
    (hs : inv s) : ops.foldlM step s = .error e ↔ ¬Along step cond s ops := by
  induction ops generalizing s with
  | nil =>
    constructor
    · intro h
      cases h
    · intro h
      exact absurd True.intro h
  | cons o ops ih =>
    rw [List.foldlM_cons]
    have hone := hstop s o hs
    cases ho : step s o with
    | error e' =>
      rw [ho] at hone
      refine hone.trans (not_congr ⟨fun h => ⟨h, fun s' hs' => ?_⟩, fun h => h.1⟩)
      rw [ho] at hs'
      cases hs'
    | ok s₁ =>
      have hmeets : cond s o := by
        refine Classical.byContradiction fun h => ?_
        rw [hone.mpr h] at ho
        cases ho
      refine (ih s₁ (hkeep s o s₁ hs ho)).trans
        (not_congr ⟨fun h => ⟨hmeets, fun s' hs' => ?_⟩, fun h => h.2 s₁ ho⟩)
      rw [ho] at hs'
      exact Except.ok.inj hs' ▸ h

end Along

/-- A function of the last result, applied inside the sequence. -/
theorem map_bind_eq {γ : Type u} {x : Except ε α} {f : α → Except ε β} {g : α → Except ε γ}
    {h : β → γ} (hfg : ∀ a, h <$> f a = g a) : h <$> (x >>= f) = x >>= g := by
  cases x with
  | error e => rfl
  | ok a => exact hfg a

theorem map_eq_error {x : Except ε α} {f : α → β} {e : ε} :
    f <$> x = .error e ↔ x = .error e := by
  constructor
  · intro h
    cases x with
    | error e' =>
      cases h
      rfl
    | ok a => cases h
  · intro h
    rw [h]
    rfl

/-- A continuation that only adds to the result, undone. -/
theorem map_bind_eq_self {x : Except ε α} {f : α → Except ε β} {h : β → α}
    (hfh : ∀ a, h <$> f a = .ok a) : h <$> (x >>= f) = x := by
  cases x with
  | error e => rfl
  | ok a => exact hfh a

/-- A successful sequence of two computations splits into its parts. -/
theorem bind_eq_ok {x : Except ε α} {f : α → Except ε β} {b : β} :
    x >>= f = .ok b ↔ ∃ a, x = .ok a ∧ f a = .ok b := by
  cases x with
  | error e =>
    constructor
    · intro h
      cases h
    · rintro ⟨a, h, _⟩
      cases h
  | ok a =>
    constructor
    · intro h
      exact ⟨a, rfl, h⟩
    · rintro ⟨a', h, hf⟩
      cases h
      exact hf

/-- A sequence of two computations stops in the first or in the second. -/
theorem bind_eq_error {x : Except ε α} {f : α → Except ε β} {e : ε} :
    x >>= f = .error e ↔ x = .error e ∨ ∃ a, x = .ok a ∧ f a = .error e := by
  cases x with
  | error e' =>
    constructor
    · intro h
      cases h
      exact Or.inl rfl
    · rintro (h | ⟨a, h, _⟩) <;> cases h
      rfl
  | ok a =>
    constructor
    · intro h
      exact Or.inr ⟨a, rfl, h⟩
    · rintro (h | ⟨a', h, hf⟩) <;> cases h
      exact hf

end Outcome
