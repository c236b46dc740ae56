import Mathlib.Data.List.Basic
import Mathlib.Data.List.Nodup
import Mathlib.Logic.Function.Basic

/-!
# Folds of a step that is reversible in both arguments

A step takes a state and an input.  When it is reversible in the state for every input, and in the
input for every state, a fold of it hides nothing that enters once: as a function of one input, the
others being fixed, the result of the fold is a bijection.  Two runs whose inputs differ at one
place therefore end differently.
-/

namespace KeyedFold

open Function

variable {σ α ι : Type*} {step : σ → α → σ}

/-- The step is reversible in the state and in the input. -/
structure Reversible (step : σ → α → σ) : Prop where
  state : ∀ a, Bijective fun s => step s a
  input : ∀ s, Bijective (step s)

theorem Reversible.foldl_state (h : Reversible step) (as : List α) :
    Bijective fun s => as.foldl step s := by
  induction as with
  | nil => exact bijective_id
  | cons a as ih => exact ih.comp (h.state a)

/-- The fold as a function of one input. -/
theorem Reversible.foldl_input (h : Reversible step) (before after : List α) (s : σ) :
    Bijective fun a => (before ++ a :: after).foldl step s := by
  simp only [List.foldl_append, List.foldl_cons]
  exact (h.foldl_state after).comp (h.input _)

section Indexed

variable [DecidableEq ι] {indices : List ι} {i : ι}

/-- Inputs addressed by indices: the fold as a function of the input at an index that is used
once. -/
theorem Reversible.foldl_update (h : Reversible step) (hone : indices.count i = 1) (f : ι → α)
    (s : σ) : Bijective fun a => (indices.map (update f i a)).foldl step s := by
  have hmem : i ∈ indices := List.count_pos_iff.mp (by omega)
  obtain ⟨before, after, rfl, hbefore⟩ := List.eq_append_cons_of_mem hmem
  rw [List.count_append, List.count_cons_self, List.count_eq_zero.mpr hbefore] at hone
  have hafter : i ∉ after := List.count_eq_zero.mp (by omega)
  have hkeep : ∀ (l : List ι) (a : α), i ∉ l → l.map (update f i a) = l.map f := by
    intro l a hl
    refine List.map_congr_left fun j hj => update_of_ne ?_ a f
    intro hji
    exact hl (hji ▸ hj)
  have hsplit : ∀ a, (before ++ i :: after).map (update f i a) =
      before.map f ++ a :: after.map f := by
    intro a
    rw [List.map_append, List.map_cons, hkeep before a hbefore, hkeep after a hafter, update_self]
  simp only [hsplit]
  exact h.foldl_input _ _ s

/-- Two runs that differ in the input at an index that is used once. -/
theorem Reversible.foldl_ne (h : Reversible step) (hone : indices.count i = 1) {f g : ι → α}
    (hother : ∀ j ∈ indices, j ≠ i → f j = g j) (hne : f i ≠ g i) (s : σ) :
    (indices.map f).foldl step s ≠ (indices.map g).foldl step s := by
  have hg : indices.map g = indices.map (update f i (g i)) := by
    refine List.map_congr_left fun j hj => ?_
    by_cases hji : j = i
    · subst hji
      rw [update_self]
    · rw [update_of_ne hji, hother j hj hji]
  have hf : indices.map f = indices.map (update f i (f i)) := by rw [update_eq_self]
  rw [hf, hg]
  exact fun heq => hne ((h.foldl_update hone f s).injective heq)

end Indexed

section Strided

variable {n m i d : ℕ}

/-- Inputs dealt in turn to `m` folds: the fold with number `d`, as a function of an input that is
dealt to it. -/
theorem Reversible.foldl_strided (h : Reversible step) (f : ℕ → α) (hi : i < m * n)
    (hd : i % m = d) (s : σ) :
    Bijective fun a => ((List.range' 0 n m).map fun j => update f i a (j + d)).foldl step s := by
  have hm : 0 < m := Nat.pos_of_mul_pos_right (Nat.zero_lt_of_lt hi)
  have hdm : m * (i / m) + d = i := hd ▸ Nat.div_add_mod i m
  have hshift : ∀ a, (fun j => update f i a (j + d)) = update (fun j => f (j + d)) (i - d) a := by
    intro a
    funext j
    by_cases hj : j + d = i
    · rw [hj, update_self, show j = i - d by omega, update_self]
    · rw [update_of_ne hj, update_of_ne (by omega)]
  have hone : (List.range' 0 n m).count (i - d) = 1 := by
    refine List.count_eq_one_of_mem (List.nodup_range' m hm) ?_
    rw [List.mem_range']
    exact ⟨i / m, Nat.div_lt_of_lt_mul hi, by omega⟩
  simp only [hshift]
  exact h.foldl_update hone _ s

/-- The other folds do not see the input. -/
theorem strided_of_ne (f : ℕ → α) (hd : d < m) (hne : i % m ≠ d) (a : α) :
    ((List.range' 0 n m).map fun j => update f i a (j + d)) =
      (List.range' 0 n m).map fun j => f (j + d) := by
  refine List.map_congr_left fun j hj => update_of_ne ?_ a f
  obtain ⟨t, _, rfl⟩ := List.mem_range'.mp hj
  rintro rfl
  rw [Nat.zero_add, Nat.mul_add_mod, Nat.mod_eq_of_lt hd] at hne
  exact hne rfl

end Strided

end KeyedFold
