import Mathlib.Data.List.Perm.Basic
import Mathlib.Logic.Function.Basic
import Mathlib.Tactic.Common

/-!
# Guarded stores in any order

A set of tasks runs one after the other, in an order that is not known.  Each task is guarded: it
stores to one place or does nothing, and the value depends on the place only.  After all tasks each
place that some task stores to holds its value, every other place is as before, and the stores are
those of the tasks, whatever the order.
-/

namespace Scatter

open Function

variable {τ κ ν : Type*} [DecidableEq κ]

/-- A memory, and the stores made to it. -/
structure Target (τ κ ν : Type*) where
  words : κ → ν
  stores : List (τ × κ)

/-- `v` is stored at `k` by the task `t`. -/
def Target.store (t : τ) (k : κ) (v : ν) (s : Target τ κ ν) : Target τ κ ν where
  words := update s.words k v
  stores := s.stores ++ [(t, k)]

/-- One task: `place t` is where it stores, `value` what is stored there. -/
def runTask (place : τ → Option κ) (value : κ → ν) (s : Target τ κ ν) (t : τ) : Target τ κ ν :=
  match place t with
  | some k => s.store t k (value k)
  | none => s

section Run

variable (place : τ → Option κ) (value : κ → ν)

/-- What a task does to one place. -/
theorem runTask_words (s : Target τ κ ν) (t : τ) (k : κ) :
    (runTask place value s t).words k = if place t = some k then value k else s.words k := by
  rw [runTask]
  cases place t with
  | none => rfl
  | some k' =>
    by_cases hk : k = k'
    · subst hk
      rw [if_pos rfl]
      exact update_self k _ _
    · rw [if_neg fun h => hk (Option.some_inj.mp h).symm]
      exact update_of_ne hk _ _

theorem runTask_stores (s : Target τ κ ν) (t : τ) :
    (runTask place value s t).stores =
      s.stores ++ (place t).toList.map fun k => (t, k) := by
  rw [runTask]
  cases place t with
  | none => exact (List.append_nil _).symm
  | some k => rfl

/-- The memory after all tasks: the places are told apart only by whether some task stores there. -/
theorem foldl_words (tasks : List τ) (s : Target τ κ ν) (k : κ) :
    (tasks.foldl (runTask place value) s).words k =
      if k ∈ tasks.filterMap place then value k else s.words k := by
  induction tasks generalizing s with
  | nil => rfl
  | cons t tasks ih =>
    rw [List.foldl_cons, ih, runTask_words]
    by_cases hlater : k ∈ tasks.filterMap place
    · have hmem : k ∈ (t :: tasks).filterMap place := by
        obtain ⟨t', ht', hk⟩ := List.mem_filterMap.mp hlater
        exact List.mem_filterMap.mpr ⟨t', List.mem_cons_of_mem t ht', hk⟩
      rw [if_pos hlater, if_pos hmem]
    · have hmem : k ∈ (t :: tasks).filterMap place ↔ place t = some k := by
        rw [List.mem_filterMap]
        constructor
        · rintro ⟨t', ht', hk⟩
          rcases List.mem_cons.mp ht' with rfl | ht'
          · exact hk
          · exact absurd (List.mem_filterMap.mpr ⟨t', ht', hk⟩) hlater
        · exact fun hk => ⟨t, List.mem_cons_self, hk⟩
      simp only [if_neg hlater, hmem]

/-- The places of the stores, in order. -/
theorem foldl_places (tasks : List τ) (s : Target τ κ ν) :
    (tasks.foldl (runTask place value) s).stores.map Prod.snd =
      s.stores.map Prod.snd ++ tasks.filterMap place := by
  induction tasks generalizing s with
  | nil => exact (List.append_nil _).symm
  | cons t tasks ih =>
    rw [List.foldl_cons, ih, runTask_stores, List.map_append, List.append_assoc]
    congr 1
    cases h : place t with
    | none => rw [List.filterMap_cons_none h]; rfl
    | some k => rw [List.filterMap_cons_some h]; rfl

end Run

end Scatter
