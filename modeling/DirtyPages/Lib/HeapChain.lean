import Mathlib.Data.List.Nodup
import Mathlib.Logic.Function.Basic
import Mathlib.Tactic.SplitIfs

/-!
# Chains in a heap

A heap maps the addresses in use to objects, and no object is at address 0.  A chain is a linked
list that ends in a null pointer: each of its items is an object at an address of its own that also
holds the address of the next one.  A chain never meets an address twice, it depends on the objects
at its own addresses only, and two chains that share an address share its item.
-/

namespace HeapChain

variable {α γ : Type*}

/-- The objects at the addresses in use. -/
abbrev Heap (α : Type*) := ℕ → Option α

/-- The heap without the objects at the addresses `ps`. -/
def Heap.without (h : Heap α) (ps : List ℕ) : Heap α := fun p => if p ∈ ps then none else h p

section Without

variable {h : Heap α} {ps qs : List ℕ} {p : ℕ}

theorem Heap.without_nil (h : Heap α) : h.without [] = h := by
  funext p
  simp [Heap.without]

theorem Heap.without_of_not_mem (hp : p ∉ ps) : h.without ps p = h p := if_neg hp

theorem Heap.without_of_mem (hp : p ∈ ps) : h.without ps p = none := if_pos hp

theorem Heap.without_append : h.without (ps ++ qs) = (h.without ps).without qs := by
  funext p
  simp only [Heap.without, List.mem_append]
  by_cases hp : p ∈ ps
  · simp [hp]
  · simp [hp]

theorem Heap.without_cons : h.without (p :: ps) = (h.without [p]).without ps := by
  rw [← Heap.without_append, List.singleton_append]

end Without

variable (addr : γ → ℕ) (cell : γ → ℕ → α)

/-- The chain with the items `cs` starts at the address; the object of the item `c` that points to
`next` is `cell c next`, at the address `addr c`. -/
inductive Chain (h : Heap α) : ℕ → List γ → Prop
  | nil : Chain h 0 []
  | cons {c : γ} {cs : List γ} {next : ℕ} : addr c ≠ 0 → h (addr c) = some (cell c next) →
      Chain h next cs → Chain h (addr c) (c :: cs)

variable {addr cell} {h h' : Heap α} {p q : ℕ} {c : γ} {cs ds : List γ}

namespace Chain

theorem eq_nil_of_null (hc : Chain addr cell h 0 cs) : cs = [] := by
  generalize hp : 0 = p at hc
  cases hc with
  | nil => rfl
  | cons hne _ _ => exact absurd hp.symm hne

/-- Each item of a chain is in the heap. -/
theorem read (hc : Chain addr cell h p cs) (hmem : c ∈ cs) :
    ∃ next, h (addr c) = some (cell c next) := by
  induction hc with
  | nil => cases hmem
  | cons _ hread _ ih =>
    cases hmem with
    | head => exact ⟨_, hread⟩
    | tail _ hmem => exact ih hmem

/-- A chain depends on the objects at its own addresses. -/
theorem frame (hc : Chain addr cell h p cs) (hsame : ∀ c ∈ cs, h' (addr c) = h (addr c)) :
    Chain addr cell h' p cs := by
  induction hc with
  | nil => exact .nil
  | cons hne hread _ ih =>
    refine .cons hne ((hsame _ List.mem_cons_self).trans hread) ?_
    exact ih fun c hmem => hsame c (List.mem_cons_of_mem _ hmem)

/-- Memory that was not in use is not on a chain. -/
theorem update_unused (hc : Chain addr cell h p cs) (hfree : h q = none) (o : Option α) :
    Chain addr cell (Function.update h q o) p cs := by
  apply hc.frame
  intro c hmem
  obtain ⟨next, hread⟩ := hc.read hmem
  apply Function.update_of_ne
  intro heq
  rw [heq, hfree] at hread
  cases hread

/-- A new object is put in front. -/
theorem push (hc : Chain addr cell h p cs) (hne : addr c ≠ 0) (hfree : h (addr c) = none) :
    Chain addr cell (Function.update h (addr c) (some (cell c p))) (addr c) (c :: cs) :=
  .cons hne (Function.update_self _ _ _) (hc.update_unused hfree _)

/-- From the address of an item on, the rest of the chain follows. -/
theorem suffix (hc : Chain addr cell h p cs) (hmem : q ∈ cs.map addr) :
    ∃ ds, ds.length ≤ cs.length ∧ Chain addr cell h q ds := by
  induction hc with
  | nil => cases hmem
  | @cons c cs next hne hread hrest ih =>
    rw [List.map_cons, List.mem_cons] at hmem
    cases hmem with
    | inl heq => exact ⟨c :: cs, Nat.le_refl _, heq ▸ .cons hne hread hrest⟩
    | inr hmem =>
      obtain ⟨ds, hle, hchain⟩ := ih hmem
      exact ⟨ds, Nat.le_succ_of_le hle, hchain⟩

variable (hinj : ∀ c d m n, cell c m = cell d n → m = n)

include hinj in
theorem length_unique (hc : Chain addr cell h p cs) (hd : Chain addr cell h p ds) :
    cs.length = ds.length := by
  induction hc generalizing ds with
  | nil =>
    rw [eq_nil_of_null hd]
  | @cons c cs next hne hread _ ih =>
    generalize hp : addr c = p at hd
    cases hd with
    | nil => exact absurd hp hne
    | @cons d ds next' _ hread' hrest' =>
      rw [← hp, hread] at hread'
      have hnext : next = next' := hinj c d next next' (Option.some.inj hread')
      subst hnext
      rw [List.length_cons, List.length_cons, ih hrest']

include hinj in
/-- A chain that came back to an address would not end. -/
theorem nodup (hc : Chain addr cell h p cs) : (cs.map addr).Nodup := by
  induction hc with
  | nil => exact List.nodup_nil
  | @cons c cs next hne hread hrest ih =>
    rw [List.map_cons, List.nodup_cons]
    refine ⟨fun hmem => ?_, ih⟩
    obtain ⟨ds, hle, hchain⟩ := hrest.suffix hmem
    have hlength : (c :: cs).length = ds.length :=
      length_unique hinj (.cons hne hread hrest) hchain
    rw [List.length_cons] at hlength
    omega

end Chain

end HeapChain
