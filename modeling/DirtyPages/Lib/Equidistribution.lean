import Mathlib.Algebra.BigOperators.Ring.Finset
import Mathlib.Algebra.Group.Action.Defs
import Mathlib.Logic.Equiv.Prod
import Mathlib.SetTheory.Cardinal.Finite

/-!
# Equidistribution by one part of the input

A lens is a part of an input that can be read and replaced.  When a property holds for the same
number of values of this part, whatever the rest of the input is, it holds for this share of all
inputs.  In particular a function that is a bijection in one part takes each of its values equally
often, and so does a pair of functions that is a bijection in two parts.
-/

namespace Equidistribution

open Function

/-- A part of an input. -/
structure Lens (X K : Type*) where
  get : X → K
  set : X → K → X
  get_set : ∀ x k, get (set x k) = k
  set_get : ∀ x, set x (get x) = x
  set_set : ∀ x k k', set (set x k) k' = set x k'

section Coordinates

variable {ι α : Type*} [DecidableEq ι]

/-- One coordinate of a function. -/
def Lens.coordinate (i : ι) : Lens (ι → α) α where
  get x := x i
  set x a := update x i a
  get_set _ _ := update_self _ _ _
  set_get _ := update_eq_self _ _
  set_set _ _ _ := update_idem _ _ _

/-- Two coordinates of a function. -/
def Lens.coordinates {i j : ι} (hij : i ≠ j) : Lens (ι → α) (α × α) where
  get x := (x i, x j)
  set x a := update (update x i a.1) j a.2
  get_set x a := by rw [update_self, update_of_ne hij, update_self]
  set_get x := by
    show update (update x i (x i)) j (x j) = x
    rw [update_eq_self, update_eq_self]
  set_set x a b := by
    rw [update_comm hij a.1 a.2 x, update_idem, update_comm hij.symm, update_idem]

end Coordinates

/-- A bijection meets a set of values as often as the set has values. -/
theorem card_preimage {K β : Type*} {f : K → β} (hf : Bijective f) (S : β → Prop) :
    Nat.card {k // S (f k)} = Nat.card {b // S b} :=
  Nat.card_congr ((Equiv.ofBijective f hf).subtypeEquiv fun _ => Iff.rfl)

section Fibres

variable {X K β : Type*} (l : Lens X K) {P : X → Prop} {m : ℕ}

/-- An input with the property and any value of the part, against any input and a value of the part
that gives it the property. -/
def fibreEquiv (P : X → Prop) :
    {x // P x} × K ≃ {q : X × K // P (l.set q.1 q.2)} where
  toFun q := ⟨(l.set q.1 q.2, l.get q.1), by
    show P (l.set (l.set q.1 q.2) (l.get q.1))
    rw [l.set_set, l.set_get]
    exact q.1.2⟩
  invFun q := (⟨l.set q.1.1 q.1.2, q.2⟩, l.get q.1.1)
  left_inv q := by
    obtain ⟨⟨x, hx⟩, k⟩ := q
    simp [l.set_set, l.set_get, l.get_set]
  right_inv q := by
    obtain ⟨⟨x, k⟩, hq⟩ := q
    simp [l.set_set, l.set_get, l.get_set]

variable [Finite X] [Finite K]

/-- The share of the inputs is the share of the values of the part. -/
theorem card_of_card_part (h : ∀ x, Nat.card {k // P (l.set x k)} = m) :
    Nat.card {x // P x} * Nat.card K = m * Nat.card X := by
  have := Fintype.ofFinite X
  rw [← Nat.card_prod, Nat.card_congr (fibreEquiv l P),
    Nat.card_congr (Equiv.subtypeProdEquivSigmaSubtype fun x k => P (l.set x k)), Nat.card_sigma]
  simp only [h]
  rw [Finset.sum_const, Finset.card_univ, Nat.card_eq_fintype_card]
  exact Nat.mul_comm _ _

end Fibres

/-- The pairs with a property, when the number of second components depends on the kind of the
first. -/
theorem card_pairs_of_kinds {ι X : Type*} [Finite ι] [Finite X] (P : ι → Prop) {Q : ι → X → Prop}
    {m a b : ℕ} (hyes : ∀ i, P i → Nat.card {x // Q i x} * m = a)
    (hno : ∀ i, ¬P i → Nat.card {x // Q i x} * m = b) :
    Nat.card {z : ι × X // Q z.1 z.2} * m =
      Nat.card {i // P i} * a + Nat.card {i // ¬P i} * b := by
  classical
  have := Fintype.ofFinite ι
  have hkind : ∀ i, Nat.card {x // Q i x} * m = if P i then a else b := by
    intro i
    split_ifs with hi
    · exact hyes i hi
    · exact hno i hi
  rw [Nat.card_congr (Equiv.subtypeProdEquivSigmaSubtype Q), Nat.card_sigma, Finset.sum_mul]
  simp only [hkind]
  rw [Finset.sum_ite, Finset.sum_const, Finset.sum_const, smul_eq_mul, smul_eq_mul,
    Nat.card_eq_fintype_card, Nat.card_eq_fintype_card, Fintype.card_subtype,
    Fintype.card_subtype]

/-! ### Functions that spread their values evenly -/

/-- Every set of values is taken on its share of the inputs. -/
def Spreads {X β : Type*} (F : X → β) : Prop :=
  ∀ S : β → Prop, Nat.card {x // S (F x)} * Nat.card β = Nat.card {b // S b} * Nat.card X

section Spreads

variable {X K β γ : Type*}

/-- A function that is a bijection in a part of the input. -/
theorem spreads_of_bijective_part [Finite X] [Finite K] (l : Lens X K) {F : X → β}
    (hF : ∀ x, Bijective fun k => F (l.set x k)) : Spreads F := by
  intro S
  rcases isEmpty_or_nonempty X with hempty | ⟨⟨x⟩⟩
  · simp
  · rw [← Nat.card_congr (Equiv.ofBijective _ (hF x))]
    exact card_of_card_part l fun x => card_preimage (hF x) S

/-- One even spread after another. -/
theorem Spreads.comp [Finite β] [Nonempty β] {F : X → β} {G : β → γ} (hG : Spreads G)
    (hF : Spreads F) : Spreads (G ∘ F) := by
  intro S
  have hfirst := hF fun b => S (G b)
  have hsecond := hG S
  have hpos : 0 < Nat.card β := Nat.card_pos
  apply Nat.eq_of_mul_eq_mul_right hpos
  calc Nat.card {x // S ((G ∘ F) x)} * Nat.card γ * Nat.card β
      = Nat.card {x // S (G (F x))} * Nat.card β * Nat.card γ := Nat.mul_right_comm _ _ _
    _ = Nat.card {b // S (G b)} * Nat.card γ * Nat.card X := by
      rw [hfirst, Nat.mul_right_comm]
    _ = Nat.card {c // S c} * Nat.card X * Nat.card β := by
      rw [hsecond, Nat.mul_right_comm]

/-- Sets of values of the same size are taken equally often. -/
theorem Spreads.card_congr [Finite β] [Nonempty β] {F : X → β} (hF : Spreads F) {S T : β → Prop}
    (h : Nat.card {b // S b} = Nat.card {b // T b}) :
    Nat.card {x // S (F x)} = Nat.card {x // T (F x)} := by
  have hpos : 0 < Nat.card β := Nat.card_pos
  apply Nat.eq_of_mul_eq_mul_right hpos
  rw [hF S, hF T, h]

end Spreads

section Pairs

variable {α β γ δ : Type*}

/-- A pair of functions of two arguments, the first of which sees one of them only. -/
theorem pair_bijective {f : α → γ} (hf : Bijective f) {g : α → β → δ}
    (hg : ∀ a, Bijective (g a)) : Bijective fun p : α × β => (f p.1, g p.1 p.2) :=
  (Equiv.prodShear (Equiv.ofBijective f hf) fun a => Equiv.ofBijective (g a) (hg a)).bijective

/-- A pair of functions of two arguments, the second of which sees one of them and the first
result. -/
theorem chained_bijective {f : α → β → γ} (hf : ∀ a, Bijective (f a)) {g : γ → α → δ}
    (hg : ∀ c, Bijective (g c)) :
    Bijective fun p : α × β => (f p.1 p.2, g (f p.1 p.2) p.1) := by
  have hfirst : Bijective fun p : α × β => (p.1, f p.1 p.2) := pair_bijective bijective_id hf
  have hsecond : Bijective fun p : γ × α => (p.1, g p.1 p.2) := pair_bijective bijective_id hg
  exact hsecond.comp ((Equiv.prodComm α γ).bijective.comp hfirst)

end Pairs

end Equidistribution
