import DirtyPages.Lib.Outcome
import Mathlib.Data.List.Perm.Basic
import Mathlib.Data.Tree.Basic
import Mathlib.Order.Lattice

/-!
# Search trees with explicit link positions

Binary trees that a caller searches and links into by itself: a search returns the sequence of turns
that leads to the place where it stopped, and linking overwrites what stands at the end of such a
sequence.  The comparison may fail, as it does when it reads a node that is no longer there.

Rebalancing and erasure are not fixed here.  `Balancer` bundles two operations with the laws that
make them usable: both act on the in-order sequence in the expected way.
-/

namespace SearchTree

open Outcome

universe u

variable {ε : Type*} {α : Type u} {β : Type*}

/-- A turn of a descent. -/
inductive Side
  | left
  | right
  deriving DecidableEq, Repr

/-- The values in search order. -/
def inorder : BinaryTree α → List α
  | .nil => []
  | .node a l r => inorder l ++ a :: inorder r

@[simp] theorem inorder_nil : inorder (.nil : BinaryTree α) = [] := rfl

@[simp] theorem inorder_node (a : α) (l r : BinaryTree α) :
    inorder (.node a l r) = inorder l ++ a :: inorder r := rfl

theorem inorder_eq_nil {t : BinaryTree α} : inorder t = [] ↔ t = .nil := by
  cases t with
  | nil => simp
  | node a l r => simp

/-- Search for a value that compares equal, reporting the turns taken. -/
def descend (cmp : α → Except ε Ordering) : BinaryTree α → Except ε (List Side × Option α)
  | .nil => .ok ([], none)
  | .node a l r =>
    match cmp a with
    | .error e => .error e
    | .ok .lt => (fun p => (.left :: p.1, p.2)) <$> descend cmp l
    | .ok .gt => (fun p => (.right :: p.1, p.2)) <$> descend cmp r
    | .ok .eq => .ok ([], some a)

/-- A search stops only where a comparison does. -/
theorem descend_stops {allowed : ε → Prop} {cmp : α → Except ε Ordering}
    (hcmp : ∀ a, Meets allowed (fun _ => True) (cmp a)) (t : BinaryTree α) :
    Meets allowed (fun _ => True) (descend cmp t) := by
  induction t with
  | nil => exact True.intro
  | node a l r ihl ihr =>
    have ha := hcmp a
    rw [descend]
    cases h : cmp a with
    | error e => exact ha.of_error h
    | ok c =>
      cases c with
      | lt => exact ihl.map _
      | gt => exact ihr.map _
      | eq => exact True.intro

/-- Put a leaf with the value `x` where `path` ends. -/
def linkAt (x : α) : List Side → BinaryTree α → BinaryTree α
  | [], _ => .node x .nil .nil
  | .left :: path, .node a l r => .node a (linkAt x path l) r
  | .right :: path, .node a l r => .node a l (linkAt x path r)
  | _ :: _, .nil => .nil

/-- Operations on trees that respect the in-order sequence. -/
structure Balancer (α : Type u) [DecidableEq α] where
  insertColor : α → BinaryTree α → BinaryTree α
  erase : α → BinaryTree α → BinaryTree α
  inorder_insertColor : ∀ x t, inorder (insertColor x t) = inorder t
  inorder_erase : ∀ x t, inorder (erase x t) = (inorder t).erase x

/-- The tree that leans to the right and has a given in-order sequence. -/
def comb : List α → BinaryTree α
  | [] => .nil
  | a :: as => .node a .nil (comb as)

@[simp] theorem inorder_comb (as : List α) : inorder (comb as) = as := by
  induction as with
  | nil => rfl
  | cons a as ih => rw [comb, inorder_node, ih, inorder_nil, List.nil_append]

/-- No rebalancing at all. -/
def Balancer.plain (α : Type u) [DecidableEq α] : Balancer α where
  insertColor _ t := t
  erase x t := comb ((inorder t).erase x)
  inorder_insertColor _ _ := rfl
  inorder_erase _ _ := inorder_comb _

section Search

variable [LinearOrder β] {key : α → β} {target : β} {cmp : α → Except ε Ordering}

/-- `cmp` compares the target with the key of `a`. -/
def Compares (key : α → β) (target : β) (cmp : α → Except ε Ordering) (a : α) : Prop :=
  ∃ c, cmp a = .ok c ∧ (c = .lt → target < key a) ∧ (c = .gt → key a < target) ∧
    (c = .eq → key a = target)

/-- The keys increase strictly along a list. -/
def Increasing (key : α → β) (as : List α) : Prop := as.Pairwise fun a b => key a < key b

theorem increasing_node {a : α} {l r : BinaryTree α}
    (h : Increasing key (inorder (.node a l r))) :
    Increasing key (inorder l) ∧ Increasing key (inorder r) ∧
      (∀ b ∈ inorder l, key b < key a) ∧ (∀ b ∈ inorder r, key a < key b) := by
  rw [Increasing, inorder_node, List.pairwise_append, List.pairwise_cons] at h
  exact ⟨h.1, h.2.1.2, fun b hb => h.2.2 b hb a List.mem_cons_self, h.2.1.1⟩

/-- What a search of an increasing tree returns: a value with the target key, or the one place where
a value with that key belongs. -/
def Located (key : α → β) (target : β) (t : BinaryTree α) : List Side × Option α → Prop
  | (_, some a) => a ∈ inorder t ∧ key a = target
  | (path, none) => ∃ before after, inorder t = before ++ after ∧
      (∀ a ∈ before, key a < target) ∧ (∀ a ∈ after, target < key a) ∧
      ∀ x, inorder (linkAt x path t) = before ++ x :: after

theorem descend_located {t : BinaryTree α} (hinc : Increasing key (inorder t))
    (hcmp : ∀ a ∈ inorder t, Compares key target cmp a) :
    ∃ p, descend cmp t = .ok p ∧ Located key target t p := by
  induction t with
  | nil => exact ⟨([], none), rfl, [], [], rfl, by simp, by simp, fun x => rfl⟩
  | node a l r ihl ihr =>
    obtain ⟨hl, hr, hbefore, hafter⟩ := increasing_node hinc
    obtain ⟨c, hc, hlt, hgt, heq⟩ := hcmp a (by simp)
    rw [descend, hc]
    cases c with
    | eq => exact ⟨([], some a), rfl, by simp, heq rfl⟩
    | lt =>
      obtain ⟨⟨path, found⟩, hp, hloc⟩ := ihl hl fun b hb => hcmp b (by simp [hb])
      refine ⟨(.left :: path, found), by rw [hp]; rfl, ?_⟩
      cases found with
      | some b => exact ⟨by simp [hloc.1], hloc.2⟩
      | none =>
        obtain ⟨before, after, hsplit, hb, ha, hlink⟩ := hloc
        refine ⟨before, after ++ a :: inorder r, ?_, hb, ?_, ?_⟩
        · rw [inorder_node, hsplit, List.append_assoc]
        · intro b hmem
          rcases List.mem_append.mp hmem with h | h
          · exact ha b h
          · rcases List.mem_cons.mp h with rfl | h
            · exact hlt rfl
            · exact lt_trans (hlt rfl) (hafter b h)
        · intro x
          rw [linkAt, inorder_node, hlink, List.append_assoc, List.cons_append]
    | gt =>
      obtain ⟨⟨path, found⟩, hp, hloc⟩ := ihr hr fun b hb => hcmp b (by simp [hb])
      refine ⟨(.right :: path, found), by rw [hp]; rfl, ?_⟩
      cases found with
      | some b => exact ⟨by simp [hloc.1], hloc.2⟩
      | none =>
        obtain ⟨before, after, hsplit, hb, ha, hlink⟩ := hloc
        refine ⟨inorder l ++ a :: before, after, ?_, ?_, ha, ?_⟩
        · rw [inorder_node, hsplit, List.append_assoc, List.cons_append]
        · intro b hmem
          rcases List.mem_append.mp hmem with h | h
          · exact lt_trans (hbefore b h) (hgt rfl)
          · rcases List.mem_cons.mp h with rfl | h
            · exact hgt rfl
            · exact hb b h
        · intro x
          rw [linkAt, inorder_node, hlink, List.append_assoc, List.cons_append]

/-- Linking at the place found keeps the keys increasing. -/
theorem increasing_insert {before after : List α} {x : α} (hx : key x = target)
    (hinc : Increasing key (before ++ after)) (hb : ∀ a ∈ before, key a < target)
    (ha : ∀ a ∈ after, target < key a) : Increasing key (before ++ x :: after) := by
  rw [Increasing, List.pairwise_append] at hinc ⊢
  refine ⟨hinc.1, List.pairwise_cons.mpr ⟨fun a h => hx ▸ ha a h, hinc.2.1⟩, ?_⟩
  intro a hmem b hmem'
  rcases List.mem_cons.mp hmem' with rfl | h
  · exact hx ▸ hb a hmem
  · exact hinc.2.2 a hmem b h

/-- The keys of an increasing list tell its values apart. -/
theorem Increasing.nodup {as : List α} (h : Increasing key as) : as.Nodup :=
  List.Pairwise.imp (fun hlt => fun heq => lt_irrefl _ (heq ▸ hlt)) h

/-- Two values of an increasing list with the same key are the same. -/
theorem Increasing.eq_of_key {as : List α} (h : Increasing key as) {a b : α} (ha : a ∈ as)
    (hb : b ∈ as) (hkey : key a = key b) : a = b := by
  induction as with
  | nil => exact absurd ha List.not_mem_nil
  | cons c as ih =>
    obtain ⟨hc, has⟩ := List.pairwise_cons.mp h
    cases List.mem_cons.mp ha with
    | inl hac =>
      cases List.mem_cons.mp hb with
      | inl hbc => rw [hac, hbc]
      | inr hb => exact absurd (hac ▸ hkey) (ne_of_lt (hc b hb))
    | inr ha =>
      cases List.mem_cons.mp hb with
      | inl hbc => exact absurd (hbc ▸ hkey) (ne_of_gt (hc a ha))
      | inr hb => exact ih has ha hb

theorem Increasing.congr {key' : α → β} {as : List α} (h : Increasing key as)
    (hkey : ∀ a ∈ as, key' a = key a) : Increasing key' as :=
  List.Pairwise.imp_of_mem (fun ha hb hlt => by rw [hkey _ ha, hkey _ hb]; exact hlt) h

end Search

end SearchTree
