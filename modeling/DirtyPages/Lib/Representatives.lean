import Mathlib.Data.List.Dedup
import Mathlib.Data.List.Induction
import Mathlib.Data.Nat.Notation

/-!
# Choosing representatives by two keys

Items arrive one after the other, and an index keeps some of them as representatives.  Items with
the same first key are rivals.  Among rivals the second key decides: an item is left out when a
rival that the index keeps has its second key.  Three things are decided from outside: an item may
be gone when it arrives, a lone rival may turn out to be gone when it is looked at, and there may be
no room for a new first key.

Whatever is decided, the items that are kept differ in one of their two keys.  Where there is always
room and no rival is gone, the index keeps the first item of each pair of keys, and every item that
is there has a representative.
-/

namespace Representatives

variable {α β γ δ : Type*}

/-! ### First occurrences -/

/-- The items whose key does not occur before them. -/
def firsts [DecidableEq δ] (key : α → δ) (xs : List α) : List α :=
  xs.foldl (fun acc x => if ∃ y ∈ acc, key y = key x then acc else acc ++ [x]) []

section Firsts

variable [DecidableEq δ] {key : α → δ} {xs : List α} {x : α}

theorem firsts_concat_eq : firsts key (xs ++ [x]) =
    if ∃ y ∈ firsts key xs, key y = key x then firsts key xs else firsts key xs ++ [x] := by
  rw [firsts, List.foldl_append]
  rfl

theorem firsts_subset (xs : List α) : firsts key xs ⊆ xs := by
  induction xs using List.reverseRecOn with
  | nil => exact List.Subset.refl _
  | append_singleton xs x ih =>
    rw [firsts_concat_eq]
    split_ifs
    · exact fun y hy => List.mem_append_left [x] (ih hy)
    · intro y hy
      exact List.mem_append.mpr ((List.mem_append.mp hy).imp (fun h => ih h) id)

theorem firsts_congr {key' : α → δ} (h : ∀ x ∈ xs, key x = key' x) :
    firsts key xs = firsts key' xs := by
  induction xs using List.reverseRecOn with
  | nil => rfl
  | append_singleton xs x ih =>
    have hxs : ∀ y ∈ xs, key y = key' y := fun y hy => h y (List.mem_append_left [x] hy)
    have hiff : (∃ y ∈ firsts key' xs, key y = key x) ↔ ∃ y ∈ firsts key' xs, key' y = key' x := by
      refine exists_congr ?_
      intro y
      refine and_congr_right ?_
      intro hy
      rw [hxs y (firsts_subset xs hy), h x (List.mem_append_right xs (List.mem_singleton_self x))]
    rw [firsts_concat_eq, firsts_concat_eq, ih hxs]
    simp only [hiff]

/-- Every key of the list is the key of a first occurrence. -/
theorem exists_mem_firsts (hx : x ∈ xs) : ∃ y ∈ firsts key xs, key y = key x := by
  induction xs using List.reverseRecOn with
  | nil => exact absurd hx List.not_mem_nil
  | append_singleton xs z ih =>
    rw [firsts_concat_eq]
    rcases List.mem_append.mp hx with hx | hx
    · obtain ⟨y, hy, hkey⟩ := ih hx
      split_ifs
      · exact ⟨y, hy, hkey⟩
      · exact ⟨y, List.mem_append_left [z] hy, hkey⟩
    · rw [List.mem_singleton.mp hx]
      split_ifs with hold
      · exact hold
      · exact ⟨z, List.mem_append_right _ (List.mem_singleton_self z), rfl⟩

/-- No two first occurrences have the same key. -/
theorem nodup_map_firsts (xs : List α) : ((firsts key xs).map key).Nodup := by
  induction xs using List.reverseRecOn with
  | nil => exact List.nodup_nil
  | append_singleton xs x ih =>
    rw [firsts_concat_eq]
    split_ifs with hold
    · exact ih
    · rw [List.map_append, List.map_singleton, List.nodup_append]
      refine ⟨ih, List.nodup_singleton _, ?_⟩
      intro k hk k' hk' heq
      obtain ⟨y, hy, hyk⟩ := List.mem_map.mp hk
      rw [List.mem_singleton.mp hk'] at heq
      exact hold ⟨y, hy, hyk.trans heq⟩

/-- There are as many first occurrences as keys. -/
theorem length_firsts (xs : List α) : (firsts key xs).length = (xs.map key).dedup.length := by
  rw [← List.length_map key]
  refine List.Perm.length_eq ?_
  rw [List.perm_ext_iff_of_nodup (nodup_map_firsts xs) (List.nodup_dedup _)]
  intro k
  rw [List.mem_dedup, List.mem_map, List.mem_map]
  constructor
  · intro h
    obtain ⟨y, hy, hk⟩ := h
    exact ⟨y, firsts_subset xs hy, hk⟩
  · intro h
    obtain ⟨x, hx, hk⟩ := h
    have hfirst : ∃ y ∈ firsts key xs, key y = key x := exists_mem_firsts hx
    obtain ⟨y, hy, hkey⟩ := hfirst
    exact ⟨y, hy, hkey.trans hk⟩

end Firsts

/-! ### The index -/

/-- What is decided from outside when an item arrives. -/
structure Verdict where
  gone : Bool
  rivalGone : Bool
  noRoom : Bool
  deriving DecidableEq, Repr

/-- The items that are there, and those among them that the index keeps, in order of arrival. -/
structure Index (α : Type*) where
  present : List α
  kept : List α
  deriving DecidableEq, Repr

namespace Index

/-- The item is there but not kept. -/
def leave (x : α) (a : Index α) : Index α := { a with present := a.present ++ [x] }

/-- The item is there and kept. -/
def join (x : α) (a : Index α) : Index α := ⟨a.present ++ [x], a.kept ++ [x]⟩

/-- An item is gone. -/
def expel [DecidableEq α] (n : α) (a : Index α) : Index α := ⟨a.present.erase n, a.kept.erase n⟩

section Sound

variable (first : α → β) (second : α → γ)

/-- Kept items are there, and differ in one of their keys. -/
structure Sound (a : Index α) : Prop where
  sublist : a.kept.Sublist a.present
  apart : a.kept.Pairwise fun m n => first m = first n → second m ≠ second n

variable {first second} {a : Index α}

theorem Sound.nodup (h : Sound first second a) : a.kept.Nodup :=
  h.apart.imp fun hapart heq => hapart (congrArg first heq) (congrArg second heq)

theorem Sound.leave (h : Sound first second a) (x : α) : Sound first second (a.leave x) :=
  ⟨h.sublist.trans (List.sublist_append_left _ _), h.apart⟩

theorem Sound.expel [DecidableEq α] (h : Sound first second a) (n : α) :
    Sound first second (a.expel n) :=
  ⟨h.sublist.erase n, h.apart.sublist List.erase_sublist⟩

end Sound

section Rivals

variable [DecidableEq β] (first : α → β)

/-- The kept items with the same first key. -/
def rivals (x : α) (a : Index α) : List α := a.kept.filter fun n => first n = first x

variable {first} {second : α → γ} {x : α} {a : Index α}

theorem mem_rivals {n : α} : n ∈ a.rivals first x ↔ n ∈ a.kept ∧ first n = first x := by
  rw [rivals, List.mem_filter, decide_eq_true_eq]

theorem Sound.join (h : Sound first second a)
    (hx : ∀ m ∈ a.rivals first x, second m ≠ second x) : Sound first second (a.join x) := by
  refine ⟨h.sublist.append_right [x], ?_⟩
  rw [Index.join, List.pairwise_append]
  refine ⟨h.apart, List.pairwise_singleton _ x, ?_⟩
  intro m hm y hy hfirst
  rw [List.mem_singleton.mp hy] at hfirst ⊢
  exact hx m (mem_rivals.mpr ⟨hm, hfirst⟩)

/-- A lone rival that is gone leaves no rival. -/
theorem rivals_expel [DecidableEq α] {n : α} (hnodup : a.kept.Nodup) (h : a.rivals first x = [n]) :
    (a.expel n).rivals first x = [] := by
  rw [List.eq_nil_iff_forall_not_mem]
  intro m hm
  obtain ⟨hkept, hfirst⟩ := mem_rivals.mp hm
  obtain ⟨hne, hold⟩ := hnodup.mem_erase_iff.mp hkept
  have hmem : m ∈ a.rivals first x := mem_rivals.mpr ⟨hold, hfirst⟩
  rw [h, List.mem_singleton] at hmem
  exact hne hmem

end Rivals

section Offer

variable [DecidableEq α] [DecidableEq β] [DecidableEq γ] (first : α → β) (second : α → γ)

/-- An item arrives. -/
def offer (v : Verdict) (x : α) (a : Index α) : Index α :=
  if v.gone then
    a
  else
    match a.rivals first x with
    | [] => if v.noRoom then a.leave x else a.join x
    | n :: rest =>
      if rest = [] ∧ v.rivalGone = true then
        (a.expel n).join x
      else if ∃ m ∈ n :: rest, second m = second x then
        a.leave x
      else
        a.join x

/-- Items arrive one after the other, at an empty index. -/
def select (offers : List (α × Verdict)) : Index α :=
  offers.foldl (fun a o => a.offer first second o.2 o.1) ⟨[], []⟩

theorem select_concat (offers : List (α × Verdict)) (x : α) (v : Verdict) :
    select first second (offers ++ [(x, v)]) =
      (select first second offers).offer first second v x := by
  rw [select, List.foldl_append]
  rfl

variable {first second} {v : Verdict} {x : α} {a : Index α}

/-! ### What an arrival does -/

theorem offer_gone (h : v.gone = true) : a.offer first second v x = a := by
  rw [offer, if_pos h]

/-- There is no rival. -/
theorem offer_alone (hgone : v.gone = false) (h : a.rivals first x = []) :
    a.offer first second v x = if v.noRoom then a.leave x else a.join x := by
  rw [offer, hgone, h]
  rfl

/-- The lone rival is gone. -/
theorem offer_rivalGone {n : α} (hgone : v.gone = false) (h : a.rivals first x = [n])
    (hrival : v.rivalGone = true) : a.offer first second v x = (a.expel n).join x := by
  rw [offer, hgone, h]
  show (if ([] : List α) = [] ∧ v.rivalGone = true then _ else _) = _
  rw [if_pos ⟨rfl, hrival⟩]

/-- Rivals that are still there decide by their second keys. -/
theorem offer_rivals (hgone : v.gone = false) (h : a.rivals first x ≠ [])
    (hrival : (∃ n, a.rivals first x = [n]) → v.rivalGone = false) :
    a.offer first second v x =
      if ∃ m ∈ a.rivals first x, second m = second x then a.leave x else a.join x := by
  rw [offer, hgone]
  cases hr : a.rivals first x with
  | nil => exact absurd hr h
  | cons n rest =>
    have hthere : ¬(rest = [] ∧ v.rivalGone = true) := by
      intro hboth
      have hfalse := hrival ⟨n, by rw [hr, hboth.1]⟩
      rw [hboth.2] at hfalse
      cases hfalse
    exact if_neg hthere

/-- Where there is room and no rival is gone, an item is kept when no kept item has its keys. -/
theorem offer_plain (hgone : v.gone = false) (hrival : v.rivalGone = false)
    (hroom : v.noRoom = false) : a.offer first second v x =
      if ∃ m ∈ a.kept, (first m, second m) = (first x, second x) then a.leave x else a.join x := by
  have hiff : (∃ m ∈ a.rivals first x, second m = second x) ↔
      ∃ m ∈ a.kept, (first m, second m) = (first x, second x) := by
    constructor
    · intro h
      obtain ⟨m, hm, hsecond⟩ := h
      obtain ⟨hkept, hfirst⟩ := mem_rivals.mp hm
      exact ⟨m, hkept, Prod.ext hfirst hsecond⟩
    · intro h
      obtain ⟨m, hm, hkeys⟩ := h
      rw [Prod.mk.injEq] at hkeys
      obtain ⟨hfirst, hsecond⟩ := hkeys
      exact ⟨m, mem_rivals.mpr ⟨hm, hfirst⟩, hsecond⟩
  by_cases hnil : a.rivals first x = []
  · rw [offer_alone hgone hnil, hroom]
    have hno : ¬∃ m ∈ a.kept, (first m, second m) = (first x, second x) := by
      intro h
      obtain ⟨m, hm, _⟩ := hiff.mpr h
      rw [hnil] at hm
      exact absurd hm List.not_mem_nil
    rw [if_neg hno]
    rfl
  · rw [offer_rivals hgone hnil fun _ => hrival]
    by_cases hex : ∃ m ∈ a.kept, (first m, second m) = (first x, second x)
    · rw [if_pos hex, if_pos (hiff.mpr hex)]
    · rw [if_neg hex, if_neg fun h => hex (hiff.mp h)]

/-! ### Whatever is decided -/

theorem Sound.offer (h : Sound first second a) (v : Verdict) (x : α) :
    Sound first second (a.offer first second v x) := by
  by_cases hgone : v.gone = true
  · rw [offer_gone hgone]
    exact h
  rw [Bool.not_eq_true] at hgone
  have hnone : a.rivals first x = [] → Sound first second (a.join x) := by
    intro hnil
    refine h.join ?_
    intro m hm
    rw [hnil] at hm
    exact absurd hm List.not_mem_nil
  by_cases hnil : a.rivals first x = []
  · rw [offer_alone hgone hnil]
    split_ifs
    · exact h.leave x
    · exact hnone hnil
  by_cases hlone : ∃ n, a.rivals first x = [n] ∧ v.rivalGone = true
  · obtain ⟨n, hn, hrival⟩ := hlone
    rw [offer_rivalGone hgone hn hrival]
    refine (h.expel n).join ?_
    intro m hm
    rw [rivals_expel h.nodup hn] at hm
    exact absurd hm List.not_mem_nil
  · rw [offer_rivals hgone hnil]
    · split_ifs with hex
      · exact h.leave x
      · exact h.join fun m hm heq => hex ⟨m, hm, heq⟩
    · intro hone
      obtain ⟨n, hn⟩ := hone
      exact eq_false_of_ne_true fun hrival => hlone ⟨n, hn, hrival⟩

theorem select_sound (offers : List (α × Verdict)) :
    Sound first second (select first second offers) := by
  induction offers using List.reverseRecOn with
  | nil => exact ⟨List.Sublist.refl _, List.Pairwise.nil⟩
  | append_singleton offers o ih =>
    rw [select_concat]
    exact ih.offer o.2 o.1

/-! ### Always room and no rival gone -/

/-- The items that are there when they arrive. -/
def arrived (offers : List (α × Verdict)) : List α :=
  (offers.filter fun o => !o.2.gone).map Prod.fst

/-- The index keeps the first item of each pair of keys. -/
theorem select_eq_firsts (offers : List (α × Verdict))
    (h : ∀ o ∈ offers, o.2.rivalGone = false ∧ o.2.noRoom = false) :
    select first second offers =
      ⟨arrived offers, firsts (fun n => (first n, second n)) (arrived offers)⟩ := by
  induction offers using List.reverseRecOn with
  | nil => rfl
  | append_singleton offers o ih =>
    obtain ⟨hrival, hroom⟩ := h o (List.mem_append_right _ (List.mem_singleton_self o))
    rw [select_concat, ih fun o' ho' => h o' (List.mem_append_left _ ho')]
    cases hgone : o.2.gone with
    | true =>
      have harrived : arrived (offers ++ [o]) = arrived offers := by
        simp [arrived, hgone]
      rw [offer_gone hgone, harrived]
    | false =>
      have harrived : arrived (offers ++ [o]) = arrived offers ++ [o.1] := by
        simp [arrived, hgone]
      rw [offer_plain hgone hrival hroom, harrived, firsts_concat_eq]
      split_ifs
      · rfl
      · rfl

end Offer

end Index

example : Index.select (fun n => n / 10) (fun n => n % 2)
    [(10, ⟨false, false, false⟩), (12, ⟨false, true, false⟩), (13, ⟨false, true, false⟩),
      (14, ⟨true, false, false⟩), (22, ⟨false, false, true⟩)] = ⟨[13, 22], [13]⟩ := by decide

end Representatives
