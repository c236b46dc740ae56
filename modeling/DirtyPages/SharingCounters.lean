import DirtyPages.StableLookup
import Mathlib.Algebra.BigOperators.Group.List.Basic
import Mathlib.Data.Int.ModEq
import Mathlib.Data.List.Nodup

/-!
# The sharing counters

`uksm_pages_shared` counts the stable nodes that have a `node_vma`, `uksm_pages_sharing` their
rmap_items less one a node, both as 64-bit words.  Taking the items of a node off one by one and
correcting both counters at the end moves them by what the node stood for, so that a removal keeps
them equal to the sums over the nodes that remain, and with it the rebuild.
-/

namespace DirtyPages

open Outcome SearchTree

/-- The addresses of all rmap_items under a node. -/
def rmapItems (hlist : List NodeVma) : List ℕ := hlist.flatMap NodeVma.rmapHlist

/-- What a node stands for in `uksm_pages_shared`. -/
def sharedOf (hlist : List NodeVma) : ℤ := if hlist.isEmpty then 0 else 1

/-- What a node stands for in `uksm_pages_sharing`. -/
def sharingOf (hlist : List NodeVma) : ℤ :=
  if hlist.isEmpty then 0 else (rmapItems hlist).length - 1

/-- The `node_vma`s of a node. -/
def Holders.mapped (h : Holders) (n : ℕ) : List NodeVma := (h.hlist n).getD []

/-- `stable_node_list` links every stable node once. -/
structure Holders.Listed (h : Holders) : Prop where
  nodup : h.stableNodeList.Nodup
  present : ∀ n, n ∈ h.stableNodeList ↔ (h.hlist n).isSome = true

/-- The counters follow the nodes. -/
structure Holders.Consistent (h : Holders) : Prop where
  shared : (h.sharing.uksmPagesShared.toNat : ℤ) ≡
    (h.stableNodeList.map fun n => sharedOf (h.mapped n)).sum [ZMOD 2 ^ 64]
  sharing : (h.sharing.uksmPagesSharing.toNat : ℤ) ≡
    (h.stableNodeList.map fun n => sharingOf (h.mapped n)).sum [ZMOD 2 ^ 64]

/-! ### The items of one node -/

theorem toNat_sub_one_modEq (a : UInt64) :
    ((a - 1).toNat : ℤ) ≡ a.toNat - 1 [ZMOD 2 ^ 64] := by
  rw [UInt64.toNat_sub, Int.ModEq]
  have ha := a.toNat_lt
  rw [show (1 : UInt64).toNat = 1 from rfl]
  omega

theorem toNat_add_one_modEq (a : UInt64) :
    ((a + 1).toNat : ℤ) ≡ a.toNat + 1 [ZMOD 2 ^ 64] := by
  rw [UInt64.toNat_add, Int.ModEq]
  rw [show (1 : UInt64).toNat = 1 from rfl]
  omega

/-- The flag bits of an rmap_item's address cleared. -/
def clearFlags (r : StableRmapItem) : StableRmapItem := { r with address := r.address &&& pageMask }

theorem clearFlags_idem (r : StableRmapItem) : clearFlags (clearFlags r) = clearFlags r := by
  rw [clearFlags, clearFlags, UInt64.and_assoc, UInt64.and_self]

/-- What unmapping the `items` changes. -/
structure Unmapped (items : List ℕ) (s s' : Sharing) : Prop where
  shared : s'.uksmPagesShared = s.uksmPagesShared
  sharing : (s'.uksmPagesSharing.toNat : ℤ) ≡ s.uksmPagesSharing.toNat - items.length [ZMOD 2 ^ 64]
  rmapItem : ∀ item, s'.rmapItem item =
    if item ∈ items then clearFlags (s.rmapItem item) else s.rmapItem item
  anonVmaRefs : ∀ a, s'.anonVmaRefs a =
    s.anonVmaRefs a - items.countP fun item => (s.rmapItem item).anonVma = a

theorem unmapRmapItem_rmapItem (s : Sharing) (item j : ℕ) :
    (unmapRmapItem s item).rmapItem j =
      if j = item then clearFlags (s.rmapItem j) else s.rmapItem j := by
  simp only [unmapRmapItem, Function.update_apply]
  split_ifs with hj
  · rw [hj, clearFlags]
  · rfl

/-- The `anon_vma` of an item is not written. -/
theorem unmapRmapItem_anonVma (s : Sharing) (item j : ℕ) :
    ((unmapRmapItem s item).rmapItem j).anonVma = (s.rmapItem j).anonVma := by
  rw [unmapRmapItem_rmapItem]
  split_ifs
  · rfl
  · rfl

theorem unmapRmapItem_anonVmaRefs (s : Sharing) (item a : ℕ) :
    (unmapRmapItem s item).anonVmaRefs a =
      s.anonVmaRefs a - if (s.rmapItem item).anonVma = a then 1 else 0 := by
  simp only [unmapRmapItem, Function.update_apply]
  by_cases ha : a = (s.rmapItem item).anonVma
  · rw [if_pos ha, if_pos ha.symm, ha]
  · rw [if_neg ha, if_neg fun h => ha h.symm, sub_zero]

/-- The inner loop over any items. -/
theorem unmapped_foldl (items : List ℕ) (s : Sharing) :
    Unmapped items s (items.foldl unmapRmapItem s) := by
  induction items generalizing s with
  | nil =>
    constructor
    case shared => rfl
    case sharing => simp
    case rmapItem => simp
    case anonVmaRefs => simp
  | cons item items ih =>
    obtain ⟨hshared, hsharing, hitem, hrefs⟩ := ih (unmapRmapItem s item)
    constructor
    case shared => exact hshared
    case sharing =>
      have hone := (toNat_sub_one_modEq s.uksmPagesSharing).sub_right (items.length : ℤ)
      have hlength : ((item :: items).length : ℤ) = 1 + items.length := by
        rw [List.length_cons, Nat.cast_succ, add_comm]
      rw [hlength, ← sub_sub]
      exact hsharing.trans hone
    case rmapItem =>
      intro j
      rw [List.foldl_cons, hitem j, unmapRmapItem_rmapItem]
      by_cases hj : j = item
      · rw [if_pos hj, clearFlags_idem, ite_self, if_pos (hj ▸ List.mem_cons_self)]
      · rw [if_neg hj]
        exact if_congr (List.mem_cons.trans (or_iff_right hj)).symm rfl rfl
    case anonVmaRefs =>
      intro a
      rw [List.foldl_cons, hrefs a, unmapRmapItem_anonVmaRefs, List.countP_cons]
      simp only [unmapRmapItem_anonVma, decide_eq_true_eq]
      split_ifs <;> omega

/-- The nested loop is the loop over all items of the node. -/
theorem unmapNode_of_mapped {hlist : List NodeVma} (h : hlist.isEmpty = false) (s : Sharing) :
    unmapNode hlist s =
      { (rmapItems hlist).foldl unmapRmapItem s with
        uksmPagesShared := ((rmapItems hlist).foldl unmapRmapItem s).uksmPagesShared - 1
        uksmPagesSharing := ((rmapItems hlist).foldl unmapRmapItem s).uksmPagesSharing + 1 } := by
  rw [unmapNode, h, rmapItems, List.foldl_flatMap]
  rfl

/-- What removing a node with this `hlist` does to the counters, the items and the anon_vmas. -/
structure NodeUnmapped (hlist : List NodeVma) (s s' : Sharing) : Prop where
  shared : (s'.uksmPagesShared.toNat : ℤ) ≡
    s.uksmPagesShared.toNat - sharedOf hlist [ZMOD 2 ^ 64]
  sharing : (s'.uksmPagesSharing.toNat : ℤ) ≡
    s.uksmPagesSharing.toNat - sharingOf hlist [ZMOD 2 ^ 64]
  rmapItem : ∀ item, s'.rmapItem item =
    if item ∈ rmapItems hlist then clearFlags (s.rmapItem item) else s.rmapItem item
  anonVmaRefs : ∀ a, s'.anonVmaRefs a =
    s.anonVmaRefs a - (rmapItems hlist).countP fun item => (s.rmapItem item).anonVma = a

theorem nodeUnmapped (hlist : List NodeVma) (s : Sharing) :
    NodeUnmapped hlist s (unmapNode hlist s) := by
  cases hempty : hlist.isEmpty with
  | true =>
    obtain rfl := List.isEmpty_iff.mp hempty
    constructor
    case shared => simp [unmapNode, sharedOf]
    case sharing => simp [unmapNode, sharingOf]
    case rmapItem => simp [unmapNode, rmapItems]
    case anonVmaRefs => simp [unmapNode, rmapItems]
  | false =>
    obtain ⟨hshared, hsharing, hitem, hrefs⟩ := unmapped_foldl (rmapItems hlist) s
    rw [unmapNode_of_mapped hempty]
    constructor
    case shared =>
      simp only [hshared, sharedOf, hempty]
      exact toNat_sub_one_modEq s.uksmPagesShared
    case sharing =>
      -- the last item is counted as the shared page itself
      have hlast := (toNat_add_one_modEq _).trans (hsharing.add_right 1)
      rw [sharingOf, hempty, if_neg Bool.false_ne_true, ← sub_add]
      exact hlast
    case rmapItem => exact hitem
    case anonVmaRefs => exact hrefs

/-! ### The remaining nodes -/

section Removal

variable {h : Holders} {n : ℕ} {hlist : List NodeVma}

theorem Holders.remove_hlist (hlist : List NodeVma) {m : ℕ} (hm : m ≠ n) :
    (h.remove n hlist).hlist m = h.hlist m := by
  show Function.update h.hlist n none m = h.hlist m
  exact Function.update_of_ne hm none h.hlist

theorem Holders.remove_mapped (hlist : List NodeVma) {m : ℕ} (hm : m ≠ n) :
    (h.remove n hlist).mapped m = h.mapped m := by
  rw [Holders.mapped, Holders.remove_hlist hlist hm, Holders.mapped]

theorem Holders.Listed.remove (hlisted : h.Listed) (n : ℕ) (hlist : List NodeVma) :
    (h.remove n hlist).Listed := by
  constructor
  case nodup => exact hlisted.nodup.erase n
  case present =>
    intro m
    show m ∈ h.stableNodeList.erase n ↔ (Function.update h.hlist n none m).isSome = true
    rw [hlisted.nodup.mem_erase_iff, hlisted.present m, Function.update_apply]
    split_ifs with hm
    · exact iff_of_false (fun hboth => hboth.1 hm) Bool.false_ne_true
    · exact and_iff_right hm

/-- A sum over the nodes loses what the removed node stood for. -/
theorem Holders.Listed.sum_remove (hlisted : h.Listed) (hn : h.hlist n = some hlist)
    (f : List NodeVma → ℤ) :
    ((h.remove n hlist).stableNodeList.map fun m => f ((h.remove n hlist).mapped m)).sum =
      (h.stableNodeList.map fun m => f (h.mapped m)).sum - f hlist := by
  have hmem : n ∈ h.stableNodeList := (hlisted.present n).mpr (Option.isSome_of_eq_some hn)
  have hmapped : h.mapped n = hlist := by rw [Holders.mapped, hn, Option.getD_some]
  have hothers : (h.stableNodeList.erase n).map (fun m => f ((h.remove n hlist).mapped m)) =
      (h.stableNodeList.erase n).map fun m => f (h.mapped m) := by
    refine List.map_congr_left fun m hm => ?_
    rw [Holders.remove_mapped hlist (hlisted.nodup.mem_erase_iff.mp hm).1]
  have hsum := List.sum_map_erase (fun m => f (h.mapped m)) hmem
  show ((h.stableNodeList.erase n).map _).sum = _
  rw [hothers, ← hsum, hmapped, add_sub_cancel_left]

theorem Holders.Consistent.remove (hcons : h.Consistent) (hlisted : h.Listed)
    (hn : h.hlist n = some hlist) : (h.remove n hlist).Consistent := by
  have hnode := nodeUnmapped hlist h.sharing
  constructor
  case shared =>
    rw [hlisted.sum_remove hn]
    exact hnode.shared.trans (hcons.shared.sub_right _)
  case sharing =>
    rw [hlisted.sum_remove hn]
    exact hnode.sharing.trans (hcons.sharing.sub_right _)

/-- Every removal keeps both. -/
theorem removalKeeps_consistent : RemovalKeeps fun h => h.Listed ∧ h.Consistent :=
  fun n hlist _ hn hgood => ⟨hgood.1.remove n hlist, hgood.2.remove hgood.1 hn⟩

end Removal

/-! ### The removal and the rebuild -/

/-- Some pointer that the removal of `n` follows leads to no object. -/
def Dangling (t : StableTree) (n : ℕ) : Prop :=
  ∀ node, t.stableNode n = some node → ∃ i, node.treeNode = some i ∧ t.treeNode i = none

theorem unlinkStableNode_dangling (rb : Balancer ℕ) (n i : ℕ) (removeTreeNode : Bool)
    (t : StableTree) :
    Meets (fun _ => t.treeNode i = none) (fun _ => True)
      (unlinkStableNode rb n i removeTreeNode t) := by
  rw [unlinkStableNode, getTreeNode]
  cases htn : t.treeNode i with
  | none => exact rfl
  | some tn =>
    simp only [bind, Except.bind]
    split_ifs
    · exact True.intro
    · exact True.intro

/-- The removal returns unless it follows such a pointer. -/
theorem removeNodeFromStableTree_dangling (rb : Balancer ℕ) (n : ℕ) (unlinkRb removeTreeNode : Bool)
    (t : StableTree) :
    Meets (fun _ => Dangling t n) (fun _ => True)
      (removeNodeFromStableTree rb n unlinkRb removeTreeNode t) := by
  rw [removeNodeFromStableTree, getStableNode]
  cases hnode : t.stableNode n with
  | none =>
    intro node hsome
    rw [hnode] at hsome
    cases hsome
  | some node =>
    simp only [bind, Except.bind]
    cases hpointer : node.treeNode with
    | none => exact True.intro
    | some i =>
      cases unlinkRb with
      | false => exact True.intro
      | true =>
        have hstops := unlinkStableNode_dangling rb n i removeTreeNode
          { t with sharing := unmapNode node.hlist t.sharing }
        refine Meets.bind (hstops.mono ?_ fun _ h => h) fun _ _ => meets_pure.mpr True.intro
        intro _ hnone node' hnode'
        obtain rfl := Option.some.inj (hnode.symm.trans hnode')
        exact ⟨i, hpointer, hnone⟩

/-- What a removal leaves of the tree. -/
structure NodeRemoved (t : StableTree) (n : ℕ) (t' : StableTree) : Prop where
  listed : t'.holders.Listed
  consistent : t'.holders.Consistent
  list : t'.stableNodeList = t.stableNodeList.erase n
  others : ∀ m, m ≠ n → t'.holders.hlist m = t.holders.hlist m
  unmapped : NodeUnmapped (t.holders.mapped n) t.sharing t'.sharing

/-- From every consistent state: with any flags the removal of a node leaves the counters consistent
for the remaining nodes, clears the flag bits of exactly its own items and drops one anon_vma reference
for each; and a rebuild keeps the counters consistent, whichever nodes turn out to be stale. -/
theorem removeNodeFromStableTree_consistent (rb : Balancer ℕ) (randomNums : RandomNums)
    (pageAt : ℕ → Page) (hashStrength : UInt64) (prevHashStrength : UInt32) (t : StableTree)
    (hlisted : t.holders.Listed) (hcons : t.holders.Consistent) :
    (∀ (n : ℕ) (unlinkRb removeTreeNode : Bool),
      Meets (fun _ => Dangling t n) (NodeRemoved t n)
        (removeNodeFromStableTree rb n unlinkRb removeTreeNode t)) ∧
    ∀ (choices : ℕ → Choice) (c : Counters),
      Meets (fun _ => True) (fun r => r.tree.holders.Listed ∧ r.tree.holders.Consistent)
        (stableTreeDeltaHash rb randomNums pageAt hashStrength prevHashStrength choices t c) := by
  constructor
  · intro n unlinkRb removeTreeNode
    have hstops := removeNodeFromStableTree_dangling rb n unlinkRb removeTreeNode t
    have hholders := removeNodeFromStableTree_holders (t := t) rb n unlinkRb removeTreeNode
    refine (hstops.and hholders).mono (fun _ h => h.1) ?_
    rintro t' ⟨_, _, hlist, hn, heq⟩
    have hmapped : t.holders.mapped n = hlist := by rw [Holders.mapped, hn, Option.getD_some]
    constructor
    case listed =>
      rw [heq]
      exact hlisted.remove n hlist
    case consistent =>
      rw [heq]
      exact hcons.remove hlisted hn
    case list => exact congrArg Holders.stableNodeList heq
    case others =>
      intro m hm
      rw [heq]
      exact Holders.remove_hlist hlist hm
    case unmapped =>
      rw [hmapped, show t'.sharing = unmapNode hlist t.sharing from congrArg Holders.sharing heq]
      exact nodeUnmapped hlist t.sharing
  · intro choices c
    rw [stableTreeDeltaHash]
    refine Meets.imp (stableTreeDeltaHashWith_kept rb randomNums pageAt hashStrength
      prevHashStrength (fun j => (choices j).visit_keeps removalKeeps_consistent rb)
      ⟨hlisted, hcons⟩ c) ?_
    exact fun r hr => hr.good

/-- A node with two `node_vma`s, one of them empty, and a node with one. -/
def twoSharers : StableTree :=
  { initialTree with
    stableNodeList := [0, 1]
    stableNode := fun n =>
      if n = 0 then some ⟨none, [⟨[10, 11]⟩, ⟨[]⟩], 5, 0⟩
      else if n = 1 then some ⟨none, [⟨[12]⟩], 6, 0⟩
      else none
    sharing := ⟨2, 1, fun item => ⟨0x7000A00, item % 2⟩, fun _ => 3⟩ }

theorem twoSharers_listed : twoSharers.holders.Listed where
  nodup := by decide
  present n := by
    simp only [StableTree.holders, twoSharers]
    split_ifs with h0 h1
    · simp [h0]
    · simp [h1]
    · simp [h0, h1]

theorem twoSharers_consistent : twoSharers.holders.Consistent where
  shared := by decide
  sharing := by decide

theorem removeNodeFromStableTree_consistent_twoSharers :
    twoSharers.holders.Listed ∧ twoSharers.holders.Consistent ∧
      Meets (fun _ => Dangling twoSharers 0) (NodeRemoved twoSharers 0)
        (removeNodeFromStableTree (Balancer.plain ℕ) 0 true false twoSharers) :=
  ⟨twoSharers_listed, twoSharers_consistent,
    (removeNodeFromStableTree_consistent (Balancer.plain ℕ) id (fun _ _ => 0) 64 32 twoSharers
      twoSharers_listed twoSharers_consistent).1 0 true false⟩

end DirtyPages
