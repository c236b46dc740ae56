import DirtyPages.StableTree

/-!
# The invariant of the stable tree

`Core` says what a stable tree under construction looks like after the nodes in `done` have been
inserted: the list and the heap of stable nodes agree, the tree nodes stand in strict order of their
hashes, every linked node is in the one sub-tree that it points to and has the hash of that
sub-tree, and a sub-tree with several nodes is in strict order of their full-strength hashes.  It
leaves out that sub-trees are not empty, which fails between the removal of a stale node and the
reuse of its tree node.

A rebuild is made of six small changes.  Each has a lemma that it keeps `Core`, and `Frame` says
what it leaves alone.
-/

namespace DirtyPages

open SearchTree

/-! ### Reading a stable tree -/

/-- The stable node at an address. -/
def StableTree.node (t : StableTree) (n : ℕ) : StableNode :=
  (t.stableNode n).getD ⟨none, [], 0, 0⟩

/-- The tree node at an address. -/
def StableTree.group (t : StableTree) (i : ℕ) : TreeNode := (t.treeNode i).getD ⟨.nil, 0, 0⟩

/-- The stable nodes under a tree node, in search order. -/
def StableTree.members (t : StableTree) (i : ℕ) : List ℕ := inorder (t.group i).subRoot

/-- The tree nodes of one of the two trees, in search order. -/
def StableTree.groups (t : StableTree) (k : Fin 2) : List ℕ := inorder (t.rootStableTree k)

/-- The stable node at this address has not been freed. -/
def StableTree.Alive (t : StableTree) (n : ℕ) : Prop := (t.stableNode n).isSome = true

instance (t : StableTree) (n : ℕ) : Decidable (t.Alive n) := inferInstanceAs (Decidable (_ = _))

theorem getStableNode_eq {t : StableTree} {n : ℕ} (h : t.Alive n) :
    getStableNode n t = .ok (t.node n) := by
  obtain ⟨node, hnode⟩ := Option.isSome_iff_exists.mp h
  rw [getStableNode, StableTree.node, hnode]
  rfl

theorem getTreeNode_eq {t : StableTree} {i : ℕ} (h : (t.treeNode i).isSome = true) :
    getTreeNode i t = .ok (t.group i) := by
  obtain ⟨tn, htn⟩ := Option.isSome_iff_exists.mp h
  rw [getTreeNode, StableTree.group, htn]
  rfl

@[simp] theorem setStableNode_node (n : ℕ) (x : StableNode) (t : StableTree) (m : ℕ) :
    (setStableNode n x t).node m = if m = n then x else t.node m := by
  simp only [StableTree.node, setStableNode, Function.update_apply]
  split_ifs
  · rfl
  · rfl

@[simp] theorem setStableNode_alive (n : ℕ) (x : StableNode) (t : StableTree) (m : ℕ) :
    (setStableNode n x t).Alive m ↔ m = n ∨ t.Alive m := by
  simp only [StableTree.Alive, setStableNode, Function.update_apply]
  split_ifs with h
  · simp [h]
  · simp [h]

/-- Writing to a node that is there. -/
theorem setStableNode_alive_of {n : ℕ} {t : StableTree} (hn : t.Alive n) (x : StableNode) (m : ℕ) :
    (setStableNode n x t).Alive m ↔ t.Alive m := by
  rw [setStableNode_alive]
  refine ⟨?_, Or.inr⟩
  rintro (rfl | hm)
  · exact hn
  · exact hm

@[simp] theorem setTreeNode_group (i : ℕ) (x : TreeNode) (t : StableTree) (j : ℕ) :
    (setTreeNode i x t).group j = if j = i then x else t.group j := by
  simp only [StableTree.group, setTreeNode, Function.update_apply]
  split_ifs
  · rfl
  · rfl

@[simp] theorem freeStableNode_node (n : ℕ) (t : StableTree) {m : ℕ} (h : m ≠ n) :
    (freeStableNode n t).node m = t.node m := by
  simp only [StableTree.node, freeStableNode, Function.update_apply, if_neg h]

@[simp] theorem freeStableNode_alive (n : ℕ) (t : StableTree) (m : ℕ) :
    (freeStableNode n t).Alive m ↔ m ≠ n ∧ t.Alive m := by
  simp only [StableTree.Alive, freeStableNode, Function.update_apply]
  split_ifs with h
  · simp [h]
  · simp [h]

/-! ### The invariant -/

section Invariant

variable (randomNums : RandomNums) (pageAt : ℕ → Page)

/-- The hash of a node's page at a strength. -/
def StableTree.hashAt (t : StableTree) (s : UInt64) (n : ℕ) : UInt32 :=
  (randomSampleHash randomNums (pageAt (t.node n).kpfn) s.toNat).hash

/-- The full-strength hash of a node's page. -/
def StableTree.maxHash (t : StableTree) (n : ℕ) : UInt32 :=
  fullHash randomNums (pageAt (t.node n).kpfn)

/-- A sub-tree with several nodes has all their full-strength hashes, in strict order. -/
def StableTree.Ordered (t : StableTree) (i : ℕ) : Prop :=
  2 ≤ (t.members i).length →
    (∀ n ∈ t.members i, (t.node n).hashMax ≠ 0) ∧
      Increasing (fun n => (t.node n).hashMax.toNat) (t.members i)

/-- The order of a sub-tree depends on its nodes and their hashes only. -/
theorem StableTree.Ordered.congr {t t' : StableTree} {i : ℕ} (h : t.Ordered i)
    (hmembers : t'.members i = t.members i)
    (hmax : (∀ n ∈ t.members i, (t.node n).hashMax ≠ 0) →
      ∀ n ∈ t.members i, (t'.node n).hashMax = (t.node n).hashMax) : t'.Ordered i := by
  intro htwo
  rw [hmembers] at htwo ⊢
  obtain ⟨hne, hinc⟩ := h htwo
  have hsame := hmax hne
  refine ⟨fun n hn => ?_, hinc.congr fun n hn => congrArg UInt32.toNat (hsame n hn)⟩
  rw [hsame n hn]
  exact hne n hn

/-- The tree `k` at strength `s`, with the nodes in `done` inserted and the tree nodes allocated at
addresses from `base` on. -/
structure Core (k : Fin 2) (s : UInt64) (base : ℕ) (done : ℕ → Prop) (t : StableTree) : Prop where
  nodup : t.stableNodeList.Nodup
  alive : ∀ n, n ∈ t.stableNodeList ↔ t.Alive n
  genuine : ∀ n, t.Alive n → (t.node n).hashMax = 0 ∨
    (t.node n).hashMax = t.maxHash randomNums pageAt n
  groupAlive : ∀ i ∈ t.groups k, (t.treeNode i).isSome = true
  groupFresh : ∀ i ∈ t.groups k, base ≤ i
  bounded : ∀ i, (t.treeNode i).isSome = true → i < t.nextTreeNode
  groupList : ∀ i, i ∈ t.stableTreeNodeList k ↔ i ∈ t.groups k
  sorted : Increasing (fun i => (t.group i).hash.toNat) (t.groups k)
  member : ∀ i ∈ t.groups k, ∀ n ∈ t.members i,
    t.Alive n ∧ done n ∧ (t.node n).treeNode = some i
  linked : ∀ n, t.Alive n → done n → ∀ i, (t.node n).treeNode = some i →
    i ∈ t.groups k ∧ n ∈ t.members i ∧ t.hashAt randomNums pageAt s n = (t.group i).hash
  count : ∀ i ∈ t.groups k, (t.group i).count = (t.members i).length
  ordered : ∀ i ∈ t.groups k, t.Ordered i

/-- What a change that concerns the node `x` leaves alone, at tree nodes below `base` and at nodes
that are not `done`. -/
structure Frame (k : Fin 2) (base : ℕ) (done : ℕ → Prop) (x : ℕ) (t t' : StableTree) : Prop where
  todo : ∀ n, n ≠ x → ¬done n → t'.stableNode n = t.stableNode n
  pointer : ∀ n, n ≠ x → t'.Alive n → (t'.node n).treeNode = (t.node n).treeNode
  dead : ∀ n, t'.Alive n → t.Alive n
  list : t'.stableNodeList = t.stableNodeList.filter fun n => t'.Alive n
  old : ∀ i, i < base → t'.treeNode i = t.treeNode i
  next : t.nextTreeNode ≤ t'.nextTreeNode
  otherList : ∀ k', k' ≠ k → t'.stableTreeNodeList k' = t.stableTreeNodeList k'
  index : t'.stableTreeIndex = t.stableTreeIndex
  listp : t'.stableTreeNodeListp = t.stableTreeNodeListp
  pages : t'.pageCount = t.pageCount

end Invariant

variable {randomNums : RandomNums} {pageAt : ℕ → Page} {k : Fin 2} {s : UInt64} {base : ℕ}
  {done done' : ℕ → Prop} {x : ℕ} {t t' t'' : StableTree}

/-- A node that is not done yet is in no tree node. -/
theorem Core.member_ne (h : Core randomNums pageAt k s base done t) (hx : ¬done x) :
    ∀ i ∈ t.groups k, ∀ n ∈ t.members i, n ≠ x := by
  intro i hi n hn heq
  obtain ⟨_, hdone, _⟩ := h.member i hi n hn
  exact hx (heq ▸ hdone)

theorem Frame.trans (h : Frame k base done x t t') (h' : Frame k base done x t' t'') :
    Frame k base done x t t'' where
  todo n hx hd := (h'.todo n hx hd).trans (h.todo n hx hd)
  pointer n hx ha := (h'.pointer n hx ha).trans (h.pointer n hx (h'.dead n ha))
  dead n ha := h.dead n (h'.dead n ha)
  list := by
    rw [h'.list, h.list, List.filter_filter]
    apply List.filter_congr
    intro n _
    by_cases ha : t''.Alive n
    · simp [ha, h'.dead n ha]
    · simp [ha]
  old i hi := (h'.old i hi).trans (h.old i hi)
  next := le_trans h.next h'.next
  otherList k' hk := (h'.otherList k' hk).trans (h.otherList k' hk)
  index := h'.index.trans h.index
  listp := h'.listp.trans h.listp
  pages := h'.pages.trans h.pages

/-- The page counts play no part in the rest, so a change may be seen under any page counts. -/
theorem Frame.withPages (h : Frame k base done x t t') (pages : ℕ → ℤ) :
    Frame k base done x { t with pageCount := pages } { t' with pageCount := pages } where
  todo := h.todo
  pointer := h.pointer
  dead := h.dead
  list := h.list
  old := h.old
  next := h.next
  otherList := h.otherList
  index := h.index
  listp := h.listp
  pages := rfl

/-- The invariant looks at six fields only. -/
theorem Core.congr (h : Core randomNums pageAt k s base done t)
    (hlist : t'.stableNodeList = t.stableNodeList) (hnode : t'.stableNode = t.stableNode)
    (htree : t'.treeNode = t.treeNode) (hnext : t'.nextTreeNode = t.nextTreeNode)
    (hlists : t'.stableTreeNodeList = t.stableTreeNodeList)
    (hroot : t'.rootStableTree = t.rootStableTree) :
    Core randomNums pageAt k s base done t' := by
  cases t
  cases t'
  simp only at hlist hnode htree hnext hlists hroot
  subst hlist hnode htree hnext hlists hroot
  exact ⟨h.nodup, h.alive, h.genuine, h.groupAlive, h.groupFresh, h.bounded, h.groupList, h.sorted,
    h.member, h.linked, h.count, h.ordered⟩

/-- More nodes count as done, if those among them that are alive point nowhere. -/
theorem Core.extend (h : Core randomNums pageAt k s base done t) (hsub : ∀ n, done n → done' n)
    (hnew : ∀ n, t.Alive n → done' n → ¬done n → (t.node n).treeNode = none) :
    Core randomNums pageAt k s base done' t where
  nodup := h.nodup
  alive := h.alive
  genuine := h.genuine
  groupAlive := h.groupAlive
  groupFresh := h.groupFresh
  bounded := h.bounded
  groupList := h.groupList
  sorted := h.sorted
  member i hi n hn := by
    obtain ⟨ha, hd, hp⟩ := h.member i hi n hn
    exact ⟨ha, hsub n hd, hp⟩
  linked n ha hd i hp := by
    by_cases hdone : done n
    · exact h.linked n ha hdone i hp
    · rw [hnew n ha hd hdone] at hp
      cases hp
  count := h.count
  ordered := h.ordered

/-- In a list without repeated entries, erasing one is filtering it out. -/
theorem erase_eq_filter_alive (hnodup : t.stableNodeList.Nodup)
    (halive : ∀ n, n ∈ t.stableNodeList ↔ t.Alive n) (n : ℕ) :
    t.stableNodeList.erase n = t.stableNodeList.filter fun m => (freeStableNode n t).Alive m := by
  rw [List.Nodup.erase_eq_filter hnodup]
  apply List.filter_congr
  intro m hm
  have ha := (halive m).mp hm
  by_cases hmn : m = n
  · simp [hmn]
  · simp [hmn, ha]

theorem filter_alive_self (halive : ∀ n, n ∈ t.stableNodeList ↔ t.Alive n) (t' : StableTree)
    (ha : ∀ n, t'.Alive n ↔ t.Alive n) :
    t.stableNodeList = t.stableNodeList.filter fun n => t'.Alive n := by
  symm
  rw [List.filter_eq_self]
  intro n hn
  exact decide_eq_true ((ha n).mpr ((halive n).mp hn))

end DirtyPages
