import DirtyPages.StableInvariant

/-!
# The six changes of a rebuild

A rebuild fills in full-strength hashes, frees stale nodes that are not or that are linked in the
new tree, opens tree nodes, joins nodes to them, and leaves nodes out.  For each change there is a
lemma that it keeps the invariant and a lemma for what it leaves alone.
-/

namespace DirtyPages

open SearchTree

variable {randomNums : RandomNums} {pageAt : ℕ → Page} {k : Fin 2} {s : UInt64} {base : ℕ}
  {done : ℕ → Prop} {x : ℕ} {t : StableTree}

/-! ### Filling in a full-strength hash -/

/-- `node->hash_max = v` -/
def fillHashMax (x : ℕ) (v : UInt32) (t : StableTree) : StableTree :=
  setStableNode x { t.node x with hashMax := v } t

@[simp] theorem fillHashMax_treeNode (v : UInt32) (m : ℕ) :
    ((fillHashMax x v t).node m).treeNode = (t.node m).treeNode := by
  rw [fillHashMax, setStableNode_node]
  split_ifs with h
  · rw [h]
  · rfl

@[simp] theorem fillHashMax_kpfn (v : UInt32) (m : ℕ) :
    ((fillHashMax x v t).node m).kpfn = (t.node m).kpfn := by
  rw [fillHashMax, setStableNode_node]
  split_ifs with h
  · rw [h]
  · rfl

theorem fillHashMax_alive (v : UInt32) (ha : t.Alive x) (m : ℕ) :
    (fillHashMax x v t).Alive m ↔ t.Alive m := setStableNode_alive_of ha _ m

theorem core_fill (h : Core randomNums pageAt k s base done t) (ha : t.Alive x)
    (hzero : (t.node x).hashMax = 0) :
    Core randomNums pageAt k s base done
      (fillHashMax x (t.maxHash randomNums pageAt x) t) where
  nodup := h.nodup
  alive n := (h.alive n).trans (fillHashMax_alive _ ha n).symm
  genuine n hn := by
    rw [fillHashMax_alive _ ha] at hn
    have hmax : (fillHashMax x (t.maxHash randomNums pageAt x) t).maxHash randomNums pageAt n =
        t.maxHash randomNums pageAt n := by
      simp only [StableTree.maxHash, fillHashMax_kpfn]
    rw [hmax, fillHashMax, setStableNode_node]
    split_ifs with hx
    · rw [hx]
      exact Or.inr rfl
    · exact h.genuine n hn
  groupAlive := h.groupAlive
  groupFresh := h.groupFresh
  bounded := h.bounded
  groupList := h.groupList
  sorted := h.sorted
  member i hi n hn := by
    rw [fillHashMax_alive _ ha, fillHashMax_treeNode]
    exact h.member i hi n hn
  linked n hn hd i hp := by
    rw [fillHashMax_alive _ ha] at hn
    rw [fillHashMax_treeNode] at hp
    rw [StableTree.hashAt, fillHashMax_kpfn]
    exact h.linked n hn hd i hp
  count := h.count
  ordered i hi := by
    refine (h.ordered i hi).congr rfl fun hne n hn => ?_
    -- all hashes of this sub-tree are there already, so the node is not in it
    have hnx : n ≠ x := fun heq => hne n hn (heq ▸ hzero)
    rw [fillHashMax, setStableNode_node, if_neg hnx]

/-- Filling in the hash of the node itself, or of a node that is done. -/
theorem frame_fill {y : ℕ} (h : Core randomNums pageAt k s base done t) (v : UInt32)
    (ha : t.Alive y) (hy : y = x ∨ done y) : Frame k base done x t (fillHashMax y v t) where
  todo n hx hd := by
    have hny : n ≠ y := by
      rintro rfl
      exact hy.elim hx hd
    exact Function.update_of_ne hny _ _
  pointer n _ _ := fillHashMax_treeNode v n
  dead n hn := (fillHashMax_alive v ha n).mp hn
  list := filter_alive_self h.alive _ (fillHashMax_alive v ha)
  old _ _ := rfl
  next := le_rfl
  otherList _ _ := rfl
  index := rfl
  listp := rfl
  pages := rfl

/-! ### Freeing a stale node that is not linked -/

theorem core_free (h : Core randomNums pageAt k s base done t) (hx : ¬done x) :
    Core randomNums pageAt k s base done (freeStableNode x t) where
  nodup := h.nodup.erase x
  alive n := by
    rw [freeStableNode_alive, ← h.alive n]
    exact h.nodup.mem_erase_iff
  genuine n hn := by
    rw [freeStableNode_alive] at hn
    rw [StableTree.maxHash, freeStableNode_node x t hn.1]
    exact h.genuine n hn.2
  groupAlive := h.groupAlive
  groupFresh := h.groupFresh
  bounded := h.bounded
  groupList := h.groupList
  sorted := h.sorted
  member i hi n hn := by
    obtain ⟨ha, hd, hp⟩ := h.member i hi n hn
    have hnx : n ≠ x := fun heq => hx (heq ▸ hd)
    rw [freeStableNode_alive, freeStableNode_node x t hnx]
    exact ⟨⟨hnx, ha⟩, hd, hp⟩
  linked n hn hd i hp := by
    rw [freeStableNode_alive] at hn
    rw [freeStableNode_node x t hn.1] at hp
    rw [StableTree.hashAt, freeStableNode_node x t hn.1]
    exact h.linked n hn.2 hd i hp
  count := h.count
  ordered i hi := by
    refine (h.ordered i hi).congr rfl fun _ n hn => ?_
    rw [freeStableNode_node x t (h.member_ne hx i hi n hn)]

/-- Freeing the node itself, or a node that is done. -/
theorem frame_free {y : ℕ} (hnodup : t.stableNodeList.Nodup)
    (halive : ∀ n, n ∈ t.stableNodeList ↔ t.Alive n) (hy : y = x ∨ done y) :
    Frame k base done x t (freeStableNode y t) where
  todo n hx hd := by
    have hny : n ≠ y := by
      rintro rfl
      exact hy.elim hx hd
    exact Function.update_of_ne hny _ _
  pointer n _ hn := by
    rw [freeStableNode_alive] at hn
    rw [freeStableNode_node y t hn.1]
  dead n hn := by
    rw [freeStableNode_alive] at hn
    exact hn.2
  list := erase_eq_filter_alive hnodup halive y
  old _ _ := rfl
  next := le_rfl
  otherList _ _ := rfl
  index := rfl
  listp := rfl
  pages := rfl

/-! ### Emptying a tree node -/

/-- A tree node of the new tree with its sub-tree and count replaced. -/
def setSubRoot (i : ℕ) (subRoot : BinaryTree ℕ) (count : ℕ) (t : StableTree) : StableTree :=
  setTreeNode i { t.group i with subRoot := subRoot, count := count } t

@[simp] theorem setSubRoot_hash (i : ℕ) (subRoot : BinaryTree ℕ) (count j : ℕ) :
    ((setSubRoot i subRoot count t).group j).hash = (t.group j).hash := by
  rw [setSubRoot, setTreeNode_group]
  split_ifs with h
  · rw [h]
  · rfl

@[simp] theorem setSubRoot_members (i : ℕ) (subRoot : BinaryTree ℕ) (count j : ℕ) :
    (setSubRoot i subRoot count t).members j =
      if j = i then inorder subRoot else t.members j := by
  rw [StableTree.members, setSubRoot, setTreeNode_group]
  split_ifs
  · rfl
  · rfl

@[simp] theorem setSubRoot_count (i : ℕ) (subRoot : BinaryTree ℕ) (count j : ℕ) :
    ((setSubRoot i subRoot count t).group j).count =
      if j = i then count else (t.group j).count := by
  rw [setSubRoot, setTreeNode_group]
  split_ifs
  · rfl
  · rfl

theorem setSubRoot_isSome {i : ℕ} (hi : (t.treeNode i).isSome = true) (subRoot : BinaryTree ℕ)
    (count j : ℕ) :
    ((setSubRoot i subRoot count t).treeNode j).isSome = true ↔ (t.treeNode j).isSome = true := by
  rw [setSubRoot, setTreeNode]
  simp only [Function.update_apply]
  split_ifs with h
  · simp [h, hi]
  · rfl

/-- The one node of a tree node is unlinked and freed; the tree node stays, with nothing in it. -/
theorem core_freeLinked {n i : ℕ} (h : Core randomNums pageAt k s base done t)
    (hi : i ∈ t.groups k) (hone : t.members i = [n]) :
    Core randomNums pageAt k s base done (freeStableNode n (setSubRoot i .nil 0 t)) := by
  have hin := h.groupAlive i hi
  have hptr : (t.node n).treeNode = some i := (h.member i hi n (by rw [hone]; simp)).2.2
  -- the members of every other tree node point elsewhere, so they are not the freed node
  have hother : ∀ j ∈ t.groups k, j ≠ i → ∀ m ∈ t.members j, m ≠ n := by
    rintro j hj hji m hm rfl
    have hp := (h.member j hj m hm).2.2
    rw [hptr, Option.some.injEq] at hp
    exact hji hp.symm
  have hmembers : ∀ j, (freeStableNode n (setSubRoot i .nil 0 t)).members j =
      if j = i then [] else t.members j := fun j => setSubRoot_members i .nil 0 j
  have hnode : ∀ m, m ≠ n →
      (freeStableNode n (setSubRoot i .nil 0 t)).node m = t.node m :=
    fun m hm => freeStableNode_node n _ hm
  have halive : ∀ m, (freeStableNode n (setSubRoot i .nil 0 t)).Alive m ↔ m ≠ n ∧ t.Alive m :=
    fun m => freeStableNode_alive n _ m
  constructor
  case nodup => exact h.nodup.erase n
  case alive =>
    intro m
    rw [halive, ← h.alive m]
    exact h.nodup.mem_erase_iff
  case genuine =>
    intro m hm
    rw [halive] at hm
    rw [StableTree.maxHash, hnode m hm.1]
    exact h.genuine m hm.2
  case groupAlive =>
    intro j hj
    exact (setSubRoot_isSome hin .nil 0 j).mpr (h.groupAlive j hj)
  case groupFresh => exact h.groupFresh
  case bounded =>
    intro j hj
    exact h.bounded j ((setSubRoot_isSome hin .nil 0 j).mp hj)
  case groupList => exact h.groupList
  case sorted =>
    exact h.sorted.congr fun j _ => congrArg UInt32.toNat (setSubRoot_hash i .nil 0 j)
  case member =>
    intro j hj m hm
    rw [hmembers] at hm
    split_ifs at hm with hji
    · cases hm
    · obtain ⟨ha, hd, hp⟩ := h.member j hj m hm
      have hmn := hother j hj hji m hm
      rw [halive, hnode m hmn]
      exact ⟨⟨hmn, ha⟩, hd, hp⟩
  case linked =>
    intro m hm hd j hp
    rw [halive] at hm
    rw [hnode m hm.1] at hp
    obtain ⟨hj, hmem, hhash⟩ := h.linked m hm.2 hd j hp
    have hji : j ≠ i := by
      rintro rfl
      rw [hone, List.mem_singleton] at hmem
      exact hm.1 hmem
    rw [hmembers, if_neg hji, StableTree.hashAt, hnode m hm.1]
    exact ⟨hj, hmem, hhash.trans (setSubRoot_hash i .nil 0 j).symm⟩
  case count =>
    intro j hj
    rw [hmembers]
    refine (setSubRoot_count i .nil 0 j).trans ?_
    split_ifs
    · rfl
    · exact h.count j hj
  case ordered =>
    intro j hj
    by_cases hji : j = i
    · intro htwo
      rw [hmembers, if_pos hji] at htwo
      simp at htwo
    · refine (h.ordered j hj).congr ((hmembers j).trans (if_neg hji)) fun _ m hm => ?_
      rw [hnode m (hother j hj hji m hm)]

theorem frame_setSubRoot {i : ℕ} (h : Core randomNums pageAt k s base done t)
    (hi : i ∈ t.groups k) (subRoot : BinaryTree ℕ) (count : ℕ) :
    Frame k base done x t (setSubRoot i subRoot count t) where
  todo _ _ _ := rfl
  pointer _ _ _ := rfl
  dead _ hn := hn
  list := filter_alive_self h.alive _ fun _ => Iff.rfl
  old j hj := by
    have hji : j ≠ i := by
      have hle := h.groupFresh i hi
      omega
    exact Function.update_of_ne hji _ _
  next := le_rfl
  otherList _ _ := rfl
  index := rfl
  listp := rfl
  pages := rfl

/-! ### Opening a tree node -/

/-- A new tree node with the given hash and nothing in it, linked into the tree at `path`. -/
def openGroup (rb : Balancer ℕ) (k : Fin 2) (hash : UInt32) (path : List Side) (t : StableTree) :
    StableTree :=
  let i := t.nextTreeNode
  { t with
    treeNode := Function.update t.treeNode i (some ⟨.nil, hash, 0⟩)
    nextTreeNode := i + 1
    stableTreeNodeList := Function.update t.stableTreeNodeList k (i :: t.stableTreeNodeList k)
    rootStableTree := Function.update t.rootStableTree k
      (rb.insertColor i (linkAt i path (t.rootStableTree k))) }

theorem openGroup_group (rb : Balancer ℕ) (hash : UInt32) (path : List Side) (j : ℕ) :
    (openGroup rb k hash path t).group j =
      if j = t.nextTreeNode then ⟨.nil, hash, 0⟩ else t.group j := by
  simp only [StableTree.group, openGroup, Function.update_apply]
  split_ifs
  · rfl
  · rfl

theorem openGroup_groups (rb : Balancer ℕ) (hash : UInt32) (path : List Side) :
    (openGroup rb k hash path t).groups k =
      inorder (linkAt t.nextTreeNode path (t.rootStableTree k)) := by
  simp only [StableTree.groups, openGroup, Function.update_self, rb.inorder_insertColor]

theorem core_openGroup (rb : Balancer ℕ) {hash : UInt32} {path : List Side}
    {before after : List ℕ} (h : Core randomNums pageAt k s base done t)
    (hbase : base ≤ t.nextTreeNode) (hsplit : t.groups k = before ++ after)
    (hlink : inorder (linkAt t.nextTreeNode path (t.rootStableTree k)) =
      before ++ t.nextTreeNode :: after)
    (hbefore : ∀ i ∈ before, (t.group i).hash.toNat < hash.toNat)
    (hafter : ∀ i ∈ after, hash.toNat < (t.group i).hash.toNat) :
    Core randomNums pageAt k s base done (openGroup rb k hash path t) := by
  have hgroups : (openGroup rb k hash path t).groups k = before ++ t.nextTreeNode :: after :=
    (openGroup_groups rb hash path).trans hlink
  have hmem : ∀ i, i ∈ (openGroup rb k hash path t).groups k ↔
      i = t.nextTreeNode ∨ i ∈ t.groups k := by
    intro i
    rw [hgroups, hsplit]
    simp only [List.mem_append, List.mem_cons]
    tauto
  -- the new address is beyond every tree node there is
  have hold : ∀ i, (t.treeNode i).isSome = true → i ≠ t.nextTreeNode :=
    fun i hi => Nat.ne_of_lt (h.bounded i hi)
  have hgroup : ∀ i ∈ t.groups k, (openGroup rb k hash path t).group i = t.group i := by
    intro i hi
    rw [openGroup_group, if_neg (hold i (h.groupAlive i hi))]
  have hmembers : ∀ i ∈ t.groups k, (openGroup rb k hash path t).members i = t.members i := by
    intro i hi
    rw [StableTree.members, hgroup i hi]
    rfl
  have hnew : (openGroup rb k hash path t).members t.nextTreeNode = [] := by
    rw [StableTree.members, openGroup_group, if_pos rfl, inorder_nil]
  have hsome : ∀ i, ((openGroup rb k hash path t).treeNode i).isSome = true ↔
      i = t.nextTreeNode ∨ (t.treeNode i).isSome = true := by
    intro i
    simp only [openGroup, Function.update_apply]
    split_ifs with hi
    · simp [hi]
    · simp [hi]
  constructor
  case nodup => exact h.nodup
  case alive => exact h.alive
  case genuine => exact h.genuine
  case groupAlive =>
    intro i hi
    rw [hsome]
    exact ((hmem i).mp hi).imp id fun hi => h.groupAlive i hi
  case groupFresh =>
    intro i hi
    rcases (hmem i).mp hi with rfl | hi
    · exact hbase
    · exact h.groupFresh i hi
  case bounded =>
    intro i hi
    show i < t.nextTreeNode + 1
    rcases (hsome i).mp hi with rfl | hi
    · exact Nat.lt_succ_self _
    · exact Nat.lt_succ_of_lt (h.bounded i hi)
  case groupList =>
    intro i
    rw [hmem, ← h.groupList i]
    show i ∈ Function.update t.stableTreeNodeList k (t.nextTreeNode :: t.stableTreeNodeList k) k ↔ _
    rw [Function.update_self, List.mem_cons]
  case sorted =>
    rw [hgroups]
    have hkey : ∀ i ∈ before ++ after,
        ((openGroup rb k hash path t).group i).hash.toNat = (t.group i).hash.toNat := by
      intro i hi
      rw [hgroup i (hsplit ▸ hi)]
    have hself : ((openGroup rb k hash path t).group t.nextTreeNode).hash.toNat = hash.toNat := by
      rw [openGroup_group, if_pos rfl]
    refine increasing_insert hself ((hsplit ▸ h.sorted).congr hkey) ?_ ?_
    · intro i hi
      rw [hkey i (List.mem_append_left _ hi)]
      exact hbefore i hi
    · intro i hi
      rw [hkey i (List.mem_append_right _ hi)]
      exact hafter i hi
  case member =>
    intro i hi n hn
    rcases (hmem i).mp hi with rfl | hi
    · rw [hnew] at hn
      cases hn
    · rw [hmembers i hi] at hn
      exact h.member i hi n hn
  case linked =>
    intro n hn hd i hp
    obtain ⟨hi, hmemb, hhash⟩ := h.linked n hn hd i hp
    rw [hmem, hmembers i hi, hgroup i hi]
    exact ⟨Or.inr hi, hmemb, hhash⟩
  case count =>
    intro i hi
    rcases (hmem i).mp hi with rfl | hi
    · rw [hnew, openGroup_group, if_pos rfl]
      rfl
    · rw [hmembers i hi, hgroup i hi]
      exact h.count i hi
  case ordered =>
    intro i hi
    rcases (hmem i).mp hi with rfl | hi
    · intro htwo
      rw [hnew] at htwo
      simp at htwo
    · exact (h.ordered i hi).congr (hmembers i hi) fun _ _ _ => rfl

theorem frame_openGroup (rb : Balancer ℕ) {hash : UInt32} {path : List Side}
    (h : Core randomNums pageAt k s base done t) (hbase : base ≤ t.nextTreeNode) :
    Frame k base done x t (openGroup rb k hash path t) where
  todo _ _ _ := rfl
  pointer _ _ _ := rfl
  dead _ hn := hn
  list := filter_alive_self h.alive _ fun _ => Iff.rfl
  old i hi := Function.update_of_ne (by omega) _ _
  next := Nat.le_succ _
  otherList _ hk := Function.update_of_ne hk _ _
  index := rfl
  listp := rfl
  pages := rfl

/-! ### Joining a node to a tree node -/

/-- `add_node:` as a change of the tree. -/
def joinGroup (rb : Balancer ℕ) (x i : ℕ) (path : List Side) (t : StableTree) : StableTree :=
  setStableNode x { t.node x with treeNode := some i }
    (setSubRoot i (rb.insertColor x (linkAt x path (t.group i).subRoot)) ((t.group i).count + 1) t)

theorem joinGroup_node (rb : Balancer ℕ) (i : ℕ) (path : List Side) (m : ℕ) :
    (joinGroup rb x i path t).node m =
      if m = x then { t.node x with treeNode := some i } else t.node m :=
  setStableNode_node _ _ _ m

theorem joinGroup_alive (rb : Balancer ℕ) (i : ℕ) (path : List Side) (ha : t.Alive x) (m : ℕ) :
    (joinGroup rb x i path t).Alive m ↔ t.Alive m := by
  -- linking the sub-tree changes no stable node
  have hlinked : (setSubRoot i (rb.insertColor x (linkAt x path (t.group i).subRoot))
      ((t.group i).count + 1) t).Alive x := ha
  exact setStableNode_alive_of hlinked { t.node x with treeNode := some i } m

theorem joinGroup_members (rb : Balancer ℕ) (i : ℕ) (path : List Side) (j : ℕ) :
    (joinGroup rb x i path t).members j =
      if j = i then inorder (linkAt x path (t.group i).subRoot) else t.members j := by
  refine (setSubRoot_members i _ _ j).trans ?_
  rw [rb.inorder_insertColor]

theorem core_join (rb : Balancer ℕ) {i : ℕ} {path : List Side} {before after : List ℕ}
    (h : Core randomNums pageAt k s base done t) (ha : t.Alive x) (hx : ¬done x)
    (hi : i ∈ t.groups k) (hhash : t.hashAt randomNums pageAt s x = (t.group i).hash)
    (hsplit : t.members i = before ++ after)
    (hlink : inorder (linkAt x path (t.group i).subRoot) = before ++ x :: after)
    (hord : t.members i ≠ [] → (∀ n ∈ before ++ x :: after, (t.node n).hashMax ≠ 0) ∧
      Increasing (fun n => (t.node n).hashMax.toNat) (before ++ x :: after)) :
    Core randomNums pageAt k s base (fun n => done n ∨ n = x) (joinGroup rb x i path t) := by
  have hin := h.groupAlive i hi
  have halive := joinGroup_alive rb i path ha
  have hmembers : ∀ j, (joinGroup rb x i path t).members j =
      if j = i then before ++ x :: after else t.members j := by
    intro j
    rw [joinGroup_members, hlink]
  have hnode := joinGroup_node (x := x) (t := t) rb i path
  have hkpfn : ∀ m, ((joinGroup rb x i path t).node m).kpfn = (t.node m).kpfn := by
    intro m
    rw [hnode]
    split_ifs with hm
    · rw [hm]
    · rfl
  have hmax : ∀ m, ((joinGroup rb x i path t).node m).hashMax = (t.node m).hashMax := by
    intro m
    rw [hnode]
    split_ifs with hm
    · rw [hm]
    · rfl
  have hhashes : ∀ j, ((joinGroup rb x i path t).group j).hash = (t.group j).hash :=
    fun j => setSubRoot_hash i _ _ j
  have hnew := h.member_ne hx
  constructor
  case nodup => exact h.nodup
  case alive =>
    intro m
    rw [halive]
    exact h.alive m
  case genuine =>
    intro m hm
    rw [halive] at hm
    rw [hmax, StableTree.maxHash, hkpfn]
    exact h.genuine m hm
  case groupAlive =>
    intro j hj
    exact (setSubRoot_isSome hin _ _ j).mpr (h.groupAlive j hj)
  case groupFresh => exact h.groupFresh
  case bounded =>
    intro j hj
    exact h.bounded j ((setSubRoot_isSome hin _ _ j).mp hj)
  case groupList => exact h.groupList
  case sorted =>
    exact h.sorted.congr fun j _ => congrArg UInt32.toNat (hhashes j)
  case member =>
    intro j hj m hm
    rw [halive, hnode]
    rw [hmembers] at hm
    by_cases hmx : m = x
    · rw [if_pos hmx]
      split_ifs at hm with hji
      · exact ⟨hmx ▸ ha, Or.inr hmx, by rw [hji]⟩
      · exact absurd hmx (hnew j hj m hm)
    · rw [if_neg hmx]
      have hold : m ∈ t.members j := by
        split_ifs at hm with hji
        · rw [hji, hsplit]
          simpa [hmx] using hm
        · exact hm
      obtain ⟨ham, hdm, hpm⟩ := h.member j hj m hold
      exact ⟨ham, Or.inl hdm, hpm⟩
  case linked =>
    intro m hm hd j hp
    rw [halive] at hm
    rw [hnode] at hp
    rw [StableTree.hashAt, hkpfn, hhashes, hmembers]
    by_cases hmx : m = x
    · rw [if_pos hmx] at hp
      have hij : i = j := Option.some.inj hp
      rw [← hij, if_pos rfl, hmx]
      exact ⟨hi, by simp, hhash⟩
    · rw [if_neg hmx] at hp
      obtain ⟨hj, hmem, hh⟩ := h.linked m hm (hd.resolve_right hmx) j hp
      refine ⟨hj, ?_, hh⟩
      split_ifs with hji
      · rw [hji, hsplit] at hmem
        rcases List.mem_append.mp hmem with hb | haft
        · exact List.mem_append_left _ hb
        · exact List.mem_append_right _ (List.mem_cons_of_mem x haft)
      · exact hmem
  case count =>
    intro j hj
    refine (setSubRoot_count i _ _ j).trans ?_
    rw [hmembers]
    split_ifs with hji
    · rw [h.count i hi, hsplit]
      simp only [List.length_append, List.length_cons]
      omega
    · exact h.count j hj
  case ordered =>
    intro j hj
    by_cases hji : j = i
    · intro htwo
      rw [hmembers, if_pos hji] at htwo ⊢
      simp only [hmax]
      refine hord fun hnil => ?_
      -- alone in its sub-tree, the node is not two
      rw [hsplit] at hnil
      obtain ⟨rfl, rfl⟩ := List.append_eq_nil_iff.mp hnil
      simp at htwo
    · exact (h.ordered j hj).congr ((hmembers j).trans (if_neg hji)) fun _ m _ => hmax m

theorem frame_join (rb : Balancer ℕ) {i : ℕ} (path : List Side)
    (h : Core randomNums pageAt k s base done t) (ha : t.Alive x) (hi : i ∈ t.groups k) :
    Frame k base done x t (joinGroup rb x i path t) where
  todo n hx _ := Function.update_of_ne hx _ _
  pointer n hx _ := by
    rw [joinGroup_node, if_neg hx]
  dead n hn := (joinGroup_alive rb i path ha n).mp hn
  list := filter_alive_self h.alive _ (joinGroup_alive rb i path ha)
  old j hj := by
    have hji : j ≠ i := by
      have hle := h.groupFresh i hi
      omega
    exact Function.update_of_ne hji _ _
  next := le_rfl
  otherList _ _ := rfl
  index := rfl
  listp := rfl
  pages := rfl

/-! ### Leaving a node out -/

/-- `failed:` as a change of the tree. -/
def clearTreeNode (x : ℕ) (t : StableTree) : StableTree :=
  setStableNode x { t.node x with treeNode := none } t

theorem clearTreeNode_alive (ha : t.Alive x) (m : ℕ) :
    (clearTreeNode x t).Alive m ↔ t.Alive m := setStableNode_alive_of ha _ m

theorem core_clear (h : Core randomNums pageAt k s base done t) (ha : t.Alive x) (hx : ¬done x) :
    Core randomNums pageAt k s base (fun n => done n ∨ n = x) (clearTreeNode x t) := by
  have halive := clearTreeNode_alive ha
  have hnode : ∀ m, m ≠ x → (clearTreeNode x t).node m = t.node m := by
    intro m hm
    rw [clearTreeNode, setStableNode_node, if_neg hm]
  have hself : (clearTreeNode x t).node x = { t.node x with treeNode := none } := by
    rw [clearTreeNode, setStableNode_node, if_pos rfl]
  have hnew := h.member_ne hx
  constructor
  case nodup => exact h.nodup
  case alive =>
    intro m
    rw [halive]
    exact h.alive m
  case genuine =>
    intro m hm
    rw [halive] at hm
    by_cases hmx : m = x
    · rw [StableTree.maxHash, hmx, hself]
      exact h.genuine x ha
    · rw [StableTree.maxHash, hnode m hmx]
      exact h.genuine m hm
  case groupAlive => exact h.groupAlive
  case groupFresh => exact h.groupFresh
  case bounded => exact h.bounded
  case groupList => exact h.groupList
  case sorted => exact h.sorted
  case member =>
    intro j hj m hm
    obtain ⟨ham, hdm, hpm⟩ := h.member j hj m hm
    rw [halive, hnode m (hnew j hj m hm)]
    exact ⟨ham, Or.inl hdm, hpm⟩
  case linked =>
    intro m hm hd j hp
    rw [halive] at hm
    by_cases hmx : m = x
    · rw [hmx, hself] at hp
      cases hp
    · rw [hnode m hmx] at hp
      rw [StableTree.hashAt, hnode m hmx]
      exact h.linked m hm (hd.resolve_right hmx) j hp
  case count => exact h.count
  case ordered =>
    intro j hj
    refine (h.ordered j hj).congr rfl fun _ m hm => ?_
    rw [hnode m (hnew j hj m hm)]

theorem frame_clear (h : Core randomNums pageAt k s base done t) (ha : t.Alive x) :
    Frame k base done x t (clearTreeNode x t) where
  todo n hx _ := Function.update_of_ne hx _ _
  pointer n hx _ := by
    rw [clearTreeNode, setStableNode_node, if_neg hx]
  dead n hn := (clearTreeNode_alive ha n).mp hn
  list := filter_alive_self h.alive _ (clearTreeNode_alive ha)
  old _ _ := rfl
  next := le_rfl
  otherList _ _ := rfl
  index := rfl
  listp := rfl
  pages := rfl

end DirtyPages
