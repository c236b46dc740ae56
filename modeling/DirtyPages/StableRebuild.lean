import DirtyPages.StableWalk

/-!
# The invariant of the stable tree across strength changes

`StableInv` is the invariant of the stable tree between rebuilds.  A rebuild leads from the
invariant at the previous strength to the invariant at the new one, whatever nodes are found stale
and whatever allocations fail, and so does any run of strength changes.  It begins with empty trees.
-/

namespace DirtyPages

open Outcome SearchTree

section

variable (randomNums : RandomNums) (pageAt : ℕ → Page)

/-- The invariant of the stable tree at strength `s`. -/
structure StableInv (s : UInt64) (t : StableTree) : Prop where
  /-- (a) the tree nodes are in strict search order of their hashes -/
  sorted : Increasing (fun i => (t.group i).hash.toNat) (t.groups t.rootStableTreep)
  /-- (b) a node that points to a tree node is in its sub-tree and has its hash -/
  linked : ∀ n ∈ t.stableNodeList, ∀ i, (t.node n).treeNode = some i →
    i ∈ t.groups t.rootStableTreep ∧ n ∈ t.members i ∧
      (randomSampleHash randomNums (pageAt (t.node n).kpfn) s.toNat).hash = (t.group i).hash
  /-- (c) the count is the number of nodes, and not 0 -/
  count : ∀ i ∈ t.groups t.rootStableTreep,
    (t.group i).count = (t.members i).length ∧ 1 ≤ (t.group i).count
  /-- (d) several nodes are in strict search order of their full-strength hashes -/
  ordered : ∀ i ∈ t.groups t.rootStableTreep, 2 ≤ (t.members i).length →
    (∀ n ∈ t.members i, (t.node n).hashMax ≠ 0 ∧
      (t.node n).hashMax = fullHash randomNums (pageAt (t.node n).kpfn)) ∧
    Increasing (fun n => (t.node n).hashMax.toNat) (t.members i)
  /-- a full-strength hash that has been computed is the hash of the page -/
  genuine : ∀ n ∈ t.stableNodeList, (t.node n).hashMax = 0 ∨
    (t.node n).hashMax = fullHash randomNums (pageAt (t.node n).kpfn)
  /-- the nodes of a sub-tree are stable nodes that point back -/
  member : ∀ i ∈ t.groups t.rootStableTreep, ∀ n ∈ t.members i,
    n ∈ t.stableNodeList ∧ (t.node n).treeNode = some i
  /-- the list holds the stable nodes that have not been freed, once each -/
  nodup : t.stableNodeList.Nodup
  alive : ∀ n, n ∈ t.stableNodeList ↔ t.Alive n
  /-- the tree nodes of the tree are those of the current list, and the other list is empty -/
  groupAlive : ∀ i ∈ t.groups t.rootStableTreep, (t.treeNode i).isSome = true
  groupList : ∀ i, i ∈ t.stableTreeNodeList t.stableTreeNodeListp ↔
    i ∈ t.groups t.rootStableTreep
  bounded : ∀ i, (t.treeNode i).isSome = true → i < t.nextTreeNode
  rootp : t.rootStableTreep = t.stableTreeIndex
  listp : t.stableTreeNodeListp = t.stableTreeIndex
  inactive : t.stableTreeNodeList (t.stableTreeIndex + 1) = []

/-- The stable tree at the start: no tree nodes, and no stable node points to one. -/
structure EmptyTrees (t : StableTree) : Prop where
  root : t.rootStableTree t.rootStableTreep = .nil
  unlinked : ∀ n ∈ t.stableNodeList, (t.node n).treeNode = none
  genuine : ∀ n ∈ t.stableNodeList, (t.node n).hashMax = 0 ∨
    (t.node n).hashMax = fullHash randomNums (pageAt (t.node n).kpfn)
  nodup : t.stableNodeList.Nodup
  alive : ∀ n, n ∈ t.stableNodeList ↔ t.Alive n
  lists : ∀ k, t.stableTreeNodeList k = []
  bounded : ∀ i, (t.treeNode i).isSome = true → i < t.nextTreeNode
  rootp : t.rootStableTreep = t.stableTreeIndex
  listp : t.stableTreeNodeListp = t.stableTreeIndex

end

variable {rb : Balancer ℕ} {randomNums : RandomNums} {pageAt : ℕ → Page} {k : Fin 2}
  {s : UInt64} {prev : UInt32} {t : StableTree} {c₀ : Counters} {choices : ℕ → Choice}

/-- Empty trees satisfy the invariant at every strength. -/
theorem EmptyTrees.stableInv (h : EmptyTrees randomNums pageAt t) (s : UInt64) :
    StableInv randomNums pageAt s t := by
  have hgroups : t.groups t.rootStableTreep = [] := by
    rw [StableTree.groups, h.root, inorder_nil]
  have hnone : ∀ i, i ∉ t.groups t.rootStableTreep := by
    intro i
    rw [hgroups]
    exact List.not_mem_nil
  refine ⟨?_, ?_, fun i hi => absurd hi (hnone i), fun i hi => absurd hi (hnone i), h.genuine,
    fun i hi => absurd hi (hnone i), h.nodup, h.alive, fun i hi => absurd hi (hnone i), ?_,
    h.bounded, h.rootp, h.listp, h.lists _⟩
  · rw [hgroups]
    exact List.Pairwise.nil
  · intro n hn i hp
    rw [h.unlinked n hn] at hp
    cases hp
  · intro i
    rw [h.lists, hgroups]

/-! ### The invariant of the walk -/

variable (randomNums pageAt k s c₀) in
/-- The rebuild of `t` in progress: `visited` has been visited and `rest` has not. -/
structure Walking (t : StableTree) (visited rest : List ℕ) (r : Rebuild) : Prop where
  split : t.stableNodeList = visited ++ rest
  core : Core randomNums pageAt k s t.nextTreeNode (· ∈ visited) r.tree
  nonempty : ∀ i ∈ r.tree.groups k, r.tree.members i ≠ []
  list : r.tree.stableNodeList = t.stableNodeList.filter fun n => r.tree.Alive n
  todo : ∀ n ∈ rest, r.tree.stableNode n = t.stableNode n
  old : ∀ i, i < t.nextTreeNode → r.tree.treeNode i = t.treeNode i
  next : t.nextTreeNode ≤ r.tree.nextTreeNode
  otherList : ∀ k', k' ≠ k → r.tree.stableTreeNodeList k' = t.stableTreeNodeList k'
  index : r.tree.stableTreeIndex = t.stableTreeIndex
  listp : r.tree.stableTreeNodeListp = t.stableTreeNodeListp
  pages : r.tree.pageCount = t.pageCount
  quiet : c₀.Quiet → r.counters.Quiet

theorem walking_start (h : StableInv randomNums pageAt prev.toUInt64 t) :
    Walking randomNums pageAt (t.stableTreeIndex + 1) s c₀ (startRebuild t) []
      t.stableNodeList ⟨startRebuild t, c₀, []⟩ := by
  have hgroups : (startRebuild t).groups (t.stableTreeIndex + 1) = [] := by
    simp only [StableTree.groups, startRebuild, Function.update_self, inorder_nil]
  have hnone : ∀ i, i ∉ (startRebuild t).groups (t.stableTreeIndex + 1) := by
    intro i
    rw [hgroups]
    exact List.not_mem_nil
  have hlist : (startRebuild t).stableTreeNodeList (t.stableTreeIndex + 1) = [] := h.inactive
  refine ⟨rfl, ?_, fun i hi => absurd hi (hnone i), ?_, fun _ _ => rfl, fun _ _ => rfl, le_rfl,
    fun _ _ => rfl, rfl, rfl, rfl, fun h => h⟩
  · refine ⟨h.nodup, h.alive, ?_, fun i hi => absurd hi (hnone i), fun i hi => absurd hi (hnone i),
      h.bounded, ?_, ?_, fun i hi => absurd hi (hnone i), ?_, fun i hi => absurd hi (hnone i),
      fun i hi => absurd hi (hnone i)⟩
    · intro n hn
      exact h.genuine n ((h.alive n).mpr hn)
    · intro i
      rw [hlist, hgroups]
    · rw [hgroups]
      exact List.Pairwise.nil
    · intro n _ hd
      exact absurd hd List.not_mem_nil
  · exact filter_alive_self h.alive (startRebuild t) fun _ => Iff.rfl

section Step

variable {visited rest : List ℕ} {x : ℕ} {r r' : Rebuild} {choice : Choice} {fate : Fate}

theorem Walking.not_mem_visited (h : Walking randomNums pageAt k s c₀ t visited (x :: rest) r)
    (hnodup : t.stableNodeList.Nodup) : x ∉ visited := by
  rw [h.split, List.nodup_append] at hnodup
  intro hx
  exact hnodup.2.2 x hx x List.mem_cons_self rfl

/-- One visit keeps the invariant of the walk. -/
theorem Walking.step (h : Walking randomNums pageAt k s c₀ t visited (x :: rest) r)
    (hnodup : t.stableNodeList.Nodup)
    (hvisit : Visited randomNums pageAt k s t.nextTreeNode (· ∈ visited) x c₀ choice r.tree r.log
      fate r') :
    Walking randomNums pageAt k s c₀ t (visited ++ [x]) rest r' := by
  have hdone : (fun n => n ∈ visited ∨ n = x) = (· ∈ visited ++ [x]) := by
    funext n
    simp
  have hframe := hvisit.frame
  refine ⟨?_, hdone ▸ hvisit.core, hvisit.nonempty, ?_, ?_, ?_, le_trans h.next hframe.next, ?_,
    hframe.index.trans h.index, hframe.listp.trans h.listp, hframe.pages.trans h.pages,
    hvisit.quiet⟩
  · rw [h.split, List.append_assoc, List.singleton_append]
  · rw [hframe.list, h.list, List.filter_filter]
    apply List.filter_congr
    intro n _
    by_cases ha : r'.tree.Alive n
    · simp [ha, hframe.dead n ha]
    · simp [ha]
  · intro n hn
    rw [h.split] at hnodup
    have hsplit := List.nodup_append.mp hnodup
    have hnx : n ≠ x := by
      rintro rfl
      exact (List.nodup_cons.mp hsplit.2.1).1 hn
    have hnv : n ∉ visited := fun hv => hsplit.2.2 n hv n (List.mem_cons_of_mem x hn) rfl
    rw [hframe.todo n hnx hnv]
    exact h.todo n (List.mem_cons_of_mem x hn)
  · intro i hi
    rw [hframe.old i hi]
    exact h.old i hi
  · intro k' hk
    rw [hframe.otherList k' hk]
    exact h.otherList k' hk

/-- The node to visit is in front of the nodes to come. -/
theorem Walking.nextEntry (h : Walking randomNums pageAt k s c₀ t visited (x :: rest) r)
    (hnodup : t.stableNodeList.Nodup) (halive : ∀ n, n ∈ t.stableNodeList ↔ t.Alive n) :
    DirtyPages.nextEntry x r.tree.stableNodeList = some rest.head? := by
  have hrest : (x :: rest).filter (fun n => r.tree.Alive n) = x :: rest := by
    rw [List.filter_eq_self]
    intro n hn
    have ha : t.Alive n := (halive n).mp (by rw [h.split]; exact List.mem_append_right _ hn)
    apply decide_eq_true
    rw [StableTree.Alive, h.todo n hn]
    exact ha
  rw [h.list, h.split, List.filter_append, hrest]
  apply nextEntry_append
  intro hx
  exact h.not_mem_visited hnodup (List.mem_filter.mp hx).1

/-- The loop body, under the invariant of the walk. -/
theorem Walking.visit (h : Walking randomNums pageAt k s c₀ t visited (x :: rest) r)
    (hnodup : t.stableNodeList.Nodup) (halive : ∀ n, n ∈ t.stableNodeList ↔ t.Alive n)
    (hptr : ∀ n ∈ t.stableNodeList, ∀ i, (t.node n).treeNode = some i →
      (t.treeNode i).isSome = true ∧ i < t.nextTreeNode ∧
        t.hashAt randomNums pageAt prev.toUInt64 n = (t.group i).hash) (choice : Choice) :
    Meets (StopsFrom c₀)
      (fun r' => ∃ fate, Visited randomNums pageAt k s t.nextTreeNode (· ∈ visited) x c₀ choice
        r.tree r.log fate r')
      (rehashNode rb randomNums pageAt s prev k choice x r) := by
  have hmem : x ∈ t.stableNodeList := by
    rw [h.split]
    exact List.mem_append_right _ List.mem_cons_self
  have hsame := h.todo x List.mem_cons_self
  have hnode : r.tree.node x = t.node x := by
    rw [StableTree.node, hsame, StableTree.node]
  have ha : r.tree.Alive x := by
    rw [StableTree.Alive, hsame]
    exact (halive x).mp hmem
  refine rehashNode_visited h.core (h.not_mem_visited hnodup) ha h.nonempty h.next h.quiet ?_
  intro i hp
  rw [hnode] at hp
  obtain ⟨hi, hlt, hhash⟩ := hptr x hmem i hp
  have hgroup : r.tree.group i = t.group i := by
    rw [StableTree.group, h.old i hlt, StableTree.group]
  rw [h.old i hlt, hgroup, StableTree.hashAt, hnode]
  exact ⟨hi, hhash⟩

end Step

/-! ### After the walk -/

theorem diff_self (l : List ℕ) : l.diff l = [] := by
  induction l with
  | nil => rfl
  | cons i l ih => rw [List.diff_cons, List.erase_cons_head, ih]

theorem diff_eq_self {l freed : List ℕ} (h : ∀ i ∈ freed, i ∉ l) : l.diff freed = l := by
  induction freed with
  | nil => rfl
  | cons i freed ih =>
    rw [List.diff_cons, List.erase_of_not_mem (h i List.mem_cons_self)]
    exact ih fun j hj => h j (List.mem_cons_of_mem i hj)

/-- `free_all_tree_nodes` on a list: its tree nodes are gone, from the heap and from the lists. -/
theorem foldl_freeTreeNode (freed : List ℕ) (t : StableTree) :
    freed.foldl (fun t i => freeTreeNode i t) t =
      { t with
        stableTreeNodeList := fun k => (t.stableTreeNodeList k).diff freed
        treeNode := fun i => if i ∈ freed then none else t.treeNode i } := by
  induction freed generalizing t with
  | nil =>
    simp only [List.foldl_nil, List.diff_nil, List.not_mem_nil, if_false]
  | cons i freed ih =>
    rw [List.foldl_cons, ih]
    simp only [freeTreeNode, List.diff_cons]
    congr 1
    funext j
    by_cases hj : j = i
    · simp [hj]
    · simp [hj]

/-- The tree that the rebuild leaves: the new root and list are current, the old tree nodes are
freed. -/
def finishRebuild (k : Fin 2) (freed : List ℕ) (t : StableTree) : StableTree :=
  { t with
    rootStableTreep := k
    stableTreeNodeListp := k
    stableTreeNodeList := fun k' => (t.stableTreeNodeList k').diff freed
    treeNode := fun i => if i ∈ freed then none else t.treeNode i }

/-- `stable_tree_delta_hash` is the walk, put between its beginning and its end. -/
theorem stableTreeDeltaHash_eq (h : StableInv randomNums pageAt prev.toUInt64 t) (c : Counters) :
    stableTreeDeltaHash rb randomNums pageAt s prev choices t c = (do
      let r ← walk rb randomNums pageAt s prev (t.stableTreeIndex + 1) t.stableNodeList.length
        choices t.stableNodeList.head? ⟨startRebuild t, c, []⟩
      let freed := r.tree.stableTreeNodeList r.tree.stableTreeNodeListp
      return { r with tree := finishRebuild (t.stableTreeIndex + 1) freed r.tree }) := by
  rw [stableTreeDeltaHash, stableTreeDeltaHashWith]
  have hlist : t.stableTreeNodeList (t.stableTreeIndex + 1) = [] := h.inactive
  simp only [hlist, ne_eq, not_true_eq_false, if_false]
  show walk rb randomNums pageAt s prev (t.stableTreeIndex + 1) t.stableNodeList.length
    choices t.stableNodeList.head? ⟨startRebuild t, c, []⟩ >>= _ = _
  congr 1
  funext r
  simp only [freeAllTreeNodes, foldl_freeTreeNode, diff_self, not_true_eq_false, if_false]
  rfl

section Finish

variable {freed : List ℕ} {r : Rebuild}

/-- A rebuild adds no stable node. -/
theorem Walking.mem_of_mem {visited rest : List ℕ}
    (h : Walking randomNums pageAt k s c₀ t visited rest r) {n : ℕ}
    (hn : n ∈ r.tree.stableNodeList) : n ∈ t.stableNodeList := by
  rw [h.list] at hn
  exact (List.mem_filter.mp hn).1

/-- The old tree nodes are below all new ones. -/
theorem finishRebuild_group (hfreed : ∀ i ∈ freed, i < t.nextTreeNode) {i : ℕ}
    (hi : t.nextTreeNode ≤ i) (t' : StableTree) :
    (finishRebuild k freed t').group i = t'.group i := by
  have hnot : i ∉ freed := by
    intro hmem
    have hlt := hfreed i hmem
    omega
  simp only [StableTree.group, finishRebuild, if_neg hnot]

/-- When all nodes have been visited, the invariant holds at the new strength. -/
theorem Walking.finish
    (hwalk : Walking randomNums pageAt k s c₀ t t.stableNodeList [] r)
    (hfreed : ∀ i ∈ freed, i < t.nextTreeNode) (hindex : r.tree.stableTreeIndex = k)
    (hempty : (r.tree.stableTreeNodeList (k + 1)).diff freed = []) :
    StableInv randomNums pageAt s (finishRebuild k freed r.tree) := by
  have hcore := hwalk.core
  have hnew : ∀ i ∈ r.tree.groups k, i ∉ freed := by
    intro i hi hmem
    have hlow := hcore.groupFresh i hi
    have hlt := hfreed i hmem
    omega
  have hgroup : ∀ i ∈ r.tree.groups k, (finishRebuild k freed r.tree).group i = r.tree.group i :=
    fun i hi => finishRebuild_group hfreed (hcore.groupFresh i hi) r.tree
  have hmembers : ∀ i ∈ r.tree.groups k,
      (finishRebuild k freed r.tree).members i = r.tree.members i := by
    intro i hi
    rw [StableTree.members, hgroup i hi, StableTree.members]
  constructor
  case sorted =>
    refine hcore.sorted.congr ?_
    intro i hi
    rw [hgroup i hi]
  case linked =>
    intro n hn i hp
    obtain ⟨hi, hmem, hhash⟩ :=
      hcore.linked n ((hcore.alive n).mp hn) (hwalk.mem_of_mem hn) i hp
    refine ⟨hi, ?_, ?_⟩
    · rw [hmembers i hi]
      exact hmem
    · rw [hgroup i hi]
      exact hhash
  case count =>
    intro i hi
    rw [hgroup i hi, hmembers i hi, hcore.count i hi]
    exact ⟨rfl, List.length_pos_of_ne_nil (hwalk.nonempty i hi)⟩
  case ordered =>
    intro i hi hlen
    rw [hmembers i hi] at hlen ⊢
    obtain ⟨hmax, hinc⟩ := hcore.ordered i hi hlen
    refine ⟨?_, hinc⟩
    intro n hn
    refine ⟨hmax n hn, ?_⟩
    exact (hcore.genuine n (hcore.member i hi n hn).1).resolve_left (hmax n hn)
  case genuine =>
    intro n hn
    exact hcore.genuine n ((hcore.alive n).mp hn)
  case member =>
    intro i hi n hn
    rw [hmembers i hi] at hn
    obtain ⟨ha, _, hp⟩ := hcore.member i hi n hn
    exact ⟨(hcore.alive n).mpr ha, hp⟩
  case nodup => exact hcore.nodup
  case alive => exact hcore.alive
  case groupAlive =>
    intro i hi
    show (if i ∈ freed then none else r.tree.treeNode i).isSome = true
    rw [if_neg (hnew i hi)]
    exact hcore.groupAlive i hi
  case groupList =>
    intro i
    show i ∈ (r.tree.stableTreeNodeList k).diff freed ↔ i ∈ r.tree.groups k
    rw [diff_eq_self, hcore.groupList]
    intro j hj hmem
    exact hnew j ((hcore.groupList j).mp hmem) hj
  case bounded =>
    intro i hi
    apply hcore.bounded
    by_cases hmem : i ∈ freed
    · simp [finishRebuild, hmem] at hi
    · simpa [finishRebuild, hmem] using hi
  case rootp => exact hindex.symm
  case listp => exact hindex.symm
  case inactive =>
    show (r.tree.stableTreeNodeList (r.tree.stableTreeIndex + 1)).diff freed = []
    rw [hindex]
    exact hempty

end Finish

/-! ### Whole rebuilds -/

/-- What a tree node pointer leads to in a consistent tree. -/
theorem StableInv.pointer (h : StableInv randomNums pageAt prev.toUInt64 t) {n : ℕ}
    (hn : n ∈ t.stableNodeList) (i : ℕ) (hp : (t.node n).treeNode = some i) :
    (t.treeNode i).isSome = true ∧ i < t.nextTreeNode ∧
      t.hashAt randomNums pageAt prev.toUInt64 n = (t.group i).hash := by
  obtain ⟨hi, _, hhash⟩ := h.linked n hn i hp
  exact ⟨h.groupAlive i hi, h.bounded i (h.groupAlive i hi), hhash⟩

/-- The two indices alternate. -/
theorem index_ne_next (k : Fin 2) : k ≠ k + 1 := by decide +revert

theorem index_next_next (k : Fin 2) : k + 1 + 1 = k := by decide +revert

/-- The list that is freed is the old current list, whose tree nodes were all in the old tree. -/
theorem StableInv.freed_lt (h : StableInv randomNums pageAt prev.toUInt64 t) {r : Rebuild}
    (hlistp : r.tree.stableTreeNodeListp = t.stableTreeIndex)
    (hother : r.tree.stableTreeNodeList t.stableTreeIndex =
      t.stableTreeNodeList t.stableTreeIndex) {i : ℕ}
    (hi : i ∈ r.tree.stableTreeNodeList r.tree.stableTreeNodeListp) : i < t.nextTreeNode := by
  rw [hlistp, hother, ← h.listp] at hi
  exact h.bounded i (h.groupAlive i ((h.groupList i).mp hi))

/-- The walk of a rebuild, with a property that each visit keeps. -/
theorem walk_walking (extra : List ℕ → Rebuild → Prop)
    (h : StableInv randomNums pageAt prev.toUInt64 t)
    (hstart : extra [] ⟨startRebuild t, c₀, []⟩)
    (hstep : ∀ visited x rest r fate r',
      Walking randomNums pageAt (t.stableTreeIndex + 1) s c₀ (startRebuild t) visited (x :: rest)
        r →
      extra visited r →
      Visited randomNums pageAt (t.stableTreeIndex + 1) s t.nextTreeNode (· ∈ visited) x c₀
        (choices visited.length) r.tree r.log fate r' →
      extra (visited ++ [x]) r') :
    Meets (StopsFrom c₀)
      (fun r => Walking randomNums pageAt (t.stableTreeIndex + 1) s c₀ (startRebuild t)
        t.stableNodeList [] r ∧ extra t.stableNodeList r)
      (walk rb randomNums pageAt s prev (t.stableTreeIndex + 1) t.stableNodeList.length choices
        t.stableNodeList.head? ⟨startRebuild t, c₀, []⟩) := by
  have hchoices : (fun j => choices (([] : List ℕ).length + j)) = choices := by
    funext j
    rw [List.length_nil, Nat.zero_add]
  rw [← hchoices]
  refine walk_meets
    (fun visited rest r => Walking randomNums pageAt (t.stableTreeIndex + 1) s c₀
      (startRebuild t) visited rest r ∧ extra visited r)
    ?_ ?_ [] t.stableNodeList _ ⟨walking_start h, hstart⟩ t.stableNodeList.length le_rfl
  · intro visited n rest r hinv
    exact hinv.1.nextEntry h.nodup h.alive
  · intro visited n rest r hinv
    refine (hinv.1.visit h.nodup h.alive (fun n hn => h.pointer hn) (choices visited.length)).imp ?_
    intro r' hvisit
    obtain ⟨fate, hvisit⟩ := hvisit
    exact ⟨hinv.1.step h.nodup hvisit, hstep visited n rest r fate r' hinv.1 hinv.2 hvisit⟩

/-- The rule for a rebuild: a property that holds when the walk begins and that each visit keeps
holds when the walk has ended, next to the invariant at the new strength. -/
theorem stableTreeDeltaHash_meets (extra : List ℕ → Rebuild → Prop)
    (h : StableInv randomNums pageAt prev.toUInt64 t)
    (hstart : extra [] ⟨startRebuild t, c₀, []⟩)
    (hstep : ∀ visited x rest r fate r',
      Walking randomNums pageAt (t.stableTreeIndex + 1) s c₀ (startRebuild t) visited (x :: rest)
        r →
      extra visited r →
      Visited randomNums pageAt (t.stableTreeIndex + 1) s t.nextTreeNode (· ∈ visited) x c₀
        (choices visited.length) r.tree r.log fate r' →
      extra (visited ++ [x]) r') :
    Meets (StopsFrom c₀)
      (fun r => StableInv randomNums pageAt s r.tree ∧ ∃ r' freed,
        Walking randomNums pageAt (t.stableTreeIndex + 1) s c₀ (startRebuild t) t.stableNodeList []
          r' ∧
        extra t.stableNodeList r' ∧
        r = { r' with tree := finishRebuild (t.stableTreeIndex + 1) freed r'.tree } ∧
        ∀ i ∈ freed, i < t.nextTreeNode)
      (stableTreeDeltaHash rb randomNums pageAt s prev choices t c₀) := by
  rw [stableTreeDeltaHash_eq h]
  refine (walk_walking extra h hstart hstep).bind ?_
  intro r' hinv
  obtain ⟨hend, hextra⟩ := hinv
  have hlistp : r'.tree.stableTreeNodeListp = t.stableTreeIndex := hend.listp.trans h.listp
  have hfreed : ∀ i ∈ r'.tree.stableTreeNodeList r'.tree.stableTreeNodeListp,
      i < t.nextTreeNode :=
    fun i hi => h.freed_lt hlistp (hend.otherList _ (index_ne_next t.stableTreeIndex)) hi
  refine ⟨hend.finish hfreed hend.index ?_, r', _, hend, hextra, rfl, hfreed⟩
  rw [index_next_next, hlistp]
  exact diff_self _

/-! ### Any number of strength changes -/

/-- One strength change: the new strength, the decisions of the kernel at each node, and the
counters when it begins. -/
structure Round where
  hashStrength : UInt64
  choices : ℕ → Choice
  counters : Counters

/-- `stable_tree_delta_hash` at each strength change of a list, beginning at `prevHashStrength`. -/
def rebuildRounds (rb : Balancer ℕ) (randomNums : RandomNums) (pageAt : ℕ → Page) :
    UInt64 → List Round → StableTree → Except Fault StableTree
  | _, [], t => .ok t
  | prevHashStrength, round :: rounds, t => do
    let r ← stableTreeDeltaHash rb randomNums pageAt round.hashStrength
      prevHashStrength.toUInt32 round.choices t round.counters
    rebuildRounds rb randomNums pageAt round.hashStrength rounds r.tree

/-- The strength after a list of strength changes. -/
def lastStrength : UInt64 → List Round → UInt64
  | prevHashStrength, [] => prevHashStrength
  | _, round :: rounds => lastStrength round.hashStrength rounds

/-- A strength in range fits the `u32` that it is passed in. -/
theorem toUInt64_toUInt32 {s : UInt64} (h : s.toNat ≤ hashStrengthMax) :
    s.toUInt32.toUInt64 = s := by
  have hmax := hashStrengthMax_eq
  apply UInt64.toNat_inj.mp
  rw [UInt32.toNat_toUInt64, UInt64.toNat_toUInt32]
  omega

/-- One rebuild leads from the invariant at the previous strength to the invariant at the new one.
-/
theorem stableTreeDeltaHash_inv (h : StableInv randomNums pageAt prev.toUInt64 t) :
    Meets (StopsFrom c₀) (fun r => StableInv randomNums pageAt s r.tree)
      (stableTreeDeltaHash rb randomNums pageAt s prev choices t c₀) := by
  refine (stableTreeDeltaHash_meets (fun _ _ => True) h True.intro ?_).imp fun r hr => hr.1
  intros
  exact True.intro

/-- The stable tree keeps its invariant over every sequence of strength changes. -/
theorem rebuildRounds_stableInv (rb : Balancer ℕ) (randomNums : RandomNums) (pageAt : ℕ → Page)
    (prev : UInt64) (hprev : prev.toNat ≤ hashStrengthMax) (rounds : List Round)
    (hrounds : ∀ round ∈ rounds, round.hashStrength.toNat ≤ hashStrengthMax) (t : StableTree)
    (hstart : EmptyTrees randomNums pageAt t ∨ StableInv randomNums pageAt prev t) :
    Meets (fun f => f = .bugOnScanned ∧ ∃ round ∈ rounds, ¬round.counters.Quiet)
      (StableInv randomNums pageAt (lastStrength prev rounds))
      (rebuildRounds rb randomNums pageAt prev rounds t) := by
  have hinv : StableInv randomNums pageAt prev t := by
    cases hstart with
    | inl hempty => exact hempty.stableInv prev
    | inr hinv => exact hinv
  induction rounds generalizing prev t with
  | nil => exact hinv
  | cons round rounds ih =>
    have hround := hrounds round List.mem_cons_self
    have hinv' : StableInv randomNums pageAt prev.toUInt32.toUInt64 t := by
      rw [toUInt64_toUInt32 hprev]
      exact hinv
    have hone : Meets (StopsFrom round.counters)
        (fun r => StableInv randomNums pageAt round.hashStrength r.tree)
        (stableTreeDeltaHash rb randomNums pageAt round.hashStrength prev.toUInt32 round.choices t
          round.counters) :=
      stableTreeDeltaHash_inv hinv'
    have hfirst : ∀ f, StopsFrom round.counters f →
        f = .bugOnScanned ∧ ∃ round' ∈ round :: rounds, ¬round'.counters.Quiet :=
      fun f hf => ⟨hf.1, round, List.mem_cons_self, hf.2⟩
    rw [rebuildRounds, lastStrength]
    refine (hone.mono hfirst fun _ hr => hr).bind ?_
    intro r hr
    have hrest := ih round.hashStrength hround
      (fun round' hmem => hrounds round' (List.mem_cons_of_mem round hmem)) r.tree (Or.inr hr) hr
    refine hrest.mono ?_ fun _ ht => ht
    intro f hf
    obtain ⟨hbug, round', hmem, hbusy⟩ := hf
    exact ⟨hbug, round', List.mem_cons_of_mem round hmem, hbusy⟩

/-- Two stable nodes that no tree holds yet. -/
def twoNodes : StableTree :=
  { initialTree with
    stableNodeList := [0, 1]
    stableNode := fun n => if n < 2 then some ⟨none, [], n, 0⟩ else none
    pageCount := fun _ => 1 }

theorem twoNodes_emptyTrees (randomNums : RandomNums) (pageAt : ℕ → Page) :
    EmptyTrees randomNums pageAt twoNodes where
  root := rfl
  unlinked n _ := by
    simp only [StableTree.node, twoNodes]
    split_ifs
    · rfl
    · rfl
  genuine n _ := by
    left
    simp only [StableTree.node, twoNodes]
    split_ifs
    · rfl
    · rfl
  nodup := by decide
  alive n := by
    simp only [StableTree.Alive, twoNodes]
    split_ifs with hn
    · simp
      omega
    · simp
      omega
  lists _ := rfl
  bounded i hi := by cases hi
  rootp := rfl
  listp := rfl

/-- Down to half the strength, then up to the maximum, where the node collided with is stale. -/
def downThenUp : List Round :=
  [⟨32, fun _ => ⟨false, false, false⟩, initialCounters⟩,
    ⟨1034, fun _ => ⟨false, true, false⟩, initialCounters⟩]

theorem rebuildRounds_stableInv_twoNodes :
    ∃ t', rebuildRounds (Balancer.plain ℕ) id (fun _ _ => 0) 64 downThenUp twoNodes = .ok t' ∧
      StableInv id (fun _ _ => 0) 1034 t' := by
  have hrounds : ∀ round ∈ downThenUp,
      round.hashStrength.toNat ≤ hashStrengthMax ∧ round.counters.Quiet := by
    intro round hmem
    simp only [downThenUp, List.mem_cons, List.not_mem_nil, or_false] at hmem
    rcases hmem with rfl | rfl
    · exact ⟨by decide +kernel, rfl⟩
    · exact ⟨by decide +kernel, rfl⟩
  have hprev : (64 : UInt64).toNat ≤ hashStrengthMax := by decide +kernel
  have hrun : ∀ t, EmptyTrees id (fun _ _ => 0) t →
      ∃ t', rebuildRounds (Balancer.plain ℕ) id (fun _ _ => 0) 64 downThenUp t = .ok t' ∧
        StableInv id (fun _ _ => 0) 1034 t' := by
    intro t ht
    refine ((rebuildRounds_stableInv (Balancer.plain ℕ) id (fun _ _ => 0) 64 hprev downThenUp
      (fun round hmem => (hrounds round hmem).1) t (Or.inl ht)).mono ?_ fun _ ht => ht).exists_ok
    intro f hf
    obtain ⟨_, round, hmem, hbusy⟩ := hf
    exact hbusy (hrounds round hmem).2
  exact hrun twoNodes (twoNodes_emptyTrees id _)

end DirtyPages
