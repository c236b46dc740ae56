import DirtyPages.StableSteps

/-!
# Reinserting one stable node

What each function of a rebuild does to a state that satisfies the invariant, up to
`stable_node_reinsert`.  None of them follows a pointer to a freed object or meets an assertion of
the stable tree; only the assertion of `encode_benefit` can stop them, and not even that when no
page was scanned since the last transfer, as is the case at their only call site.

The outcome for the node is its `Fate`.
-/

namespace DirtyPages

open Outcome SearchTree

/-- What a visit does to a node. -/
inductive Fate
  /-- it was found stale and freed -/
  | stale
  /-- it was linked -/
  | linked
  /-- the node it collided with was found stale and freed, and it was linked in its place -/
  | replaced (m : ℕ)
  /-- it was left out of the tree `at'` -/
  | dropped (at' : StableTree) (why : DropReason)

/-- The nodes freed during the visit of `n`. -/
def Fate.freed (n : ℕ) : Fate → List ℕ
  | .stale => [n]
  | .linked => []
  | .replaced m => [m]
  | .dropped _ _ => []

/-- What `stable_node_reinsert` adds to the log. -/
def Fate.insertEvents (n : ℕ) : Fate → List Event
  | .stale => []
  | .linked => [.linked n]
  | .replaced m => [.stale m, .freed m, .linked n]
  | .dropped at' why => [.dropped n at' why]

/-- Which stops are excused: the assertion of `encode_benefit`, if pages were scanned since the last
transfer when the rebuild began. -/
def StopsFrom (c₀ : Counters) (f : Fault) : Prop := f = .bugOnScanned ∧ ¬c₀.Quiet

section

variable {rb : Balancer ℕ} {randomNums : RandomNums} {pageAt : ℕ → Page} {k : Fin 2} {s : UInt64}
  {base : ℕ} {done : ℕ → Prop} {x : ℕ} {t : StableTree} {c₀ : Counters}

/-! ### `get_uksm_page` -/

theorem removeNode_unlinked {n : ℕ} (ha : t.Alive n) :
    removeNodeFromStableTree rb n false false t =
      .ok (freeStableNode n { t with sharing := unmapNode (t.node n).hlist t.sharing }) := by
  rw [removeNodeFromStableTree, getStableNode_eq ha]
  simp only [bind, Except.bind]
  cases (t.node n).treeNode with
  | none => rfl
  | some i => rfl

/-- Unlinking the only node of a tree node leaves the tree node empty. -/
theorem unlinkStableNode_eq {n i : ℕ} (h : Core randomNums pageAt k s base done t)
    (hi : i ∈ t.groups k) (hone : t.members i = [n]) (sharing : Sharing) :
    unlinkStableNode rb n i false { t with sharing := sharing } =
      .ok (setSubRoot i .nil 0 { t with sharing := sharing }) := by
  have hget : getTreeNode i { t with sharing := sharing } = .ok (t.group i) :=
    getTreeNode_eq (t := { t with sharing := sharing }) (h.groupAlive i hi)
  have herase : rb.erase n (t.group i).subRoot = .nil := by
    rw [← inorder_eq_nil, rb.inorder_erase]
    show (t.members i).erase n = []
    rw [hone, List.erase_cons_head]
  have hcount : (t.group i).count - 1 = 0 := by
    rw [h.count i hi, hone]
    rfl
  rw [unlinkStableNode, hget]
  simp only [bind, Except.bind]
  rw [if_neg (by simp), herase, hcount]
  rfl

theorem removeNode_linked {n i : ℕ} (h : Core randomNums pageAt k s base done t)
    (hi : i ∈ t.groups k) (hone : t.members i = [n]) :
    removeNodeFromStableTree rb n true false t = .ok (freeStableNode n (setSubRoot i .nil 0
      { t with sharing := unmapNode (t.node n).hlist t.sharing })) := by
  obtain ⟨ha, _, hptr⟩ := h.member i hi n (by rw [hone]; simp)
  rw [removeNodeFromStableTree, getStableNode_eq ha]
  simp only [bind, Except.bind, hptr]
  rw [if_true, unlinkStableNode_eq h hi hone]
  rfl

theorem getUksmPage_live {n : ℕ} {unlinkRb removeTreeNode : Bool} {r : Rebuild}
    (ha : r.tree.Alive n) :
    getUksmPage rb false n unlinkRb removeTreeNode r =
      .ok (some (r.tree.node n).kpfn, { r with tree := takePage (r.tree.node n).kpfn r.tree }) := by
  rw [getUksmPage, getStableNode_eq ha]
  rfl

theorem getUksmPage_stale {n : ℕ} {unlinkRb removeTreeNode : Bool} {r : Rebuild} {t' : StableTree}
    (ha : r.tree.Alive n)
    (hremove : removeNodeFromStableTree rb n unlinkRb removeTreeNode r.tree = .ok t') :
    getUksmPage rb true n unlinkRb removeTreeNode r =
      .ok (none, (({ r with tree := t' }).note (.stale n)).note (.freed n)) := by
  rw [getUksmPage, getStableNode_eq ha]
  show removeNodeFromStableTree rb n unlinkRb removeTreeNode r.tree >>= _ = _
  rw [hremove]
  rfl

/-- A reference taken and given back leaves the page counts as they were. -/
theorem putPage_takePage (pfn : ℕ) (t : StableTree) : putPage pfn (takePage pfn t) = t := by
  have hpages : Function.update (Function.update t.pageCount pfn (t.pageCount pfn + 1)) pfn
      (Function.update t.pageCount pfn (t.pageCount pfn + 1) pfn - 1) = t.pageCount := by
    rw [Function.update_self, Function.update_idem, add_sub_cancel_right, Function.update_eq_self]
  simp only [putPage, takePage, hpages]

/-! ### `stable_node_hash_max` -/

/-- The tree after `stable_node_hash_max`. -/
def StableTree.withHashMax (randomNums : RandomNums) (pageAt : ℕ → Page) (n : ℕ) (t : StableTree) :
    StableTree :=
  if (t.node n).hashMax = 0 then fillHashMax n (t.maxHash randomNums pageAt n) t else t

theorem core_withHashMax {n : ℕ} (h : Core randomNums pageAt k s base done t) (ha : t.Alive n) :
    Core randomNums pageAt k s base done (t.withHashMax randomNums pageAt n) := by
  rw [StableTree.withHashMax]
  split_ifs with hzero
  · exact core_fill h ha hzero
  · exact h

/-- The sharing counters play no part in the invariant. -/
theorem frame_sharing (h : Core randomNums pageAt k s base done t) (sharing : Sharing) :
    Frame k base done x t { t with sharing := sharing } where
  todo _ _ _ := rfl
  pointer _ _ _ := rfl
  dead _ hn := hn
  list := filter_alive_self h.alive _ fun _ => Iff.rfl
  old _ _ := rfl
  next := le_rfl
  otherList _ _ := rfl
  index := rfl
  listp := rfl
  pages := rfl

theorem frame_refl (h : Core randomNums pageAt k s base done t) : Frame k base done x t t :=
  frame_sharing h t.sharing

theorem frame_withHashMax {n : ℕ} (h : Core randomNums pageAt k s base done t) (ha : t.Alive n)
    (hn : n = x ∨ done n) : Frame k base done x t (t.withHashMax randomNums pageAt n) := by
  rw [StableTree.withHashMax]
  split_ifs with hzero
  · exact frame_fill h _ ha hn
  · exact frame_refl h

theorem withHashMax_treeNode (n : ℕ) :
    (t.withHashMax randomNums pageAt n).treeNode = t.treeNode := by
  rw [StableTree.withHashMax]
  split_ifs
  · rfl
  · rfl

theorem withHashMax_root (n : ℕ) :
    (t.withHashMax randomNums pageAt n).rootStableTree = t.rootStableTree := by
  rw [StableTree.withHashMax]
  split_ifs
  · rfl
  · rfl

theorem withHashMax_alive {n : ℕ} (ha : t.Alive n) (m : ℕ) :
    (t.withHashMax randomNums pageAt n).Alive m ↔ t.Alive m := by
  rw [StableTree.withHashMax]
  split_ifs
  · exact fillHashMax_alive _ ha m
  · exact Iff.rfl

theorem withHashMax_kpfn (n m : ℕ) :
    ((t.withHashMax randomNums pageAt n).node m).kpfn = (t.node m).kpfn := by
  rw [StableTree.withHashMax]
  split_ifs
  · exact fillHashMax_kpfn _ m
  · rfl

theorem withHashMax_hashMax_ne_zero (n : ℕ) :
    ((t.withHashMax randomNums pageAt n).node n).hashMax ≠ 0 := by
  rw [StableTree.withHashMax]
  split_ifs with hzero
  · rw [fillHashMax, setStableNode_node, if_pos rfl]
    exact fullHash_ne_zero
  · exact hzero

theorem withHashMax_other {n m : ℕ} (hm : m ≠ n) :
    (t.withHashMax randomNums pageAt n).node m = t.node m := by
  rw [StableTree.withHashMax]
  split_ifs
  · rw [fillHashMax, setStableNode_node, if_neg hm]
  · rfl

theorem withHashMax_takePage (n pfn : ℕ) :
    (takePage pfn t).withHashMax randomNums pageAt n =
      takePage pfn (t.withHashMax randomNums pageAt n) := by
  have hnode : (takePage pfn t).node n = t.node n := rfl
  rw [StableTree.withHashMax, StableTree.withHashMax, hnode]
  split_ifs
  · rfl
  · rfl

/-- Charging for the extension of a hash. -/
theorem pageHashMax_stops {page : Page} {hashOld : UInt32} {c : Counters}
    (hq : c₀.Quiet → c.Quiet) :
    Meets (StopsFrom c₀)
      (fun p => p.1 = nonzeroHash (deltaHash randomNums page s.toNat hashStrengthMax hashOld).hash ∧
        (c₀.Quiet → p.2.Quiet))
      (pageHashMax randomNums s page hashOld c) := by
  by_cases hquiet : c₀.Quiet
  · obtain ⟨c', hinc, hq'⟩ := incRshashNeg_of_quiet (strengthMax - s) (hq hquiet)
    have hrun : pageHashMax randomNums s page hashOld c = .ok (_, c') :=
      pageHashMax_eq_ok.mpr ⟨rfl, hinc⟩
    rw [hrun]
    exact ⟨rfl, fun _ => hq'⟩
  · cases hrun : pageHashMax randomNums s page hashOld c with
    | error f => exact ⟨(pageHashMax_meets hashOld c).of_error hrun, hquiet⟩
    | ok p => exact ⟨(pageHashMax_eq_ok.mp hrun).1, fun h => absurd h hquiet⟩

/-- `stable_node_hash_max` with the hash of the node's page at the current strength. -/
theorem stableNodeHashMax_stops {n : ℕ} {hash : UInt32} {r : Rebuild} (ha : r.tree.Alive n)
    (hhash : hash = r.tree.hashAt randomNums pageAt s n) (hq : c₀.Quiet → r.counters.Quiet) :
    Meets (StopsFrom c₀)
      (fun r' => r'.tree = r.tree.withHashMax randomNums pageAt n ∧ r'.log = r.log ∧
        (c₀.Quiet → r'.counters.Quiet))
      (stableNodeHashMax randomNums s n (pageAt (r.tree.node n).kpfn) hash r) := by
  rw [stableNodeHashMax, getStableNode_eq ha]
  show Meets _ _ (if (r.tree.node n).hashMax = 0 then _ else _)
  by_cases hzero : (r.tree.node n).hashMax = 0
  · rw [if_pos hzero]
    refine (pageHashMax_stops hq).bind ?_
    rintro ⟨hashMax, c'⟩ ⟨hmax, hq'⟩
    refine ⟨?_, rfl, hq'⟩
    have hfull : hashMax = r.tree.maxHash randomNums pageAt n := by
      refine hmax.trans ?_
      rw [hhash, StableTree.hashAt, nonzeroHash_deltaHash]
      rfl
    rw [StableTree.withHashMax, if_pos hzero, ← hfull]
    rfl
  · rw [if_neg hzero]
    refine ⟨?_, rfl, hq⟩
    rw [StableTree.withHashMax, if_neg hzero]

/-! ### Where an insertion ends -/

variable (randomNums pageAt k s base done x c₀) in
/-- An insertion of `x` under way: it began with the tree `t` and the log `log`, has freed the nodes
in `freed` and recorded `events`. -/
structure Progress (t : StableTree) (log : List Event) (freed : List ℕ) (events : List Event)
    (r : Rebuild) : Prop where
  core : Core randomNums pageAt k s base done r.tree
  frame : Frame k base done x t r.tree
  log_eq : r.log = log ++ events
  alive : ∀ m, r.tree.Alive m ↔ m ∉ freed ∧ t.Alive m
  self : r.tree.Alive x
  freedDone : ∀ m ∈ freed, done m ∧ t.Alive m
  quiet : c₀.Quiet → r.counters.Quiet

variable (randomNums pageAt k s x) in
/-- Why a node may be left out of the tree: the allocation failed, or a node that was linked at the
time has the same hash and the same full-strength hash. -/
def Justified (choice : Choice) (at' : StableTree) : DropReason → Prop
  | .allocFailed => choice.allocFails = true
  | .collided m => m ≠ x ∧ at'.Alive m ∧ (∃ i ∈ at'.groups k, m ∈ at'.members i) ∧
      at'.hashAt randomNums pageAt s m = at'.hashAt randomNums pageAt s x ∧
      (at'.node m).hashMax = (at'.node x).hashMax ∧ (at'.node x).hashMax ≠ 0

variable (randomNums pageAt k s base done x c₀) in
/-- The insertion of `x` has ended with the given fate. -/
structure Inserted (choice : Choice) (t : StableTree) (log : List Event) (fate : Fate)
    (r : Rebuild) : Prop where
  core : Core randomNums pageAt k s base (fun n => done n ∨ n = x) r.tree
  nonempty : ∀ i ∈ r.tree.groups k, r.tree.members i ≠ []
  frame : Frame k base done x t r.tree
  log_eq : r.log = log ++ fate.insertEvents x
  alive : ∀ m, r.tree.Alive m ↔ m ∉ fate.freed x ∧ t.Alive m
  self : r.tree.Alive x
  freedDone : ∀ m ∈ fate.freed x, done m ∧ t.Alive m
  leftOut : (r.tree.node x).treeNode = none ↔ ∃ at' why, fate = .dropped at' why
  justified : ∀ at' why, fate = .dropped at' why →
    Justified randomNums pageAt k s x choice at' why
  quiet : c₀.Quiet → r.counters.Quiet

theorem addNode_eq {i : ℕ} {path : List Side} {r : Rebuild} (ha : r.tree.Alive x)
    (hi : (r.tree.treeNode i).isSome = true) :
    addNode rb x i path r =
      .ok (({ r with tree := joinGroup rb x i path r.tree }).note (.linked x)) := by
  rw [addNode, getTreeNode_eq hi, getStableNode_eq ha]
  rfl

theorem leaveOut_eq {why : DropReason} {r : Rebuild} (ha : r.tree.Alive x) :
    leaveOut x why r =
      .ok (({ r with tree := clearTreeNode x r.tree }).note (.dropped x r.tree why)) := by
  rw [leaveOut, getStableNode_eq ha]
  rfl

variable {choice : Choice} {log : List Event} {r : Rebuild}

/-- The end of an insertion at `add_node:`. -/
theorem addNode_inserted {i : ℕ} {path : List Side} {freed : List ℕ} {events : List Event}
    (before after : List ℕ) (fate : Fate)
    (hprog : Progress randomNums pageAt k s base done x c₀ t log freed events r)
    (hx : ¬done x) (hi : i ∈ r.tree.groups k)
    (hhash : r.tree.hashAt randomNums pageAt s x = (r.tree.group i).hash)
    (hsplit : r.tree.members i = before ++ after)
    (hlink : inorder (linkAt x path (r.tree.group i).subRoot) = before ++ x :: after)
    (hord : r.tree.members i ≠ [] →
      (∀ n ∈ before ++ x :: after, (r.tree.node n).hashMax ≠ 0) ∧
        Increasing (fun n => (r.tree.node n).hashMax.toNat) (before ++ x :: after))
    (hne : ∀ j ∈ r.tree.groups k, j ≠ i → r.tree.members j ≠ [])
    (hfreed : fate.freed x = freed) (hevents : fate.insertEvents x = events ++ [.linked x])
    (hfate : ∀ at' why, fate ≠ .dropped at' why) :
    Meets (StopsFrom c₀)
      (fun r' => ∃ fate, Inserted randomNums pageAt k s base done x c₀ choice t log fate r')
      (addNode rb x i path r) := by
  have ha := hprog.self
  have halive := joinGroup_alive rb i path ha
  have hmembers := joinGroup_members (x := x) (t := r.tree) rb i path
  rw [addNode_eq ha (hprog.core.groupAlive i hi)]
  refine ⟨fate, ?_⟩
  exact {
    core := core_join rb hprog.core ha hx hi hhash hsplit hlink hord
    nonempty := by
      intro j hj
      show (joinGroup rb x i path r.tree).members j ≠ []
      rw [hmembers]
      split_ifs with hji
      · rw [hlink]
        simp
      · exact hne j hj hji
    frame := hprog.frame.trans (frame_join rb path hprog.core ha hi)
    log_eq := by
      show r.log ++ [.linked x] = log ++ fate.insertEvents x
      rw [hevents, hprog.log_eq, List.append_assoc]
    alive := by
      intro m
      rw [hfreed]
      exact (halive m).trans (hprog.alive m)
    self := (halive x).mpr ha
    freedDone := by
      rw [hfreed]
      exact hprog.freedDone
    leftOut := by
      show ((joinGroup rb x i path r.tree).node x).treeNode = none ↔ _
      rw [joinGroup_node, if_pos rfl]
      constructor
      · intro h
        cases h
      · rintro ⟨at', why, h⟩
        exact absurd h (hfate at' why)
    justified := fun at' why h => absurd h (hfate at' why)
    quiet := hprog.quiet }

/-- The end of an insertion at `failed:`. -/
theorem leaveOut_inserted {why : DropReason}
    (hprog : Progress randomNums pageAt k s base done x c₀ t log [] [] r) (hx : ¬done x)
    (hne : ∀ j ∈ r.tree.groups k, r.tree.members j ≠ [])
    (hwhy : Justified randomNums pageAt k s x choice r.tree why) :
    Meets (StopsFrom c₀)
      (fun r' => ∃ fate, Inserted randomNums pageAt k s base done x c₀ choice t log fate r')
      (leaveOut x why r) := by
  have ha := hprog.self
  have halive := clearTreeNode_alive ha
  rw [leaveOut_eq ha]
  refine ⟨.dropped r.tree why, ?_⟩
  exact {
    core := core_clear hprog.core ha hx
    nonempty := hne
    frame := hprog.frame.trans (frame_clear hprog.core ha)
    log_eq := by
      show r.log ++ [.dropped x r.tree why] = log ++ [.dropped x r.tree why]
      rw [hprog.log_eq, List.append_nil]
    alive := fun m => (halive m).trans (hprog.alive m)
    self := (halive x).mpr ha
    freedDone := by
      intro m hm
      cases hm
    leftOut := by
      show ((clearTreeNode x r.tree).node x).treeNode = none ↔ _
      rw [clearTreeNode, setStableNode_node, if_pos rfl]
      exact ⟨fun _ => ⟨_, _, rfl⟩, fun _ => rfl⟩
    justified := by
      intro at' why' h
      cases h
      exact hwhy
    quiet := hprog.quiet }

/-- The end of an insertion that meets a node with both hashes of `x`. -/
theorem collide_inserted {i n : ℕ}
    (hprog : Progress randomNums pageAt k s base done x c₀ t log [] [] r) (hx : ¬done x)
    (hne : ∀ j ∈ r.tree.groups k, r.tree.members j ≠ []) (hi : i ∈ r.tree.groups k)
    (hn : n ∈ r.tree.members i)
    (hhash : r.tree.hashAt randomNums pageAt s x = (r.tree.group i).hash)
    (hmax : (r.tree.node x).hashMax ≠ 0)
    (hkey : (r.tree.node n).hashMax = (r.tree.node x).hashMax) :
    Meets (StopsFrom c₀)
      (fun r' => ∃ fate, Inserted randomNums pageAt k s base done x c₀ choice t log fate r')
      (leaveOut x (.collided n) r) := by
  obtain ⟨han, hdn, hptr⟩ := hprog.core.member i hi n hn
  have hnx : n ≠ x := fun heq => hx (heq ▸ hdn)
  have hsame : r.tree.hashAt randomNums pageAt s n = r.tree.hashAt randomNums pageAt s x :=
    (hprog.core.linked n han hdn i hptr).2.2.trans hhash.symm
  exact leaveOut_inserted hprog hx hne ⟨hnx, han, ⟨i, hi, hn⟩, hsame, hkey, hmax⟩

/-! ### `stable_node_reinsert` -/

theorem hashCmp_lt {a b : UInt32} (h : hashCmp a b = .lt) : a.toNat < b.toNat := by
  rw [hashCmp] at h
  split_ifs at h with h1 h2
  exact UInt32.lt_iff_toNat_lt.mp h2

theorem hashCmp_gt {a b : UInt32} (h : hashCmp a b = .gt) : b.toNat < a.toNat := by
  rw [hashCmp] at h
  split_ifs at h with h1 h2
  exact UInt32.lt_iff_toNat_lt.mp h1

theorem hashCmp_eq {a b : UInt32} (h : hashCmp a b = .eq) : b = a := by
  rw [hashCmp] at h
  split_ifs at h with h1 h2
  exact UInt32.le_antisymm (UInt32.not_lt.mp h2) (UInt32.not_lt.mp h1)

/-- A tree with one value is a leaf. -/
theorem eq_leaf_of_inorder {u : BinaryTree ℕ} {n : ℕ} (h : inorder u = [n]) :
    u = .node n .nil .nil := by
  cases u with
  | nil => cases h
  | node a l r =>
    rw [inorder_node] at h
    have hlen := congrArg List.length h
    simp only [List.length_append, List.length_cons, List.length_nil] at hlen
    have hl : l = .nil := inorder_eq_nil.mp (List.length_eq_zero_iff.mp (by omega))
    have hr : r = .nil := inorder_eq_nil.mp (List.length_eq_zero_iff.mp (by omega))
    rw [hl, hr] at h ⊢
    rw [inorder_nil, List.nil_append, List.cons.injEq] at h
    rw [h.1]

/-- The one node of a tree node is found stale and freed, in the middle of an insertion. -/
theorem Progress.freeLinked {n i : ℕ}
    (hprog : Progress randomNums pageAt k s base done x c₀ t log [] [] r) (hx : ¬done x)
    (hi : i ∈ r.tree.groups k) (hone : r.tree.members i = [n]) (sharing : Sharing) :
    Progress randomNums pageAt k s base done x c₀ t log [n] [.stale n, .freed n]
      (({ r with
          tree := freeStableNode n (setSubRoot i .nil 0 { r.tree with sharing := sharing })
        }.note (.stale n)).note (.freed n)) := by
  obtain ⟨han, hdn, _⟩ := hprog.core.member i hi n (by rw [hone]; simp)
  have hxn : x ≠ n := fun heq => hx (heq ▸ hdn)
  have hcore : Core randomNums pageAt k s base done { r.tree with sharing := sharing } :=
    hprog.core.congr rfl rfl rfl rfl rfl rfl
  have hshare : Frame k base done x r.tree { r.tree with sharing := sharing } :=
    frame_sharing hprog.core sharing
  have hfree : Frame k base done x (setSubRoot i .nil 0 { r.tree with sharing := sharing })
      (freeStableNode n (setSubRoot i .nil 0 { r.tree with sharing := sharing })) :=
    frame_free hcore.nodup hcore.alive (Or.inr hdn)
  have halive : ∀ m, (freeStableNode n (setSubRoot i .nil 0
      { r.tree with sharing := sharing })).Alive m ↔ m ≠ n ∧ r.tree.Alive m :=
    fun m => freeStableNode_alive n _ m
  constructor
  case core => exact core_freeLinked hcore hi hone
  case frame =>
    exact hprog.frame.trans (hshare.trans ((frame_setSubRoot hcore hi .nil 0).trans hfree))
  case log_eq =>
    show r.log ++ [.stale n] ++ [.freed n] = log ++ [.stale n, .freed n]
    rw [hprog.log_eq]
    simp
  case alive =>
    intro m
    refine (halive m).trans ?_
    rw [hprog.alive m]
    simp
  case self => exact (halive x).mpr ⟨hxn, hprog.self⟩
  case freedDone =>
    intro m hm
    rw [List.mem_singleton] at hm
    rw [hm]
    exact ⟨hdn, ((hprog.alive n).mp han).2⟩
  case quiet => exact hprog.quiet

/-- The node already there is found stale: it is freed, and `x` takes over its tree node. -/
theorem replace_inserted {n i : ℕ}
    (hprog : Progress randomNums pageAt k s base done x c₀ t log [] [] r) (hx : ¬done x)
    (hne : ∀ j ∈ r.tree.groups k, r.tree.members j ≠ []) (hi : i ∈ r.tree.groups k)
    (hone : r.tree.members i = [n])
    (hhash : r.tree.hashAt randomNums pageAt s x = (r.tree.group i).hash) (sharing : Sharing) :
    Meets (StopsFrom c₀)
      (fun r' => ∃ fate, Inserted randomNums pageAt k s base done x c₀ choice t log fate r')
      (addNode rb x i [] (({ r with
          tree := freeStableNode n (setSubRoot i .nil 0 { r.tree with sharing := sharing })
        }.note (.stale n)).note (.freed n))) := by
  have hdn := (hprog.core.member i hi n (by rw [hone]; simp)).2.1
  have hxn : x ≠ n := fun heq => hx (heq ▸ hdn)
  have hmembers : ∀ j, (freeStableNode n (setSubRoot i .nil 0
      { r.tree with sharing := sharing })).members j = if j = i then [] else r.tree.members j :=
    fun j => setSubRoot_members i .nil 0 j
  have hempty := (hmembers i).trans (if_pos rfl)
  refine addNode_inserted [] [] (.replaced n) (hprog.freeLinked hx hi hone sharing) hx hi ?_ hempty
    rfl ?_ ?_ rfl rfl ?_
  · have hnode : (freeStableNode n (setSubRoot i .nil 0
        { r.tree with sharing := sharing })).node x = r.tree.node x := freeStableNode_node n _ hxn
    have hgroup := setSubRoot_hash (t := { r.tree with sharing := sharing }) i .nil 0 i
    show StableTree.hashAt randomNums pageAt (freeStableNode n _) s x = _
    rw [StableTree.hashAt, hnode]
    exact hhash.trans hgroup.symm
  · intro hnil
    exact absurd hempty hnil
  · intro j hj hji
    refine ne_of_eq_of_ne ((hmembers j).trans (if_neg hji)) ?_
    exact hne j hj
  · intro at' why h
    cases h

theorem withHashMax_groups (n : ℕ) :
    (t.withHashMax randomNums pageAt n).groups k = t.groups k := by
  rw [StableTree.groups, withHashMax_root, StableTree.groups]

theorem withHashMax_group (n i : ℕ) :
    (t.withHashMax randomNums pageAt n).group i = t.group i := by
  rw [StableTree.group, withHashMax_treeNode, StableTree.group]

theorem withHashMax_members (n i : ℕ) :
    (t.withHashMax randomNums pageAt n).members i = t.members i := by
  rw [StableTree.members, withHashMax_group, StableTree.members]

theorem withHashMax_hashAt (n m : ℕ) :
    (t.withHashMax randomNums pageAt n).hashAt randomNums pageAt s m =
      t.hashAt randomNums pageAt s m := by
  rw [StableTree.hashAt, withHashMax_kpfn, StableTree.hashAt]

/-- Filling in the full-strength hash of the node itself, or of a node that is done, keeps an
insertion under way. -/
theorem Progress.withHashMax {n : ℕ} {freed : List ℕ} {events : List Event} {r' : Rebuild}
    (hprog : Progress randomNums pageAt k s base done x c₀ t log freed events r)
    (ha : r.tree.Alive n) (hn : n = x ∨ done n)
    (htree : r'.tree = r.tree.withHashMax randomNums pageAt n) (hlog : r'.log = r.log)
    (hq : c₀.Quiet → r'.counters.Quiet) :
    Progress randomNums pageAt k s base done x c₀ t log freed events r' where
  core := by
    rw [htree]
    exact core_withHashMax hprog.core ha
  frame := by
    rw [htree]
    exact hprog.frame.trans (frame_withHashMax hprog.core ha hn)
  log_eq := hlog.trans hprog.log_eq
  alive m := by
    rw [htree, withHashMax_alive ha]
    exact hprog.alive m
  self := by
    rw [htree, withHashMax_alive ha]
    exact hprog.self
  freedDone := hprog.freedDone
  quiet := hq

/-- The node already there is alive: the full-strength hashes decide. -/
theorem compare_inserted {i n : ℕ}
    (hprog : Progress randomNums pageAt k s base done x c₀ t log [] [] r) (hx : ¬done x)
    (hne : ∀ j ∈ r.tree.groups k, r.tree.members j ≠ []) (hi : i ∈ r.tree.groups k)
    (hone : r.tree.members i = [n])
    (hhash : r.tree.hashAt randomNums pageAt s x = (r.tree.group i).hash)
    (hmax : (r.tree.node x).hashMax ≠ 0) (hmaxn : (r.tree.node n).hashMax ≠ 0) :
    Meets (StopsFrom c₀)
      (fun r' => ∃ fate, Inserted randomNums pageAt k s base done x c₀ choice t log fate r')
      (do
        let new ← getStableNode x r.tree
        let old ← getStableNode n r.tree
        match hashCmp new.hashMax old.hashMax with
        | .lt => addNode rb x i [.left] r
        | .gt => addNode rb x i [.right] r
        | .eq => leaveOut x (.collided n) r) := by
  have hn : n ∈ r.tree.members i := by rw [hone]; simp
  have han := (hprog.core.member i hi n hn).1
  have hleaf := eq_leaf_of_inorder (show inorder (r.tree.group i).subRoot = [n] from hone)
  rw [getStableNode_eq hprog.self, getStableNode_eq han]
  show Meets _ _ (match hashCmp (r.tree.node x).hashMax (r.tree.node n).hashMax with
    | .lt => addNode rb x i [.left] r
    | .gt => addNode rb x i [.right] r
    | .eq => leaveOut x (.collided n) r)
  have hnonzero : ∀ m, m = x ∨ m = n → (r.tree.node m).hashMax ≠ 0 := by
    rintro m (rfl | rfl)
    · exact hmax
    · exact hmaxn
  cases hcmp : hashCmp (r.tree.node x).hashMax (r.tree.node n).hashMax with
  | lt =>
    refine addNode_inserted [] [n] .linked hprog hx hi hhash hone ?_ ?_
      (fun j hj _ => hne j hj) rfl rfl ?_
    · rw [hleaf]
      rfl
    · intro _
      refine ⟨fun m hm => hnonzero m (by simpa using hm), ?_⟩
      simpa [Increasing] using hashCmp_lt hcmp
    · intro at' why h
      cases h
  | gt =>
    refine addNode_inserted [n] [] .linked hprog hx hi hhash hone ?_ ?_
      (fun j hj _ => hne j hj) rfl rfl ?_
    · rw [hleaf]
      rfl
    · intro _
      refine ⟨fun m hm => hnonzero m (by simpa [or_comm] using hm), ?_⟩
      simpa [Increasing] using hashCmp_gt hcmp
    · intro at' why h
      cases h
  | eq => exact collide_inserted hprog hx hne hi hn hhash hmax (hashCmp_eq hcmp)

/-- The tree node with the hash of `x` holds one node. -/
theorem insertBesideOne_inserted {i n : ℕ}
    (hprog : Progress randomNums pageAt k s base done x c₀ t log [] [] r) (hx : ¬done x)
    (hne : ∀ j ∈ r.tree.groups k, r.tree.members j ≠ []) (hi : i ∈ r.tree.groups k)
    (hone : r.tree.members i = [n])
    (hhash : r.tree.hashAt randomNums pageAt s x = (r.tree.group i).hash)
    (hmax : (r.tree.node x).hashMax ≠ 0) :
    Meets (StopsFrom c₀)
      (fun r' => ∃ fate, Inserted randomNums pageAt k s base done x c₀ choice t log fate r')
      (insertBesideOne rb randomNums pageAt s choice x i (r.tree.hashAt randomNums pageAt s x)
        (r.tree.group i) r) := by
  obtain ⟨han, hdn, hptr⟩ := hprog.core.member i hi n (by rw [hone]; simp)
  have hnx : n ≠ x := fun heq => hx (heq ▸ hdn)
  have hleaf := eq_leaf_of_inorder (show inorder (r.tree.group i).subRoot = [n] from hone)
  rw [insertBesideOne, insertBesideOneWith, hleaf, visit_inner]
  cases hstale : choice.innerStale with
  | true =>
    show Meets _ _ (getUksmPage rb true n true false r >>= _)
    rw [getUksmPage_stale han (removeNode_linked hprog.core hi hone)]
    exact replace_inserted hprog hx hne hi hone hhash _
  | false =>
    show Meets _ _ (getUksmPage rb false n true false r >>= _)
    rw [getUksmPage_live han]
    -- the stable node has the same hash as its tree node, hence as `x`
    have hhashn : r.tree.hashAt randomNums pageAt s x =
        (takePage (r.tree.node n).kpfn r.tree).hashAt randomNums pageAt s n :=
      hhash.trans (hprog.core.linked n han hdn i hptr).2.2.symm
    have hfill := stableNodeHashMax_stops
      (r := { r with tree := takePage (r.tree.node n).kpfn r.tree }) han hhashn hprog.quiet
    refine hfill.bind ?_
    rintro r₁ ⟨htree, hlog, hq⟩
    have hput : putPage (r.tree.node n).kpfn r₁.tree = r.tree.withHashMax randomNums pageAt n := by
      rw [htree, withHashMax_takePage, putPage_takePage]
    have hprog' : Progress randomNums pageAt k s base done x c₀ t log [] []
        { r₁ with tree := putPage (r.tree.node n).kpfn r₁.tree } :=
      hprog.withHashMax han (Or.inr hdn) hput hlog hq
    refine compare_inserted hprog' hx ?_ ?_ ?_ ?_ ?_ ?_
    all_goals simp only [hput, withHashMax_groups, withHashMax_members, withHashMax_hashAt,
      withHashMax_group]
    · exact hne
    · exact hi
    · exact hone
    · exact hhash
    · rw [withHashMax_other (Ne.symm hnx)]
      exact hmax
    · exact withHashMax_hashMax_ne_zero n

/-- `hash_cmp` compares as the words do. -/
theorem hashCmp_compares {target : UInt32} {key : ℕ → UInt32} {cmp : ℕ → Except Fault Ordering}
    {n : ℕ} (h : cmp n = .ok (hashCmp target (key n))) :
    Compares (fun n => (key n).toNat) target.toNat cmp n :=
  ⟨_, h, hashCmp_lt, hashCmp_gt, fun heq => congrArg UInt32.toNat (hashCmp_eq heq)⟩

/-- The tree node with the hash of `x` holds several nodes. -/
theorem insertBySearch_inserted {i : ℕ}
    (hprog : Progress randomNums pageAt k s base done x c₀ t log [] [] r) (hx : ¬done x)
    (hne : ∀ j ∈ r.tree.groups k, r.tree.members j ≠ []) (hi : i ∈ r.tree.groups k)
    (htwo : 2 ≤ (r.tree.members i).length)
    (hhash : r.tree.hashAt randomNums pageAt s x = (r.tree.group i).hash)
    (hmax : (r.tree.node x).hashMax ≠ 0) :
    Meets (StopsFrom c₀)
      (fun r' => ∃ fate, Inserted randomNums pageAt k s base done x c₀ choice t log fate r')
      (insertBySearch rb x i (r.tree.group i) r) := by
  obtain ⟨hnonzero, hinc⟩ := hprog.core.ordered i hi htwo
  have hroot : (r.tree.group i).subRoot ≠ .nil := by
    intro hnil
    exact hne i hi (inorder_eq_nil.mpr hnil)
  rw [insertBySearch, if_neg hroot, getStableNode_eq hprog.self]
  show Meets _ _ (descend (fun n => (fun node => hashCmp (r.tree.node x).hashMax node.hashMax) <$>
    getStableNode n r.tree) (r.tree.group i).subRoot >>= _)
  have hcmp : ∀ n ∈ r.tree.members i, Compares (fun n => (r.tree.node n).hashMax.toNat)
      (r.tree.node x).hashMax.toNat (fun n =>
        (fun node => hashCmp (r.tree.node x).hashMax node.hashMax) <$>
          getStableNode n r.tree) n := by
    intro n hn
    apply hashCmp_compares
    rw [getStableNode_eq (hprog.core.member i hi n hn).1]
    rfl
  obtain ⟨⟨path, found⟩, hrun, hloc⟩ := descend_located hinc hcmp
  rw [hrun]
  cases found with
  | some n =>
    obtain ⟨hn, hkey⟩ := hloc
    exact collide_inserted hprog hx hne hi hn hhash hmax (UInt32.toNat_inj.mp hkey)
  | none =>
    obtain ⟨before, after, hsplit, hbefore, hafter, hlink⟩ := hloc
    have hsplit' : r.tree.members i = before ++ after := hsplit
    refine addNode_inserted before after .linked hprog hx hi hhash hsplit' (hlink x) ?_
      (fun j hj _ => hne j hj) rfl rfl ?_
    · intro _
      refine ⟨?_, increasing_insert rfl (hsplit' ▸ hinc) hbefore hafter⟩
      intro m hm
      rcases List.mem_append.mp hm with hb | hm
      · exact hnonzero m (by rw [hsplit']; exact List.mem_append_left _ hb)
      · rcases List.mem_cons.mp hm with rfl | haft
        · exact hmax
        · exact hnonzero m (by rw [hsplit']; exact List.mem_append_right _ haft)
    · intro at' why h
      cases h

theorem allocTreeNode_linked {hash : UInt32} {path : List Side} :
    linkTreeNode rb k t.nextTreeNode hash path (allocTreeNode false k t).2 =
      .ok (openGroup rb k hash path t) := by
  have hget : getTreeNode t.nextTreeNode (allocTreeNode false k t).2 = .ok ⟨.nil, 0, 0⟩ := by
    simp only [getTreeNode, allocTreeNode, Bool.false_eq_true, if_false, Function.update_self]
  rw [linkTreeNode, hget]
  simp only [bind, Except.bind, pure, Except.pure, allocTreeNode, Bool.false_eq_true, if_false,
    setTreeNode, openGroup, Function.update_idem]

/-- No tree node has the hash of `x`: a new one is opened for it. -/
theorem openNode_inserted {hash : UInt32} {path : List Side} {before after : List ℕ}
    (hprog : Progress randomNums pageAt k s base done x c₀ t log [] [] r) (hx : ¬done x)
    (hne : ∀ j ∈ r.tree.groups k, r.tree.members j ≠ []) (hbase : base ≤ r.tree.nextTreeNode)
    (hhash : hash = r.tree.hashAt randomNums pageAt s x)
    (hsplit : r.tree.groups k = before ++ after)
    (hlink : ∀ i, inorder (linkAt i path (r.tree.rootStableTree k)) = before ++ i :: after)
    (hbefore : ∀ i ∈ before, (r.tree.group i).hash.toNat < hash.toNat)
    (hafter : ∀ i ∈ after, hash.toNat < (r.tree.group i).hash.toNat) :
    Meets (StopsFrom c₀)
      (fun r' => ∃ fate, Inserted randomNums pageAt k s base done x c₀ choice t log fate r')
      (addNode rb x r.tree.nextTreeNode [] { r with tree := openGroup rb k hash path r.tree }) := by
  have hgroups : (openGroup rb k hash path r.tree).groups k =
      before ++ r.tree.nextTreeNode :: after := (openGroup_groups rb hash path).trans (hlink _)
  have hself : (openGroup rb k hash path r.tree).group r.tree.nextTreeNode = ⟨.nil, hash, 0⟩ := by
    rw [openGroup_group, if_pos rfl]
  have hprog' : Progress randomNums pageAt k s base done x c₀ t log [] []
      { r with tree := openGroup rb k hash path r.tree } :=
    ⟨core_openGroup rb hprog.core hbase hsplit (hlink _) hbefore hafter,
      hprog.frame.trans (frame_openGroup rb hprog.core hbase), hprog.log_eq, hprog.alive,
      hprog.self, hprog.freedDone, hprog.quiet⟩
  have hnil : (openGroup rb k hash path r.tree).members r.tree.nextTreeNode = [] := by
    rw [StableTree.members, hself, inorder_nil]
  refine addNode_inserted [] [] .linked hprog' hx ?_ ?_ hnil rfl ?_ ?_ rfl rfl ?_
  · show r.tree.nextTreeNode ∈ (openGroup rb k hash path r.tree).groups k
    rw [hgroups]
    simp
  · show r.tree.hashAt randomNums pageAt s x = _
    rw [hself, hhash]
  · intro h
    exact absurd hnil h
  · intro j hj hji
    have hmem : j ∈ (openGroup rb k hash path r.tree).groups k := hj
    rw [hgroups, List.mem_append, List.mem_cons] at hmem
    have hold : j ∈ r.tree.groups k := by
      rw [hsplit, List.mem_append]
      exact hmem.imp id fun h => h.resolve_left hji
    show (openGroup rb k hash path r.tree).members j ≠ []
    rw [StableTree.members, openGroup_group, if_neg hji]
    exact hne j hold
  · intro at' why h
    cases h

/-- An insertion that has not changed anything. -/
theorem progress_start (hcore : Core randomNums pageAt k s base done r.tree) (ha : r.tree.Alive x)
    (hq : c₀.Quiet → r.counters.Quiet) :
    Progress randomNums pageAt k s base done x c₀ r.tree r.log [] [] r where
  core := hcore
  frame := frame_refl hcore
  log_eq := (List.append_nil _).symm
  alive m := by simp
  self := ha
  freedDone m hm := nomatch hm
  quiet := hq

/-- A tree node with the hash of `x` is there. -/
theorem existing_inserted {i : ℕ}
    (hprog : Progress randomNums pageAt k s base done x c₀ t log [] [] r) (hx : ¬done x)
    (hne : ∀ j ∈ r.tree.groups k, r.tree.members j ≠ []) (hi : i ∈ r.tree.groups k)
    (hhash : r.tree.hashAt randomNums pageAt s x = (r.tree.group i).hash) :
    Meets (StopsFrom c₀)
      (fun r' => ∃ fate, Inserted randomNums pageAt k s base done x c₀ choice t log fate r')
      (do
        let r₁ ← stableNodeHashMax randomNums s x (pageAt (r.tree.node x).kpfn)
          (r.tree.hashAt randomNums pageAt s x) r
        let tn ← getTreeNode i r₁.tree
        if tn.count = 1 then
          insertBesideOne rb randomNums pageAt s choice x i (r.tree.hashAt randomNums pageAt s x)
            tn r₁
        else
          insertBySearch rb x i tn r₁) := by
  refine (stableNodeHashMax_stops hprog.self rfl hprog.quiet).bind ?_
  rintro r₁ ⟨htree, hlog, hq₁⟩
  have hprog₁ := hprog.withHashMax hprog.self (Or.inl rfl) htree hlog hq₁
  have hi₁ : i ∈ r₁.tree.groups k := by
    rw [htree, withHashMax_groups]
    exact hi
  have hne₁ : ∀ j ∈ r₁.tree.groups k, r₁.tree.members j ≠ [] := by
    simp only [htree, withHashMax_groups, withHashMax_members]
    exact hne
  have hhash₁ : r₁.tree.hashAt randomNums pageAt s x = (r₁.tree.group i).hash := by
    simp only [htree, withHashMax_hashAt, withHashMax_group]
    exact hhash
  have hmax₁ : (r₁.tree.node x).hashMax ≠ 0 := by
    rw [htree]
    exact withHashMax_hashMax_ne_zero x
  have hsame : r.tree.hashAt randomNums pageAt s x = r₁.tree.hashAt randomNums pageAt s x := by
    rw [htree, withHashMax_hashAt]
  rw [hsame]
  show Meets _ _ (getTreeNode i r₁.tree >>= _)
  rw [getTreeNode_eq (hprog₁.core.groupAlive i hi₁)]
  show Meets _ _ (if (r₁.tree.group i).count = 1 then _ else _)
  have hcount := hprog₁.core.count i hi₁
  by_cases hone : (r₁.tree.group i).count = 1
  · rw [if_pos hone]
    obtain ⟨n, hn⟩ := List.length_eq_one_iff.mp (hcount.symm.trans hone)
    exact insertBesideOne_inserted hprog₁ hx hne₁ hi₁ hn hhash₁ hmax₁
  · rw [if_neg hone]
    have hpos := List.length_pos_iff.mpr (hne₁ i hi₁)
    exact insertBySearch_inserted hprog₁ hx hne₁ hi₁ (by omega) hhash₁ hmax₁

/-- `stable_node_reinsert`, for a node that has not been inserted yet and with the hash of its
page. -/
theorem stableNodeReinsert_inserted
    (hcore : Core randomNums pageAt k s base done r.tree) (hx : ¬done x) (ha : r.tree.Alive x)
    (hne : ∀ j ∈ r.tree.groups k, r.tree.members j ≠ []) (hbase : base ≤ r.tree.nextTreeNode)
    (hq : c₀.Quiet → r.counters.Quiet) :
    Meets (StopsFrom c₀)
      (fun r' => ∃ fate,
        Inserted randomNums pageAt k s base done x c₀ choice r.tree r.log fate r')
      (stableNodeReinsert rb randomNums pageAt s choice x (pageAt (r.tree.node x).kpfn) k
        (r.tree.hashAt randomNums pageAt s x) r) := by
  have hprog : Progress randomNums pageAt k s base done x c₀ r.tree r.log [] [] r :=
    progress_start hcore ha hq
  have hcmp : ∀ i ∈ r.tree.groups k, Compares (fun i => (r.tree.group i).hash.toNat)
      (r.tree.hashAt randomNums pageAt s x).toNat (fun i =>
        (fun tn => hashCmp (r.tree.hashAt randomNums pageAt s x) tn.hash) <$>
          getTreeNode i r.tree) i := by
    intro i hi
    apply hashCmp_compares
    rw [getTreeNode_eq (hcore.groupAlive i hi)]
    rfl
  obtain ⟨⟨path, found⟩, hrun, hloc⟩ := descend_located hcore.sorted hcmp
  rw [stableNodeReinsert, stableNodeReinsertWith, visit_allocFails, hrun]
  cases found with
  | some i =>
    obtain ⟨hi, hkey⟩ := hloc
    exact existing_inserted hprog hx hne hi (UInt32.toNat_inj.mp hkey).symm
  | none =>
    obtain ⟨before, after, hsplit, hbefore, hafter, hlink⟩ := hloc
    cases hfails : choice.allocFails with
    | true => exact leaveOut_inserted hprog hx hne hfails
    | false =>
      show Meets _ _ (linkTreeNode rb k r.tree.nextTreeNode _ path (allocTreeNode false k r.tree).2
        >>= _)
      rw [allocTreeNode_linked]
      exact openNode_inserted hprog hx hne hbase rfl hsplit hlink hbefore hafter

end

end DirtyPages
