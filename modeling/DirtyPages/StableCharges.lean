import DirtyPages.StableTree

/-!
# What a rebuild does outside the stable tree

Whatever tree it is given, even an inconsistent one, a rebuild changes the counters by calls of
`inc_rshash_neg` only, and never stops in a `default:` branch.
-/

namespace DirtyPages

open Outcome SearchTree

/-- The stops other than the two `default: BUG()`. -/
def NotDefault (f : Fault) : Prop := f ≠ .bugDefault

/-- The counters change by a sequence of calls of `inc_rshash_neg`. -/
def Charged (c c' : Counters) : Prop := Reaches (fun c delta => incRshashNeg delta c) c c'

theorem Charged.refl (c : Counters) : Charged c c := Reaches.refl _ c

theorem Charged.trans {c c' c'' : Counters} (h : Charged c c') (h' : Charged c' c'') :
    Charged c c'' := Reaches.trans h h'

theorem Charged.quiet {c c' : Counters} (h : Charged c c') (hq : c.Quiet) : c'.Quiet := by
  refine Reaches.keeps Counters.Quiet ?_ h hq
  intro c₁ delta c₂ hq₁ hrun
  obtain ⟨c₃, hrun', hq'⟩ := incRshashNeg_of_quiet delta hq₁
  rw [hrun] at hrun'
  exact Except.ok.inj hrun' ▸ hq'

/-- The stops of a rebuild that finds the counters `c`: inside the stable tree, or in the assertion
of `encode_benefit`, and there only when pages were scanned since the last transfer. -/
def RebuildStops (c : Counters) (f : Fault) : Prop :=
  f ≠ .bugDefault ∧ f ≠ .divideByZero ∧ (f = .bugOnScanned → ¬c.Quiet)

/-- A stop that comes from the stable tree alone. -/
theorem rebuildStops_of_tree {c : Counters} {f : Fault}
    (h : f ≠ .bugDefault ∧ f ≠ .divideByZero ∧ f ≠ .bugOnScanned) : RebuildStops c f :=
  ⟨h.1, h.2.1, fun hf => absurd hf h.2.2⟩

theorem RebuildStops.of_charged {c c' : Counters} {f : Fault} (h : Charged c c')
    (hf : RebuildStops c' f) : RebuildStops c f :=
  ⟨hf.1, hf.2.1, fun hbug hq => hf.2.2 hbug (h.quiet hq)⟩

/-- The function returns with the counters charged, or stops as a rebuild can. -/
abbrev Charges (r : Rebuild) (x : Except Fault Rebuild) : Prop :=
  Meets (RebuildStops r.counters) (fun r' => Charged r.counters r'.counters) x

theorem Charges.after {r r₁ : Rebuild} {x : Except Fault Rebuild} (hx : Charges r₁ x)
    (hr : Charged r.counters r₁.counters) : Charges r x :=
  Meets.mono hx (fun _ hf => hf.of_charged hr) fun _ h => hr.trans h

section

variable {rb : Balancer ℕ} {randomNums : RandomNums} {pageAt : ℕ → Page} {s : UInt64} {k : Fin 2}
  {c₀ : Counters}

theorem getStableNode_stops (n : ℕ) (t : StableTree) :
    Meets (RebuildStops c₀) (fun _ => True) (getStableNode n t) := by
  rw [getStableNode]
  cases t.stableNode n with
  | some node => exact True.intro
  | none => exact rebuildStops_of_tree (by decide)

theorem getTreeNode_stops (i : ℕ) (t : StableTree) :
    Meets (RebuildStops c₀) (fun _ => True) (getTreeNode i t) := by
  rw [getTreeNode]
  cases t.treeNode i with
  | some tn => exact True.intro
  | none => exact rebuildStops_of_tree (by decide)

theorem unlinkStableNode_stops (n i : ℕ) (removeTreeNode : Bool) (t : StableTree) :
    Meets (RebuildStops c₀) (fun _ => True) (unlinkStableNode rb n i removeTreeNode t) := by
  rw [unlinkStableNode]
  refine (getTreeNode_stops i t).bind ?_
  intro tn _
  show Meets _ _ (if _ then _ else _)
  split_ifs
  · exact meets_pure.mpr True.intro
  · exact meets_pure.mpr True.intro

theorem removeNode_stops (n : ℕ) (unlinkRb removeTreeNode : Bool) (t : StableTree) :
    Meets (RebuildStops c₀) (fun _ => True)
      (removeNodeFromStableTree rb n unlinkRb removeTreeNode t) := by
  rw [removeNodeFromStableTree]
  refine (getStableNode_stops n t).bind ?_
  intro node _
  cases node.treeNode with
  | none => exact meets_pure.mpr True.intro
  | some i =>
    cases unlinkRb with
    | false => exact meets_pure.mpr True.intro
    | true =>
      refine (unlinkStableNode_stops n i removeTreeNode _).bind ?_
      intro t' _
      exact meets_pure.mpr True.intro

theorem getUksmPage_charges (stale : Bool) (n : ℕ) (unlinkRb removeTreeNode : Bool) (r : Rebuild) :
    Meets (RebuildStops r.counters) (fun p => p.2.counters = r.counters)
      (getUksmPage rb stale n unlinkRb removeTreeNode r) := by
  rw [getUksmPage]
  refine (getStableNode_stops n r.tree).bind ?_
  intro node _
  cases stale with
  | false => exact meets_pure.mpr rfl
  | true =>
    refine (removeNode_stops n unlinkRb removeTreeNode r.tree).bind ?_
    intro t' _
    exact meets_pure.mpr rfl

theorem pageHashMax_charges (page : Page) (hashOld : UInt32) (c : Counters) :
    Meets (RebuildStops c) (fun p => Charged c p.2)
      (pageHashMax randomNums s page hashOld c) := by
  cases h : pageHashMax randomNums s page hashOld c with
  | error f =>
    have hf : f = .bugOnScanned := (pageHashMax_meets hashOld c).of_error h
    refine ⟨by rw [hf]; decide, by rw [hf]; decide, fun _ hq => ?_⟩
    obtain ⟨c', hrun, _⟩ := incRshashNeg_of_quiet (strengthMax - s) hq
    rw [pageHashMax_eq_ok.mpr ⟨rfl, hrun⟩] at h
    cases h
  | ok p => exact Reaches.single (o := strengthMax - s) (pageHashMax_eq_ok.mp h).2

theorem stableNodeHashMax_charges (n : ℕ) (page : Page) (hash : UInt32) (r : Rebuild) :
    Charges r (stableNodeHashMax randomNums s n page hash r) := by
  rw [stableNodeHashMax]
  refine (getStableNode_stops n r.tree).bind ?_
  intro node _
  show Meets _ _ (if _ then _ else _)
  split_ifs
  · refine (pageHashMax_charges page hash r.counters).bind ?_
    intro p hp
    exact meets_pure.mpr hp
  · exact meets_pure.mpr (Charged.refl _)

theorem addNode_charges (newNode i : ℕ) (path : List Side) (r : Rebuild) :
    Charges r (addNode rb newNode i path r) := by
  rw [addNode]
  refine (getTreeNode_stops i r.tree).bind ?_
  intro tn _
  refine (getStableNode_stops newNode r.tree).bind ?_
  intro node _
  exact meets_pure.mpr (Charged.refl _)

theorem leaveOut_charges (newNode : ℕ) (why : DropReason) (r : Rebuild) :
    Charges r (leaveOut newNode why r) := by
  rw [leaveOut]
  refine (getStableNode_stops newNode r.tree).bind ?_
  intro node _
  exact meets_pure.mpr (Charged.refl _)

theorem linkTreeNode_stops (i : ℕ) (hash : UInt32) (path : List Side) (t : StableTree) :
    Meets (RebuildStops c₀) (fun _ => True) (linkTreeNode rb k i hash path t) := by
  rw [linkTreeNode]
  refine (getTreeNode_stops i t).bind ?_
  intro tn _
  exact meets_pure.mpr True.intro

/-- A step that charges, before the rest. -/
theorem Charges.bind {r r₁ : Rebuild} {x : Except Fault Rebuild}
    {f : Rebuild → Except Fault Rebuild} (hx : Charges r₁ x) (hr : Charged r.counters r₁.counters)
    (hf : ∀ r', Charges r' (f r')) :
    Charges r (x >>= f) := by
  refine Meets.bind (hx.after hr) ?_
  intro r' hr'
  exact (hf r').after hr'

theorem insertBesideOne_charges (choice : Choice) (newNode i : ℕ) (hash : UInt32) (tn : TreeNode)
    (r : Rebuild) :
    Charges r (insertBesideOne rb randomNums pageAt s choice newNode i hash tn r) := by
  rw [insertBesideOne, insertBesideOneWith, visit_inner]
  cases tn.subRoot with
  | nil => exact rebuildStops_of_tree (by decide)
  | node n _ _ =>
    refine (getUksmPage_charges choice.innerStale n true false r).bind ?_
    intro p hp
    obtain ⟨treePage, r₁⟩ := p
    have hstart : Charged r.counters r₁.counters := hp ▸ Charged.refl _
    cases treePage with
    | none => exact (addNode_charges newNode i [] r₁).after hstart
    | some pfn =>
      refine (stableNodeHashMax_charges n (pageAt pfn) hash r₁).bind hstart ?_
      intro r₂
      refine Meets.bind (getStableNode_stops newNode (putPage pfn r₂.tree)) ?_
      intro new _
      refine Meets.bind (getStableNode_stops n (putPage pfn r₂.tree)) ?_
      intro old _
      cases hashCmp new.hashMax old.hashMax with
      | lt => exact addNode_charges newNode i [.left] _
      | gt => exact addNode_charges newNode i [.right] _
      | eq => exact leaveOut_charges newNode (.collided n) _

theorem insertBySearch_charges (newNode i : ℕ) (tn : TreeNode) (r : Rebuild) :
    Charges r (insertBySearch rb newNode i tn r) := by
  rw [insertBySearch]
  by_cases hnil : tn.subRoot = .nil
  · rw [if_pos hnil]
    exact rebuildStops_of_tree (by decide)
  rw [if_neg hnil]
  refine Meets.bind (getStableNode_stops newNode r.tree) ?_
  intro new _
  refine Meets.bind (descend_stops (fun n => ?_) tn.subRoot) ?_
  · exact (getStableNode_stops n r.tree).map _
  intro p _
  obtain ⟨path, found⟩ := p
  cases found with
  | some n => exact leaveOut_charges newNode (.collided n) r
  | none => exact addNode_charges newNode i path r

theorem stableNodeReinsert_charges (choice : Choice) (newNode : ℕ) (page : Page) (hash : UInt32)
    (r : Rebuild) :
    Charges r (stableNodeReinsert rb randomNums pageAt s choice newNode page k hash r) := by
  rw [stableNodeReinsert, stableNodeReinsertWith, visit_allocFails]
  refine Meets.bind (descend_stops (fun i => ?_) _) ?_
  · exact (getTreeNode_stops i r.tree).map _
  intro p _
  obtain ⟨path, found⟩ := p
  cases found with
  | some i =>
    refine (stableNodeHashMax_charges newNode page hash r).bind (Charged.refl _) ?_
    intro r₁
    refine Meets.bind (getTreeNode_stops i r₁.tree) ?_
    intro tn _
    show Charges _ (if tn.count = 1 then _ else _)
    split_ifs
    · exact insertBesideOne_charges choice newNode i hash tn r₁
    · exact insertBySearch_charges newNode i tn r₁
  | none =>
    dsimp only
    cases halloc : allocTreeNode choice.allocFails k r.tree with
    | mk found tree =>
      cases found with
      | none => exact leaveOut_charges newNode .allocFailed r
      | some i =>
        refine Meets.bind (linkTreeNode_stops i hash path tree) ?_
        intro tree' _
        exact addNode_charges newNode i [] { r with tree := tree' }

theorem nodeHash_stops (prev : UInt32) (node : StableNode) (page : Page) (t : StableTree)
    (c : Counters) :
    Meets (RebuildStops c₀) (fun p => p.2.2 = c) (nodeHash randomNums s prev node page t c) := by
  rw [nodeHash]
  cases node.treeNode with
  | some i =>
    refine (getTreeNode_stops i t).bind ?_
    intro tn _
    exact meets_pure.mpr rfl
  | none =>
    rw [pageHash_silent]
    exact rfl

theorem rehashNode_charges (prev : UInt32) (choice : Choice) (n : ℕ) (r : Rebuild) :
    Charges r (rehashNode rb randomNums pageAt s prev k choice n r) := by
  rw [rehashNode, rehashNodeWith, visit_outer]
  refine (getUksmPage_charges choice.outerStale n false false (r.note (.visited n))).bind ?_
  intro p hp
  obtain ⟨nodePage, r₁⟩ := p
  have hstart : Charged r.counters r₁.counters := hp ▸ Charged.refl _
  cases nodePage with
  | none => exact meets_pure.mpr hstart
  | some pfn =>
    refine Meets.bind (getStableNode_stops n r₁.tree) ?_
    intro node _
    refine (nodeHash_stops prev node (pageAt pfn) r₁.tree r₁.counters).bind ?_
    intro q hq
    obtain ⟨hash, fromScratch, counters⟩ := q
    refine Charges.bind (stableNodeReinsert_charges choice n (pageAt pfn) hash _)
      (hstart.trans (hq ▸ Charged.refl _)) ?_
    intro r₂
    exact meets_pure.mpr (Charged.refl _)

theorem walk_charges (prev : UInt32) (fuel : ℕ) (choices : ℕ → Choice) (next : Option ℕ)
    (r : Rebuild) : Charges r (walk rb randomNums pageAt s prev k fuel choices next r) := by
  induction fuel generalizing choices next r with
  | zero =>
    cases next with
    | none => exact Charged.refl _
    | some n => exact rebuildStops_of_tree (by decide)
  | succ fuel ih =>
    cases next with
    | none => exact Charged.refl _
    | some n =>
      rw [walk, walkWith]
      cases nextEntry n r.tree.stableNodeList with
      | none => exact rebuildStops_of_tree (by decide)
      | some tmp =>
        refine (rehashNode_charges prev (choices 0) n r).bind (Charged.refl _) ?_
        intro r'
        exact ih (fun j => choices (j + 1)) tmp r'

/-- A rebuild of any tree at all. -/
theorem stableTreeDeltaHash_charges (prev : UInt32) (choices : ℕ → Choice) (t : StableTree)
    (c : Counters) :
    Meets (RebuildStops c) (fun r => Charged c r.counters)
      (stableTreeDeltaHash rb randomNums pageAt s prev choices t c) := by
  rw [stableTreeDeltaHash, stableTreeDeltaHashWith]
  by_cases hlist : t.stableTreeNodeList (t.stableTreeIndex + 1) = []
  · simp only [hlist, ne_eq, not_true_eq_false, if_false]
    refine Meets.bind (walk_charges prev _ choices _ _) ?_
    intro r hr
    show Meets _ _ (if _ then _ else _)
    split_ifs
    · exact meets_pure.mpr hr
    · exact rebuildStops_of_tree (by decide)
  · simp only [ne_eq, hlist, not_false_eq_true, if_true]
    exact rebuildStops_of_tree (by decide)

end

end DirtyPages
