import DirtyPages.StableTree

/-!
# The rebuild over any lookup

What `stable_tree_delta_hash` does around the two calls of `get_uksm_page` in each visit leaves the
reference counts alone and does not touch the stable nodes' reverse mappings or the sharing
counters; so what the calls keep, the rebuild keeps.
-/

namespace DirtyPages

open Outcome SearchTree

/-! ### What the rest of the rebuild leaves alone -/

/-- The stable nodes with what hangs off them, and the sharing counters. -/
structure Holders where
  stableNodeList : List ℕ
  hlist : ℕ → Option (List NodeVma)
  sharing : Sharing

def StableTree.holders (t : StableTree) : Holders where
  stableNodeList := t.stableNodeList
  hlist n := (t.stableNode n).map StableNode.hlist
  sharing := t.sharing

/-- A tree with the given reference counts and a property of the nodes and the counters. -/
structure Kept (good : Holders → Prop) (pages : ℕ → ℤ) (t : StableTree) : Prop where
  good : good t.holders
  pages : t.pageCount = pages

/-- The reference counts after a call that returned `page`. -/
def withRef (page : Option ℕ) (pages : ℕ → ℤ) : ℕ → ℤ :=
  match page with
  | some pfn => Function.update pages pfn (pages pfn + 1)
  | none => pages

section Keeping

variable {good : Holders → Prop} {pages : ℕ → ℤ} {t t' : StableTree}

/-- A change of neither. -/
theorem Kept.congr (h : Kept good pages t) (hholders : t'.holders = t.holders)
    (hpages : t'.pageCount = t.pageCount) : Kept good pages t' :=
  ⟨hholders ▸ h.good, hpages.trans h.pages⟩

theorem Kept.putPage {pfn : ℕ} (h : Kept good (withRef (some pfn) pages) t) :
    Kept good pages (putPage pfn t) := by
  refine ⟨h.good, ?_⟩
  show Function.update t.pageCount pfn (t.pageCount pfn - 1) = pages
  rw [h.pages, withRef, Function.update_self, Function.update_idem, add_sub_cancel_right,
    Function.update_eq_self]

theorem getStableNode_some {n : ℕ} :
    Meets (fun _ => True) (fun node => t.stableNode n = some node) (getStableNode n t) := by
  rw [getStableNode]
  cases t.stableNode n with
  | none => exact True.intro
  | some node => exact rfl

/-- Writing to a stable node with the same reverse mapping. -/
theorem setStableNode_kept {n : ℕ} {node x : StableNode} (h : Kept good pages t)
    (hnode : t.stableNode n = some node) (hx : x.hlist = node.hlist) :
    Kept good pages (setStableNode n x t) := by
  have hhlist : (setStableNode n x t).holders.hlist = t.holders.hlist := by
    funext m
    simp only [StableTree.holders, setStableNode, Function.update_apply]
    split_ifs with hm
    · rw [hm, hnode, Option.map_some, Option.map_some, hx]
    · rfl
  refine h.congr ?_ rfl
  exact congrArg (fun hlist => Holders.mk t.stableNodeList hlist t.sharing) hhlist

section Operations

variable {rb : Balancer ℕ} {randomNums : RandomNums} {pageAt : ℕ → Page} {hashStrength : UInt64}
variable {r : Rebuild}

theorem stableNodeHashMax_kept (n : ℕ) (page : Page) (hash : UInt32)
    (h : Kept good pages r.tree) :
    Meets (fun _ => True) (fun r' => Kept good pages r'.tree)
      (stableNodeHashMax randomNums hashStrength n page hash r) := by
  refine getStableNode_some.bind ?_
  intro node hnode
  split_ifs
  · refine (meets_any _).bind ?_
    intro out _
    exact setStableNode_kept h hnode rfl
  · exact h

theorem addNode_kept (newNode i : ℕ) (path : List Side) (h : Kept good pages r.tree) :
    Meets (fun _ => True) (fun r' => Kept good pages r'.tree) (addNode rb newNode i path r) := by
  refine (meets_any _).bind ?_
  intro tn _
  refine getStableNode_some.bind ?_
  intro node hnode
  have hset : ∀ x, Kept good pages (setTreeNode i x r.tree) := fun x => h.congr rfl rfl
  exact meets_pure.mpr (setStableNode_kept (hset _) hnode rfl)

theorem leaveOut_kept (newNode : ℕ) (why : DropReason) (h : Kept good pages r.tree) :
    Meets (fun _ => True) (fun r' => Kept good pages r'.tree) (leaveOut newNode why r) := by
  refine getStableNode_some.bind ?_
  intro node hnode
  exact meets_pure.mpr (setStableNode_kept h hnode rfl)

theorem linkTreeNode_kept (k : Fin 2) (i : ℕ) (hash : UInt32) (path : List Side)
    (h : Kept good pages t) :
    Meets (fun _ => True) (Kept good pages) (linkTreeNode rb k i hash path t) := by
  refine (meets_any _).bind ?_
  intro tn _
  exact h.congr rfl rfl

theorem freeAllTreeNodes_kept (k : Fin 2) (h : Kept good pages t) :
    Kept good pages (freeAllTreeNodes k t) := by
  rw [freeAllTreeNodes]
  generalize t.stableTreeNodeList k = nodes
  induction nodes generalizing t with
  | nil => exact h
  | cons i nodes ih => exact ih (h.congr rfl rfl)

theorem insertBySearch_kept (newNode i : ℕ) (tn : TreeNode) (h : Kept good pages r.tree) :
    Meets (fun _ => True) (fun r' => Kept good pages r'.tree)
      (insertBySearch rb newNode i tn r) := by
  rw [insertBySearch]
  split_ifs
  · exact True.intro
  · refine (meets_any _).bind ?_
    intro new _
    refine (meets_any _).bind ?_
    rintro ⟨path, found⟩ _
    cases found with
    | some n => exact leaveOut_kept newNode _ h
    | none => exact addNode_kept newNode i path h

end Operations

/-- The call keeps the property of the nodes and the counters, and takes a reference on the page that it
returns and no other. -/
def Lookup.Keeps (good : Holders → Prop) (lookup : Lookup) : Prop :=
  ∀ n unlinkRb removeTreeNode r pages, Kept good pages r.tree →
    Meets (fun _ => True) (fun out => Kept good (withRef out.1 pages) out.2.tree)
      (lookup n unlinkRb removeTreeNode r)

/-- Both calls of the visit do. -/
structure Visit.Keeps (good : Holders → Prop) (visit : Visit) : Prop where
  outer : visit.outer.Keeps good
  inner : visit.inner.Keeps good

section Rebuild

variable (rb : Balancer ℕ) (randomNums : RandomNums) (pageAt : ℕ → Page) (hashStrength : UInt64)
variable {visit : Visit} {r : Rebuild}

theorem insertBesideOneWith_kept (hvisit : visit.Keeps good) (newNode i : ℕ) (hash : UInt32)
    (tn : TreeNode) (h : Kept good pages r.tree) :
    Meets (fun _ => True) (fun r' => Kept good pages r'.tree)
      (insertBesideOneWith rb randomNums pageAt hashStrength visit newNode i hash tn r) := by
  rw [insertBesideOneWith]
  cases tn.subRoot with
  | nil => exact True.intro
  | node n left right =>
    refine (hvisit.inner n true false r pages h).bind ?_
    rintro ⟨treePage, r₁⟩ h₁
    cases treePage with
    | none => exact addNode_kept newNode i [] h₁
    | some pfn =>
      refine (stableNodeHashMax_kept n (pageAt pfn) hash h₁).bind ?_
      intro r₂ h₂
      have hput : Kept good pages (putPage pfn r₂.tree) := h₂.putPage
      refine (meets_any _).bind ?_
      intro new _
      refine (meets_any _).bind ?_
      intro old _
      cases hashCmp new.hashMax old.hashMax with
      | lt => exact addNode_kept newNode i [.left] hput
      | gt => exact addNode_kept newNode i [.right] hput
      | eq => exact leaveOut_kept newNode _ hput

theorem stableNodeReinsertWith_kept (hvisit : visit.Keeps good) (newNode : ℕ) (page : Page)
    (k : Fin 2) (hash : UInt32) (h : Kept good pages r.tree) :
    Meets (fun _ => True) (fun r' => Kept good pages r'.tree)
      (stableNodeReinsertWith rb randomNums pageAt hashStrength visit newNode page k hash r) := by
  refine (meets_any _).bind ?_
  rintro ⟨path, found⟩ _
  cases found with
  | some i =>
    refine (stableNodeHashMax_kept newNode page hash h).bind ?_
    intro r₁ h₁
    refine (meets_any _).bind ?_
    intro tn _
    split_ifs
    · exact insertBesideOneWith_kept rb randomNums pageAt hashStrength hvisit newNode i hash tn h₁
    · exact insertBySearch_kept newNode i tn h₁
  | none =>
    cases hfails : visit.allocFails with
    | true => exact leaveOut_kept newNode _ h
    | false =>
      have halloc : Kept good pages (allocTreeNode false k r.tree).2 := h.congr rfl rfl
      refine (linkTreeNode_kept k _ hash path halloc).bind ?_
      intro tree htree
      exact addNode_kept newNode _ [] htree

theorem rehashNodeWith_kept (prevHashStrength : UInt32) (k : Fin 2) (hvisit : visit.Keeps good)
    (n : ℕ) (h : Kept good pages r.tree) :
    Meets (fun _ => True) (fun r' => Kept good pages r'.tree)
      (rehashNodeWith rb randomNums pageAt hashStrength prevHashStrength k visit n r) := by
  refine (hvisit.outer n false false (r.note (.visited n)) pages h).bind ?_
  rintro ⟨nodePage, r₁⟩ h₁
  cases nodePage with
  | none => exact h₁
  | some pfn =>
    refine (meets_any _).bind ?_
    intro node _
    refine (meets_any _).bind ?_
    rintro ⟨hash, fromScratch, counters⟩ _
    have hhashed : Kept good (withRef (some pfn) pages)
        (({ r₁ with counters := counters }).note (.hashed n fromScratch)).tree := h₁
    refine (stableNodeReinsertWith_kept rb randomNums pageAt hashStrength hvisit n (pageAt pfn) k hash
      hhashed).bind ?_
    intro r₂ h₂
    exact meets_pure.mpr h₂.putPage

theorem walkWith_kept (prevHashStrength : UInt32) (k : Fin 2) (fuel : ℕ) {visits : ℕ → Visit}
    (hvisits : ∀ j, (visits j).Keeps good) (next : Option ℕ) (h : Kept good pages r.tree) :
    Meets (fun _ => True) (fun r' => Kept good pages r'.tree)
      (walkWith rb randomNums pageAt hashStrength prevHashStrength k fuel visits next r) := by
  induction fuel generalizing visits next r with
  | zero =>
    cases next with
    | none => exact h
    | some n => exact True.intro
  | succ fuel ih =>
    cases next with
    | none => exact h
    | some n =>
      rw [walkWith]
      cases nextEntry n r.tree.stableNodeList with
      | none => exact True.intro
      | some tmp =>
        refine (rehashNodeWith_kept rb randomNums pageAt hashStrength prevHashStrength k (hvisits 0)
          n h).bind ?_
        intro r₁ h₁
        exact ih (fun j => hvisits (j + 1)) tmp h₁

/-- What every call of `get_uksm_page` keeps, the rebuild keeps, and every reference count with it. -/
theorem stableTreeDeltaHashWith_kept (prevHashStrength : UInt32) {visits : ℕ → Visit}
    (hvisits : ∀ j, (visits j).Keeps good) {t : StableTree} (hgood : good t.holders)
    (c : Counters) :
    Meets (fun _ => True) (fun r => Kept good t.pageCount r.tree)
      (stableTreeDeltaHashWith rb randomNums pageAt hashStrength prevHashStrength visits t c) := by
  rw [stableTreeDeltaHashWith]
  split_ifs
  · exact True.intro
  · have hstart : Kept good t.pageCount (startRebuild t) := ⟨hgood, rfl⟩
    refine (walkWith_kept rb randomNums pageAt hashStrength prevHashStrength _ _ hvisits _
      hstart).bind ?_
    intro r hr
    have hnew : Kept good t.pageCount { r.tree with rootStableTreep := t.stableTreeIndex + 1 } :=
      hr.congr rfl rfl
    have hfreed := freeAllTreeNodes_kept r.tree.stableTreeNodeListp hnew
    dsimp only
    split_ifs
    · exact True.intro
    · exact hfreed.congr rfl rfl

end Rebuild

/-! ### The call with a chosen outcome -/

/-- The node `n` freed. -/
def Holders.free (n : ℕ) (h : Holders) : Holders where
  stableNodeList := h.stableNodeList.erase n
  hlist := Function.update h.hlist n none
  sharing := h.sharing

/-- The node `n` removed: its items are unmapped first. -/
def Holders.remove (n : ℕ) (hlist : List NodeVma) (h : Holders) : Holders :=
  Holders.free n { h with sharing := unmapNode hlist h.sharing }

theorem freeStableNode_holders (n : ℕ) (t : StableTree) :
    (freeStableNode n t).holders = t.holders.free n := by
  have hhlist : (freeStableNode n t).holders.hlist = (t.holders.free n).hlist := by
    funext m
    simp only [StableTree.holders, Holders.free, freeStableNode, Function.update_apply]
    split_ifs <;> rfl
  exact congrArg (fun hlist => Holders.mk (t.stableNodeList.erase n) hlist t.sharing) hhlist

/-- Unlinking a node from its sub-tree is a matter of the tree nodes alone. -/
theorem unlinkStableNode_holders (rb : Balancer ℕ) (n i : ℕ) (removeTreeNode : Bool) :
    Meets (fun _ => True) (fun t' => t'.holders = t.holders ∧ t'.pageCount = t.pageCount)
      (unlinkStableNode rb n i removeTreeNode t) := by
  refine (meets_any _).bind ?_
  intro tn _
  dsimp only
  split_ifs
  · exact ⟨rfl, rfl⟩
  · exact ⟨rfl, rfl⟩

/-- Whatever the flags, a removal does to the nodes and the counters the same. -/
theorem removeNodeFromStableTree_holders (rb : Balancer ℕ) (n : ℕ)
    (unlinkRb removeTreeNode : Bool) :
    Meets (fun _ => True)
      (fun t' => t'.pageCount = t.pageCount ∧
        ∃ hlist, t.holders.hlist n = some hlist ∧ t'.holders = t.holders.remove n hlist)
      (removeNodeFromStableTree rb n unlinkRb removeTreeNode t) := by
  refine getStableNode_some.bind ?_
  intro node hnode
  have hhlist : t.holders.hlist n = some node.hlist := congrArg (Option.map _) hnode
  -- on every path the node is freed after the items are unmapped
  have hfree : ∀ t' : StableTree, t'.holders = ⟨t.stableNodeList, t.holders.hlist,
      unmapNode node.hlist t.sharing⟩ ∧ t'.pageCount = t.pageCount →
      (freeStableNode n t').pageCount = t.pageCount ∧
        ∃ hlist, t.holders.hlist n = some hlist ∧
          (freeStableNode n t').holders = t.holders.remove n hlist := by
    rintro t' ⟨hholders, hpages⟩
    refine ⟨hpages, node.hlist, hhlist, ?_⟩
    rw [freeStableNode_holders, hholders]
    rfl
  cases node.treeNode with
  | none => exact meets_pure.mpr (hfree _ ⟨rfl, rfl⟩)
  | some i =>
    cases unlinkRb with
    | false => exact meets_pure.mpr (hfree _ ⟨rfl, rfl⟩)
    | true =>
      refine (unlinkStableNode_holders rb n i removeTreeNode).bind ?_
      intro t' ht'
      exact meets_pure.mpr (hfree t' ht')

/-- Every removal of a node that is there keeps the property. -/
def RemovalKeeps (good : Holders → Prop) : Prop :=
  ∀ n hlist h, h.hlist n = some hlist → good h → good (h.remove n hlist)

theorem removeNodeFromStableTree_kept (hremove : RemovalKeeps good) (rb : Balancer ℕ) (n : ℕ)
    (unlinkRb removeTreeNode : Bool) (h : Kept good pages t) :
    Meets (fun _ => True) (Kept good pages)
      (removeNodeFromStableTree rb n unlinkRb removeTreeNode t) := by
  refine (removeNodeFromStableTree_holders rb n unlinkRb removeTreeNode).imp ?_
  rintro t' ⟨hpages, hlist, hhlist, hholders⟩
  have hgood : good t'.holders := by
    rw [hholders]
    exact hremove n hlist t.holders hhlist h.good
  exact ⟨hgood, hpages.trans h.pages⟩

theorem getUksmPage_keeps (hremove : RemovalKeeps good) (rb : Balancer ℕ) (stale : Bool) :
    Lookup.Keeps good (getUksmPage rb stale) := by
  intro n unlinkRb removeTreeNode r pages h
  refine getStableNode_some.bind ?_
  intro node hnode
  cases stale with
  | true =>
    refine (removeNodeFromStableTree_kept hremove rb n unlinkRb removeTreeNode h).bind ?_
    intro t' ht'
    exact meets_pure.mpr ht'
  | false =>
    refine meets_pure.mpr ⟨h.good, ?_⟩
    exact congrArg (withRef (some node.kpfn)) h.pages

theorem Choice.visit_keeps (hremove : RemovalKeeps good) (rb : Balancer ℕ) (choice : Choice) :
    (choice.visit rb).Keeps good where
  outer := getUksmPage_keeps hremove rb choice.outerStale
  inner := getUksmPage_keeps hremove rb choice.innerStale

end Keeping

end DirtyPages
