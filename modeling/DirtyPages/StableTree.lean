import DirtyPages.PageHash
import DirtyPages.Lib.SearchTree
import Mathlib.Logic.Function.Basic

/-!
# The stable tree and its rebuild

Section 13 of `dirtPages.c` from `uksm_drop_anon_vma` to `stable_tree_delta_hash`, with the
allocation helpers of Section 5.  Objects live in heaps indexed by their addresses; a freed object
is absent, and following a pointer to it is a `useAfterFree`.  A sub-tree is a binary tree of the
addresses of its stable nodes, the stable tree a binary tree of the addresses of its tree nodes, and
the kernel's `rb_insert_color` and `rb_erase` are the operations of a `Balancer`.

What the rest of the kernel decides is given from outside: for each node visited, what the two
calls of `get_uksm_page` do and whether `alloc_tree_node` fails.  The functions are defined over any
such calls.  Under the names of the source they are used with calls that find the node or find it
stale, as chosen.  The log of a rebuild records what happened to each node; the code does not read
it.
-/

namespace DirtyPages

open Outcome SearchTree

/-- `struct node_vma`: the addresses of the rmap_items under it. -/
structure NodeVma where
  rmapHlist : List ℕ
  deriving DecidableEq, Repr

/-- The part of `struct rmap_item` that the stable tree uses. -/
structure StableRmapItem where
  address : UInt64
  anonVma : ℕ
  deriving DecidableEq, Repr

/-- `struct stable_node` -/
structure StableNode where
  treeNode : Option ℕ
  hlist : List NodeVma
  kpfn : ℕ
  hashMax : UInt32
  deriving DecidableEq, Repr

/-- `struct tree_node` -/
structure TreeNode where
  subRoot : BinaryTree ℕ
  hash : UInt32
  count : ℕ
  deriving DecidableEq, Repr

/-- The sharing counters and what hangs off the stable nodes. -/
structure Sharing where
  uksmPagesShared : UInt64
  uksmPagesSharing : UInt64
  rmapItem : ℕ → StableRmapItem
  anonVmaRefs : ℕ → ℤ

/-- The stable-tree variables of Section 4 and the heaps behind them.  The two alternating pairs are
indexed by `Fin 2`. -/
structure StableTree where
  stableNodeList : List ℕ
  stableNode : ℕ → Option StableNode
  treeNode : ℕ → Option TreeNode
  nextTreeNode : ℕ
  stableTreeNodeList : Fin 2 → List ℕ
  stableTreeNodeListp : Fin 2
  rootStableTree : Fin 2 → BinaryTree ℕ
  rootStableTreep : Fin 2
  stableTreeIndex : Fin 2
  sharing : Sharing
  pageCount : ℕ → ℤ

/-- The static initial values of the stable tree. -/
def initialTree : StableTree where
  stableNodeList := []
  stableNode _ := none
  treeNode _ := none
  nextTreeNode := 0
  stableTreeNodeList _ := []
  stableTreeNodeListp := 0
  rootStableTree _ := .nil
  rootStableTreep := 0
  stableTreeIndex := 0
  sharing := ⟨0, 0, fun _ => ⟨0, 0⟩, fun _ => 0⟩
  pageCount _ := 0

/-- Why a node is left out of the new tree. -/
inductive DropReason
  | allocFailed
  | collided (linkedNode : ℕ)
  deriving DecidableEq, Repr

/-- What happens to a node during a rebuild. -/
inductive Event
  | visited (node : ℕ)
  | stale (node : ℕ)
  | freed (node : ℕ)
  | hashed (node : ℕ) (fromScratch : Bool)
  | linked (node : ℕ)
  | dropped (node : ℕ) (at' : StableTree) (why : DropReason)

/-- The data of a rebuild in progress. -/
structure Rebuild where
  tree : StableTree
  counters : Counters
  log : List Event

/-- The decisions that the rest of the kernel takes during one visit. -/
structure Choice where
  outerStale : Bool
  innerStale : Bool
  allocFails : Bool
  deriving DecidableEq, Repr

/-- `hash_cmp` -/
def hashCmp (newVal nodeVal : UInt32) : Ordering :=
  if newVal > nodeVal then .gt else if newVal < nodeVal then .lt else .eq

/-- `PAGE_MASK` -/
def pageMask : UInt64 := ~~~0xFFF

/-! ### Reading and writing through pointers -/

def getStableNode (n : ℕ) (t : StableTree) : Except Fault StableNode :=
  match t.stableNode n with
  | some node => .ok node
  | none => .error .useAfterFree

def getTreeNode (i : ℕ) (t : StableTree) : Except Fault TreeNode :=
  match t.treeNode i with
  | some tn => .ok tn
  | none => .error .useAfterFree

def setStableNode (n : ℕ) (node : StableNode) (t : StableTree) : StableTree :=
  { t with stableNode := Function.update t.stableNode n (some node) }

def setTreeNode (i : ℕ) (tn : TreeNode) (t : StableTree) : StableTree :=
  { t with treeNode := Function.update t.treeNode i (some tn) }

def Rebuild.note (e : Event) (r : Rebuild) : Rebuild := { r with log := r.log ++ [e] }

/-! ### Section 5: allocation -/

/-- `free_stable_node` -/
def freeStableNode (n : ℕ) (t : StableTree) : StableTree :=
  { t with
    stableNodeList := t.stableNodeList.erase n
    stableNode := Function.update t.stableNode n none }

/-- `alloc_tree_node`; the object is zeroed and gets an address not used before. -/
def allocTreeNode (fails : Bool) (k : Fin 2) (t : StableTree) : Option ℕ × StableTree :=
  if fails then
    (none, t)
  else
    (some t.nextTreeNode,
      { t with
        treeNode := Function.update t.treeNode t.nextTreeNode (some ⟨.nil, 0, 0⟩)
        nextTreeNode := t.nextTreeNode + 1
        stableTreeNodeList := Function.update t.stableTreeNodeList k
          (t.nextTreeNode :: t.stableTreeNodeList k) })

/-- `free_tree_node` -/
def freeTreeNode (i : ℕ) (t : StableTree) : StableTree :=
  { t with
    stableTreeNodeList := fun k => (t.stableTreeNodeList k).erase i
    treeNode := Function.update t.treeNode i none }

/-- `free_all_tree_nodes` -/
def freeAllTreeNodes (k : Fin 2) (t : StableTree) : StableTree :=
  (t.stableTreeNodeList k).foldl (fun t i => freeTreeNode i t) t

/-! ### Removing a stale node -/

/-- The inner loop body of `remove_node_from_stable_tree`, with `uksm_drop_anon_vma`. -/
def unmapRmapItem (s : Sharing) (item : ℕ) : Sharing :=
  let r := s.rmapItem item
  { s with
    uksmPagesSharing := s.uksmPagesSharing - 1
    anonVmaRefs := Function.update s.anonVmaRefs r.anonVma (s.anonVmaRefs r.anonVma - 1)
    rmapItem := Function.update s.rmapItem item { r with address := r.address &&& pageMask } }

/-- `if (!hlist_empty(..))`: all rmap_items of the node leave the stable tree. -/
def unmapNode (hlist : List NodeVma) (s : Sharing) : Sharing :=
  if hlist.isEmpty then
    s
  else
    let s := hlist.foldl (fun s nodeVma => nodeVma.rmapHlist.foldl unmapRmapItem s) s
    { s with
      uksmPagesShared := s.uksmPagesShared - 1
      uksmPagesSharing := s.uksmPagesSharing + 1 }

section Rebuilding

variable (rb : Balancer ℕ)

/-- `if (stable_node->tree_node && unlink_rb)`: unlink the node from the sub-tree of `i`. -/
def unlinkStableNode (n i : ℕ) (removeTreeNode : Bool) (t : StableTree) :
    Except Fault StableTree := do
  let tn ← getTreeNode i t
  let subRoot := rb.erase n tn.subRoot
  if subRoot = .nil ∧ removeTreeNode = true then
    let root := rb.erase i (t.rootStableTree t.rootStableTreep)
    return freeTreeNode i { t with
      rootStableTree := Function.update t.rootStableTree t.rootStableTreep root }
  else
    return setTreeNode i { tn with subRoot := subRoot, count := tn.count - 1 } t

/-- `remove_node_from_stable_tree` -/
def removeNodeFromStableTree (n : ℕ) (unlinkRb removeTreeNode : Bool) (t : StableTree) :
    Except Fault StableTree := do
  let node ← getStableNode n t
  let t := { t with sharing := unmapNode node.hlist t.sharing }
  match node.treeNode with
  | none => return freeStableNode n t
  | some i =>
    if unlinkRb then
      let t ← unlinkStableNode rb n i removeTreeNode t
      return freeStableNode n t
    else
      return freeStableNode n t

/-- The reference that a successful `get_page_unless_zero` takes. -/
def takePage (pfn : ℕ) (t : StableTree) : StableTree :=
  { t with pageCount := Function.update t.pageCount pfn (t.pageCount pfn + 1) }

/-- `put_page` -/
def putPage (pfn : ℕ) (t : StableTree) : StableTree :=
  { t with pageCount := Function.update t.pageCount pfn (t.pageCount pfn - 1) }

/-- `get_uksm_page`, given whether the page's mapping still points back to the node.  It returns the
page with a reference taken, or removes the node. -/
def getUksmPage (stale : Bool) (n : ℕ) (unlinkRb removeTreeNode : Bool) (r : Rebuild) :
    Except Fault (Option ℕ × Rebuild) := do
  let node ← getStableNode n r.tree
  if stale then
    let tree ← removeNodeFromStableTree rb n unlinkRb removeTreeNode r.tree
    return (none, (({ r with tree := tree }).note (.stale n)).note (.freed n))
  else
    return (some node.kpfn, { r with tree := takePage node.kpfn r.tree })

/-- A call of `get_uksm_page`, for the node and the two flags that it is given. -/
abbrev Lookup := ℕ → Bool → Bool → Rebuild → Except Fault (Option ℕ × Rebuild)

/-- The calls of `get_uksm_page` during one visit, and whether `alloc_tree_node` fails. -/
structure Visit where
  outer : Lookup
  inner : Lookup
  allocFails : Bool

/-- The visit in which the outcomes of both calls are chosen. -/
def Choice.visit (choice : Choice) : Visit where
  outer := getUksmPage rb choice.outerStale
  inner := getUksmPage rb choice.innerStale
  allocFails := choice.allocFails

@[simp] theorem visit_outer (choice : Choice) :
    (choice.visit rb).outer = getUksmPage rb choice.outerStale := rfl

@[simp] theorem visit_inner (choice : Choice) :
    (choice.visit rb).inner = getUksmPage rb choice.innerStale := rfl

@[simp] theorem visit_allocFails (choice : Choice) :
    (choice.visit rb).allocFails = choice.allocFails := rfl

/-! ### Inserting into the new tree -/

variable (randomNums : RandomNums) (pageAt : ℕ → Page) (hashStrength : UInt64)

/-- `stable_node_hash_max` -/
def stableNodeHashMax (n : ℕ) (page : Page) (hash : UInt32) (r : Rebuild) :
    Except Fault Rebuild := do
  let node ← getStableNode n r.tree
  if node.hashMax = 0 then
    let (hashMax, counters) ← pageHashMax randomNums hashStrength page hash r.counters
    return { r with
      tree := setStableNode n { node with hashMax := hashMax } r.tree
      counters := counters }
  else
    return r

/-- `add_node:` -/
def addNode (newNode i : ℕ) (path : List Side) (r : Rebuild) : Except Fault Rebuild := do
  let tn ← getTreeNode i r.tree
  let node ← getStableNode newNode r.tree
  let subRoot := rb.insertColor newNode (linkAt newNode path tn.subRoot)
  let tree := setTreeNode i { tn with subRoot := subRoot, count := tn.count + 1 } r.tree
  let tree := setStableNode newNode { node with treeNode := some i } tree
  return ({ r with tree := tree }).note (.linked newNode)

/-- `failed:` -/
def leaveOut (newNode : ℕ) (why : DropReason) (r : Rebuild) : Except Fault Rebuild := do
  let node ← getStableNode newNode r.tree
  let tree := setStableNode newNode { node with treeNode := none } r.tree
  return ({ r with tree := tree }).note (.dropped newNode r.tree why)

/-- A new tree node with the given hash, linked into the tree at `path`. -/
def linkTreeNode (k : Fin 2) (i : ℕ) (hash : UInt32) (path : List Side) (t : StableTree) :
    Except Fault StableTree := do
  let tn ← getTreeNode i t
  let root := rb.insertColor i (linkAt i path (t.rootStableTree k))
  let t := setTreeNode i { tn with hash := hash } t
  return { t with rootStableTree := Function.update t.rootStableTree k root }

/-- `if (tree_node->count == 1)`: the one node of the tree node is validated first. -/
def insertBesideOneWith (visit : Visit) (newNode i : ℕ) (hash : UInt32) (tn : TreeNode)
    (r : Rebuild) : Except Fault Rebuild :=
  match tn.subRoot with
  | .nil => .error .nullPointer
  | .node n _ _ => do
    let (treePage, r) ← visit.inner n true false r
    match treePage with
    | some pfn =>
      let r ← stableNodeHashMax randomNums hashStrength n (pageAt pfn) hash r
      let r := { r with tree := putPage pfn r.tree }
      let new ← getStableNode newNode r.tree
      let old ← getStableNode n r.tree
      match hashCmp new.hashMax old.hashMax with
      | .lt => addNode rb newNode i [.left] r
      | .gt => addNode rb newNode i [.right] r
      | .eq => leaveOut newNode (.collided n) r
    | none => addNode rb newNode i [] r

/-- The same with chosen outcomes. -/
def insertBesideOne (choice : Choice) (newNode i : ℕ) (hash : UInt32) (tn : TreeNode)
    (r : Rebuild) : Except Fault Rebuild :=
  insertBesideOneWith rb randomNums pageAt hashStrength (choice.visit rb) newNode i hash tn r

/-- The search of the collision sub-tree. -/
def insertBySearch (newNode i : ℕ) (tn : TreeNode) (r : Rebuild) : Except Fault Rebuild := do
  if tn.subRoot = .nil then
    .error .bugOnEmptySubRoot
  else
    let new ← getStableNode newNode r.tree
    let (path, found) ← descend
      (fun n => (fun node => hashCmp new.hashMax node.hashMax) <$> getStableNode n r.tree)
      tn.subRoot
    match found with
    | some n => leaveOut newNode (.collided n) r
    | none => addNode rb newNode i path r

/-- `stable_node_reinsert` over any calls of `get_uksm_page` -/
def stableNodeReinsertWith (visit : Visit) (newNode : ℕ) (page : Page) (k : Fin 2) (hash : UInt32)
    (r : Rebuild) : Except Fault Rebuild := do
  let (path, found) ← descend (fun i => (fun tn => hashCmp hash tn.hash) <$> getTreeNode i r.tree)
    (r.tree.rootStableTree k)
  match found with
  | some i =>
    let r ← stableNodeHashMax randomNums hashStrength newNode page hash r
    let tn ← getTreeNode i r.tree
    if tn.count = 1 then
      insertBesideOneWith rb randomNums pageAt hashStrength visit newNode i hash tn r
    else
      insertBySearch rb newNode i tn r
  | none =>
    match allocTreeNode visit.allocFails k r.tree with
    | (none, _) => leaveOut newNode .allocFailed r
    | (some i, tree) =>
      let tree ← linkTreeNode rb k i hash path tree
      addNode rb newNode i [] { r with tree := tree }

/-- `stable_node_reinsert` -/
def stableNodeReinsert (choice : Choice) (newNode : ℕ) (page : Page) (k : Fin 2) (hash : UInt32)
    (r : Rebuild) : Except Fault Rebuild :=
  stableNodeReinsertWith rb randomNums pageAt hashStrength (choice.visit rb) newNode page k hash r

/-! ### The walk over all stable nodes -/

/-- The hash of a node's page at the new strength, and whether the whole page was hashed. -/
def nodeHash (prevHashStrength : UInt32) (node : StableNode) (page : Page) (t : StableTree)
    (c : Counters) : Except Fault (UInt32 × Bool × Counters) :=
  match node.treeNode with
  | some i => do
    let tn ← getTreeNode i t
    return ((deltaHash randomNums page prevHashStrength.toNat hashStrength.toNat tn.hash).hash,
      false, c)
  | none => do
    let (hash, c) ← pageHash randomNums page hashStrength false c
    return (hash, true, c)

/-- The loop body of `stable_tree_delta_hash`. -/
def rehashNodeWith (prevHashStrength : UInt32) (k : Fin 2) (visit : Visit) (n : ℕ) (r : Rebuild) :
    Except Fault Rebuild := do
  let (nodePage, r) ← visit.outer n false false (r.note (.visited n))
  match nodePage with
  | none => return r
  | some pfn =>
    let node ← getStableNode n r.tree
    let (hash, fromScratch, counters) ←
      nodeHash randomNums hashStrength prevHashStrength node (pageAt pfn) r.tree r.counters
    let r ← stableNodeReinsertWith rb randomNums pageAt hashStrength visit n (pageAt pfn) k hash
      (({ r with counters := counters }).note (.hashed n fromScratch))
    return { r with tree := putPage pfn r.tree }

/-- The loop body with chosen outcomes. -/
def rehashNode (prevHashStrength : UInt32) (k : Fin 2) (choice : Choice) (n : ℕ) (r : Rebuild) :
    Except Fault Rebuild :=
  rehashNodeWith rb randomNums pageAt hashStrength prevHashStrength k (choice.visit rb) n r

/-- The entry after `n` in a list that `n` is linked in. -/
def nextEntry (n : ℕ) : List ℕ → Option (Option ℕ)
  | [] => none
  | x :: xs => if x = n then some xs.head? else nextEntry n xs

/-- `list_for_each_entry_safe`: the next entry is read before the body runs. -/
def walkWith (prevHashStrength : UInt32) (k : Fin 2) :
    ℕ → (ℕ → Visit) → Option ℕ → Rebuild → Except Fault Rebuild
  | _, _, none, r => .ok r
  | 0, _, some _, _ => .error .outOfFuel
  | fuel + 1, visits, some n, r =>
    match nextEntry n r.tree.stableNodeList with
    | none => .error .useAfterFree
    | some tmp => do
      let r ← rehashNodeWith rb randomNums pageAt hashStrength prevHashStrength k (visits 0) n r
      walkWith prevHashStrength k fuel (fun j => visits (j + 1)) tmp r

/-- The loop with chosen outcomes. -/
def walk (prevHashStrength : UInt32) (k : Fin 2) (fuel : ℕ) (choices : ℕ → Choice)
    (next : Option ℕ) (r : Rebuild) : Except Fault Rebuild :=
  walkWith rb randomNums pageAt hashStrength prevHashStrength k fuel
    (fun j => (choices j).visit rb) next r

/-- The tree with the new index and an empty new root, as the walk finds it. -/
def startRebuild (t : StableTree) : StableTree :=
  { t with
    stableTreeIndex := t.stableTreeIndex + 1
    rootStableTree := Function.update t.rootStableTree (t.stableTreeIndex + 1) .nil }

/-- `stable_tree_delta_hash` over any calls of `get_uksm_page` -/
def stableTreeDeltaHashWith (prevHashStrength : UInt32) (visits : ℕ → Visit) (t : StableTree)
    (c : Counters) : Except Fault Rebuild := do
  let k := t.stableTreeIndex + 1
  let t := { t with
    stableTreeIndex := k
    rootStableTree := Function.update t.rootStableTree k .nil }
  if t.stableTreeNodeList k ≠ [] then
    .error .bugOnTreeNodeList
  else
    let r ← walkWith rb randomNums pageAt hashStrength prevHashStrength k t.stableNodeList.length
      visits t.stableNodeList.head? ⟨t, c, []⟩
    let t := { r.tree with rootStableTreep := k }
    let t := freeAllTreeNodes t.stableTreeNodeListp t
    if t.stableTreeNodeList t.stableTreeNodeListp ≠ [] then
      .error .bugOnTreeNodeList
    else
      return { r with tree := { t with stableTreeNodeListp := k } }

/-- `stable_tree_delta_hash` -/
def stableTreeDeltaHash (prevHashStrength : UInt32) (choices : ℕ → Choice) (t : StableTree)
    (c : Counters) : Except Fault Rebuild :=
  stableTreeDeltaHashWith rb randomNums pageAt hashStrength prevHashStrength
    (fun j => (choices j).visit rb) t c

end Rebuilding

end DirtyPages
