import DirtyPages.StableInsert

/-!
# Visiting the stable nodes

The loop body of `stable_tree_delta_hash` and the walk over the list of stable nodes.  A visit frees
its own node, or inserts it and may free one node that was visited before; it never touches a node
that is still to come, so the entry that `list_for_each_entry_safe` has read in advance stays valid.
-/

namespace DirtyPages

open Outcome SearchTree

/-- What a visit of `n` adds to the log. -/
def Fate.visitEvents (n : ℕ) (fromScratch : Bool) : Fate → List Event
  | .stale => [.visited n, .stale n, .freed n]
  | fate => .visited n :: .hashed n fromScratch :: fate.insertEvents n

section

variable {rb : Balancer ℕ} {randomNums : RandomNums} {pageAt : ℕ → Page} {k : Fin 2}
  {s : UInt64} {prev : UInt32} {base : ℕ} {done : ℕ → Prop} {x : ℕ} {t : StableTree} {c₀ : Counters}
  {choice : Choice} {log : List Event} {r : Rebuild}

variable (randomNums pageAt k s base done x c₀) in
/-- The visit of `x` has ended with the given fate. -/
structure Visited (choice : Choice) (t : StableTree) (log : List Event) (fate : Fate)
    (r : Rebuild) : Prop where
  core : Core randomNums pageAt k s base (fun n => done n ∨ n = x) r.tree
  nonempty : ∀ i ∈ r.tree.groups k, r.tree.members i ≠ []
  frame : Frame k base done x t r.tree
  log_eq : r.log = log ++ fate.visitEvents x (t.node x).treeNode.isNone
  alive : ∀ m, r.tree.Alive m ↔ m ∉ fate.freed x ∧ t.Alive m
  freedDone : ∀ m ∈ fate.freed x, (m = x ∨ done m) ∧ t.Alive m
  leftOut : r.tree.Alive x →
    ((r.tree.node x).treeNode = none ↔ ∃ at' why, fate = .dropped at' why)
  justified : ∀ at' why, fate = .dropped at' why →
    Justified randomNums pageAt k s x choice at' why
  staleIff : fate = .stale ↔ choice.outerStale = true
  quiet : c₀.Quiet → r.counters.Quiet

/-- Giving back the reference on a node's page. -/
theorem frame_putPage {pfn : ℕ} {t' : StableTree}
    (h : Frame k base done x (takePage pfn t) t') : Frame k base done x t (putPage pfn t') := by
  have hput : putPage pfn t' = { t' with pageCount := t.pageCount } := by
    rw [putPage, h.pages]
    exact congrArg (fun pages => { t' with pageCount := pages })
      (congrArg StableTree.pageCount (putPage_takePage pfn t))
  rw [hput]
  exact h.withPages t.pageCount

/-- The hash that the loop body computes is the hash of the page at the new strength, by an update
of the hash of its tree node or from scratch. -/
theorem nodeHash_eq {c : Counters}
    (hptr : ∀ i, (t.node x).treeNode = some i → (t.treeNode i).isSome = true ∧
      t.hashAt randomNums pageAt prev.toUInt64 x = (t.group i).hash) :
    nodeHash randomNums s prev (t.node x) (pageAt (t.node x).kpfn) t c =
      .ok (t.hashAt randomNums pageAt s x, (t.node x).treeNode.isNone, c) := by
  rw [nodeHash]
  cases hp : (t.node x).treeNode with
  | none => rfl
  | some i =>
    obtain ⟨hi, hhash⟩ := hptr i hp
    show getTreeNode i t >>= _ = _
    rw [getTreeNode_eq hi]
    show Except.ok ((deltaHash randomNums _ _ _ (t.group i).hash).hash, false, c) = _
    rw [← hhash, StableTree.hashAt, UInt32.toNat_toUInt64, deltaHash_of_sample]
    rfl

/-- The node is found stale: it is freed without touching the new tree. -/
theorem staleVisit (hcore : Core randomNums pageAt k s base done r.tree) (hx : ¬done x)
    (ha : r.tree.Alive x) (hne : ∀ j ∈ r.tree.groups k, r.tree.members j ≠ [])
    (hq : c₀.Quiet → r.counters.Quiet)
    (sharing : Sharing) (hstale : choice.outerStale = true) :
    Visited randomNums pageAt k s base done x c₀ choice r.tree r.log .stale
      ((({ (r.note (.visited x)) with
        tree := freeStableNode x { r.tree with sharing := sharing } }).note (.stale x)).note
          (.freed x)) := by
  have hcore' : Core randomNums pageAt k s base done { r.tree with sharing := sharing } :=
    hcore.congr rfl rfl rfl rfl rfl rfl
  have halive : ∀ m, (freeStableNode x { r.tree with sharing := sharing }).Alive m ↔
      m ≠ x ∧ r.tree.Alive m := fun m => freeStableNode_alive x _ m
  refine ⟨?_, hne, ?_, ?_, ?_, ?_, ?_, ?_, ?_, hq⟩
  · refine (core_free hcore' hx).extend (fun _ => Or.inl) ?_
    intro n hn hd hnd
    exact absurd (hd.resolve_left hnd) ((halive n).mp hn).1
  · exact (frame_sharing hcore sharing).trans
      (frame_free hcore'.nodup hcore'.alive (Or.inl rfl))
  · show r.log ++ [.visited x] ++ [.stale x] ++ [.freed x] =
      r.log ++ [.visited x, .stale x, .freed x]
    simp
  · intro m
    refine (halive m).trans ?_
    simp [Fate.freed]
  · intro m hm
    have hmx := List.mem_singleton.mp hm
    rw [hmx]
    exact ⟨Or.inl rfl, ha⟩
  · intro ha'
    exact absurd rfl ((halive x).mp ha').1
  · intro at' why h
    cases h
  · exact ⟨fun _ => hstale, fun _ => rfl⟩

/-- The state in which the loop body calls `stable_node_reinsert`. -/
def beforeReinsert (x : ℕ) (r : Rebuild) : Rebuild where
  tree := takePage (r.tree.node x).kpfn r.tree
  counters := r.counters
  log := r.log ++ [.visited x] ++ [.hashed x (r.tree.node x).treeNode.isNone]

/-- A node whose page is there has been inserted, and the reference on the page is given back. -/
theorem Inserted.visited {fate : Fate} {r' : Rebuild}
    (hins : Inserted randomNums pageAt k s base done x c₀ choice (beforeReinsert x r).tree
      (beforeReinsert x r).log fate r') (hstale : choice.outerStale = false) :
    Visited randomNums pageAt k s base done x c₀ choice r.tree r.log fate
      { r' with tree := putPage (r.tree.node x).kpfn r'.tree } := by
  -- a node that was inserted did not have the fate of a stale one
  have hne : fate ≠ .stale := by
    rintro rfl
    have hself := hins.self
    rw [hins.alive] at hself
    exact hself.1 (by simp [Fate.freed])
  have hevents : ∀ scratch, fate.visitEvents x scratch =
      .visited x :: .hashed x scratch :: fate.insertEvents x := by
    intro scratch
    cases fate with
    | stale => exact absurd rfl hne
    | linked => rfl
    | replaced m => rfl
    | dropped at' why => rfl
  refine ⟨hins.core.congr rfl rfl rfl rfl rfl rfl, hins.nonempty, frame_putPage hins.frame, ?_,
    hins.alive, ?_, fun _ => hins.leftOut, hins.justified, ?_, hins.quiet⟩
  · show r'.log = _
    rw [hins.log_eq, hevents, beforeReinsert]
    simp
  · intro m hm
    obtain ⟨hd, ha⟩ := hins.freedDone m hm
    exact ⟨Or.inr hd, ha⟩
  · rw [hstale]
    exact ⟨fun h => absurd h hne, fun h => by cases h⟩

/-- The loop body, for a node that has not been visited and whose tree node, if it has one, carries
the hash of its page at the previous strength. -/
theorem rehashNode_visited (hcore : Core randomNums pageAt k s base done r.tree) (hx : ¬done x)
    (ha : r.tree.Alive x) (hne : ∀ j ∈ r.tree.groups k, r.tree.members j ≠ [])
    (hbase : base ≤ r.tree.nextTreeNode) (hq : c₀.Quiet → r.counters.Quiet)
    (hptr : ∀ i, (r.tree.node x).treeNode = some i → (r.tree.treeNode i).isSome = true ∧
      r.tree.hashAt randomNums pageAt prev.toUInt64 x = (r.tree.group i).hash) :
    Meets (StopsFrom c₀)
      (fun r' => ∃ fate,
        Visited randomNums pageAt k s base done x c₀ choice r.tree r.log fate r')
      (rehashNode rb randomNums pageAt s prev k choice x r) := by
  rw [rehashNode, rehashNodeWith, visit_outer]
  cases hstale : choice.outerStale with
  | true =>
    rw [getUksmPage_stale (r := r.note (.visited x)) ha (removeNode_unlinked ha)]
    exact ⟨.stale, staleVisit hcore hx ha hne hq _ hstale⟩
  | false =>
    rw [getUksmPage_live (r := r.note (.visited x)) ha]
    show Meets _ _ (getStableNode x (takePage (r.tree.node x).kpfn r.tree) >>= _)
    rw [getStableNode_eq (t := takePage (r.tree.node x).kpfn r.tree) ha]
    have hhash := nodeHash_eq (s := s) (c := r.counters) (t := (beforeReinsert x r).tree) hptr
    show Meets _ _ (nodeHash randomNums s prev ((beforeReinsert x r).tree.node x)
      (pageAt ((beforeReinsert x r).tree.node x).kpfn) (beforeReinsert x r).tree r.counters >>= _)
    rw [hhash]
    have hcore' : Core randomNums pageAt k s base done (beforeReinsert x r).tree :=
      hcore.congr rfl rfl rfl rfl rfl rfl
    show Meets _ _ (stableNodeReinsert rb randomNums pageAt s choice x
      (pageAt ((beforeReinsert x r).tree.node x).kpfn) k
      ((beforeReinsert x r).tree.hashAt randomNums pageAt s x) (beforeReinsert x r) >>= _)
    refine (stableNodeReinsert_inserted hcore' hx ha hne hbase hq).bind ?_
    rintro r' ⟨fate, hins⟩
    exact ⟨fate, Inserted.visited hins hstale⟩

/-! ### The walk -/

/-- The entry after `n`, when nothing before `n` is `n` itself. -/
theorem nextEntry_append {n : ℕ} {before rest : List ℕ} (hn : n ∉ before) :
    nextEntry n (before ++ n :: rest) = some rest.head? := by
  induction before with
  | nil => rw [List.nil_append, nextEntry, if_pos rfl]
  | cons m before ih =>
    rw [List.mem_cons, not_or] at hn
    rw [List.cons_append, nextEntry, if_neg (Ne.symm hn.1)]
    exact ih hn.2

/-- The rule for the walk: an invariant between the nodes visited and the nodes to come, under which
the node to visit is still in front of the nodes to come, and which the loop body keeps. -/
theorem walk_meets {allowed : Fault → Prop} (inv : List ℕ → List ℕ → Rebuild → Prop)
    {choices : ℕ → Choice}
    (hnext : ∀ visited n rest r, inv visited (n :: rest) r →
      nextEntry n r.tree.stableNodeList = some rest.head?)
    (hbody : ∀ visited n rest r, inv visited (n :: rest) r →
      Meets allowed (inv (visited ++ [n]) rest)
        (rehashNode rb randomNums pageAt s prev k (choices visited.length) n r))
    (visited rest : List ℕ) (r : Rebuild) (hinv : inv visited rest r) (fuel : ℕ)
    (hfuel : rest.length ≤ fuel) :
    Meets allowed (inv (visited ++ rest) [])
      (walk rb randomNums pageAt s prev k fuel (fun j => choices (visited.length + j)) rest.head?
        r) := by
  induction rest generalizing visited r fuel with
  | nil =>
    rw [List.append_nil, List.head?_nil, walk, walkWith]
    exact hinv
  | cons n rest ih =>
    obtain ⟨fuel, rfl⟩ : ∃ f, fuel = f + 1 := ⟨fuel - 1, by simp at hfuel; omega⟩
    rw [List.head?_cons, walk, walkWith, hnext visited n rest r hinv]
    show Meets _ _
      (rehashNode rb randomNums pageAt s prev k (choices (visited.length + 0)) n r >>= _)
    refine (hbody visited n rest r hinv).bind ?_
    intro r' hinv'
    have hrec := ih (visited ++ [n]) r' hinv' fuel (by simpa using hfuel)
    rw [List.append_assoc, List.singleton_append] at hrec
    have hshift : (fun j => choices ((visited ++ [n]).length + j)) =
        fun j => choices (visited.length + (j + 1)) := by
      funext j
      congr 1
      simp only [List.length_append, List.length_singleton]
      omega
    rw [hshift] at hrec
    exact hrec

end

end DirtyPages
