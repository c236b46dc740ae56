import DirtyPages.StableRebuild

/-!
# What a rebuild does with each node

The log of a rebuild, read node by node: every node of the list is visited once, none after it was
freed, the nodes freed are those found stale, and a node that is left out of the new tree has a
reason on record.  Such a node has no tree node, so the next rebuild hashes it from scratch.
-/

namespace DirtyPages

open Outcome SearchTree

/-! ### Reading the log -/

def Event.visitedNode : Event → Option ℕ
  | .visited n => some n
  | _ => none

def Event.staleNode : Event → Option ℕ
  | .stale n => some n
  | _ => none

def Event.freedNode : Event → Option ℕ
  | .freed n => some n
  | _ => none

/-- The nodes visited, in order. -/
def visitedNodes (log : List Event) : List ℕ := log.filterMap Event.visitedNode

/-- The nodes that `get_uksm_page` found stale. -/
def staleNodes (log : List Event) : List ℕ := log.filterMap Event.staleNode

/-- The nodes that were freed. -/
def freedNodes (log : List Event) : List ℕ := log.filterMap Event.freedNode

/-- The two events are not a node's freeing and then a visit of it. -/
def NotAfterFree (e e' : Event) : Prop := ∀ n, e.freedNode = some n → e'.visitedNode ≠ some n

theorem visitedNodes_visitEvents (n : ℕ) (scratch : Bool) (fate : Fate) :
    visitedNodes (fate.visitEvents n scratch) = [n] := by
  cases fate with
  | stale => rfl
  | linked => rfl
  | replaced m => rfl
  | dropped at' why => rfl

theorem staleNodes_visitEvents (n : ℕ) (scratch : Bool) (fate : Fate) :
    staleNodes (fate.visitEvents n scratch) = fate.freed n := by
  cases fate with
  | stale => rfl
  | linked => rfl
  | replaced m => rfl
  | dropped at' why => rfl

theorem freedNodes_visitEvents (n : ℕ) (scratch : Bool) (fate : Fate) :
    freedNodes (fate.visitEvents n scratch) = fate.freed n := by
  cases fate with
  | stale => rfl
  | linked => rfl
  | replaced m => rfl
  | dropped at' why => rfl

/-- A visit begins with the visit itself. -/
theorem pairwise_visitEvents (n : ℕ) (scratch : Bool) (fate : Fate) :
    (fate.visitEvents n scratch).Pairwise NotAfterFree := by
  cases fate with
  | stale => simp [Fate.visitEvents, NotAfterFree, Event.freedNode, Event.visitedNode]
  | linked =>
    simp [Fate.visitEvents, Fate.insertEvents, NotAfterFree, Event.freedNode, Event.visitedNode]
  | replaced m =>
    simp [Fate.visitEvents, Fate.insertEvents, NotAfterFree, Event.freedNode, Event.visitedNode]
  | dropped at' why =>
    simp [Fate.visitEvents, Fate.insertEvents, NotAfterFree, Event.freedNode, Event.visitedNode]

/-- At most one node is freed during a visit. -/
theorem Fate.freed_nodup (n : ℕ) (fate : Fate) : (fate.freed n).Nodup := by
  cases fate with
  | stale => exact List.nodup_singleton n
  | linked => exact List.nodup_nil
  | replaced m => exact List.nodup_singleton m
  | dropped at' why => exact List.nodup_nil

/-! ### The log of a walk -/

section

variable (randomNums : RandomNums) (pageAt : ℕ → Page) (k : Fin 2) (s : UInt64)
  (choices : ℕ → Choice)

/-- What the log of a rebuild of `t` says after the nodes in `visited` have been visited. -/
structure Logged (t : StableTree) (visited : List ℕ) (r : Rebuild) : Prop where
  visits : visitedNodes r.log = visited
  freed : freedNodes r.log = staleNodes r.log
  once : (freedNodes r.log).Nodup
  gone : ∀ n, r.tree.Alive n ↔ n ∉ freedNodes r.log ∧ t.Alive n
  known : ∀ n ∈ freedNodes r.log, n ∈ visited
  order : r.log.Pairwise NotAfterFree
  stale : ∀ n ∈ visited, (choices (t.stableNodeList.idxOf n)).outerStale = true →
    n ∈ freedNodes r.log
  hashed : ∀ n ∈ visited, (choices (t.stableNodeList.idxOf n)).outerStale = false →
    .hashed n (t.node n).treeNode.isNone ∈ r.log
  leftOut : ∀ n ∈ visited, r.tree.Alive n → (r.tree.node n).treeNode = none →
    ∃ at' why, .dropped n at' why ∈ r.log ∧
      Justified randomNums pageAt k s n (choices (t.stableNodeList.idxOf n)) at' why

end

variable {rb : Balancer ℕ} {randomNums : RandomNums} {pageAt : ℕ → Page} {k : Fin 2}
  {s : UInt64} {prev : UInt32} {t : StableTree} {c₀ : Counters} {choices : ℕ → Choice}
  {visited rest : List ℕ} {x : ℕ} {r r' : Rebuild} {fate : Fate}

/-- The node that is visited next has as many nodes before it as have been visited. -/
theorem Walking.idxOf (h : Walking randomNums pageAt k s c₀ t visited (x :: rest) r)
    (hnodup : t.stableNodeList.Nodup) : t.stableNodeList.idxOf x = visited.length := by
  rw [h.split, List.idxOf_append_of_notMem (h.not_mem_visited hnodup), List.idxOf_cons_self]
  rfl

section

variable {next : ℕ} {done : ℕ → Prop} {c : Counters} {choice : Choice} {log : List Event}

theorem Visited.visitedNodes_log
    (h : Visited randomNums pageAt k s next done x c choice t log fate r') :
    visitedNodes r'.log = visitedNodes log ++ [x] := by
  rw [h.log_eq, visitedNodes, List.filterMap_append]
  exact congrArg _ (visitedNodes_visitEvents x _ fate)

theorem Visited.staleNodes_log
    (h : Visited randomNums pageAt k s next done x c choice t log fate r') :
    staleNodes r'.log = staleNodes log ++ fate.freed x := by
  rw [h.log_eq, staleNodes, List.filterMap_append]
  exact congrArg _ (staleNodes_visitEvents x _ fate)

theorem Visited.freedNodes_log
    (h : Visited randomNums pageAt k s next done x c choice t log fate r') :
    freedNodes r'.log = freedNodes log ++ fate.freed x := by
  rw [h.log_eq, freedNodes, List.filterMap_append]
  exact congrArg _ (freedNodes_visitEvents x _ fate)

theorem Visited.keeps_log
    (h : Visited randomNums pageAt k s next done x c choice t log fate r') {e : Event}
    (he : e ∈ log) : e ∈ r'.log := by
  rw [h.log_eq]
  exact List.mem_append_left _ he

/-- A node that is not stale is hashed, from scratch if it has no tree node. -/
theorem Visited.hashed_mem
    (h : Visited randomNums pageAt k s next done x c choice t log fate r')
    (hstale : choice.outerStale = false) : .hashed x (t.node x).treeNode.isNone ∈ r'.log := by
  rw [h.log_eq]
  apply List.mem_append_right
  cases fate with
  | stale =>
    rw [h.staleIff.mp rfl] at hstale
    cases hstale
  | linked => simp [Fate.visitEvents]
  | replaced m => simp [Fate.visitEvents]
  | dropped at' why => simp [Fate.visitEvents]

/-- A node that lives on without a tree node has its reason in the log. -/
theorem Visited.dropped_mem
    (h : Visited randomNums pageAt k s next done x c choice t log fate r') (ha : r'.tree.Alive x)
    (hnone : (r'.tree.node x).treeNode = none) :
    ∃ at' why, .dropped x at' why ∈ r'.log ∧ Justified randomNums pageAt k s x choice at' why := by
  obtain ⟨at', why, hfate⟩ := (h.leftOut ha).mp hnone
  refine ⟨at', why, ?_, h.justified at' why hfate⟩
  rw [h.log_eq, hfate]
  apply List.mem_append_right
  simp [Fate.visitEvents, Fate.insertEvents]

end

/-- The log of a rebuild that has not visited anything. -/
theorem logged_start (t : StableTree) (c : Counters) :
    Logged randomNums pageAt k s choices t [] ⟨t, c, []⟩ := by
  constructor
  case visits => rfl
  case freed => rfl
  case once => exact List.nodup_nil
  case gone => exact fun n => ⟨fun ha => ⟨List.not_mem_nil, ha⟩, fun hn => hn.2⟩
  case known => exact fun n hn => hn
  case order => exact List.Pairwise.nil
  case stale => exact fun n hn => absurd hn List.not_mem_nil
  case hashed => exact fun n hn => absurd hn List.not_mem_nil
  case leftOut => exact fun n hn => absurd hn List.not_mem_nil

/-- One visit keeps the log in order. -/
theorem Logged.step (h : Logged randomNums pageAt k s choices t visited r)
    (hwalk : Walking randomNums pageAt k s c₀ t visited (x :: rest) r)
    (hnodup : t.stableNodeList.Nodup)
    (hvisit : Visited randomNums pageAt k s t.nextTreeNode (· ∈ visited) x c₀
      (choices visited.length) r.tree r.log fate r') :
    Logged randomNums pageAt k s choices t (visited ++ [x]) r' := by
  have hx := hwalk.not_mem_visited hnodup
  have hidx := hwalk.idxOf hnodup
  have hfreed := hvisit.freedNodes_log
  constructor
  case visits => rw [hvisit.visitedNodes_log, h.visits]
  case freed => rw [hfreed, hvisit.staleNodes_log, h.freed]
  case once =>
    rw [hfreed, List.nodup_append]
    refine ⟨h.once, fate.freed_nodup x, ?_⟩
    -- what this visit frees was alive, so it had not been freed before
    intro n hn m hm hnm
    subst hnm
    exact ((h.gone n).mp (hvisit.freedDone n hm).2).1 hn
  case gone =>
    intro n
    rw [hvisit.alive, h.gone, hfreed, List.mem_append]
    constructor
    · intro hn
      exact ⟨fun hor => hor.elim hn.2.1 hn.1, hn.2.2⟩
    · intro hn
      exact ⟨fun hm => hn.1 (Or.inr hm), fun hm => hn.1 (Or.inl hm), hn.2⟩
  case known =>
    intro n hn
    rw [hfreed, List.mem_append] at hn
    rw [List.mem_append, List.mem_singleton]
    cases hn with
    | inl hold => exact Or.inl (h.known n hold)
    | inr hnew => exact (hvisit.freedDone n hnew).1.symm
  case order =>
    rw [hvisit.log_eq, List.pairwise_append]
    refine ⟨h.order, pairwise_visitEvents x _ fate, ?_⟩
    intro e he e' he' n hfree hvis
    have hmem : n ∈ freedNodes r.log := List.mem_filterMap.mpr ⟨e, he, hfree⟩
    have hnx : n ∈ visitedNodes (fate.visitEvents x (r.tree.node x).treeNode.isNone) :=
      List.mem_filterMap.mpr ⟨e', he', hvis⟩
    rw [visitedNodes_visitEvents, List.mem_singleton] at hnx
    exact hx (hnx ▸ h.known n hmem)
  case stale =>
    intro n hn hs
    rw [hfreed, List.mem_append]
    rw [List.mem_append, List.mem_singleton] at hn
    cases hn with
    | inl hold => exact Or.inl (h.stale n hold hs)
    | inr hnew =>
      subst hnew
      rw [hidx] at hs
      rw [hvisit.staleIff.mpr hs]
      exact Or.inr (List.mem_singleton.mpr rfl)
  case hashed =>
    intro n hn hs
    rw [List.mem_append, List.mem_singleton] at hn
    cases hn with
    | inl hold => exact hvisit.keeps_log (h.hashed n hold hs)
    | inr hnew =>
      subst hnew
      rw [hidx] at hs
      have hnode : r.tree.node n = t.node n := by
        rw [StableTree.node, hwalk.todo n List.mem_cons_self, StableTree.node]
      rw [← hnode]
      exact hvisit.hashed_mem hs
  case leftOut =>
    intro n hn ha hnone
    by_cases hnx : n = x
    · subst hnx
      rw [hidx]
      exact hvisit.dropped_mem ha hnone
    · rw [List.mem_append, List.mem_singleton] at hn
      have hold : n ∈ visited := hn.resolve_right hnx
      rw [hvisit.frame.pointer n hnx ha] at hnone
      obtain ⟨at', why, hmem, hjust⟩ := h.leftOut n hold (hvisit.frame.dead n ha) hnone
      exact ⟨at', why, hvisit.keeps_log hmem, hjust⟩

/-! ### Where the nodes are -/

/-- All nodes of all sub-trees of the current tree. -/
def StableTree.linkedNodes (t : StableTree) : List ℕ :=
  (t.groups t.rootStableTreep).flatMap t.members

theorem StableInv.members_nodup {s : UInt64} (h : StableInv randomNums pageAt s t) {i : ℕ}
    (hi : i ∈ t.groups t.rootStableTreep) : (t.members i).Nodup := by
  by_cases hlen : 2 ≤ (t.members i).length
  · exact (h.ordered i hi hlen).2.nodup
  · cases hm : t.members i with
    | nil => exact List.nodup_nil
    | cons n ns =>
      rw [hm, List.length_cons] at hlen
      have hns : ns = [] := List.length_eq_zero_iff.mp (by omega)
      rw [hns]
      exact List.nodup_singleton n

/-- No node is in two sub-trees, or twice in one. -/
theorem StableInv.linkedNodes_nodup {s : UInt64} (h : StableInv randomNums pageAt s t) :
    t.linkedNodes.Nodup := by
  rw [StableTree.linkedNodes, List.nodup_flatMap]
  refine ⟨fun i hi => h.members_nodup hi, ?_⟩
  refine List.Pairwise.imp_of_mem ?_ h.sorted.nodup
  intro i j hi hj hij n hni hnj
  have hp := (h.member i hi n hni).2
  rw [(h.member j hj n hnj).2] at hp
  exact hij (Option.some.inj hp).symm

theorem StableInv.mem_linkedNodes {s : UInt64} (h : StableInv randomNums pageAt s t) {n : ℕ}
    (hn : n ∈ t.stableNodeList) :
    n ∈ t.linkedNodes ↔ (t.node n).treeNode.isSome = true := by
  rw [StableTree.linkedNodes, List.mem_flatMap]
  constructor
  · intro hmem
    obtain ⟨i, hi, hni⟩ := hmem
    rw [(h.member i hi n hni).2]
    rfl
  · intro hsome
    obtain ⟨i, hp⟩ := Option.isSome_iff_exists.mp hsome
    obtain ⟨hi, hni, _⟩ := h.linked n hn i hp
    exact ⟨i, hi, hni⟩

/-- A node is in one sub-tree, or has no tree node and is in none. -/
theorem StableInv.count_linkedNodes {s : UInt64} (h : StableInv randomNums pageAt s t) {n : ℕ}
    (hn : n ∈ t.stableNodeList) :
    t.linkedNodes.count n = if (t.node n).treeNode = none then 0 else 1 := by
  rw [h.linkedNodes_nodup.count]
  have hmem := h.mem_linkedNodes hn
  cases hp : (t.node n).treeNode with
  | none =>
    rw [hp] at hmem
    rw [if_neg (fun hn => by cases hmem.mp hn), if_pos rfl]
  | some i =>
    rw [hp] at hmem
    rw [if_pos (hmem.mpr rfl), if_neg (fun hn => by cases hn)]

/-! ### Whole rebuilds -/

variable (randomNums pageAt s choices) in
/-- Every node is accounted for by the rebuild of `t` that ended in `r`. -/
structure Accounted (t : StableTree) (r : Rebuild) : Prop where
  /-- every node of the list is visited once, in order, and never after it was freed -/
  visits : visitedNodes r.log = t.stableNodeList
  order : r.log.Pairwise NotAfterFree
  /-- the nodes freed are those found stale, each is freed once, and only they leave the list -/
  freed : freedNodes r.log = staleNodes r.log
  once : (freedNodes r.log).Nodup
  list : r.tree.stableNodeList = t.stableNodeList.filter (· ∉ freedNodes r.log)
  alive : ∀ n, r.tree.Alive n ↔ n ∉ freedNodes r.log ∧ t.Alive n
  stale : ∀ n ∈ t.stableNodeList, (choices (t.stableNodeList.idxOf n)).outerStale = true →
    n ∈ freedNodes r.log
  /-- a node that remains is in one sub-tree of the new tree, or has no tree node and is in none -/
  place : ∀ n ∈ r.tree.stableNodeList,
    r.tree.linkedNodes.count n = if (r.tree.node n).treeNode = none then 0 else 1
  /-- a node without a tree node was left out for a reason -/
  leftOut : ∀ n ∈ r.tree.stableNodeList, (r.tree.node n).treeNode = none →
    ∃ at' why, .dropped n at' why ∈ r.log ∧
      Justified randomNums pageAt r.tree.rootStableTreep s n
        (choices (t.stableNodeList.idxOf n)) at' why
  /-- a node whose page is there is hashed, from scratch if it had no tree node -/
  hashed : ∀ n ∈ t.stableNodeList, (choices (t.stableNodeList.idxOf n)).outerStale = false →
    .hashed n (t.node n).treeNode.isNone ∈ r.log

/-- When all nodes have been visited, the log of the walk accounts for them. -/
theorem Logged.accounted {freed : List ℕ} (h : StableInv randomNums pageAt prev.toUInt64 t)
    (hwalk : Walking randomNums pageAt (t.stableTreeIndex + 1) s c₀ (startRebuild t)
      t.stableNodeList [] r)
    (hlog : Logged randomNums pageAt (t.stableTreeIndex + 1) s choices (startRebuild t)
      t.stableNodeList r)
    (hinv : StableInv randomNums pageAt s
      (finishRebuild (t.stableTreeIndex + 1) freed r.tree)) :
    Accounted randomNums pageAt s choices t
      { r with tree := finishRebuild (t.stableTreeIndex + 1) freed r.tree } := by
  constructor
  case visits => exact hlog.visits
  case order => exact hlog.order
  case freed => exact hlog.freed
  case once => exact hlog.once
  case list =>
    refine hwalk.list.trans (List.filter_congr ?_)
    intro n hn
    have ha : (startRebuild t).Alive n := (h.alive n).mp hn
    simp only [hlog.gone, ha, and_true]
  case alive => exact hlog.gone
  case stale => exact hlog.stale
  case place => exact fun n hn => hinv.count_linkedNodes hn
  case leftOut =>
    intro n hn hnone
    exact hlog.leftOut n (hwalk.mem_of_mem hn) ((hwalk.core.alive n).mp hn) hnone
  case hashed => exact hlog.hashed

/-- A rebuild of a consistent tree accounts for every node and leaves a consistent tree. -/
theorem rebuild_accounts (h : StableInv randomNums pageAt prev.toUInt64 t) :
    Meets (StopsFrom c₀)
      (fun r => StableInv randomNums pageAt s r.tree ∧ Accounted randomNums pageAt s choices t r)
      (stableTreeDeltaHash rb randomNums pageAt s prev choices t c₀) := by
  refine (stableTreeDeltaHash_meets
    (fun visited r =>
      Logged randomNums pageAt (t.stableTreeIndex + 1) s choices (startRebuild t) visited r)
    h (logged_start (startRebuild t) c₀) ?_).imp ?_
  · intro visited x rest r fate r' hwalk hlog hvisit
    exact hlog.step hwalk h.nodup hvisit
  intro r hr
  obtain ⟨hinv, r', freed, hwalk, hlog, rfl, _⟩ := hr
  exact ⟨hinv, hlog.accounted h hwalk hinv⟩

/-- A rebuild accounts for every node and leaves a consistent tree; and the nodes that it left out
are hashed from scratch by the next rebuild, which links them unless it meets such a reason again.
-/
theorem stableTreeDeltaHash_accounts (rb : Balancer ℕ) (randomNums : RandomNums)
    (pageAt : ℕ → Page) (prev s next : UInt64) (hprev : prev.toNat ≤ hashStrengthMax)
    (hs : s.toNat ≤ hashStrengthMax) (choices choices' : ℕ → Choice) (c c' : Counters)
    (t : StableTree) (h : StableInv randomNums pageAt prev t) :
    Meets (StopsFrom c)
      (fun r => Accounted randomNums pageAt s choices t r ∧
        StableInv randomNums pageAt s r.tree ∧
        Meets (StopsFrom c')
          (fun r' => Accounted randomNums pageAt next choices' r.tree r' ∧
            ∀ n ∈ r.tree.stableNodeList, (r.tree.node n).treeNode = none →
              n ∈ freedNodes r'.log ∨ .hashed n true ∈ r'.log ∧
                (n ∈ r'.tree.linkedNodes ∨ ∃ at' why, .dropped n at' why ∈ r'.log ∧
                  Justified randomNums pageAt r'.tree.rootStableTreep next n
                    (choices' (r.tree.stableNodeList.idxOf n)) at' why))
          (stableTreeDeltaHash rb randomNums pageAt next s.toUInt32 choices' r.tree c'))
      (stableTreeDeltaHash rb randomNums pageAt s prev.toUInt32 choices t c) := by
  rw [← toUInt64_toUInt32 hprev] at h
  refine (rebuild_accounts h).imp ?_
  intro r hr
  obtain ⟨hinv, hacc⟩ := hr
  refine ⟨hacc, hinv, ?_⟩
  rw [← toUInt64_toUInt32 hs] at hinv
  refine (rebuild_accounts hinv).imp ?_
  intro r' hr'
  obtain ⟨hinv', hacc'⟩ := hr'
  refine ⟨hacc', ?_⟩
  intro n hn hnone
  by_cases hfreed : n ∈ freedNodes r'.log
  · exact Or.inl hfreed
  · right
    have hlive : (choices' (r.tree.stableNodeList.idxOf n)).outerStale = false := by
      rw [← Bool.not_eq_true]
      exact fun hs => hfreed (hacc'.stale n hn hs)
    have hhashed := hacc'.hashed n hn hlive
    rw [hnone] at hhashed
    refine ⟨hhashed, ?_⟩
    have hn' : n ∈ r'.tree.stableNodeList := by
      rw [hacc'.list, List.mem_filter]
      exact ⟨hn, decide_eq_true hfreed⟩
    cases hp : (r'.tree.node n).treeNode with
    | none => exact Or.inr (hacc'.leftOut n hn' hp)
    | some i =>
      left
      rw [hinv'.mem_linkedNodes hn', hp]
      rfl

theorem stableTreeDeltaHash_accounts_twoNodes :
    ∃ r, stableTreeDeltaHash (Balancer.plain ℕ) id (fun _ _ => 0) 32 (64 : UInt64).toUInt32
        (fun _ => ⟨false, false, false⟩) twoNodes initialCounters = .ok r ∧
      Accounted id (fun _ _ => 0) 32 (fun _ => ⟨false, false, false⟩) twoNodes r := by
  have hprev : (64 : UInt64).toNat ≤ hashStrengthMax := by decide +kernel
  have hs : (32 : UInt64).toNat ≤ hashStrengthMax := by decide +kernel
  have hquiet : initialCounters.Quiet := rfl
  have hrun : ∀ t, StableInv id (fun _ _ => 0) 64 t → ∃ r,
      stableTreeDeltaHash (Balancer.plain ℕ) id (fun _ _ => 0) 32 (64 : UInt64).toUInt32
        (fun _ => ⟨false, false, false⟩) t initialCounters = .ok r ∧
      Accounted id (fun _ _ => 0) 32 (fun _ => ⟨false, false, false⟩) t r := by
    intro t ht
    refine ((stableTreeDeltaHash_accounts (Balancer.plain ℕ) id (fun _ _ => 0) 64 32 1034 hprev hs
      (fun _ => ⟨false, false, false⟩) (fun _ => ⟨false, true, false⟩) initialCounters
      initialCounters t ht).mono ?_ fun _ hr => hr.1).exists_ok
    intro f hf
    exact hf.2 hquiet
  exact hrun twoNodes ((twoNodes_emptyTrees id _).stableInv 64)

end DirtyPages
