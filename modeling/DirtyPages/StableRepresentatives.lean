import DirtyPages.StableFate
import DirtyPages.StableNodes
import DirtyPages.Lib.Representatives

/-!
# A rebuild chooses representatives

What a rebuild does to the set of linked nodes is the choice of representatives by two keys: the
hash of a node's page at the new strength, and its full-strength hash.  The nodes arrive in the
order of the list; a node found stale is gone, the only node of a tree node may be found stale when
another one arrives there, and `alloc_tree_node` fails when there is no room for a new hash.  The
shape of the trees, the cached hashes and the strength of the old tree play no part in it.

So where no allocation fails and no linked node is found stale, the tree that a rebuild leaves holds
the first node of each pair of hashes, and every stable node shares both hashes with one of them.
-/

namespace DirtyPages

open Outcome SearchTree Representatives

/-- The decisions of the kernel at a visit, as they concern the choice of representatives. -/
def Choice.verdict (choice : Choice) : Verdict :=
  ⟨choice.outerStale, choice.innerStale, choice.allocFails⟩

/-- The nodes of a list as they arrive in a rebuild. -/
def arrivals (choices : ℕ → Choice) (nodes : List ℕ) : List (ℕ × Verdict) :=
  nodes.mapIdx fun j n => (n, (choices j).verdict)

theorem arrivals_concat (choices : ℕ → Choice) (nodes : List ℕ) (x : ℕ) :
    arrivals choices (nodes ++ [x]) =
      arrivals choices nodes ++ [(x, (choices nodes.length).verdict)] := by
  rw [arrivals, List.mapIdx_concat]
  rfl

section

variable (randomNums : RandomNums) (pageAt : ℕ → Page) (s : UInt64)

/-- The choice of representatives that a rebuild at strength `s` amounts to. -/
def StableTree.representatives (t : StableTree) (choices : ℕ → Choice) (nodes : List ℕ) :
    Index ℕ :=
  Index.select (t.hashAt randomNums pageAt s) (t.maxHash randomNums pageAt)
    (arrivals choices nodes)

/-- The node is in a sub-tree of the tree `k`. -/
def StableTree.Linked (t : StableTree) (k : Fin 2) (n : ℕ) : Prop :=
  ∃ i ∈ t.groups k, n ∈ t.members i

end

variable {rb : Balancer ℕ} {randomNums : RandomNums} {pageAt : ℕ → Page} {k : Fin 2} {s : UInt64}
  {base : ℕ} {done : ℕ → Prop} {x : ℕ} {t t₀ : StableTree} {c₀ : Counters} {choice : Choice}
  {choices : ℕ → Choice} {fate : Fate} {visited : List ℕ} {r r' : Rebuild}

/-! ### Linked nodes under the invariant -/

theorem Core.linked_iff (h : Core randomNums pageAt k s base done t) {n : ℕ} :
    t.Linked k n ↔ t.Alive n ∧ done n ∧ (t.node n).treeNode ≠ none := by
  constructor
  · intro hlinked
    obtain ⟨i, hi, hn⟩ := hlinked
    obtain ⟨ha, hd, hp⟩ := h.member i hi n hn
    refine ⟨ha, hd, ?_⟩
    rw [hp]
    exact Option.some_ne_none i
  · intro hlinked
    obtain ⟨ha, hd, hp⟩ := hlinked
    obtain ⟨i, hp⟩ := Option.ne_none_iff_exists'.mp hp
    obtain ⟨hi, hn, _⟩ := h.linked n ha hd i hp
    exact ⟨i, hi, hn⟩

/-- The linked nodes with the hash of a tree node are the nodes of its sub-tree. -/
theorem Core.mem_members_iff (h : Core randomNums pageAt k s base done t) {i n : ℕ}
    (hi : i ∈ t.groups k) :
    n ∈ t.members i ↔ t.Linked k n ∧ t.hashAt randomNums pageAt s n = (t.group i).hash := by
  constructor
  · intro hn
    obtain ⟨ha, hd, hp⟩ := h.member i hi n hn
    exact ⟨⟨i, hi, hn⟩, (h.linked n ha hd i hp).2.2⟩
  · intro hlinked
    obtain ⟨⟨j, hj, hn⟩, hhash⟩ := hlinked
    obtain ⟨ha, hd, hp⟩ := h.member j hj n hn
    have hsame : (t.group j).hash = (t.group i).hash :=
      (h.linked n ha hd j hp).2.2.symm.trans hhash
    -- the tree nodes have different hashes
    have hij : j = i := h.sorted.eq_of_key hj hi (congrArg UInt32.toNat hsame)
    exact hij ▸ hn

theorem Core.members_nodup (h : Core randomNums pageAt k s base done t) {i : ℕ}
    (hi : i ∈ t.groups k) : (t.members i).Nodup := by
  by_cases hlen : 2 ≤ (t.members i).length
  · exact (h.ordered i hi hlen).2.nodup
  · cases hm : t.members i with
    | nil => exact List.nodup_nil
    | cons n ns =>
      rw [hm, List.length_cons] at hlen
      have hns : ns = [] := List.length_eq_zero_iff.mp (by omega)
      rw [hns]
      exact List.nodup_singleton n

/-! ### The walk and the choice side by side -/

/-- Whether a node with this fate is linked. -/
def Fate.joins : Fate → Prop
  | .linked => True
  | .replaced _ => True
  | _ => False

/-- What a node with this fate does to the index. -/
def Fate.onIndex (x : ℕ) (a : Index ℕ) : Fate → Index ℕ
  | .stale => a
  | .linked => a.join x
  | .replaced m => (a.expel m).join x
  | .dropped _ _ => a.leave x

/-- The nodes that are linked after a visit. -/
theorem linked_after (hcore : Core randomNums pageAt k s base done r.tree) (hx : ¬done x)
    (hvisit : Visited randomNums pageAt k s base done x c₀ choice r.tree r.log fate r')
    (hother : ∀ m, fate = .replaced m → m ≠ x) (n : ℕ) :
    r'.tree.Linked k n ↔
      (r.tree.Linked k n ∧ n ∉ fate.freed x) ∨ (n = x ∧ r.tree.Alive x ∧ fate.joins) := by
  rw [hvisit.core.linked_iff, hcore.linked_iff]
  by_cases hn : n = x
  · rw [hn]
    have hnot : ¬((r.tree.Alive x ∧ done x ∧ (r.tree.node x).treeNode ≠ none) ∧
        x ∉ fate.freed x) := fun h => hx h.1.2.1
    have halive := hvisit.alive x
    have hleft := hvisit.leftOut
    constructor
    · intro h
      obtain ⟨ha, _, hp⟩ := h
      refine Or.inr ⟨rfl, (halive.mp ha).2, ?_⟩
      rw [Ne, hleft ha] at hp
      cases fate with
      | stale => exact (halive.mp ha).1 (List.mem_singleton_self x)
      | linked => exact True.intro
      | replaced m => exact True.intro
      | dropped at' why => exact hp ⟨at', why, rfl⟩
    · intro h
      obtain ⟨_, ha, hjoins⟩ := h.resolve_left hnot
      have hself : x ∉ fate.freed x := by
        intro hmem
        cases fate with
        | stale => exact hjoins
        | linked => cases hmem
        | replaced m => exact hother m rfl (List.mem_singleton.mp hmem).symm
        | dropped at' why => cases hmem
      have ha' := halive.mpr ⟨hself, ha⟩
      refine ⟨ha', Or.inr rfl, ?_⟩
      rw [Ne, hleft ha']
      intro hdropped
      obtain ⟨at', why, hfate⟩ := hdropped
      rw [hfate] at hjoins
      exact hjoins
  · have hframe := hvisit.frame.pointer n hn
    rw [hvisit.alive n]
    simp only [hn, or_false, false_and]
    constructor
    · intro h
      obtain ⟨⟨hfreed, ha⟩, hd, hp⟩ := h
      rw [hframe ((hvisit.alive n).mpr ⟨hfreed, ha⟩)] at hp
      exact ⟨⟨ha, hd, hp⟩, hfreed⟩
    · intro h
      obtain ⟨⟨ha, hd, hp⟩, hfreed⟩ := h
      rw [hframe ((hvisit.alive n).mpr ⟨hfreed, ha⟩)]
      exact ⟨⟨hfreed, ha⟩, hd, hp⟩

/-- The index agrees with the walk: the nodes that are there are alive, in the order of their visits,
and the kept ones are linked. -/
structure Simulates (randomNums : RandomNums) (pageAt : ℕ → Page) (k : Fin 2) (s : UInt64)
    (choices : ℕ → Choice) (t₀ : StableTree) (visited : List ℕ) (r : Rebuild) : Prop where
  pages : SamePages t₀ r.tree
  present : (t₀.representatives randomNums pageAt s choices visited).present =
    visited.filter fun n => r.tree.Alive n
  kept : ∀ n, n ∈ (t₀.representatives randomNums pageAt s choices visited).kept ↔
    r.tree.Linked k n

theorem representatives_concat (visited : List ℕ) (x : ℕ) :
    t₀.representatives randomNums pageAt s choices (visited ++ [x]) =
      (t₀.representatives randomNums pageAt s choices visited).offer
        (t₀.hashAt randomNums pageAt s) (t₀.maxHash randomNums pageAt)
        (choices visited.length).verdict x := by
  rw [StableTree.representatives, arrivals_concat, Index.select_concat]
  rfl

theorem representatives_kept_nodup (t₀ : StableTree) (choices : ℕ → Choice) (nodes : List ℕ) :
    (t₀.representatives randomNums pageAt s choices nodes).kept.Nodup :=
  (Index.select_sound _).nodup

section Step

variable (hsim : Simulates randomNums pageAt k s choices t₀ visited r)
  (hcore : Core randomNums pageAt k s base (· ∈ visited) r.tree) (ha : r.tree.Alive x)

include hsim hcore ha

/-- The rivals of `x` are the linked nodes with its hash. -/
theorem Simulates.mem_rivals_iff (n : ℕ) :
    n ∈ (t₀.representatives randomNums pageAt s choices visited).rivals
        (t₀.hashAt randomNums pageAt s) x ↔
      r.tree.Linked k n ∧
        r.tree.hashAt randomNums pageAt s n = r.tree.hashAt randomNums pageAt s x := by
  rw [Index.mem_rivals, hsim.kept, hsim.pages.hashAt ha]
  refine and_congr_right ?_
  intro hlinked
  rw [hsim.pages.hashAt (hcore.linked_iff.mp hlinked).1]

/-- No tree node has the hash of `x`, so it has no rivals. -/
theorem Simulates.rivals_eq_nil
    (hnew : ∀ i ∈ r.tree.groups k, (r.tree.group i).hash ≠ r.tree.hashAt randomNums pageAt s x) :
    (t₀.representatives randomNums pageAt s choices visited).rivals
      (t₀.hashAt randomNums pageAt s) x = [] := by
  rw [List.eq_nil_iff_forall_not_mem]
  intro n hn
  obtain ⟨⟨i, hi, hmem⟩, hhash⟩ := (hsim.mem_rivals_iff hcore ha n).mp hn
  exact hnew i hi (((hcore.mem_members_iff hi).mp hmem).2.symm.trans hhash)

/-- A tree node has the hash of `x`, so its nodes are the rivals. -/
theorem Simulates.rivals_perm {i : ℕ} (hi : i ∈ r.tree.groups k)
    (hhash : (r.tree.group i).hash = r.tree.hashAt randomNums pageAt s x) :
    ((t₀.representatives randomNums pageAt s choices visited).rivals
      (t₀.hashAt randomNums pageAt s) x).Perm (r.tree.members i) := by
  have hnodup : ((t₀.representatives randomNums pageAt s choices visited).rivals
      (t₀.hashAt randomNums pageAt s) x).Nodup :=
    (representatives_kept_nodup t₀ choices visited).filter _
  rw [List.perm_ext_iff_of_nodup hnodup (hcore.members_nodup hi)]
  intro n
  rw [hcore.mem_members_iff hi, hhash]
  exact hsim.mem_rivals_iff hcore ha n

/-- The second keys of the rivals are the full-strength hashes of the nodes of the sub-tree. -/
theorem Simulates.exists_rival_iff {i : ℕ} (hi : i ∈ r.tree.groups k)
    (hhash : (r.tree.group i).hash = r.tree.hashAt randomNums pageAt s x) :
    (∃ m ∈ (t₀.representatives randomNums pageAt s choices visited).rivals
        (t₀.hashAt randomNums pageAt s) x,
      t₀.maxHash randomNums pageAt m = t₀.maxHash randomNums pageAt x) ↔
    ∃ m ∈ r.tree.members i,
      r.tree.maxHash randomNums pageAt m = r.tree.maxHash randomNums pageAt x := by
  refine exists_congr ?_
  intro m
  rw [(hsim.rivals_perm hcore ha hi hhash).mem_iff, hsim.pages.maxHash ha]
  refine and_congr_right ?_
  intro hm
  rw [hsim.pages.maxHash (hcore.member i hi m hm).1]

/-- The index does what the fate of the node says. -/
theorem Simulates.offer (hchoice : choice = choices visited.length)
    (hne : ∀ j ∈ r.tree.groups k, r.tree.members j ≠ [])
    (hvisits : Visits randomNums pageAt k s x choice r.tree fate) :
    t₀.representatives randomNums pageAt s choices (visited ++ [x]) =
      fate.onIndex x (t₀.representatives randomNums pageAt s choices visited) := by
  rw [representatives_concat, ← hchoice]
  cases hstale : choice.outerStale with
  | true =>
    rw [Visits, if_pos hstale] at hvisits
    rw [hvisits]
    exact Index.offer_gone hstale
  | false =>
    rw [Visits, if_neg (by rw [hstale]; exact Bool.false_ne_true)] at hvisits
    have hgone : choice.verdict.gone = false := hstale
    have hthere : ∀ {i : ℕ}, i ∈ r.tree.groups k →
        (r.tree.group i).hash = r.tree.hashAt randomNums pageAt s x →
        (∀ m, r.tree.members i = [m] → choice.innerStale = false) →
        (∃ n, (t₀.representatives randomNums pageAt s choices visited).rivals
          (t₀.hashAt randomNums pageAt s) x = [n]) → choice.verdict.rivalGone = false := by
      intro i hi hhash hlone hone
      obtain ⟨n, hn⟩ := hone
      have hperm := hsim.rivals_perm hcore ha hi hhash
      rw [hn] at hperm
      exact hlone n (List.singleton_perm.mp hperm).symm
    have hsome : ∀ {i : ℕ}, i ∈ r.tree.groups k →
        (r.tree.group i).hash = r.tree.hashAt randomNums pageAt s x →
        (t₀.representatives randomNums pageAt s choices visited).rivals
          (t₀.hashAt randomNums pageAt s) x ≠ [] := by
      intro i hi hhash hnil
      have hperm := hsim.rivals_perm hcore ha hi hhash
      rw [hnil] at hperm
      exact hne i hi (List.nil_perm.mp hperm)
    cases hvisits with
    | opened hnew hroom =>
      rw [Index.offer_alone hgone (hsim.rivals_eq_nil hcore ha hnew)]
      exact if_neg (by simp [Choice.verdict, hroom])
    | refused at' hnew hfails =>
      rw [Index.offer_alone hgone (hsim.rivals_eq_nil hcore ha hnew)]
      exact if_pos hfails
    | replaced i n hi hhash hone hrival =>
      have hperm := hsim.rivals_perm hcore ha hi hhash
      rw [hone] at hperm
      exact Index.offer_rivalGone hgone (List.perm_singleton.mp hperm) hrival
    | collided i n at' hi hhash hlone hn hmax =>
      rw [Index.offer_rivals hgone (hsome hi hhash) (hthere hi hhash hlone)]
      exact if_pos ((hsim.exists_rival_iff hcore ha hi hhash).mpr ⟨n, hn, hmax⟩)
    | joined i hi hhash hlone hmax =>
      rw [Index.offer_rivals hgone (hsome hi hhash) (hthere hi hhash hlone)]
      refine if_neg ?_
      intro hex
      obtain ⟨m, hm, heq⟩ := (hsim.exists_rival_iff hcore ha hi hhash).mp hex
      exact hmax m hm heq

/-- A visit keeps the index in agreement with the walk. -/
theorem Simulates.step (hnodup : visited.Nodup) (hx : x ∉ visited)
    (hne : ∀ j ∈ r.tree.groups k, r.tree.members j ≠ [])
    (hvisits : Visits randomNums pageAt k s x (choices visited.length) r.tree fate)
    (hvisit : Visited randomNums pageAt k s base (· ∈ visited) x c₀ (choices visited.length) r.tree
      r.log fate r') (hpages : SamePages r.tree r'.tree) :
    Simulates randomNums pageAt k s choices t₀ (visited ++ [x]) r' := by
  have hoffer := hsim.offer hcore ha rfl hne hvisits
  have hkept : (t₀.representatives randomNums pageAt s choices visited).kept.Nodup :=
    representatives_kept_nodup t₀ choices visited
  have hother : ∀ m, fate = .replaced m → m ≠ x := by
    intro m hfate heq
    have hfreed := hvisit.alive x
    rw [hfate, Visits] at hvisits
    split_ifs at hvisits
    cases hvisits with
    | replaced i n hi hhash hone hrival =>
      exact hcore.member_ne hx i hi m (by rw [hone]; exact List.mem_singleton_self m) heq
  have hfilter : visited.filter (fun n => r'.tree.Alive n) =
      (visited.filter fun n => r.tree.Alive n).filter fun n => n ∉ fate.freed x := by
    rw [List.filter_filter]
    apply List.filter_congr
    intro n _
    simp only [hvisit.alive n, Bool.decide_and, decide_not]
  have hself : x ∉ fate.freed x → [x].filter (fun n => r'.tree.Alive n) = [x] := by
    intro hfreed
    rw [List.filter_singleton, decide_eq_true ((hvisit.alive x).mpr ⟨hfreed, ha⟩), cond_true]
  have hall : (visited.filter fun n => r.tree.Alive n).filter (fun n => n ∉ ([] : List ℕ)) =
      visited.filter fun n => r.tree.Alive n := by
    rw [List.filter_eq_self]
    intro n _
    exact decide_eq_true List.not_mem_nil
  refine ⟨hsim.pages.trans hpages, ?_, ?_⟩
  · rw [hoffer, List.filter_append, hfilter]
    cases fate with
    | stale =>
      have hgone : ¬r'.tree.Alive x := fun h => ((hvisit.alive x).mp h).1 (List.mem_singleton_self x)
      rw [List.filter_singleton, decide_eq_false hgone, cond_false, List.append_nil, Fate.onIndex,
        hsim.present, eq_comm, List.filter_eq_self]
      intro n hn
      apply decide_eq_true
      intro hnx
      exact hx (List.mem_singleton.mp hnx ▸ (List.mem_filter.mp hn).1)
    | linked =>
      rw [hself List.not_mem_nil, Fate.freed, hall, ← hsim.present]
      rfl
    | replaced m =>
      have hmx : x ∉ [m] := fun hmem => hother m rfl (List.mem_singleton.mp hmem).symm
      rw [hself hmx, ← hsim.present]
      show (t₀.representatives randomNums pageAt s choices visited).present.erase m ++ [x] = _
      rw [hsim.present, (hnodup.filter _).erase_eq_filter]
      congr 1
      apply List.filter_congr
      intro n _
      rw [Bool.eq_iff_iff]
      simp [Fate.freed]
    | dropped at' why =>
      rw [hself List.not_mem_nil, Fate.freed, hall, ← hsim.present]
      rfl
  · intro n
    rw [hoffer, linked_after hcore hx hvisit hother n]
    have hn := hsim.kept n
    cases fate with
    | stale =>
      have hnx : r.tree.Linked k n → n ≠ x := by
        intro hlinked heq
        exact hx (heq ▸ (hcore.linked_iff.mp hlinked).2.1)
      simpa [Fate.onIndex, Fate.freed, Fate.joins, hn] using hnx
    | linked => simp [Fate.onIndex, Fate.freed, Fate.joins, Index.join, hn, ha]
    | replaced m =>
      simp [Fate.onIndex, Fate.freed, Fate.joins, Index.join, Index.expel, hkept.mem_erase_iff, hn,
        ha, and_comm]
    | dropped at' why => simp [Fate.onIndex, Fate.freed, Fate.joins, Index.leave, hn]

end Step

/-! ### Whole rebuilds -/

variable {prev : UInt32}

/-- Two accounts of one visit tell of the same fate. -/
theorem rehashNode_simulates {rest : List ℕ}
    (hwalk : Walking randomNums pageAt k s c₀ t visited (x :: rest) r)
    (hsim : Simulates randomNums pageAt k s choices t₀ visited r)
    (hnodup : t.stableNodeList.Nodup) (halive : ∀ n, n ∈ t.stableNodeList ↔ t.Alive n)
    (hptr : ∀ n ∈ t.stableNodeList, ∀ i, (t.node n).treeNode = some i →
      (t.treeNode i).isSome = true ∧ i < t.nextTreeNode ∧
        t.hashAt randomNums pageAt prev.toUInt64 n = (t.group i).hash) :
    Meets (StopsFrom c₀)
      (fun r' => Walking randomNums pageAt k s c₀ t (visited ++ [x]) rest r' ∧
        Simulates randomNums pageAt k s choices t₀ (visited ++ [x]) r')
      (rehashNode rb randomNums pageAt s prev k (choices visited.length) x r) := by
  have hx := hwalk.not_mem_visited hnodup
  have hmem : x ∈ t.stableNodeList := by
    rw [hwalk.split]
    exact List.mem_append_right _ List.mem_cons_self
  have hsame := hwalk.todo x List.mem_cons_self
  have ha : r.tree.Alive x := by
    rw [StableTree.Alive, hsame]
    exact (halive x).mp hmem
  have hptr' : ∀ i, (r.tree.node x).treeNode = some i → (r.tree.treeNode i).isSome = true ∧
      r.tree.hashAt randomNums pageAt prev.toUInt64 x = (r.tree.group i).hash := by
    intro i hp
    rw [StableTree.node, hsame] at hp
    obtain ⟨hi, hlt, hhash⟩ := hptr x hmem i hp
    rw [hwalk.old i hlt, StableTree.group, hwalk.old i hlt, StableTree.hashAt, StableTree.node,
      hsame]
    exact ⟨hi, hhash⟩
  have hvisited : visited.Nodup := by
    rw [hwalk.split] at hnodup
    exact (List.nodup_append.mp hnodup).1
  refine ((hwalk.visit hnodup halive hptr (choices visited.length)).and
    (rehashNode_ends hwalk.core hx ha hwalk.nonempty hptr')).mono (fun _ hf => hf.1) ?_
  intro r' hr'
  obtain ⟨⟨fate, hvisit⟩, fate', hvisits, hdoes⟩ := hr'
  have hfate : fate = fate' :=
    Fate.visitEvents_injective (List.append_cancel_left (hvisit.log_eq.symm.trans hdoes.log_eq))
  rw [← hfate] at hvisits
  exact ⟨hwalk.step hnodup hvisit,
    hsim.step hwalk.core ha hvisited hx hwalk.nonempty hvisits hvisit hdoes.pages⟩

/-- Before the first visit nothing is linked. -/
theorem simulates_start (t : StableTree) (c : Counters) :
    Simulates randomNums pageAt (t.stableTreeIndex + 1) s choices t [] ⟨startRebuild t, c, []⟩ where
  pages := SamePages.refl t
  present := rfl
  kept n := by
    have hgroups : (startRebuild t).groups (t.stableTreeIndex + 1) = [] := by
      simp only [StableTree.groups, startRebuild, Function.update_self, inorder_nil]
    constructor
    · intro hn
      exact absurd hn List.not_mem_nil
    · intro hn
      obtain ⟨i, hi, _⟩ := hn
      rw [hgroups] at hi
      exact absurd hi List.not_mem_nil

/-- The walk of a rebuild chooses representatives. -/
theorem walk_simulates (h : StableInv randomNums pageAt prev.toUInt64 t) :
    Meets (StopsFrom c₀)
      (fun r => Walking randomNums pageAt (t.stableTreeIndex + 1) s c₀ (startRebuild t)
          t.stableNodeList [] r ∧
        Simulates randomNums pageAt (t.stableTreeIndex + 1) s choices t t.stableNodeList r)
      (walk rb randomNums pageAt s prev (t.stableTreeIndex + 1) t.stableNodeList.length choices
        t.stableNodeList.head? ⟨startRebuild t, c₀, []⟩) := by
  have hchoices : (fun j => choices (([] : List ℕ).length + j)) = choices := by
    funext j
    rw [List.length_nil, Nat.zero_add]
  have hmeets : Meets (StopsFrom c₀)
      (fun r => Walking randomNums pageAt (t.stableTreeIndex + 1) s c₀ (startRebuild t)
          ([] ++ t.stableNodeList) [] r ∧
        Simulates randomNums pageAt (t.stableTreeIndex + 1) s choices t ([] ++ t.stableNodeList) r)
      (walk rb randomNums pageAt s prev (t.stableTreeIndex + 1) t.stableNodeList.length
        (fun j => choices (([] : List ℕ).length + j)) t.stableNodeList.head?
        ⟨startRebuild t, c₀, []⟩) := ?_
  · rw [hchoices] at hmeets
    exact hmeets
  refine walk_meets
    (fun visited rest r => Walking randomNums pageAt (t.stableTreeIndex + 1) s c₀
      (startRebuild t) visited rest r ∧
      Simulates randomNums pageAt (t.stableTreeIndex + 1) s choices t visited r)
    ?_ ?_ [] t.stableNodeList _ ⟨walking_start h, simulates_start t c₀⟩ t.stableNodeList.length
    le_rfl
  · intro visited n rest r hinv
    exact hinv.1.nextEntry h.nodup h.alive
  · intro visited n rest r hinv
    exact rehashNode_simulates hinv.1 hinv.2 h.nodup h.alive fun n hn => h.pointer hn

/-- The linked nodes at the end of the walk are those of the tree that the rebuild leaves. -/
theorem Walking.linkedNodes_finish {freed : List ℕ}
    (hwalk : Walking randomNums pageAt k s c₀ t t.stableNodeList [] r)
    (hfreed : ∀ i ∈ freed, i < t.nextTreeNode) (n : ℕ) :
    n ∈ (finishRebuild k freed r.tree).linkedNodes ↔ r.tree.Linked k n := by
  rw [StableTree.linkedNodes, List.mem_flatMap]
  refine exists_congr ?_
  intro i
  refine and_congr_right ?_
  intro hi
  rw [StableTree.members, finishRebuild_group hfreed (hwalk.core.groupFresh i hi) r.tree,
    StableTree.members]

/-- The nodes that a rebuild leaves and links are those that the choice of representatives leaves
and keeps. -/
theorem stableTreeDeltaHash_simulates (h : StableInv randomNums pageAt prev.toUInt64 t) :
    Meets (StopsFrom c₀)
      (fun r => SamePages t r.tree ∧
        r.tree.stableNodeList =
          (t.representatives randomNums pageAt s choices t.stableNodeList).present ∧
        ∀ n, n ∈ r.tree.linkedNodes ↔
          n ∈ (t.representatives randomNums pageAt s choices t.stableNodeList).kept)
      (stableTreeDeltaHash rb randomNums pageAt s prev choices t c₀) := by
  rw [stableTreeDeltaHash_eq h]
  refine (walk_simulates h).bind ?_
  intro r hr
  obtain ⟨hwalk, hsim⟩ := hr
  have hlistp : r.tree.stableTreeNodeListp = t.stableTreeIndex := hwalk.listp.trans h.listp
  have hfreed : ∀ i ∈ r.tree.stableTreeNodeList r.tree.stableTreeNodeListp, i < t.nextTreeNode :=
    fun i hi => h.freed_lt hlistp (hwalk.otherList _ (index_ne_next t.stableTreeIndex)) hi
  refine ⟨hsim.pages, hwalk.list.trans hsim.present.symm, ?_⟩
  intro n
  rw [hsim.kept]
  exact hwalk.linkedNodes_finish hfreed n

/-- A rebuild is a choice of representatives, whatever the kernel decides at each node: it leaves
the nodes that the choice leaves, links those that it keeps, and changes no page of a node. -/
theorem stableTreeDeltaHash_represents (h : StableInv randomNums pageAt prev.toUInt64 t) :
    Meets (StopsFrom c₀)
      (fun r => StableInv randomNums pageAt s r.tree ∧ SamePages t r.tree ∧
        r.tree.stableNodeList =
          (t.representatives randomNums pageAt s choices t.stableNodeList).present ∧
        r.tree.linkedNodes.Perm
          (t.representatives randomNums pageAt s choices t.stableNodeList).kept)
      (stableTreeDeltaHash rb randomNums pageAt s prev choices t c₀) := by
  refine ((stableTreeDeltaHash_inv h).and (stableTreeDeltaHash_simulates h)).mono
    (fun _ hf => hf.1) ?_
  intro r hr
  obtain ⟨hinv, hpages, hpresent, hkept⟩ := hr
  refine ⟨hinv, hpages, hpresent, ?_⟩
  rw [List.perm_ext_iff_of_nodup hinv.linkedNodes_nodup (representatives_kept_nodup _ _ _)]
  exact hkept

/-- A rebuild refines the choice of representatives by the two hashes of the pages, for every tree,
every strength and whatever the kernel decides at each node. -/
theorem stableTreeDeltaHash_chooses (rb : Balancer ℕ) (randomNums : RandomNums) (pageAt : ℕ → Page)
    (prev s : UInt64) (hprev : prev.toNat ≤ hashStrengthMax) (choices : ℕ → Choice) (c : Counters)
    (t : StableTree) (h : StableInv randomNums pageAt prev t) :
    Meets (StopsFrom c)
      (fun r =>
        let chosen := t.representatives randomNums pageAt s choices t.stableNodeList
        r.tree.stableNodeList = chosen.present ∧ r.tree.linkedNodes.Perm chosen.kept ∧
        ∀ n ∈ r.tree.stableNodeList, (r.tree.node n).kpfn = (t.node n).kpfn)
      (stableTreeDeltaHash rb randomNums pageAt s prev.toUInt32 choices t c) := by
  rw [← toUInt64_toUInt32 hprev] at h
  refine (stableTreeDeltaHash_represents h).imp ?_
  intro r hr
  obtain ⟨hinv, hpages, hpresent, hkept⟩ := hr
  refine ⟨hpresent, hkept, ?_⟩
  intro n hn
  exact (hpages n ((hinv.alive n).mp hn)).2

/-- Two nodes with the same page: the first is found stale when the second arrives. -/
theorem stableTreeDeltaHash_chooses_second :
    ∃ r, stableTreeDeltaHash (Balancer.plain ℕ) id (fun _ _ => 0) 32 (64 : UInt64).toUInt32
        (fun _ => ⟨false, true, false⟩) twoNodes initialCounters = .ok r ∧
      r.tree.stableNodeList = [1] ∧ r.tree.linkedNodes = [1] := by
  have hprev : (64 : UInt64).toNat ≤ hashStrengthMax := by decide +kernel
  have hquiet : initialCounters.Quiet := rfl
  have hchosen : twoNodes.representatives id (fun _ _ => 0) 32 (fun _ => ⟨false, true, false⟩)
      twoNodes.stableNodeList = ⟨[1], [1]⟩ := by decide +kernel
  have hrun : ∀ t, StableInv id (fun _ _ => 0) 64 t →
      t.representatives id (fun _ _ => 0) 32 (fun _ => ⟨false, true, false⟩) t.stableNodeList =
        ⟨[1], [1]⟩ →
      ∃ r, stableTreeDeltaHash (Balancer.plain ℕ) id (fun _ _ => 0) 32 (64 : UInt64).toUInt32
          (fun _ => ⟨false, true, false⟩) t initialCounters = .ok r ∧
        r.tree.stableNodeList = [1] ∧ r.tree.linkedNodes = [1] := by
    intro t ht hchosen
    refine ((stableTreeDeltaHash_chooses (Balancer.plain ℕ) id (fun _ _ => 0) 64 32 hprev
      (fun _ => ⟨false, true, false⟩) initialCounters t ht).mono ?_ ?_).exists_ok
    · intro f hf
      exact hf.2 hquiet
    · intro r hr
      obtain ⟨hpresent, hkept, _⟩ := hr
      rw [hchosen] at hpresent hkept
      exact ⟨hpresent, List.perm_singleton.mp hkept⟩
  exact hrun twoNodes ((twoNodes_emptyTrees id _).stableInv 64) hchosen

/-! ### Runs of rebuilds -/

variable (randomNums pageAt) in
/-- The pair of hashes by which a rebuild at strength `s` tells nodes apart. -/
def StableTree.hashes (t : StableTree) (s : UInt64) (n : ℕ) : UInt32 × UInt32 :=
  (t.hashAt randomNums pageAt s n, t.maxHash randomNums pageAt n)

/-- No linked node is found stale, and no allocation fails. -/
def Round.Clean (round : Round) : Prop :=
  ∀ j, (round.choices j).innerStale = false ∧ (round.choices j).allocFails = false

/-- In a clean round the first node of each pair of hashes is kept. -/
theorem representatives_of_clean {round : Round} (hclean : round.Clean) (t : StableTree)
    (nodes : List ℕ) :
    t.representatives randomNums pageAt s round.choices nodes =
      ⟨Index.arrived (arrivals round.choices nodes),
        firsts (t.hashes randomNums pageAt s) (Index.arrived (arrivals round.choices nodes))⟩ := by
  apply Index.select_eq_firsts
  intro o ho
  obtain ⟨j, hj, rfl⟩ := List.mem_mapIdx.mp ho
  exact hclean j

/-- Where no node is stale, all nodes of the list arrive. -/
theorem arrived_of_live (h : ∀ j, (choices j).outerStale = false) (nodes : List ℕ) :
    Index.arrived (arrivals choices nodes) = nodes := by
  induction nodes using List.reverseRecOn with
  | nil => rfl
  | append_singleton nodes x ih =>
    have hgone : (choices nodes.length).verdict.gone = false := h nodes.length
    rw [arrivals_concat, Index.arrived, List.filter_append, List.map_append]
    show Index.arrived (arrivals choices nodes) ++ _ = _
    rw [ih]
    simp [hgone]

/-- The linked nodes of a tree that a clean round has left. -/
theorem rebuildRounds_last (rb : Balancer ℕ) (rounds : List Round) (last : Round) (hclean : last.Clean)
    {prev : UInt64} (hprev : prev.toNat ≤ hashStrengthMax)
    (hrounds : ∀ round ∈ rounds, round.hashStrength.toNat ≤ hashStrengthMax) {t : StableTree}
    (h : StableInv randomNums pageAt prev t) :
    Meets (fun f => f = .bugOnScanned ∧ ∃ round ∈ rounds ++ [last], ¬round.counters.Quiet)
      (fun u => StableInv randomNums pageAt last.hashStrength u ∧
        u.linkedNodes.Perm
          (firsts (u.hashes randomNums pageAt last.hashStrength) u.stableNodeList))
      (rebuildRounds rb randomNums pageAt prev (rounds ++ [last]) t) := by
  induction rounds generalizing prev t with
  | nil =>
    rw [← toUInt64_toUInt32 hprev] at h
    rw [List.nil_append, rebuildRounds]
    refine ((stableTreeDeltaHash_represents h).mono ?_ fun r hr => hr).bind ?_
    · intro f hf
      exact ⟨hf.1, last, List.mem_cons_self, hf.2⟩
    · intro r hr
      obtain ⟨hinv, hpages, hpresent, hkept⟩ := hr
      refine ⟨hinv, ?_⟩
      rw [representatives_of_clean hclean] at hpresent hkept
      simp only at hpresent hkept
      rw [← hpresent] at hkept
      have hkeys : firsts (t.hashes randomNums pageAt last.hashStrength) r.tree.stableNodeList =
          firsts (r.tree.hashes randomNums pageAt last.hashStrength) r.tree.stableNodeList := by
        apply firsts_congr
        intro n hn
        have ha := (hinv.alive n).mp hn
        rw [StableTree.hashes, StableTree.hashes, hpages.hashAt ha, hpages.maxHash ha]
      rw [hkeys] at hkept
      exact hkept
  | cons round rounds ih =>
    rw [← toUInt64_toUInt32 hprev] at h
    rw [List.cons_append, rebuildRounds]
    refine ((stableTreeDeltaHash_inv h).mono ?_ fun r hr => hr).bind ?_
    · intro f hf
      exact ⟨hf.1, round, List.mem_cons_self, hf.2⟩
    · intro r hr
      refine (ih (hrounds round List.mem_cons_self)
        (fun round' hmem => hrounds round' (List.mem_cons_of_mem round hmem)) hr).mono ?_
        fun u hu => hu
      intro f hf
      obtain ⟨hbug, round', hmem, hbusy⟩ := hf
      exact ⟨hbug, round', List.mem_cons_of_mem round hmem, hbusy⟩

/-- The linked nodes stand in the order of their two hashes. -/
theorem StableInv.linkedNodes_sorted {s : UInt64} (h : StableInv randomNums pageAt s t) :
    t.linkedNodes.Pairwise fun m n =>
      Prod.Lex (· < ·) (· < ·) (t.hashes randomNums pageAt s m) (t.hashes randomNums pageAt s n) := by
  have hhash : ∀ i ∈ t.groups t.rootStableTreep, ∀ n ∈ t.members i,
      t.hashAt randomNums pageAt s n = (t.group i).hash := by
    intro i hi n hn
    obtain ⟨hlist, hp⟩ := h.member i hi n hn
    exact (h.linked n hlist i hp).2.2
  rw [StableTree.linkedNodes, List.pairwise_flatMap]
  constructor
  · intro i hi
    by_cases htwo : 2 ≤ (t.members i).length
    · obtain ⟨hmax, hinc⟩ := h.ordered i hi htwo
      refine List.Pairwise.imp_of_mem ?_ hinc
      intro m n hm hn hlt
      rw [StableTree.hashes, StableTree.hashes, hhash i hi m hm, hhash i hi n hn]
      apply Prod.Lex.right
      rw [StableTree.maxHash, ← (hmax m hm).2, StableTree.maxHash, ← (hmax n hn).2]
      exact UInt32.lt_iff_toNat_lt.mpr hlt
    · cases hm : t.members i with
      | nil => exact List.Pairwise.nil
      | cons n ns =>
        rw [hm, List.length_cons] at htwo
        have hns : ns = [] := List.length_eq_zero_iff.mp (by omega)
        rw [hns]
        exact List.pairwise_singleton _ n
  · refine List.Pairwise.imp_of_mem ?_ h.sorted
    intro i j hi hj hlt m hm n hn
    rw [StableTree.hashes, StableTree.hashes, hhash i hi m hm, hhash j hj n hn]
    exact Prod.Lex.left _ _ (UInt32.lt_iff_toNat_lt.mpr hlt)

/-- Where every stable node shares its hash with a linked one, there is one tree node for each
hash. -/
theorem StableInv.length_groups {s : UInt64} (h : StableInv randomNums pageAt s t)
    (hrep : ∀ n ∈ t.stableNodeList, ∃ m ∈ t.linkedNodes,
      t.hashAt randomNums pageAt s m = t.hashAt randomNums pageAt s n) :
    (t.groups t.rootStableTreep).length =
      (t.stableNodeList.map (t.hashAt randomNums pageAt s)).dedup.length := by
  have hnodup : ((t.groups t.rootStableTreep).map fun i => (t.group i).hash).Nodup := by
    rw [List.nodup_map_iff_inj_on h.sorted.nodup]
    intro i hi j hj heq
    exact h.sorted.eq_of_key hi hj (congrArg UInt32.toNat heq)
  have hlinked : ∀ i ∈ t.groups t.rootStableTreep, ∀ n ∈ t.members i,
      n ∈ t.stableNodeList ∧ t.hashAt randomNums pageAt s n = (t.group i).hash := by
    intro i hi n hn
    obtain ⟨hlist, hp⟩ := h.member i hi n hn
    exact ⟨hlist, (h.linked n hlist i hp).2.2⟩
  rw [← List.length_map fun i => (t.group i).hash]
  refine List.Perm.length_eq ?_
  rw [List.perm_ext_iff_of_nodup hnodup (List.nodup_dedup _)]
  intro hash
  rw [List.mem_dedup, List.mem_map, List.mem_map]
  constructor
  · intro hmem
    obtain ⟨i, hi, hhash⟩ := hmem
    obtain ⟨hcount, hpos⟩ := h.count i hi
    rw [hcount] at hpos
    obtain ⟨n, hn⟩ := List.exists_mem_of_length_pos hpos
    obtain ⟨hlist, hsame⟩ := hlinked i hi n hn
    exact ⟨n, hlist, hsame.trans hhash⟩
  · intro hmem
    obtain ⟨n, hlist, hhash⟩ := hmem
    obtain ⟨m, hm, hsame⟩ := hrep n hlist
    rw [StableTree.linkedNodes, List.mem_flatMap] at hm
    obtain ⟨i, hi, hmi⟩ := hm
    exact ⟨i, hi, (hlinked i hi m hmi).2.symm.trans (hsame.trans hhash)⟩

/-- After any run of rebuilds that ends with a clean one, the tree holds the first stable node of
each pair of hashes: every stable node shares both hashes with exactly one linked node, there are as
many linked nodes as pairs of hashes, and as many tree nodes as hashes. -/
theorem rebuildRounds_firsts (rb : Balancer ℕ) (randomNums : RandomNums) (pageAt : ℕ → Page)
    (rounds : List Round) (last : Round) (hclean : last.Clean) (prev : UInt64)
    (hprev : prev.toNat ≤ hashStrengthMax)
    (hrounds : ∀ round ∈ rounds, round.hashStrength.toNat ≤ hashStrengthMax) (t : StableTree)
    (h : StableInv randomNums pageAt prev t) :
    Meets (fun f => f = .bugOnScanned ∧ ∃ round ∈ rounds ++ [last], ¬round.counters.Quiet)
      (fun u =>
        let hashes := u.hashes randomNums pageAt last.hashStrength
        u.linkedNodes.Perm (firsts hashes u.stableNodeList) ∧
        (∀ n ∈ u.stableNodeList, ∃! m, m ∈ u.linkedNodes ∧ hashes m = hashes n) ∧
        u.linkedNodes.length = (u.stableNodeList.map hashes).dedup.length ∧
        (u.groups u.rootStableTreep).length =
          (u.stableNodeList.map (u.hashAt randomNums pageAt last.hashStrength)).dedup.length)
      (rebuildRounds rb randomNums pageAt prev (rounds ++ [last]) t) := by
  refine (rebuildRounds_last rb rounds last hclean hprev hrounds h).imp ?_
  intro u hu
  obtain ⟨hinv, hperm⟩ := hu
  have hrep : ∀ n ∈ u.stableNodeList, ∃ m ∈ u.linkedNodes,
      u.hashes randomNums pageAt last.hashStrength m =
        u.hashes randomNums pageAt last.hashStrength n := by
    intro n hn
    have hfirst : ∃ m ∈ firsts (u.hashes randomNums pageAt last.hashStrength) u.stableNodeList,
        u.hashes randomNums pageAt last.hashStrength m =
          u.hashes randomNums pageAt last.hashStrength n := exists_mem_firsts hn
    obtain ⟨m, hm, hkey⟩ := hfirst
    exact ⟨m, hperm.mem_iff.mpr hm, hkey⟩
  refine ⟨hperm, ?_, ?_, ?_⟩
  · intro n hn
    obtain ⟨m, hm, hkey⟩ := hrep n hn
    refine ⟨m, ⟨hm, hkey⟩, ?_⟩
    intro m' hm'
    have hnodup : ((firsts (u.hashes randomNums pageAt last.hashStrength) u.stableNodeList).map
        (u.hashes randomNums pageAt last.hashStrength)).Nodup := nodup_map_firsts _
    exact List.inj_on_of_nodup_map hnodup (hperm.mem_iff.mp hm'.1) (hperm.mem_iff.mp hm)
      (hm'.2.trans hkey.symm)
  · rw [hperm.length_eq, length_firsts]
  · refine hinv.length_groups ?_
    intro n hn
    obtain ⟨m, hm, hkey⟩ := hrep n hn
    exact ⟨m, hm, congrArg Prod.fst hkey⟩

/-- No node is found stale in a round, and no allocation fails. -/
def Round.Settled (round : Round) : Prop := ∀ j, round.choices j = ⟨false, false, false⟩

theorem Round.Settled.clean {round : Round} (h : round.Settled) : round.Clean := by
  intro j
  rw [h j]
  exact ⟨rfl, rfl⟩

/-- In settled rounds the list of stable nodes and their pages stay as they are. -/
theorem rebuildRounds_settled (rb : Balancer ℕ) (rounds : List Round) {prev : UInt64}
    (hprev : prev.toNat ≤ hashStrengthMax)
    (hrounds : ∀ round ∈ rounds, round.hashStrength.toNat ≤ hashStrengthMax ∧
      round.counters.Quiet ∧ round.Settled) {t : StableTree}
    (h : StableInv randomNums pageAt prev t) :
    Meets (fun _ => False)
      (fun u => u.stableNodeList = t.stableNodeList ∧
        ∀ n ∈ t.stableNodeList, (u.node n).kpfn = (t.node n).kpfn)
      (rebuildRounds rb randomNums pageAt prev rounds t) := by
  induction rounds generalizing prev t with
  | nil => exact ⟨rfl, fun _ _ => rfl⟩
  | cons round rounds ih =>
    obtain ⟨hs, hquiet, hsettled⟩ := hrounds round List.mem_cons_self
    rw [← toUInt64_toUInt32 hprev] at h
    rw [rebuildRounds]
    refine ((stableTreeDeltaHash_represents h).mono ?_ fun r hr => hr).bind ?_
    · intro f hf
      exact hf.2 hquiet
    · intro r hr
      obtain ⟨hinv, hpages, hpresent, _⟩ := hr
      have hlist : r.tree.stableNodeList = t.stableNodeList := by
        rw [hpresent, representatives_of_clean hsettled.clean]
        apply arrived_of_live
        intro j
        rw [hsettled j]
      refine (ih hs (fun round' hmem => hrounds round' (List.mem_cons_of_mem round hmem)) hinv).imp ?_
      intro u hu
      obtain ⟨hlist', hkpfn⟩ := hu
      refine ⟨hlist'.trans hlist, ?_⟩
      intro n hn
      rw [← hlist] at hn
      exact (hkpfn n hn).trans (hpages n ((hinv.alive n).mp hn)).2

/-- Up to the full strength and down again, with nothing stale. -/
def upThenDown : List Round :=
  [⟨1034, fun _ => ⟨false, false, false⟩, initialCounters⟩] ++
    [⟨32, fun _ => ⟨false, false, false⟩, initialCounters⟩]

theorem upThenDown_settled : ∀ round ∈ upThenDown,
    round.hashStrength.toNat ≤ hashStrengthMax ∧ round.counters.Quiet ∧ round.Settled := by
  intro round hmem
  simp only [upThenDown, List.cons_append, List.nil_append, List.mem_cons, List.not_mem_nil,
    or_false] at hmem
  rcases hmem with hround | hround
  · rw [hround]
    exact ⟨by decide +kernel, rfl, fun _ => rfl⟩
  · rw [hround]
    exact ⟨by decide +kernel, rfl, fun _ => rfl⟩

theorem rebuildRounds_firsts_upThenDown :
    ∃ u, rebuildRounds (Balancer.plain ℕ) id (fun _ _ => 0) 64 upThenDown twoNodes = .ok u ∧
      u.linkedNodes.length =
        (u.stableNodeList.map (u.hashes id (fun _ _ => 0) 32)).dedup.length := by
  have hprev : (64 : UInt64).toNat ≤ hashStrengthMax := by decide +kernel
  have hrun : ∀ t, StableInv id (fun _ _ => 0) 64 t →
      ∃ u, rebuildRounds (Balancer.plain ℕ) id (fun _ _ => 0) 64 upThenDown t = .ok u ∧
        u.linkedNodes.length =
          (u.stableNodeList.map (u.hashes id (fun _ _ => 0) 32)).dedup.length := by
    intro t ht
    refine ((rebuildRounds_firsts (Balancer.plain ℕ) id (fun _ _ => 0)
      [⟨1034, fun _ => ⟨false, false, false⟩, initialCounters⟩]
      ⟨32, fun _ => ⟨false, false, false⟩, initialCounters⟩ (fun _ => ⟨rfl, rfl⟩) 64 hprev
      (fun round hmem => (upThenDown_settled round (List.mem_append_left _ hmem)).1) t ht).mono ?_
      fun u hu => hu.2.2.1).exists_ok
    intro f hf
    obtain ⟨_, round, hmem, hbusy⟩ := hf
    exact hbusy (upThenDown_settled round hmem).2.1
  exact hrun twoNodes ((twoNodes_emptyTrees id _).stableInv 64)

/-- Which nodes are linked, and in which order, does not depend on the history: two runs of
rebuilds that end with clean ones at the same strength and with the same list of stable nodes, on
the same pages, link the same nodes in the same order, whatever their strengths before, their
balancing, their trees at the start and the decisions of the kernel on the way. -/
theorem rebuildRounds_canonical (rb rb' : Balancer ℕ) (randomNums : RandomNums) (pageAt : ℕ → Page)
    (rounds rounds' : List Round) (last last' : Round) (hclean : last.Clean)
    (hclean' : last'.Clean) (hsame : last.hashStrength = last'.hashStrength) (prev prev' : UInt64)
    (hprev : prev.toNat ≤ hashStrengthMax) (hprev' : prev'.toNat ≤ hashStrengthMax)
    (hrounds : ∀ round ∈ rounds ++ rounds', round.hashStrength.toNat ≤ hashStrengthMax)
    (t t' u u' : StableTree) (h : StableInv randomNums pageAt prev t)
    (h' : StableInv randomNums pageAt prev' t')
    (hrun : rebuildRounds rb randomNums pageAt prev (rounds ++ [last]) t = .ok u)
    (hrun' : rebuildRounds rb' randomNums pageAt prev' (rounds' ++ [last']) t' = .ok u')
    (hlist : u.stableNodeList = u'.stableNodeList)
    (hpages : ∀ n ∈ u.stableNodeList, (u.node n).kpfn = (u'.node n).kpfn) :
    u.linkedNodes = u'.linkedNodes := by
  obtain ⟨hinv, hperm⟩ := (rebuildRounds_last rb rounds last hclean hprev
    (fun round hmem => hrounds round (List.mem_append_left _ hmem)) h).of_ok hrun
  obtain ⟨hinv', hperm'⟩ := (rebuildRounds_last rb' rounds' last' hclean' hprev'
    (fun round hmem => hrounds round (List.mem_append_right _ hmem)) h').of_ok hrun'
  rw [← hsame] at hinv' hperm'
  have hhashes : ∀ n ∈ u.stableNodeList, u.hashes randomNums pageAt last.hashStrength n =
      u'.hashes randomNums pageAt last.hashStrength n := by
    intro n hn
    simp only [StableTree.hashes, StableTree.hashAt, StableTree.maxHash, hpages n hn]
  rw [← hlist, ← firsts_congr hhashes] at hperm'
  have hboth : u.linkedNodes.Perm u'.linkedNodes := hperm.trans hperm'.symm
  have hmem : ∀ n ∈ u'.linkedNodes, n ∈ u.stableNodeList :=
    fun n hn => firsts_subset _ (hperm'.mem_iff.mp hn)
  have hsorted' : u'.linkedNodes.Pairwise fun m n => Prod.Lex (· < ·) (· < ·)
      (u.hashes randomNums pageAt last.hashStrength m)
      (u.hashes randomNums pageAt last.hashStrength n) := by
    refine List.Pairwise.imp_of_mem ?_ hinv'.linkedNodes_sorted
    intro m n hm hn hlex
    rw [hhashes m (hmem m hm), hhashes n (hmem n hn)]
    exact hlex
  -- a list in strict order is determined by its members
  refine List.Perm.eq_of_pairwise ?_ hinv.linkedNodes_sorted hsorted' hboth
  intro m n _ _ hmn hnm
  exact absurd hnm (asymm hmn)

/-- Straight down, and up and down again, to the same strength. -/
theorem rebuildRounds_canonical_upThenDown :
    ∃ u u', rebuildRounds (Balancer.plain ℕ) id (fun _ _ => 0) 64
        ([] ++ [⟨32, fun _ => ⟨false, false, false⟩, initialCounters⟩]) twoNodes = .ok u ∧
      rebuildRounds (Balancer.plain ℕ) id (fun _ _ => 0) 512 upThenDown twoNodes = .ok u' ∧
      u.linkedNodes = u'.linkedNodes := by
  have hprev : (64 : UInt64).toNat ≤ hashStrengthMax := by decide +kernel
  have hprev' : (512 : UInt64).toNat ≤ hashStrengthMax := by decide +kernel
  have hrun : ∀ t, StableInv id (fun _ _ => 0) 64 t → StableInv id (fun _ _ => 0) 512 t →
      ∃ u u', rebuildRounds (Balancer.plain ℕ) id (fun _ _ => 0) 64
          ([] ++ [⟨32, fun _ => ⟨false, false, false⟩, initialCounters⟩]) t = .ok u ∧
        rebuildRounds (Balancer.plain ℕ) id (fun _ _ => 0) 512 upThenDown t = .ok u' ∧
        u.linkedNodes = u'.linkedNodes := by
    intro t ht ht'
    have hdown : ∀ round ∈ [] ++ [⟨32, fun _ => ⟨false, false, false⟩, initialCounters⟩],
        round ∈ upThenDown := fun round hmem => List.mem_append_right _ hmem
    obtain ⟨u, hu, hlist, hpages⟩ := (rebuildRounds_settled (Balancer.plain ℕ) _ hprev
      (fun round hmem => upThenDown_settled round (hdown round hmem)) ht).exists_ok
    obtain ⟨u', hu', hlist', hpages'⟩ := (rebuildRounds_settled (Balancer.plain ℕ) _ hprev'
      upThenDown_settled ht').exists_ok
    refine ⟨u, u', hu, hu', ?_⟩
    refine rebuildRounds_canonical (Balancer.plain ℕ) (Balancer.plain ℕ) id (fun _ _ => 0) []
      [⟨1034, fun _ => ⟨false, false, false⟩, initialCounters⟩]
      ⟨32, fun _ => ⟨false, false, false⟩, initialCounters⟩
      ⟨32, fun _ => ⟨false, false, false⟩, initialCounters⟩ (fun _ => ⟨rfl, rfl⟩)
      (fun _ => ⟨rfl, rfl⟩) rfl 64 512 hprev hprev'
      (fun round hmem => (upThenDown_settled round (List.mem_append_left _ hmem)).1) t t u u' ht ht'
      hu hu' (hlist.trans hlist'.symm) ?_
    intro n hn
    rw [hlist] at hn
    exact (hpages n hn).trans (hpages' n hn).symm
  exact hrun twoNodes ((twoNodes_emptyTrees id _).stableInv 64)
    ((twoNodes_emptyTrees id _).stableInv 512)

end DirtyPages
