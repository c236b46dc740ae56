import DirtyPages.StableWalk
import DirtyPages.StableLookup

/-!
# Which fate a visit picks

The lemmas about the invariant say that every visit ends with some fate of its node.  Here the fate
is determined: by the tree nodes, the pages of the stable nodes and the decisions of the kernel at
this visit, and by nothing else that the tree holds, such as the shape of a sub-tree or the hashes
that are cached in it.  A visit says in the log which fate it picked, and no step of it changes the
page of a node.
-/

namespace DirtyPages

open Outcome SearchTree

/-! ### Pages of the nodes -/

/-- The stable nodes are among those of `t` and have the same pages. -/
def SamePages (t t' : StableTree) : Prop :=
  ∀ n, t'.Alive n → t.Alive n ∧ (t'.node n).kpfn = (t.node n).kpfn

section

variable {t t' t'' : StableTree} {n : ℕ}

theorem SamePages.refl (t : StableTree) : SamePages t t := fun _ hn => ⟨hn, rfl⟩

theorem SamePages.trans (h : SamePages t t') (h' : SamePages t' t'') : SamePages t t'' := by
  intro n hn
  obtain ⟨hn', hkpfn'⟩ := h' n hn
  obtain ⟨ha, hkpfn⟩ := h n hn'
  exact ⟨ha, hkpfn'.trans hkpfn⟩

/-- Writing to a node that is there, without changing its page. -/
theorem samePages_set {node x : StableNode} (hnode : t.stableNode n = some node)
    (hx : x.kpfn = node.kpfn) : SamePages t (setStableNode n x t) := by
  have ha : t.Alive n := by
    rw [StableTree.Alive, hnode]
    rfl
  intro m hm
  rw [setStableNode_alive_of ha] at hm
  refine ⟨hm, ?_⟩
  rw [setStableNode_node]
  split_ifs with hmn
  · rw [hx, hmn, StableTree.node, hnode]
    rfl
  · rfl

theorem samePages_free (n : ℕ) (t : StableTree) : SamePages t (freeStableNode n t) := by
  intro m hm
  rw [freeStableNode_alive] at hm
  rw [freeStableNode_node n t hm.1]
  exact ⟨hm.2, rfl⟩

section Hashes

variable {randomNums : RandomNums} {pageAt : ℕ → Page} {s : UInt64}

theorem SamePages.hashAt (h : SamePages t t') (hn : t'.Alive n) :
    t'.hashAt randomNums pageAt s n = t.hashAt randomNums pageAt s n := by
  rw [StableTree.hashAt, (h n hn).2, StableTree.hashAt]

theorem SamePages.maxHash (h : SamePages t t') (hn : t'.Alive n) :
    t'.maxHash randomNums pageAt n = t.maxHash randomNums pageAt n := by
  rw [StableTree.maxHash, (h n hn).2, StableTree.maxHash]

end Hashes

end

/-! ### What a step of a rebuild records -/

/-- The step records `events` and changes no page of a node. -/
structure Does (events : List Event) (r r' : Rebuild) : Prop where
  log_eq : r'.log = r.log ++ events
  pages : SamePages r.tree r'.tree

section Steps

variable {rb : Balancer ℕ} {randomNums : RandomNums} {pageAt : ℕ → Page} {k : Fin 2} {s : UInt64}
  {base : ℕ} {done : ℕ → Prop} {x : ℕ} {c₀ : Counters} {choice : Choice} {r r₁ r' : Rebuild}

theorem Does.trans {events events' : List Event} (h : Does events r r₁) (h' : Does events' r₁ r') :
    Does (events ++ events') r r' where
  log_eq := by rw [h'.log_eq, h.log_eq, List.append_assoc]
  pages := h.pages.trans h'.pages

theorem addNode_does (i : ℕ) (path : List Side) (r : Rebuild) :
    Meets (fun _ => True) (Does [.linked x] r) (addNode rb x i path r) := by
  refine (meets_any _).bind ?_
  intro tn _
  refine getStableNode_some.bind ?_
  intro node hnode
  exact meets_pure.mpr ⟨rfl, samePages_set (t := setTreeNode i _ r.tree) hnode rfl⟩

theorem leaveOut_does (why : DropReason) (r : Rebuild) :
    Meets (fun _ => True) (Does [.dropped x r.tree why] r) (leaveOut x why r) := by
  refine getStableNode_some.bind ?_
  intro node hnode
  exact meets_pure.mpr ⟨rfl, samePages_set hnode rfl⟩

theorem samePages_withHashMax {t : StableTree} {n : ℕ} (ha : t.Alive n) :
    SamePages t (t.withHashMax randomNums pageAt n) := by
  intro m hm
  rw [withHashMax_alive ha] at hm
  exact ⟨hm, withHashMax_kpfn n m⟩

/-! ### Which fate an insertion picks -/

variable (randomNums pageAt) in
/-- The fate of `x`, when it arrives at the tree `t` with a hash: no tree node has the hash, or one
has it, and then its only node may be stale, and otherwise the full-strength hashes decide. -/
inductive Picked (choice : Choice) (t : StableTree) (k : Fin 2) (hash : UInt32) (x : ℕ) :
    Fate → Prop
  | opened (hnew : ∀ i ∈ t.groups k, (t.group i).hash ≠ hash) (hroom : choice.allocFails = false) :
      Picked choice t k hash x .linked
  | refused (at' : StableTree) (hnew : ∀ i ∈ t.groups k, (t.group i).hash ≠ hash)
      (hfails : choice.allocFails = true) : Picked choice t k hash x (.dropped at' .allocFailed)
  | replaced (i n : ℕ) (hi : i ∈ t.groups k) (hhash : (t.group i).hash = hash)
      (hone : t.members i = [n]) (hstale : choice.innerStale = true) :
      Picked choice t k hash x (.replaced n)
  | collided (i n : ℕ) (at' : StableTree) (hi : i ∈ t.groups k) (hhash : (t.group i).hash = hash)
      (hthere : ∀ m, t.members i = [m] → choice.innerStale = false) (hn : n ∈ t.members i)
      (hmax : t.maxHash randomNums pageAt n = t.maxHash randomNums pageAt x) :
      Picked choice t k hash x (.dropped at' (.collided n))
  | joined (i : ℕ) (hi : i ∈ t.groups k) (hhash : (t.group i).hash = hash)
      (hthere : ∀ m, t.members i = [m] → choice.innerStale = false)
      (hmax : ∀ n ∈ t.members i,
        t.maxHash randomNums pageAt n ≠ t.maxHash randomNums pageAt x) :
      Picked choice t k hash x .linked

variable (randomNums pageAt k x choice) in
/-- An insertion of `x` that began in `r` has ended as the tree of `r` and the choice tell. -/
def Ends (hash : UInt32) (r r' : Rebuild) : Prop :=
  ∃ fate, Picked randomNums pageAt choice r.tree k hash x fate ∧ Does (fate.insertEvents x) r r'

variable {hash : UInt32}

theorem addNode_ends {i : ℕ} {path : List Side} (hdoes : Does [] r r₁)
    (hpicked : Picked randomNums pageAt choice r.tree k hash x .linked) :
    Meets (fun _ => True) (Ends randomNums pageAt k x choice hash r) (addNode rb x i path r₁) := by
  refine (addNode_does i path r₁).imp ?_
  intro r' h
  exact ⟨.linked, hpicked, hdoes.trans h⟩

theorem leaveOut_ends {why : DropReason} (hdoes : Does [] r r₁)
    (hpicked : Picked randomNums pageAt choice r.tree k hash x (.dropped r₁.tree why)) :
    Meets (fun _ => True) (Ends randomNums pageAt k x choice hash r) (leaveOut x why r₁) := by
  refine (leaveOut_does why r₁).imp ?_
  intro r' h
  exact ⟨.dropped r₁.tree why, hpicked, hdoes.trans h⟩

/-- A full-strength hash that is there is the one of the page, as the insertion found it. -/
theorem hashMax_eq {n : ℕ} (hcore : Core randomNums pageAt k s base done r₁.tree)
    (hpages : SamePages r.tree r₁.tree) (ha : r₁.tree.Alive n)
    (hmax : (r₁.tree.node n).hashMax ≠ 0) :
    (r₁.tree.node n).hashMax = r.tree.maxHash randomNums pageAt n :=
  ((hcore.genuine n ha).resolve_left hmax).trans (hpages.maxHash ha)

/-- The node already there is alive: the full-strength hashes decide. -/
theorem compare_ends {i n : ℕ} (hcore : Core randomNums pageAt k s base done r₁.tree)
    (hdoes : Does [] r r₁) (hi : i ∈ r.tree.groups k) (hhash : (r.tree.group i).hash = hash)
    (hone : r.tree.members i = [n]) (hthere : choice.innerStale = false)
    (hx : r₁.tree.Alive x) (hn : r₁.tree.Alive n) (hmax : (r₁.tree.node x).hashMax ≠ 0)
    (hmaxn : (r₁.tree.node n).hashMax ≠ 0) :
    Meets (fun _ => True) (Ends randomNums pageAt k x choice hash r)
      (do
        let new ← getStableNode x r₁.tree
        let old ← getStableNode n r₁.tree
        match hashCmp new.hashMax old.hashMax with
        | .lt => addNode rb x i [.left] r₁
        | .gt => addNode rb x i [.right] r₁
        | .eq => leaveOut x (.collided n) r₁) := by
  have hmaxx := hashMax_eq hcore hdoes.pages hx hmax
  have hmaxn' := hashMax_eq hcore hdoes.pages hn hmaxn
  rw [getStableNode_eq hx, getStableNode_eq hn]
  show Meets _ _ (match hashCmp (r₁.tree.node x).hashMax (r₁.tree.node n).hashMax with
    | .lt => addNode rb x i [.left] r₁
    | .gt => addNode rb x i [.right] r₁
    | .eq => leaveOut x (.collided n) r₁)
  have hlone : ∀ m, r.tree.members i = [m] → choice.innerStale = false := fun _ _ => hthere
  have hjoined : (r₁.tree.node x).hashMax ≠ (r₁.tree.node n).hashMax →
      Picked randomNums pageAt choice r.tree k hash x .linked := by
    intro hne
    refine Picked.joined i hi hhash hlone ?_
    intro m hm
    rw [hone, List.mem_singleton] at hm
    rw [hm, ← hmaxx, ← hmaxn']
    exact Ne.symm hne
  cases hcmp : hashCmp (r₁.tree.node x).hashMax (r₁.tree.node n).hashMax with
  | lt =>
    apply addNode_ends hdoes
    apply hjoined
    intro heq
    have hlt := hashCmp_lt hcmp
    rw [heq] at hlt
    exact lt_irrefl _ hlt
  | gt =>
    apply addNode_ends hdoes
    apply hjoined
    intro heq
    have hgt := hashCmp_gt hcmp
    rw [heq] at hgt
    exact lt_irrefl _ hgt
  | eq =>
    apply leaveOut_ends hdoes
    refine Picked.collided i n r₁.tree hi hhash hlone ?_ ?_
    · rw [hone]
      exact List.mem_singleton_self n
    · rw [← hmaxx, ← hmaxn']
      exact hashCmp_eq hcmp

/-- The node already there is found stale: `x` takes over its tree node. -/
theorem replace_ends {i n : ℕ} (hdoes : Does [] r r₁) (hi : i ∈ r.tree.groups k)
    (hhash : (r.tree.group i).hash = hash) (hone : r.tree.members i = [n])
    (hstale : choice.innerStale = true) (sharing : Sharing) :
    Meets (fun _ => True) (Ends randomNums pageAt k x choice hash r)
      (addNode rb x i [] (({ r₁ with
          tree := freeStableNode n (setSubRoot i .nil 0 { r₁.tree with sharing := sharing })
        }.note (.stale n)).note (.freed n))) := by
  refine (addNode_does i [] _).imp ?_
  intro r' h
  refine ⟨.replaced n, Picked.replaced i n hi hhash hone hstale, ?_⟩
  have hlog := hdoes.log_eq
  rw [List.append_nil] at hlog
  have hfree : SamePages r₁.tree
      (freeStableNode n (setSubRoot i .nil 0 { r₁.tree with sharing := sharing })) :=
    samePages_free n (setSubRoot i .nil 0 { r₁.tree with sharing := sharing })
  refine ⟨?_, hdoes.pages.trans (hfree.trans h.pages)⟩
  rw [h.log_eq]
  show r₁.log ++ [.stale n] ++ [.freed n] ++ [.linked x] =
    r.log ++ [.stale n, .freed n, .linked x]
  rw [hlog]
  simp

/-- The tree node with the hash of `x` holds one node. -/
theorem insertBesideOne_ends {i n : ℕ}
    (hcore : Core randomNums pageAt k s base done r₁.tree) (hx : ¬done x)
    (hdoes : Does [] r r₁) (hself : r₁.tree.Alive x)
    (hi : i ∈ r₁.tree.groups k) (hone : r₁.tree.members i = [n])
    (hhash : r₁.tree.hashAt randomNums pageAt s x = (r₁.tree.group i).hash)
    (hmax : (r₁.tree.node x).hashMax ≠ 0) (hgroups : r₁.tree.groups k = r.tree.groups k)
    (hgroup : ∀ j, r₁.tree.group j = r.tree.group j) :
    Meets (fun _ => True)
      (Ends randomNums pageAt k x choice (r₁.tree.hashAt randomNums pageAt s x) r)
      (insertBesideOne rb randomNums pageAt s choice x i (r₁.tree.hashAt randomNums pageAt s x)
        (r₁.tree.group i) r₁) := by
  obtain ⟨han, hdn, hptr⟩ := hcore.member i hi n (by rw [hone]; simp)
  have hnx : n ≠ x := fun heq => hx (heq ▸ hdn)
  have hleaf := eq_leaf_of_inorder (show inorder (r₁.tree.group i).subRoot = [n] from hone)
  have hi' : i ∈ r.tree.groups k := hgroups ▸ hi
  have hone' : r.tree.members i = [n] := by
    rw [StableTree.members, ← hgroup i]
    exact hone
  have hhash' : (r.tree.group i).hash = r₁.tree.hashAt randomNums pageAt s x := by
    rw [← hgroup i]
    exact hhash.symm
  rw [insertBesideOne, insertBesideOneWith, hleaf, visit_inner]
  cases hstale : choice.innerStale with
  | true =>
    show Meets _ _ (getUksmPage rb true n true false r₁ >>= _)
    rw [getUksmPage_stale han (removeNode_linked hcore hi hone)]
    exact replace_ends hdoes hi' hhash' hone' hstale _
  | false =>
    show Meets _ _ (getUksmPage rb false n true false r₁ >>= _)
    rw [getUksmPage_live han]
    have hhashn : r₁.tree.hashAt randomNums pageAt s x =
        (takePage (r₁.tree.node n).kpfn r₁.tree).hashAt randomNums pageAt s n :=
      hhash.trans (hcore.linked n han hdn i hptr).2.2.symm
    have hfill : Meets (StopsFrom r₁.counters) _ (stableNodeHashMax randomNums s n
        (pageAt (r₁.tree.node n).kpfn) (r₁.tree.hashAt randomNums pageAt s x)
        { r₁ with tree := takePage (r₁.tree.node n).kpfn r₁.tree }) :=
      stableNodeHashMax_stops han hhashn fun h => h
    refine (hfill.mono (fun _ _ => True.intro) fun _ h => h).bind ?_
    intro r₂ hr₂
    obtain ⟨htree, hlog, _⟩ := hr₂
    have hput : putPage (r₁.tree.node n).kpfn r₂.tree =
        r₁.tree.withHashMax randomNums pageAt n := by
      rw [htree, withHashMax_takePage, putPage_takePage]
    have hdoes' : Does [] r { r₂ with tree := putPage (r₁.tree.node n).kpfn r₂.tree } := by
      refine ⟨hlog.trans hdoes.log_eq, hdoes.pages.trans ?_⟩
      rw [hput]
      exact samePages_withHashMax han
    refine compare_ends (?_ : Core randomNums pageAt k s base done _) hdoes' hi' hhash' hone'
      hstale ?_ ?_ ?_ ?_
    all_goals simp only [hput]
    · exact core_withHashMax hcore han
    · exact (withHashMax_alive han x).mpr hself
    · exact (withHashMax_alive han n).mpr han
    · rw [withHashMax_other (Ne.symm hnx)]
      exact hmax
    · exact withHashMax_hashMax_ne_zero n

/-- The tree node with the hash of `x` holds several nodes. -/
theorem insertBySearch_ends {i : ℕ} (hcore : Core randomNums pageAt k s base done r₁.tree)
    (hdoes : Does [] r r₁) (hself : r₁.tree.Alive x) (hi : i ∈ r₁.tree.groups k)
    (htwo : 2 ≤ (r₁.tree.members i).length) (hhash : hash = (r₁.tree.group i).hash)
    (hmax : (r₁.tree.node x).hashMax ≠ 0) (hgroups : r₁.tree.groups k = r.tree.groups k)
    (hgroup : ∀ j, r₁.tree.group j = r.tree.group j) :
    Meets (fun _ => True) (Ends randomNums pageAt k x choice hash r)
      (insertBySearch rb x i (r₁.tree.group i) r₁) := by
  obtain ⟨hnonzero, hinc⟩ := hcore.ordered i hi htwo
  have hmembers : r.tree.members i = r₁.tree.members i := by
    rw [StableTree.members, ← hgroup i, StableTree.members]
  have hi' : i ∈ r.tree.groups k := hgroups ▸ hi
  have hhash' : (r.tree.group i).hash = hash := by
    rw [← hgroup i]
    exact hhash.symm
  have hmaxx := hashMax_eq hcore hdoes.pages hself hmax
  have hmaxn : ∀ n ∈ r₁.tree.members i,
      (r₁.tree.node n).hashMax = r.tree.maxHash randomNums pageAt n :=
    fun n hn => hashMax_eq hcore hdoes.pages (hcore.member i hi n hn).1 (hnonzero n hn)
  have hlone : ∀ m, r.tree.members i = [m] → choice.innerStale = false := by
    intro m hm
    rw [← hmembers, hm, List.length_singleton] at htwo
    omega
  have hroot : (r₁.tree.group i).subRoot ≠ .nil := by
    intro hnil
    rw [StableTree.members, hnil, inorder_nil, List.length_nil] at htwo
    omega
  rw [insertBySearch, if_neg hroot, getStableNode_eq hself]
  show Meets _ _ (descend (fun n => (fun node => hashCmp (r₁.tree.node x).hashMax node.hashMax) <$>
    getStableNode n r₁.tree) (r₁.tree.group i).subRoot >>= _)
  have hcmp : ∀ n ∈ r₁.tree.members i, Compares (fun n => (r₁.tree.node n).hashMax.toNat)
      (r₁.tree.node x).hashMax.toNat (fun n =>
        (fun node => hashCmp (r₁.tree.node x).hashMax node.hashMax) <$>
          getStableNode n r₁.tree) n := by
    intro n hn
    apply hashCmp_compares
    rw [getStableNode_eq (hcore.member i hi n hn).1]
    rfl
  obtain ⟨⟨path, found⟩, hrun, hloc⟩ := descend_located hinc hcmp
  rw [hrun]
  cases found with
  | some n =>
    obtain ⟨hn, hkey⟩ := hloc
    apply leaveOut_ends hdoes
    refine Picked.collided i n r₁.tree hi' hhash' hlone (hmembers ▸ hn) ?_
    rw [← hmaxn n hn, ← hmaxx]
    exact UInt32.toNat_inj.mp hkey
  | none =>
    obtain ⟨before, after, hsplit, hbefore, hafter, _⟩ := hloc
    apply addNode_ends hdoes
    refine Picked.joined i hi' hhash' hlone ?_
    intro n hn heq
    rw [hmembers] at hn
    rw [← hmaxn n hn, ← hmaxx] at heq
    -- the search ended between the smaller and the larger full-strength hashes
    rw [show r₁.tree.members i = before ++ after from hsplit, List.mem_append] at hn
    have hkey := congrArg UInt32.toNat heq
    cases hn with
    | inl hb => exact absurd hkey (Nat.ne_of_lt (hbefore n hb))
    | inr haft => exact absurd hkey (Nat.ne_of_gt (hafter n haft))

/-- A tree node with the hash of `x` is there. -/
theorem existing_ends {i : ℕ} (hcore : Core randomNums pageAt k s base done r.tree) (hx : ¬done x)
    (ha : r.tree.Alive x) (hne : r.tree.members i ≠ []) (hi : i ∈ r.tree.groups k)
    (hhash : r.tree.hashAt randomNums pageAt s x = (r.tree.group i).hash) :
    Meets (fun _ => True)
      (Ends randomNums pageAt k x choice (r.tree.hashAt randomNums pageAt s x) r)
      (do
        let r₁ ← stableNodeHashMax randomNums s x (pageAt (r.tree.node x).kpfn)
          (r.tree.hashAt randomNums pageAt s x) r
        let tn ← getTreeNode i r₁.tree
        if tn.count = 1 then
          insertBesideOne rb randomNums pageAt s choice x i (r.tree.hashAt randomNums pageAt s x)
            tn r₁
        else
          insertBySearch rb x i tn r₁) := by
  have hfill : Meets (StopsFrom r.counters) _ (stableNodeHashMax randomNums s x
      (pageAt (r.tree.node x).kpfn) (r.tree.hashAt randomNums pageAt s x) r) :=
    stableNodeHashMax_stops ha rfl fun h => h
  refine (hfill.mono (fun _ _ => True.intro) fun _ h => h).bind ?_
  intro r₁ hr₁
  obtain ⟨htree, hlog, _⟩ := hr₁
  have hcore₁ : Core randomNums pageAt k s base done r₁.tree := by
    rw [htree]
    exact core_withHashMax hcore ha
  have hdoes : Does [] r r₁ := by
    refine ⟨by rw [hlog, List.append_nil], ?_⟩
    rw [htree]
    exact samePages_withHashMax ha
  have hself : r₁.tree.Alive x := by
    rw [htree, withHashMax_alive ha]
    exact ha
  have hgroups : r₁.tree.groups k = r.tree.groups k := by rw [htree, withHashMax_groups]
  have hgroup : ∀ j, r₁.tree.group j = r.tree.group j := by
    intro j
    rw [htree, withHashMax_group]
  have hmembers : r₁.tree.members i = r.tree.members i := by rw [htree, withHashMax_members]
  have hmax : (r₁.tree.node x).hashMax ≠ 0 := by
    rw [htree]
    exact withHashMax_hashMax_ne_zero x
  have hi₁ : i ∈ r₁.tree.groups k := hgroups ▸ hi
  have hsame : r.tree.hashAt randomNums pageAt s x = r₁.tree.hashAt randomNums pageAt s x := by
    rw [htree, withHashMax_hashAt]
  have hhash₁ : r₁.tree.hashAt randomNums pageAt s x = (r₁.tree.group i).hash := by
    rw [← hsame, hgroup i]
    exact hhash
  rw [hsame]
  show Meets _ _ (getTreeNode i r₁.tree >>= _)
  rw [getTreeNode_eq (hcore₁.groupAlive i hi₁)]
  show Meets _ _ (if (r₁.tree.group i).count = 1 then _ else _)
  have hcount := hcore₁.count i hi₁
  by_cases hone : (r₁.tree.group i).count = 1
  · rw [if_pos hone]
    obtain ⟨n, hn⟩ := List.length_eq_one_iff.mp (hcount.symm.trans hone)
    exact insertBesideOne_ends hcore₁ hx hdoes hself hi₁ hn hhash₁ hmax hgroups hgroup
  · rw [if_neg hone]
    have hpos := List.length_pos_iff.mpr hne
    rw [← hmembers] at hpos
    exact insertBySearch_ends hcore₁ hdoes hself hi₁ (by omega) hhash₁ hmax hgroups hgroup

/-- `stable_node_reinsert` ends as the tree that it finds and the choice tell. -/
theorem stableNodeReinsert_ends (hcore : Core randomNums pageAt k s base done r.tree)
    (hx : ¬done x) (ha : r.tree.Alive x) (hne : ∀ j ∈ r.tree.groups k, r.tree.members j ≠ []) :
    Meets (fun _ => True)
      (Ends randomNums pageAt k x choice (r.tree.hashAt randomNums pageAt s x) r)
      (stableNodeReinsert rb randomNums pageAt s choice x (pageAt (r.tree.node x).kpfn) k
        (r.tree.hashAt randomNums pageAt s x) r) := by
  have hcmp : ∀ i ∈ r.tree.groups k, Compares (fun i => (r.tree.group i).hash.toNat)
      (r.tree.hashAt randomNums pageAt s x).toNat (fun i =>
        (fun tn => hashCmp (r.tree.hashAt randomNums pageAt s x) tn.hash) <$>
          getTreeNode i r.tree) i := by
    intro i hi
    apply hashCmp_compares
    rw [getTreeNode_eq (hcore.groupAlive i hi)]
    rfl
  obtain ⟨⟨path, found⟩, hrun, hloc⟩ := descend_located hcore.sorted hcmp
  rw [stableNodeReinsert, stableNodeReinsertWith, visit_allocFails, hrun]
  cases found with
  | some i =>
    obtain ⟨hi, hkey⟩ := hloc
    exact existing_ends hcore hx ha (hne i hi) hi (UInt32.toNat_inj.mp hkey).symm
  | none =>
    obtain ⟨before, after, hsplit, hbefore, hafter, _⟩ := hloc
    have hnew : ∀ i ∈ r.tree.groups k,
        (r.tree.group i).hash ≠ r.tree.hashAt randomNums pageAt s x := by
      intro i hi heq
      have hkey := congrArg UInt32.toNat heq
      rw [show r.tree.groups k = before ++ after from hsplit, List.mem_append] at hi
      cases hi with
      | inl hb => exact absurd hkey (Nat.ne_of_lt (hbefore i hb))
      | inr haft => exact absurd hkey (Nat.ne_of_gt (hafter i haft))
    have hdoes : Does [] r r := ⟨(List.append_nil _).symm, SamePages.refl _⟩
    cases hfails : choice.allocFails with
    | true => exact leaveOut_ends hdoes (Picked.refused r.tree hnew hfails)
    | false =>
      show Meets _ _ (linkTreeNode rb k r.tree.nextTreeNode _ path (allocTreeNode false k r.tree).2
        >>= _)
      rw [allocTreeNode_linked]
      have hopen : ∀ hash, Does [] r { r with tree := openGroup rb k hash path r.tree } :=
        fun _ => ⟨(List.append_nil _).symm, SamePages.refl r.tree⟩
      exact addNode_ends (hopen _) (Picked.opened hnew hfails)

/-! ### One visit -/

/-- The choice of a fate looks at the tree nodes and the pages only. -/
theorem Picked.takePage {t : StableTree} {pfn : ℕ} {fate : Fate}
    (h : Picked randomNums pageAt choice (takePage pfn t) k hash x fate) :
    Picked randomNums pageAt choice t k hash x fate := by
  cases h with
  | opened hnew hroom => exact .opened hnew hroom
  | refused at' hnew hfails => exact .refused at' hnew hfails
  | replaced i n hi hhash hone hstale => exact .replaced i n hi hhash hone hstale
  | collided i n at' hi hhash hthere hn hmax => exact .collided i n at' hi hhash hthere hn hmax
  | joined i hi hhash hthere hmax => exact .joined i hi hhash hthere hmax

variable (randomNums pageAt k s x) in
/-- The fate of `x` in a visit. -/
def Visits (choice : Choice) (t : StableTree) (fate : Fate) : Prop :=
  if choice.outerStale then
    fate = .stale
  else
    Picked randomNums pageAt choice t k (t.hashAt randomNums pageAt s x) x fate

/-- A node that was inserted did not have the fate of a stale one. -/
theorem Picked.visitEvents {t : StableTree} {fate : Fate}
    (h : Picked randomNums pageAt choice t k hash x fate) (scratch : Bool) :
    fate.visitEvents x scratch = .visited x :: .hashed x scratch :: fate.insertEvents x := by
  cases h <;> rfl

variable {prev : UInt32}

/-- The loop body ends as the tree that it finds and the choice tell. -/
theorem rehashNode_ends (hcore : Core randomNums pageAt k s base done r.tree) (hx : ¬done x)
    (ha : r.tree.Alive x) (hne : ∀ j ∈ r.tree.groups k, r.tree.members j ≠ [])
    (hptr : ∀ i, (r.tree.node x).treeNode = some i → (r.tree.treeNode i).isSome = true ∧
      r.tree.hashAt randomNums pageAt prev.toUInt64 x = (r.tree.group i).hash) :
    Meets (fun _ => True)
      (fun r' => ∃ fate, Visits randomNums pageAt k s x choice r.tree fate ∧
        Does (fate.visitEvents x (r.tree.node x).treeNode.isNone) r r')
      (rehashNode rb randomNums pageAt s prev k choice x r) := by
  rw [rehashNode, rehashNodeWith, visit_outer]
  cases hstale : choice.outerStale with
  | true =>
    rw [getUksmPage_stale (r := r.note (.visited x)) ha (removeNode_unlinked ha)]
    refine ⟨.stale, ?_, ?_, samePages_free x _⟩
    · rw [Visits, if_pos hstale]
    show r.log ++ [.visited x] ++ [.stale x] ++ [.freed x] =
      r.log ++ [.visited x, .stale x, .freed x]
    simp
  | false =>
    rw [getUksmPage_live (r := r.note (.visited x)) ha]
    show Meets _ _ (getStableNode x (takePage (r.tree.node x).kpfn r.tree) >>= _)
    rw [getStableNode_eq (t := takePage (r.tree.node x).kpfn r.tree) ha]
    have hhash := nodeHash_eq (s := s) (c := r.counters) (t := (beforeReinsert x r).tree) hptr
    show Meets _ _ (nodeHash randomNums s prev ((beforeReinsert x r).tree.node x)
      (pageAt ((beforeReinsert x r).tree.node x).kpfn) (beforeReinsert x r).tree r.counters >>= _)
    rw [hhash]
    have hcore' : Core randomNums pageAt k s base done (beforeReinsert x r).tree :=
      hcore.congr rfl rfl rfl rfl rfl rfl
    show Meets _ _ (stableNodeReinsert rb randomNums pageAt s choice x
      (pageAt ((beforeReinsert x r).tree.node x).kpfn) k
      ((beforeReinsert x r).tree.hashAt randomNums pageAt s x) (beforeReinsert x r) >>= _)
    refine (stableNodeReinsert_ends hcore' hx ha hne).bind ?_
    intro r' hr'
    obtain ⟨fate, hpicked, hdoes⟩ := hr'
    refine ⟨fate, ?_, ?_, hdoes.pages⟩
    · rw [Visits, if_neg (by rw [hstale]; exact Bool.false_ne_true)]
      exact hpicked.takePage
    · rw [hpicked.visitEvents]
      show r'.log = _
      rw [hdoes.log_eq, beforeReinsert]
      simp

/-- What a visit records tells its fate. -/
theorem Fate.visitEvents_injective {fate fate' : Fate} {scratch : Bool}
    (h : fate.visitEvents x scratch = fate'.visitEvents x scratch) : fate = fate' := by
  cases fate <;> cases fate' <;> simp_all [Fate.visitEvents, Fate.insertEvents]

end Steps

end DirtyPages
