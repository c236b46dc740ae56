import DirtyPages.StableLookup

/-!
# The keyhole reference

`get_uksm_page` of Section 13 read by read.  Between two reads the rest of the kernel may change
anything, so that each read finds what its own `View` shows.  A call is a machine that takes one
view a step, and its log records what it read and did.  A run over any list of views keeps the
invariant of the machine, and what a finished call leaves behind is read off the invariant.
-/

namespace DirtyPages

open Outcome SearchTree

namespace Keyhole

/-- What the rest of the kernel shows at one read: `stable_node->kpfn`, and of the page that the call
looks at its mapping, whether its reference count is zero, and `PageSwapCache`. -/
structure View where
  kpfn : ℕ
  mapping : ℕ
  countIsZero : Bool
  swapCache : Bool
  deriving DecidableEq, Repr

/-- What a call reads and does.  A `page` is given by its frame number. -/
inductive Act
  | readKpfn (kpfn : ℕ)
  | readMapping (page mapping : ℕ)
  | getPage (page : ℕ)
  | putPage (page : ℕ)
  | lockPage (page : ℕ)
  | unlockPage (page : ℕ)
  | removeNode
  deriving DecidableEq, Repr

/-- The places of `get_uksm_page` where it reads next, and its two results. -/
inductive Point
  | again
  | mapping
  | getPage
  | swapCache
  | mappingHeld
  | mappingLocked
  | stale
  | returned (page : Option ℕ)
  deriving DecidableEq, Repr

/-- A call in progress.  The local `page` is `pfn_to_page(kpfn)` throughout. -/
structure Call where
  point : Point
  kpfn : ℕ
  log : List Act
  deriving DecidableEq, Repr

def Call.start : Call := ⟨.again, 0, []⟩

/-- `stable_node | PAGE_MAPPING_KSM` -/
def expectedMapping (pageMappingKsm stableNode : ℕ) : ℕ := stableNode ||| pageMappingKsm

/-- One read of `get_uksm_page` and what follows it up to the next. -/
def Call.step (expected : ℕ) (c : Call) (v : View) : Call :=
  match c.point with
  | .again => ⟨.mapping, v.kpfn, c.log ++ [.readKpfn v.kpfn]⟩
  | .mapping =>
    let log := c.log ++ [.readMapping c.kpfn v.mapping]
    if v.mapping ≠ expected then
      ⟨.stale, c.kpfn, log⟩
    else
      ⟨.getPage, c.kpfn, log⟩
  | .getPage =>
    -- `get_page_unless_zero`
    if v.countIsZero then
      ⟨.swapCache, c.kpfn, c.log⟩
    else
      ⟨.mappingHeld, c.kpfn, c.log ++ [.getPage c.kpfn]⟩
  | .swapCache =>
    if !v.swapCache then
      ⟨.stale, c.kpfn, c.log⟩
    else
      ⟨.getPage, c.kpfn, c.log⟩
  | .mappingHeld =>
    let log := c.log ++ [.readMapping c.kpfn v.mapping]
    if v.mapping ≠ expected then
      ⟨.stale, c.kpfn, log ++ [.putPage c.kpfn]⟩
    else
      ⟨.mappingLocked, c.kpfn, log ++ [.lockPage c.kpfn]⟩
  | .mappingLocked =>
    let log := c.log ++ [.readMapping c.kpfn v.mapping]
    if v.mapping ≠ expected then
      ⟨.stale, c.kpfn, log ++ [.unlockPage c.kpfn, .putPage c.kpfn]⟩
    else
      ⟨.returned (some c.kpfn), c.kpfn, log ++ [.unlockPage c.kpfn]⟩
  | .stale =>
    let log := c.log ++ [.readKpfn v.kpfn]
    if v.kpfn ≠ c.kpfn then
      ⟨.again, c.kpfn, log⟩
    else
      ⟨.returned none, c.kpfn, log ++ [.removeNode]⟩
  | .returned _ => c

/-- The call over the views of its successive reads. -/
def Call.run (expected : ℕ) (views : List View) : Call :=
  views.foldl (fun c v => c.step expected v) Call.start

/-! ### What a log adds up to -/

@[simp] def Act.refs (page : ℕ) : Act → ℤ
  | .getPage p => if page = p then 1 else 0
  | .putPage p => if page = p then -1 else 0
  | _ => 0

/-- The references on `page` taken and not put back. -/
def refs (log : List Act) (page : ℕ) : ℤ := (log.map (Act.refs page)).sum

@[simp] def Act.locks (page : ℕ) : Act → ℤ
  | .lockPage p => if page = p then 1 else 0
  | .unlockPage p => if page = p then -1 else 0
  | _ => 0

/-- The locks of `page` taken and not released. -/
def locks (log : List Act) (page : ℕ) : ℤ := (log.map (Act.locks page)).sum

def removals (log : List Act) : ℕ := log.count .removeNode

@[simp] def Act.mappingRead : Act → Option (ℕ × ℕ)
  | .readMapping page mapping => some (page, mapping)
  | _ => none

/-- The page and the value of the last read of a mapping. -/
def lastMapping (log : List Act) : Option (ℕ × ℕ) := (log.filterMap Act.mappingRead).getLast?

@[simp] def Act.kpfnRead : Act → Option ℕ
  | .readKpfn kpfn => some kpfn
  | _ => none

/-- The value of the last read of `kpfn`. -/
def lastKpfn (log : List Act) : Option ℕ := (log.filterMap Act.kpfnRead).getLast?

section Log

variable (log log' : List Act) (a : Act) (page : ℕ)

@[simp] theorem refs_nil : refs [] page = 0 := rfl

@[simp] theorem refs_cons : refs (a :: log) page = a.refs page + refs log page := by
  rw [refs, List.map_cons, List.sum_cons, refs]

@[simp] theorem refs_append : refs (log ++ log') page = refs log page + refs log' page := by
  rw [refs, List.map_append, List.sum_append, refs, refs]

@[simp] theorem locks_nil : locks [] page = 0 := rfl

@[simp] theorem locks_cons : locks (a :: log) page = a.locks page + locks log page := by
  rw [locks, List.map_cons, List.sum_cons, locks]

@[simp] theorem locks_append : locks (log ++ log') page = locks log page + locks log' page := by
  rw [locks, List.map_append, List.sum_append, locks, locks]

@[simp] theorem removals_append : removals (log ++ log') = removals log + removals log' :=
  List.count_append ..

/-- Without a read of `kpfn` the last one stays. -/
theorem lastKpfn_append_of_quiet (h : log'.filterMap Act.kpfnRead = []) :
    lastKpfn (log ++ log') = lastKpfn log := by
  rw [lastKpfn, List.filterMap_append, h, List.append_nil, lastKpfn]

@[simp] theorem lastKpfn_append_read (kpfn : ℕ) :
    lastKpfn (log ++ [.readKpfn kpfn]) = some kpfn := by
  rw [lastKpfn, List.filterMap_append]
  exact List.getLast?_concat ..

end Log

/-! ### The invariant of the machine -/

/-- The references that the call holds on its page at a point. -/
@[simp] def Point.refs : Point → ℤ
  | .mappingHeld | .mappingLocked | .returned (some _) => 1
  | _ => 0

/-- The locks that the call holds of its page at a point. -/
@[simp] def Point.locks : Point → ℤ
  | .mappingLocked => 1
  | _ => 0

/-- The point is neither the label `again` nor a result. -/
def Point.Inside : Point → Prop
  | .again | .returned _ => False
  | _ => True

/-- What holds of a call between any two reads. -/
structure Call.Balanced (expected : ℕ) (c : Call) : Prop where
  refs : ∀ page, refs c.log page = if page = c.kpfn then c.point.refs else 0
  locks : ∀ page, locks c.log page = if page = c.kpfn then c.point.locks else 0
  removals : removals c.log = if c.point = .returned none then 1 else 0
  lastKpfn : c.point ≠ .again → lastKpfn c.log = some c.kpfn
  result : ∀ page, c.point = .returned (some page) →
    page = c.kpfn ∧ lastMapping c.log = some (page, expected)
  reread : c.point = .returned none →
    ∃ before, c.log = before ++ [.readKpfn c.kpfn, .removeNode] ∧
      Keyhole.lastKpfn before = some c.kpfn

theorem Call.balanced_start (expected : ℕ) : Call.start.Balanced expected where
  refs _ := (ite_self 0).symm
  locks _ := (ite_self 0).symm
  removals := rfl
  lastKpfn h := absurd rfl h
  result _ := nofun
  reread := nofun

section Step

variable {expected kpfn : ℕ} {point point' : Point} {log acts : List Act}

/-- A step inside the call keeps the invariant when what it does moves the balance from that of one
point to that of the other. -/
theorem Call.Balanced.move (h : Call.Balanced expected ⟨point, kpfn, log⟩) (hpoint : point.Inside)
    (hpoint' : point'.Inside) (hquiet : acts.filterMap Act.kpfnRead = [])
    (hremovals : Keyhole.removals acts = 0)
    (hrefs : ∀ page, Keyhole.refs acts page = if page = kpfn then point'.refs - point.refs else 0)
    (hlocks : ∀ page,
      Keyhole.locks acts page = if page = kpfn then point'.locks - point.locks else 0) :
    Call.Balanced expected ⟨point', kpfn, log ++ acts⟩ where
  refs page := by
    rw [refs_append, h.refs page, hrefs page]
    split_ifs
    · exact add_sub_cancel point.refs point'.refs
    · rfl
  locks page := by
    rw [locks_append, h.locks page, hlocks page]
    split_ifs
    · exact add_sub_cancel point.locks point'.locks
    · rfl
  removals := by
    rw [removals_append, h.removals, hremovals, if_neg, if_neg]
    · rintro rfl
      exact hpoint'
    · rintro rfl
      exact hpoint
  lastKpfn _ := by
    rw [lastKpfn_append_of_quiet log acts hquiet]
    refine h.lastKpfn ?_
    rintro rfl
    exact hpoint
  result page hreturned := by
    subst hreturned
    exact hpoint'.elim
  reread hreturned := by
    subst hreturned
    exact hpoint'.elim

/-- A step inside the call that does nothing. -/
theorem Call.Balanced.stay (h : Call.Balanced expected ⟨point, kpfn, log⟩) (hpoint : point.Inside)
    (hpoint' : point'.Inside) (hrefs : point'.refs = point.refs)
    (hlocks : point'.locks = point.locks) : Call.Balanced expected ⟨point', kpfn, log⟩ := by
  have hmove : Call.Balanced expected ⟨point', kpfn, log ++ []⟩ :=
    h.move hpoint hpoint' rfl rfl
      (fun page => by rw [hrefs, sub_self, ite_self, refs_nil])
      (fun page => by rw [hlocks, sub_self, ite_self, locks_nil])
  rwa [List.append_nil] at hmove

theorem Call.Balanced.step {c : Call} (h : c.Balanced expected) (v : View) :
    (c.step expected v).Balanced expected := by
  obtain ⟨point, kpfn, log⟩ := c
  cases point with
  | again =>
    simp only [Call.step]
    constructor
    case refs => simp [h.refs]
    case locks => simp [h.locks]
    case removals => exact (removals_append ..).trans h.removals
    case lastKpfn => simp
    case result => exact fun _ => nofun
    case reread => exact nofun
  | mapping =>
    simp only [Call.step]
    split_ifs
    · exact h.move True.intro True.intro rfl rfl (by simp) (by simp)
    · exact h.move True.intro True.intro rfl rfl (by simp) (by simp)
  | getPage =>
    simp only [Call.step]
    split_ifs
    · exact h.stay True.intro True.intro rfl rfl
    · exact h.move True.intro True.intro rfl rfl (by simp) (by simp)
  | swapCache =>
    simp only [Call.step]
    split_ifs
    · exact h.stay True.intro True.intro rfl rfl
    · exact h.stay True.intro True.intro rfl rfl
  | mappingHeld =>
    simp only [Call.step]
    split_ifs
    · rw [List.append_assoc]
      exact h.move True.intro True.intro rfl rfl (by simp) (by simp)
    · rw [List.append_assoc]
      exact h.move True.intro True.intro rfl rfl (by simp) (by simp)
  | mappingLocked =>
    simp only [Call.step]
    split_ifs with hmapping
    · rw [List.append_assoc]
      exact h.move True.intro True.intro rfl rfl (by simp) (by simp)
    · rw [List.append_assoc]
      constructor
      case refs => simp [h.refs]
      case locks =>
        intro page
        simp only [locks_append, h.locks page]
        split_ifs with hpage <;> simp [hpage]
      case removals => exact (removals_append ..).trans h.removals
      case lastKpfn =>
        exact fun _ => (lastKpfn_append_of_quiet _ _ rfl).trans (h.lastKpfn nofun)
      case result =>
        intro page hreturned
        obtain rfl : kpfn = page := Option.some.inj (Point.returned.inj hreturned)
        refine ⟨rfl, ?_⟩
        rw [lastMapping, List.filterMap_append, not_not.mp hmapping]
        exact List.getLast?_concat ..
      case reread => exact nofun
  | stale =>
    simp only [Call.step]
    split_ifs with hkpfn
    · constructor
      case refs => simp [h.refs]
      case locks => simp [h.locks]
      case removals => exact (removals_append ..).trans h.removals
      case lastKpfn => exact fun hpoint => absurd rfl hpoint
      case result => exact fun _ => nofun
      case reread => exact nofun
    · obtain rfl := not_not.mp hkpfn
      rw [List.append_assoc]
      constructor
      case refs => simp [h.refs]
      case locks => simp [h.locks]
      case removals =>
        rw [removals_append, h.removals]
        rfl
      case lastKpfn =>
        intro _
        rw [← List.append_assoc, lastKpfn_append_of_quiet _ _ rfl]
        exact lastKpfn_append_read ..
      case result => exact fun _ => nofun
      case reread => exact fun _ => ⟨log, rfl, h.lastKpfn nofun⟩
  | returned page => exact h

/-- What holds of a call over any views. -/
theorem Call.balanced_run (expected : ℕ) (views : List View) :
    (Call.run expected views).Balanced expected := by
  have hfold : ∀ c : Call, c.Balanced expected →
      (views.foldl (fun c v => c.step expected v) c).Balanced expected := by
    induction views with
    | nil => exact fun c h => h
    | cons v views ih => exact fun c h => ih (c.step expected v) (h.step v)
  exact hfold Call.start (Call.balanced_start expected)

end Step

/-- What a finished call leaves behind: one reference on the page that it returns, which is the page
of the last mapping read, and no other; no lock; and a removal, after `kpfn` was read once more and
was unchanged, when it returns no page. -/
structure Call.Finished (expected : ℕ) (c : Call) (result : Option ℕ) : Prop where
  refs : ∀ page, refs c.log page = if result = some page then 1 else 0
  locks : ∀ page, locks c.log page = 0
  mapping : ∀ page, result = some page → lastMapping c.log = some (page, expected)
  removals : removals c.log = if result = none then 1 else 0
  reread : result = none → ∃ before kpfn, lastKpfn before = some kpfn ∧
    c.log = before ++ [.readKpfn kpfn, .removeNode]

theorem Call.finished_run {expected : ℕ} {views : List View} {result : Option ℕ}
    (h : (Call.run expected views).point = .returned result) :
    (Call.run expected views).Finished expected result := by
  obtain ⟨hrefs, hlocks, hremovals, _, hresult, hreread⟩ := Call.balanced_run expected views
  rw [h] at hrefs hlocks hremovals
  constructor
  case refs =>
    intro page
    rw [hrefs page]
    cases result with
    | none => exact ite_self 0
    | some page' =>
      rw [← (hresult page' h).1]
      exact if_congr (eq_comm.trans Option.some_inj.symm) rfl rfl
  case locks => exact fun page => (hlocks page).trans (ite_self 0)
  case mapping =>
    rintro page rfl
    exact (hresult page h).2
  case removals => exact hremovals.trans (if_congr (Point.returned.injEq ..).to_iff rfl rfl)
  case reread =>
    rintro rfl
    obtain ⟨before, hlog, hlast⟩ := hreread h
    exact ⟨before, _, hlast, hlog⟩

/-! ### The call on the tree -/

section Tree

variable (rb : Balancer ℕ) (n : ℕ) (unlinkRb removeTreeNode : Bool)

/-- What an act of the call does to the tree. -/
def perform (r : Rebuild) : Act → Except Fault Rebuild
  | .getPage page => .ok { r with tree := takePage page r.tree }
  | .putPage page => .ok { r with tree := putPage page r.tree }
  | .removeNode => do
    let tree ← removeNodeFromStableTree rb n unlinkRb removeTreeNode r.tree
    return (({ r with tree := tree }).note (.stale n)).note (.freed n)
  | _ => .ok r

/-- `get_uksm_page` over the views of its reads. -/
def getUksmPageSeen (pageMappingKsm : ℕ) (views : List View) (r : Rebuild) :
    Except Fault (Option ℕ × Rebuild) := do
  let _ ← getStableNode n r.tree
  let call := Call.run (expectedMapping pageMappingKsm n) views
  match call.point with
  | .returned page => do
    let r ← call.log.foldlM (perform rb n unlinkRb removeTreeNode) r
    return (page, r)
  | _ => .error .outOfFuel

/-- The references of a log on top of those that the tree has. -/
def addRefs (log : List Act) (t : StableTree) : StableTree :=
  { t with pageCount := fun page => t.pageCount page + refs log page }

theorem addRefs_of_refs {log : List Act} (h : ∀ page, refs log page = 0) (t : StableTree) :
    addRefs log t = t := by
  simp only [addRefs, h, add_zero]

theorem addRefs_of_page {log : List Act} {pfn : ℕ} {d : ℤ}
    (h : ∀ page, refs log page = if page = pfn then d else 0) (t : StableTree) :
    addRefs log t =
      { t with pageCount := Function.update t.pageCount pfn (t.pageCount pfn + d) } := by
  rw [addRefs]
  congr 1
  funext page
  rw [h page, Function.update_apply]
  split_ifs with hpage
  · rw [hpage]
  · exact add_zero _

theorem perform_eq {a : Act} (ha : a ≠ .removeNode) (r : Rebuild) :
    perform rb n unlinkRb removeTreeNode r a = .ok { r with tree := addRefs [a] r.tree } := by
  cases a with
  | removeNode => exact absurd rfl ha
  | getPage pfn =>
    rw [addRefs_of_page fun page => add_zero (if page = pfn then 1 else 0)]
    rfl
  | putPage pfn =>
    rw [addRefs_of_page fun page => add_zero (if page = pfn then -1 else 0)]
    rfl
  | readKpfn _ | readMapping _ _ | lockPage _ | unlockPage _ =>
    rw [addRefs_of_refs fun _ => rfl]
    rfl

/-- Without a removal a log changes the references and nothing else. -/
theorem perform_of_removals {log : List Act} (h : removals log = 0) (r : Rebuild) :
    log.foldlM (perform rb n unlinkRb removeTreeNode) r =
      .ok { r with tree := addRefs log r.tree } := by
  induction log generalizing r with
  | nil =>
    rw [addRefs_of_refs refs_nil]
    rfl
  | cons a log ih =>
    have hsplit : removals [a] + removals log = 0 := (removals_append [a] log).symm.trans h
    have ha : a ≠ .removeNode := by
      rintro rfl
      exact absurd hsplit (by simp [removals])
    rw [List.foldlM_cons, perform_eq rb n unlinkRb removeTreeNode ha]
    refine (ih (by omega) _).trans ?_
    simp only [addRefs, refs_cons, refs_nil, add_zero, add_assoc]

/-- All that the log of a call adds up to when it returns a page is the reference. -/
theorem perform_of_some {expected page : ℕ} {c : Call}
    (h : c.Finished expected (some page)) (r : Rebuild) :
    c.log.foldlM (perform rb n unlinkRb removeTreeNode) r =
      .ok { r with tree := takePage page r.tree } := by
  have hrefs : ∀ p, refs c.log p = if p = page then 1 else 0 := fun p =>
    (h.refs p).trans (if_congr (Option.some_inj.trans eq_comm) rfl rfl)
  rw [perform_of_removals rb n unlinkRb removeTreeNode h.removals, addRefs_of_page hrefs]
  rfl

/-- All that the log of a call adds up to when it returns none is the removal. -/
theorem perform_of_none {expected : ℕ} {c : Call} (h : c.Finished expected none)
    (r : Rebuild) :
    c.log.foldlM (perform rb n unlinkRb removeTreeNode) r =
      perform rb n unlinkRb removeTreeNode r .removeNode := by
  obtain ⟨before, kpfn, _, hlog⟩ := h.reread rfl
  have hremovals : removals before + 1 = 1 := by
    have hall : removals c.log = 1 := h.removals
    rwa [hlog, removals_append] at hall
  have hrefs : ∀ page, refs before page = 0 := by
    intro page
    have hall : refs c.log page = 0 := h.refs page
    rw [hlog] at hall
    simpa using hall
  rw [hlog, List.foldlM_append, perform_of_removals rb n unlinkRb removeTreeNode (by omega),
    addRefs_of_refs hrefs]
  -- reading `kpfn` does nothing to the tree
  show [Act.removeNode].foldlM (perform rb n unlinkRb removeTreeNode) r = _
  rw [List.foldlM_cons]
  exact bind_pure _

/-- A call that returns the page of the node's own frame, or removes the node, is `get_uksm_page` with
that outcome. -/
theorem getUksmPageSeen_eq {pageMappingKsm : ℕ} {views : List View} {result : Option ℕ}
    {r : Rebuild} {node : StableNode} (hnode : getStableNode n r.tree = .ok node)
    (hreturned : (Call.run (expectedMapping pageMappingKsm n) views).point = .returned result)
    (hpage : ∀ page, result = some page → page = node.kpfn) :
    getUksmPageSeen rb n unlinkRb removeTreeNode pageMappingKsm views r =
      getUksmPage rb result.isNone n unlinkRb removeTreeNode r := by
  have hfinished := Call.finished_run hreturned
  rw [getUksmPageSeen, getUksmPage, hnode]
  simp only [bind, Except.bind, hreturned]
  cases result with
  | none =>
    rw [perform_of_none rb n unlinkRb removeTreeNode hfinished, perform]
    cases removeNodeFromStableTree rb n unlinkRb removeTreeNode r.tree with
    | error e => rfl
    | ok tree => rfl
  | some page =>
    rw [perform_of_some rb n unlinkRb removeTreeNode hfinished, hpage page rfl]
    rfl

/-- A property that every removal keeps is kept by the call, over any views. -/
theorem getUksmPageSeen_keeps {good : Holders → Prop} (hremove : RemovalKeeps good)
    (pageMappingKsm : ℕ) (views : List View) :
    Lookup.Keeps good fun n unlinkRb removeTreeNode r =>
      getUksmPageSeen rb n unlinkRb removeTreeNode pageMappingKsm views r := by
  intro n unlinkRb removeTreeNode r pages h
  refine (meets_any _).bind ?_
  intro node _
  dsimp only
  cases hpoint : (Call.run (expectedMapping pageMappingKsm n) views).point with
  | returned result =>
    have hfinished := Call.finished_run hpoint
    cases result with
    | some page =>
      simp only
      rw [perform_of_some rb n unlinkRb removeTreeNode hfinished]
      refine meets_pure.mpr ⟨h.good, ?_⟩
      exact congrArg (withRef (some page)) h.pages
    | none =>
      simp only
      rw [perform_of_none rb n unlinkRb removeTreeNode hfinished, perform]
      refine Meets.bind ?_ fun r' hr' => meets_pure.mpr hr'
      refine (removeNodeFromStableTree_kept hremove rb n unlinkRb removeTreeNode h).bind ?_
      intro t' ht'
      exact meets_pure.mpr ht'
  | _ => exact True.intro

/-- The views of the two calls of one visit, and whether `alloc_tree_node` fails. -/
structure Sighting where
  outer : List View
  inner : List View
  allocFails : Bool
  deriving DecidableEq, Repr

def Sighting.visit (pageMappingKsm : ℕ) (s : Sighting) : Visit where
  outer n unlinkRb removeTreeNode r :=
    getUksmPageSeen rb n unlinkRb removeTreeNode pageMappingKsm s.outer r
  inner n unlinkRb removeTreeNode r :=
    getUksmPageSeen rb n unlinkRb removeTreeNode pageMappingKsm s.inner r
  allocFails := s.allocFails

theorem Sighting.visit_keeps {good : Holders → Prop} (hremove : RemovalKeeps good)
    (pageMappingKsm : ℕ) (s : Sighting) : (s.visit rb pageMappingKsm).Keeps good where
  outer := getUksmPageSeen_keeps rb hremove pageMappingKsm s.outer
  inner := getUksmPageSeen_keeps rb hremove pageMappingKsm s.inner

end Tree

end Keyhole

open Keyhole in
/-- Whatever the reads of a call find, when it returns it has left behind what it should; and a
rebuild leaves every reference count as it found it, both over any reads of its calls and for any
choice of their outcomes. -/
theorem getUksmPage_balanced (rb : Balancer ℕ) (randomNums : RandomNums) (pageAt : ℕ → Page)
    (hashStrength : UInt64) (prevHashStrength : UInt32) (pageMappingKsm : ℕ) :
    (∀ (n : ℕ) (views : List View) (result : Option ℕ),
      (Call.run (expectedMapping pageMappingKsm n) views).point = .returned result →
      (Call.run (expectedMapping pageMappingKsm n) views).Finished
        (expectedMapping pageMappingKsm n) result) ∧
    (∀ (sightings : ℕ → Sighting) (t : StableTree) (c : Counters),
      Meets (fun _ => True) (fun r => r.tree.pageCount = t.pageCount)
        (stableTreeDeltaHashWith rb randomNums pageAt hashStrength prevHashStrength
          (fun j => (sightings j).visit rb pageMappingKsm) t c)) ∧
    ∀ (choices : ℕ → Choice) (t : StableTree) (c : Counters),
      Meets (fun _ => True) (fun r => r.tree.pageCount = t.pageCount)
        (stableTreeDeltaHash rb randomNums pageAt hashStrength prevHashStrength choices t c) := by
  have hremove : RemovalKeeps fun _ => True := fun _ _ _ _ _ => True.intro
  refine ⟨fun n views result hreturned => Call.finished_run hreturned, ?_, ?_⟩
  · intro sightings t c
    refine Meets.imp (stableTreeDeltaHashWith_kept rb randomNums pageAt hashStrength
      prevHashStrength (fun j => (sightings j).visit_keeps rb hremove pageMappingKsm)
      True.intro c) ?_
    exact fun r hr => hr.pages
  · intro choices t c
    rw [stableTreeDeltaHash]
    refine Meets.imp (stableTreeDeltaHashWith_kept rb randomNums pageAt hashStrength
      prevHashStrength (fun j => (choices j).visit_keeps hremove rb) True.intro c) ?_
    exact fun r hr => hr.pages

open Keyhole in
/-- A page at count zero, another mapping under the lock, and a new frame for the node on the way. -/
def retryViews : List View :=
  [⟨5, 0, false, false⟩, ⟨5, 11, false, false⟩, ⟨5, 11, true, false⟩, ⟨5, 11, true, true⟩,
    ⟨5, 11, false, false⟩, ⟨5, 11, false, false⟩, ⟨6, 0, false, false⟩, ⟨6, 0, false, false⟩,
    ⟨6, 0, false, false⟩, ⟨6, 11, false, false⟩, ⟨6, 11, false, false⟩, ⟨6, 11, false, false⟩,
    ⟨6, 11, false, false⟩]

open Keyhole in
theorem getUksmPage_balanced_retry :
    (Call.run (expectedMapping 3 8) retryViews).point = .returned (some 6) ∧
      (Call.run (expectedMapping 3 8) retryViews).Finished (expectedMapping 3 8) (some 6) :=
  ⟨by decide, (getUksmPage_balanced (Balancer.plain ℕ) id (fun _ _ => 0) 0 0 3).1 8 retryViews (some 6)
    (by decide)⟩

end DirtyPages
