import DirtyPages.AdaptRange
import DirtyPages.BenefitLedger
import DirtyPages.StableCharges
import DirtyPages.StableRebuild

/-!
# The whole system and its runs

The adaptation, the benefit counters and the stable tree together, the full `rshash_adjust`, and the
operations that the scanner performs on them in any order.  Between the calls the rest of the kernel
puts pages into the stable tree and takes them out; `outside` stands for that.

`rshash_adjust` never leaves the range of the adaptation, whatever the pages and the tree are, and
what any operation does to the counters is a sequence of counter calls.  When
the rest of the kernel keeps the stable tree consistent, so does every run, and the assertion of
`encode_benefit` is the only stop.
-/

namespace DirtyPages

open Outcome SearchTree

/-- The global variables of the module. -/
structure Uksm where
  adaptation : Adaptation
  counters : Counters
  tree : StableTree

/-- The state after module init. -/
def initialUksm : Uksm := ⟨initialAdaptation, initialCounters, initialTree⟩

section

variable (rb : Balancer ℕ) (randomNums : RandomNums)

/-- `rshash_adjust`; the result says whether the strength was changed. -/
def rshashAdjust (fullyScannedRound : UInt64) (pageAt : ℕ → Page) (choices : ℕ → Choice)
    (u : Uksm) : Except Fault (Bool × Uksm) := do
  let prevHashStrength := u.adaptation.hashStrength
  let (encoded, counters) ← encodeBenefit u.counters
  if encoded then
    let adaptation ← adjustState fullyScannedRound counters.benefit u.adaptation
    let counters := resetBenefit counters
    if prevHashStrength ≠ adaptation.hashStrength then
      let r ← stableTreeDeltaHash rb randomNums pageAt adaptation.hashStrength
        prevHashStrength.toUInt32 choices u.tree counters
      return (true, ⟨adaptation, r.counters, r.tree⟩)
    else
      return (false, ⟨adaptation, counters, u.tree⟩)
  else
    return (false, { u with counters := counters })

/-- An operation of the scanner that changes its state, with what its caller or the hardware decides,
or a change of the stable tree from outside. -/
inductive Op
  | incUksmPagesScanned
  | incRshashPos (delta : UInt64)
  | incRshashNeg (delta : UInt64)
  | pageHash (page : Page) (costAccounting : Bool)
  | pageHashMax (page : Page) (hashOld : UInt32)
  | rmapItemHashMax (page : Page) (item : RmapItem) (hash : UInt32)
  | memcmpPagesWithCost (memcmpCost : UInt64) (page1 page2 : Page) (costAccounting : Bool)
  | checkCollision (memcmpCost : UInt64) (page : Page) (item : RmapItem) (hash : UInt32)
  | rshashAdjust (fullyScannedRound : UInt64) (pageAt : ℕ → Page) (choices : ℕ → Choice)
  | outside (tree : StableTree)

/-- The state with the counters that a call returned. -/
def Uksm.counted (u : Uksm) (x : Except Fault Counters) : Except Fault Uksm :=
  (fun c => { u with counters := c }) <$> x

/-- The effect of an operation, at the current `hash_strength`. -/
def Op.run (op : Op) (u : Uksm) : Except Fault Uksm :=
  let s := u.adaptation.hashStrength
  match op with
  | .incUksmPagesScanned => u.counted (DirtyPages.incUksmPagesScanned u.counters)
  | .incRshashPos delta => u.counted (DirtyPages.incRshashPos delta u.counters)
  | .incRshashNeg delta => u.counted (DirtyPages.incRshashNeg delta u.counters)
  | .pageHash page acc =>
    u.counted (Prod.snd <$> DirtyPages.pageHash randomNums page s acc u.counters)
  | .pageHashMax page hashOld =>
    u.counted (Prod.snd <$> DirtyPages.pageHashMax randomNums s page hashOld u.counters)
  | .rmapItemHashMax page item hash =>
    u.counted ((fun p => p.2.2) <$>
      DirtyPages.rmapItemHashMax randomNums s page item hash u.counters)
  | .memcmpPagesWithCost cost page1 page2 acc =>
    u.counted (Prod.snd <$> DirtyPages.memcmpPagesWithCost cost page1 page2 acc u.counters)
  | .checkCollision cost page item hash =>
    u.counted (Prod.snd <$> DirtyPages.checkCollision randomNums s cost page item hash u.counters)
  | .rshashAdjust round pageAt choices =>
    Prod.snd <$> DirtyPages.rshashAdjust rb randomNums round pageAt choices u
  | .outside tree => .ok { u with tree := tree }

/-- A run from the state after module init. -/
def run (ops : List Op) : Except Fault Uksm :=
  ops.foldlM (fun u op => op.run rb randomNums u) initialUksm

end

variable {rb : Balancer ℕ} {randomNums : RandomNums} {pageAt : ℕ → Page}

/-! ### What one operation can do -/

/-- An operation that only counts leaves the adaptation and the tree alone. -/
theorem Uksm.counted_meets {u : Uksm} {x : Except Fault Counters}
    (hx : Meets OnlyBugOnScanned (Counted u.counters) x) :
    Meets OnlyBugOnScanned
      (fun u' => u'.adaptation = u.adaptation ∧ u'.tree = u.tree ∧ Counted u.counters u'.counters)
      (u.counted x) :=
  hx.map_imp fun _ hc => ⟨rfl, rfl, hc⟩

/-- The operations that only count. -/
def Op.Counts : Op → Prop
  | .rshashAdjust _ _ _ => False
  | .outside _ => False
  | _ => True

theorem Op.counts_or (op : Op) :
    op.Counts ∨ (∃ round pageAt choices, op = .rshashAdjust round pageAt choices) ∨
      ∃ tree, op = .outside tree := by
  cases op with
  | rshashAdjust round pageAt choices => exact Or.inr (Or.inl ⟨round, pageAt, choices, rfl⟩)
  | outside tree => exact Or.inr (Or.inr ⟨tree, rfl⟩)
  | _ => exact Or.inl True.intro

theorem Op.run_counts {op : Op} (h : op.Counts) (u : Uksm) :
    Meets OnlyBugOnScanned
      (fun u' => u'.adaptation = u.adaptation ∧ u'.tree = u.tree ∧ Counted u.counters u'.counters)
      (op.run rb randomNums u) := by
  cases op with
  | incUksmPagesScanned =>
    exact Uksm.counted_meets (CounterCall.incUksmPagesScanned.run_meets u.counters)
  | incRshashPos delta => exact Uksm.counted_meets (incRshash_counted .pos delta u.counters)
  | incRshashNeg delta => exact Uksm.counted_meets (incRshash_counted .neg delta u.counters)
  | pageHash page acc =>
    exact Uksm.counted_meets ((pageHash_meets _ acc u.counters).map_imp fun _ hp => hp)
  | pageHashMax page hashOld =>
    exact Uksm.counted_meets ((pageHashMax_meets hashOld u.counters).map_imp fun _ hp => hp)
  | rmapItemHashMax page item hash =>
    exact Uksm.counted_meets ((rmapItemHashMax_meets item hash u.counters).map_imp fun _ hp => hp)
  | memcmpPagesWithCost cost page1 page2 acc =>
    exact Uksm.counted_meets
      ((memcmpPagesWithCost_meets page1 page2 acc u.counters).map_imp fun _ hp => hp)
  | checkCollision cost page item hash =>
    exact Uksm.counted_meets ((checkCollision_meets item hash u.counters).map_imp fun _ hp => hp)
  | rshashAdjust round pageAt choices => exact h.elim
  | outside tree => exact h.elim

/-- Between the transfer of `rshash_adjust` and its rebuild nothing is scanned. -/
theorem resetBenefit_quiet {c c' : Counters} (h : encodeBenefit c = .ok (true, c')) :
    (resetBenefit c').Quiet := by
  rcases encodeBenefit_eq_ok.mp h with ⟨hr, _⟩ | ⟨_, _, b, _, _, rfl⟩
  · cases hr
  · exact rfl

/-- A call of `rshash_adjust` that finds the adaptation in range stops in the assertion of
`encode_benefit`, does nothing, or does one step of the adaptation, at the benefit that it has just
encoded; and then it rebuilds the tree if the strength has changed. -/
theorem rshashAdjust_meets {allowed : Fault → Prop} {post : Bool × Uksm → Prop} {u : Uksm}
    (round : UInt64) (choices : ℕ → Choice) (hinv : RangeInv u.adaptation)
    (hbug : (∃ f, encodeBenefit u.counters = .error f) → allowed .bugOnScanned)
    (hidle : u.counters.Quiet → post (false, u))
    (hstep : ∀ c a, encodeBenefit u.counters = .ok (true, c) →
      AdjustStep (netBenefit c.benefit) u.adaptation a →
      adjustState round c.benefit u.adaptation = .ok a →
      (u.adaptation.hashStrength = a.hashStrength → post (false, ⟨a, resetBenefit c, u.tree⟩)) ∧
      (u.adaptation.hashStrength ≠ a.hashStrength →
        Meets allowed (fun r => post (true, ⟨a, r.counters, r.tree⟩))
          (stableTreeDeltaHash rb randomNums pageAt a.hashStrength
            u.adaptation.hashStrength.toUInt32 choices u.tree (resetBenefit c)))) :
    Meets allowed post (rshashAdjust rb randomNums round pageAt choices u) := by
  rw [rshashAdjust]
  cases he : encodeBenefit u.counters with
  | error f =>
    rw [(encodeBenefit_eq_error.mp he).1]
    exact hbug ⟨f, he⟩
  | ok p =>
    obtain ⟨encoded, c⟩ := p
    cases encoded with
    | false =>
      rcases encodeBenefit_eq_ok.mp he with ⟨_, hquiet, hc⟩ | ⟨hr, _⟩
      · subst hc
        exact hidle hquiet
      · cases hr
    | true =>
      show Meets _ _ (adjustState round c.benefit u.adaptation >>= _)
      have hscanned := encodeBenefit_scanned_ne_zero he
      obtain ⟨a, hadjust, ha⟩ :=
        (adjustState_meets round u.adaptation hscanned hinv.named).exists_ok
      rw [hadjust]
      show Meets _ _ (if u.adaptation.hashStrength ≠ a.hashStrength then _ else _)
      obtain ⟨hsame, hchanged⟩ := hstep c a he ha hadjust
      by_cases hs : u.adaptation.hashStrength = a.hashStrength
      · rw [if_neg (not_not_intro hs)]
        exact hsame hs
      · rw [if_pos hs]
        refine (hchanged hs).bind ?_
        intro r hr
        exact meets_pure.mpr hr

/-! ### The range of the adaptation in every run -/

/-- Every operation keeps the range, and stops neither in a `default:` branch nor by a division by
zero. -/
theorem Op.run_keepsRange (op : Op) (u : Uksm) (hinv : RangeInv u.adaptation) :
    Meets (fun f => f ≠ .bugDefault ∧ f ≠ .divideByZero) (fun u' => RangeInv u'.adaptation)
      (op.run rb randomNums u) := by
  rcases op.counts_or with hcounts | ⟨round, pageAt, choices, rfl⟩ | ⟨tree, rfl⟩
  · refine (op.run_counts hcounts u).mono ?_ ?_
    · intro f hf
      rw [hf]
      exact ⟨Fault.noConfusion, Fault.noConfusion⟩
    · intro u' hu'
      rw [hu'.1]
      exact hinv
  · refine Meets.map_imp
      (rshashAdjust_meets round choices hinv (fun _ => ⟨Fault.noConfusion, Fault.noConfusion⟩)
        (fun _ => hinv) ?_)
      fun p (hp : RangeInv p.2.adaptation) => hp
    intro c a _ ha _
    have hinv' := rangeInv_step hinv ha
    refine ⟨fun _ => hinv', fun _ => ?_⟩
    exact (stableTreeDeltaHash_charges _ choices u.tree (resetBenefit c)).mono
      (fun _ hf => ⟨hf.1, hf.2.1⟩) fun _ _ => hinv'
  · exact hinv

theorem run_keepsRange (ops : List Op) :
    Meets (fun f => f ≠ .bugDefault ∧ f ≠ .divideByZero) (fun u => RangeInv u.adaptation)
      (run rb randomNums ops) :=
  Meets.foldlM (fun u op hu => op.run_keepsRange u hu) ops initialUksm rangeInv_initial

theorem Op.run_rangeInv (op : Op) (u : Uksm) (hinv : RangeInv u.adaptation) :
    Meets NotDefault (fun u' => RangeInv u'.adaptation) (op.run rb randomNums u) :=
  (op.run_keepsRange u hinv).mono (fun _ hf => hf.1) fun _ hu => hu

theorem run_rangeInv (ops : List Op) :
    Meets NotDefault (fun u => RangeInv u.adaptation) (run rb randomNums ops) :=
  (run_keepsRange ops).mono (fun _ hf => hf.1) fun _ hu => hu

/-- Every run keeps the strength, its step exponent and, during a probe, the saved points in range.
So the remaining strength does not underflow, the hashes at the strength and between it and any
other strength in range stay inside `random_nums`, and the run does not stop in a `default:` branch.
-/
theorem run_inRange (rb : Balancer ℕ) (randomNums : RandomNums) (ops : List Op) :
    Meets NotDefault
      (fun u =>
        let a := u.adaptation
        InRange a.hashStrength ∧ a.hashStrengthDelta.toNat ≤ hashStrengthDeltaMax ∧
        (a.rshashState.state.Probing → InRange a.rshashState.stablePoint ∧
          InRange a.rshashState.turnPointDown ∧ InRange a.rshashState.turnPointUp) ∧
        (strengthMax - a.hashStrength).toNat + a.hashStrength.toNat = hashStrengthMax ∧
        ∀ page : Page,
          (∀ i ∈ (randomSampleHash randomNums page a.hashStrength.toNat).visited,
            i < hashStrengthFull) ∧
          ∀ s hash, InRange s → ∀ i,
            i ∈ (deltaHash randomNums page s.toNat a.hashStrength.toNat hash).visited ∨
              i ∈ (deltaHash randomNums page a.hashStrength.toNat s.toNat hash).visited →
            i < hashStrengthFull)
      (run rb randomNums ops) := by
  refine (run_rangeInv ops).imp ?_
  intro u hinv a
  have hs := hinv.strength
  refine ⟨hs, hinv.delta, hinv.saved, ?_, ?_⟩
  · have hle : a.hashStrength.toNat ≤ 1034 := hs.2
    have hle' : a.hashStrength ≤ strengthMax := by
      rw [UInt64.le_iff_toNat_le, toNat_strengthMax]
      exact hle
    rw [UInt64.toNat_sub_of_le _ _ hle', toNat_strengthMax, hashStrengthMax_eq]
    omega
  · intro page
    refine ⟨randomSampleHash_visited_lt randomNums page hs.2, ?_⟩
    intro s hash hs' i hi
    cases hi with
    | inl hi => exact deltaHash_visited_lt randomNums page hs'.2 hs.2 hash i hi
    | inr hi => exact deltaHash_visited_lt randomNums page hs.2 hs'.2 hash i hi

/-! ### The counters in every run -/

/-- `rshash_adjust` calls `encode_benefit` and `reset_benefit` first; whatever else it does to the
counters are the charges of its rebuild. -/
theorem rshashAdjust_calls {u : Uksm} (round : UInt64) (choices : ℕ → Choice)
    (hinv : RangeInv u.adaptation) :
    Meets NotDefault
      (fun p => ∃ c, CounterCall.rshashAdjust.run u.counters = .ok c ∧ Charged c p.2.counters)
      (rshashAdjust rb randomNums round pageAt choices u) := by
  refine rshashAdjust_meets round choices hinv (fun _ => Fault.noConfusion) ?_ ?_
  · intro hquiet
    have hidle : encodeBenefit u.counters = .ok (false, u.counters) :=
      encodeBenefit_eq_ok.mpr (Or.inl ⟨rfl, hquiet, rfl⟩)
    have hcall : CounterCall.rshashAdjust.run u.counters = .ok u.counters := by
      rw [CounterCall.run, adjustCounters, hidle]
      rfl
    exact ⟨u.counters, hcall, Charged.refl _⟩
  · intro c a he _ _
    have hcall : CounterCall.rshashAdjust.run u.counters = .ok (resetBenefit c) := by
      rw [CounterCall.run, adjustCounters, he]
      rfl
    refine ⟨fun _ => ⟨_, hcall, Charged.refl _⟩, fun _ => ?_⟩
    exact (stableTreeDeltaHash_charges _ choices u.tree (resetBenefit c)).mono
      (fun _ hf => hf.1) fun r hr => ⟨_, hcall, hr⟩

theorem Charged.counted {c c' : Counters} (h : Charged c c') : Counted c c' :=
  Reaches.map CounterCall.incRshashNeg (fun _ _ => rfl) h

theorem Op.run_counted (op : Op) (u : Uksm) (hinv : RangeInv u.adaptation) :
    Meets NotDefault (fun u' => Counted u.counters u'.counters) (op.run rb randomNums u) := by
  rcases op.counts_or with hcounts | ⟨round, pageAt, choices, rfl⟩ | ⟨tree, rfl⟩
  · refine (op.run_counts hcounts u).mono ?_ fun u' hu' => hu'.2.2
    intro f hf
    rw [hf]
    exact Fault.noConfusion
  · refine (rshashAdjust_calls round choices hinv).map_imp ?_
    intro p hp
    obtain ⟨c, hcall, hcharged⟩ := hp
    exact (Reaches.single (o := CounterCall.rshashAdjust) hcall).trans hcharged.counted
  · exact Reaches.refl _ u.counters

/-- Every run drives the counters by calls that can be audited: if they are covered, nothing that
the run has credited or charged since its last effective `rshash_adjust` is lost. -/
theorem run_audited (ops : List Op) :
    Meets NotDefault
      (fun u => ∃ calls l, auditedRun calls = .ok (u.counters, l) ∧
        (CoveredFrom auditStart calls → Balanced u.counters l))
      (run rb randomNums ops) := by
  have hrun : Meets NotDefault
      (fun u => RangeInv u.adaptation ∧ Counted initialCounters u.counters)
      (run rb randomNums ops) := by
    refine Meets.foldlM ?_ ops initialUksm ⟨rangeInv_initial, Reaches.refl _ _⟩
    intro u op hu
    have hrange : Meets NotDefault (fun u' => RangeInv u'.adaptation) (op.run rb randomNums u) :=
      op.run_rangeInv u hu.1
    have hcounted : Meets NotDefault (fun u' => Counted u.counters u'.counters)
        (op.run rb randomNums u) := op.run_counted u hu.1
    cases hop : op.run rb randomNums u with
    | error f => exact hrange.of_error hop
    | ok u' => exact ⟨hrange.of_ok hop, hu.2.trans (hcounted.of_ok hop)⟩
  exact hrun.imp fun u hu => hu.2.audited

/-! ### The stable tree in every run -/

section Safety

variable (randomNums pageAt)

/-- The whole system at rest. -/
structure SystemInv (u : Uksm) : Prop where
  range : RangeInv u.adaptation
  stable : StableInv randomNums pageAt u.adaptation.hashStrength u.tree

/-- What the rest of the kernel owes: pages in the stable tree keep their content, and changes of
the stable tree from outside keep it consistent. -/
def Op.Proper (u : Uksm) : Op → Prop
  | .rshashAdjust _ pages _ => pages = pageAt
  | .outside tree => StableInv randomNums pageAt u.adaptation.hashStrength tree
  | _ => True

/-- Every operation of a run is proper in the state that it meets. -/
def ProperFrom (rb : Balancer ℕ) : Uksm → List Op → Prop
  | _, [] => True
  | u, op :: ops => op.Proper randomNums pageAt u ∧
      ∀ u', op.run rb randomNums u = .ok u' → ProperFrom rb u' ops

end Safety

/-- The stable tree is empty at the start. -/
theorem initialTree_empty : EmptyTrees randomNums pageAt initialTree where
  root := rfl
  unlinked n hn := absurd hn List.not_mem_nil
  genuine n hn := absurd hn List.not_mem_nil
  nodup := List.nodup_nil
  alive n := ⟨fun hn => absurd hn List.not_mem_nil, fun hn => by cases hn⟩
  lists _ := rfl
  bounded i hi := by cases hi
  rootp := rfl
  listp := rfl

theorem systemInv_initial : SystemInv randomNums pageAt initialUksm where
  range := rangeInv_initial
  stable := initialTree_empty.stableInv _

theorem Op.keeps_systemInv (op : Op) (u : Uksm) (hproper : op.Proper randomNums pageAt u)
    (hinv : SystemInv randomNums pageAt u) :
    Meets OnlyBugOnScanned (SystemInv randomNums pageAt) (op.run rb randomNums u) := by
  rcases op.counts_or with hcounts | ⟨round, pages, choices, rfl⟩ | ⟨tree, rfl⟩
  · refine (op.run_counts hcounts u).imp ?_
    intro u' hu'
    refine ⟨hu'.1 ▸ hinv.range, ?_⟩
    rw [hu'.1, hu'.2.1]
    exact hinv.stable
  · have hpages : pages = pageAt := hproper
    subst hpages
    refine Meets.map_imp
      (rshashAdjust_meets round choices hinv.range (fun _ => rfl) (fun _ => hinv) ?_)
      fun p (hp : SystemInv randomNums pages p.2) => hp
    intro c a he ha _
    have hrange := rangeInv_step hinv.range ha
    constructor
    · intro hsame
      refine ⟨hrange, ?_⟩
      show StableInv randomNums pages a.hashStrength u.tree
      rw [← hsame]
      exact hinv.stable
    · intro _
      -- the transfer has just emptied the counters, so nothing stops the rebuild
      have hquiet := resetBenefit_quiet he
      have hstable : StableInv randomNums pages
          u.adaptation.hashStrength.toUInt32.toUInt64 u.tree := by
        rw [toUInt64_toUInt32 hinv.range.strength.2]
        exact hinv.stable
      refine (stableTreeDeltaHash_inv hstable).mono ?_ fun r hr => ⟨hrange, hr⟩
      intro f hf
      exact absurd hquiet hf.2
  · exact ⟨hinv.range, hproper⟩

/-- In every run in which the rest of the kernel keeps its part, the adaptation is in range and the
stable tree is consistent at the current strength, and the assertion of `encode_benefit` is the only
stop: no freed object is read, nothing is divided by zero and no other assertion fails.  The runs
are of the counter calls, of the hashing and comparing calls that charge them, and of
`rshash_adjust`. -/
theorem run_systemInv (ops : List Op) (hproper : ProperFrom randomNums pageAt rb initialUksm ops) :
    Meets OnlyBugOnScanned (SystemInv randomNums pageAt) (run rb randomNums ops) := by
  suffices hfold : ∀ u, ProperFrom randomNums pageAt rb u ops → SystemInv randomNums pageAt u →
      Meets OnlyBugOnScanned (SystemInv randomNums pageAt)
        (ops.foldlM (fun u op => op.run rb randomNums u) u) from
    hfold initialUksm hproper systemInv_initial
  clear hproper
  induction ops with
  | nil =>
    intro u _ hinv
    exact hinv
  | cons op ops ih =>
    intro u hproper hinv
    rw [List.foldlM_cons]
    have hop : Meets OnlyBugOnScanned (SystemInv randomNums pageAt) (op.run rb randomNums u) :=
      op.keeps_systemInv u hproper.1 hinv
    cases hrun : op.run rb randomNums u with
    | error f => exact hop.of_error hrun
    | ok u' => exact ih u' (hproper.2 u' hrun) (hop.of_ok hrun)

/-- A round, two pages in the tree from outside, and a round that raises the strength. -/
def filledRounds : List Op :=
  [.incUksmPagesScanned, .incRshashPos 100,
    .rshashAdjust 1 (fun _ _ => 0) (fun _ => ⟨false, false, false⟩), .outside twoNodes,
    .incUksmPagesScanned, .incRshashNeg 100,
    .rshashAdjust 1 (fun _ _ => 0) fun _ => ⟨false, true, false⟩]

theorem filledRounds_proper :
    ProperFrom id (fun _ _ => 0) (Balancer.plain ℕ) initialUksm filledRounds :=
  ⟨True.intro, fun _ _ => ⟨True.intro, fun _ _ => ⟨rfl, fun _ _ =>
    ⟨(twoNodes_emptyTrees id _).stableInv _, fun _ _ => ⟨True.intro, fun _ _ => ⟨True.intro,
      fun _ _ => ⟨rfl, fun _ _ => True.intro⟩⟩⟩⟩⟩⟩⟩

theorem run_systemInv_filled : ∃ u, run (Balancer.plain ℕ) id filledRounds = .ok u ∧
    SystemInv id (fun _ _ => 0) u := by
  have hreturns : (match run (Balancer.plain ℕ) id filledRounds with
    | .ok _ => true
    | .error _ => false) = true := by
    decide +kernel
  have hmeets := run_systemInv filledRounds filledRounds_proper
  cases hrun : run (Balancer.plain ℕ) id filledRounds with
  | error f =>
    rw [hrun] at hreturns
    cases hreturns
  | ok u =>
    rw [hrun] at hmeets
    exact ⟨u, rfl, hmeets⟩

end DirtyPages
