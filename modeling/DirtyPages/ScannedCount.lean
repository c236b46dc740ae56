import DirtyPages.BenefitScale
import DirtyPages.System

/-!
# The page count of the benefit

`encode_benefit` asserts that it leaves pages counted, and `get_current_benefit` divides by their
number.  A transfer brings at least one page with it, but a sum of the other two totals that does
not fit halves the page count as well.  The main result says exactly when a page is left.
-/

namespace DirtyPages

open Outcome SearchTree

/-! ### One transfer -/

/-- If the totals must be halved, then two units of pages are counted, or two are pending. -/
def Counters.PagesSuffice (c : Counters) : Prop :=
  c.MustHalve → 2 ≤ c.benefit.scanned ∨
    2 ≤ (c.uksmPagesScanned - c.uksmPagesScannedLast) >>> c.benefit.base

/-- A benefit that counts no page is empty. -/
def Benefit.CountsPages (b : Benefit) : Prop := b.scanned = 0 → b = ⟨0, 0, 0, 0⟩

/-- A transfer leaves no page counted exactly when the pages do not suffice. -/
theorem encodedBenefit_scanned_eq_zero {c : Counters} (hcounts : c.benefit.CountsPages)
    (hbusy : c.uksmPagesScanned ≠ c.uksmPagesScannedLast) :
    (encodedBenefit c).scanned = 0 ↔ ¬c.PagesSuffice := by
  rw [Counters.PagesSuffice]
  by_cases hhalve : c.MustHalve
  · have hpages : (encodedBenefit c).scanned.toNat = c.benefit.scanned.toNat / 2 +
        ((c.uksmPagesScanned - c.uksmPagesScannedLast) >>> c.benefit.base).toNat / 2 := by
      rw [encodedBenefit_of_mustHalve hhalve]
      exact toNat_add_halves _ _
    rw [← UInt64.toNat_inj, hpages, UInt64.le_iff_toNat_le, UInt64.le_iff_toNat_le]
    simp only [UInt64.reduceToNat, hhalve, true_implies]
    omega
  · have hpages : (encodedBenefit c).scanned.toNat = c.benefit.scanned.toNat +
        ((c.uksmPagesScanned - c.uksmPagesScannedLast) >>> c.benefit.base).toNat := by
      rw [encodedBenefit_of_not_mustHalve hhalve]
      rw [Counters.MustHalve, not_or, not_or] at hhalve
      exact toNat_add_of_not_canOverflow hhalve.2.2
    refine iff_of_false ?_ (not_not_intro fun h => absurd h hhalve)
    intro hzero
    -- with no page counted before, the base is 0 and the pending pages are not shifted away
    rw [hzero] at hpages
    have hscanned : c.benefit.scanned = 0 := by
      rw [← UInt64.toNat_inj]
      exact (Nat.add_eq_zero_iff.mp hpages.symm).1
    have hpending : (c.uksmPagesScanned - c.uksmPagesScannedLast) >>> c.benefit.base = 0 := by
      rw [← UInt64.toNat_inj]
      exact (Nat.add_eq_zero_iff.mp hpages.symm).2
    rw [hcounts hscanned, UInt64.shiftRight_zero, scanned_sub_eq_zero] at hpending
    exact hbusy hpending

theorem encodeBenefit_bug_iff {c : Counters} (hcounts : c.benefit.CountsPages) :
    encodeBenefit c = .error .bugOnScanned ↔
      c.uksmPagesScanned ≠ c.uksmPagesScannedLast ∧ ¬c.PagesSuffice := by
  rw [encodeBenefit_eq_error]
  constructor
  · rintro ⟨_, hbusy, hzero⟩
    exact ⟨hbusy, (encodedBenefit_scanned_eq_zero hcounts hbusy).mp hzero⟩
  · rintro ⟨hbusy, hfew⟩
    exact ⟨rfl, hbusy, (encodedBenefit_scanned_eq_zero hcounts hbusy).mpr hfew⟩

theorem encodeBenefit_countsPages {c c' : Counters} {r : Bool} (hcounts : c.benefit.CountsPages)
    (h : encodeBenefit c = .ok (r, c')) : c'.benefit.CountsPages := by
  rcases encodeBenefit_eq_ok.mp h with ⟨_, _, rfl⟩ | ⟨_, _, b, _, hscanned, rfl⟩
  · exact hcounts
  · exact fun hzero => absurd hzero hscanned

/-! ### One counter call -/

/-- The call gets to `encode_benefit`. -/
def CounterCall.Transfers (call : CounterCall) (c : Counters) : Prop :=
  match call with
  | .incUksmPagesScanned => c.uksmPagesScanned = u64Max
  | .incRshashPos delta => canOverflowU64 c.rshashPos delta
  | .incRshashNeg delta => canOverflowU64 c.rshashNeg delta
  | .rshashAdjust => True

/-- If the call transfers pages, they suffice. -/
def CounterCall.PagesSuffice (call : CounterCall) (c : Counters) : Prop :=
  call.Transfers c → c.uksmPagesScanned ≠ c.uksmPagesScannedLast → c.PagesSuffice

theorem transfers_inc {which : Running} {d : UInt64} {c : Counters} :
    (CounterCall.inc which d).Transfers c ↔ canOverflowU64 (c.running which) d := by
  cases which <;> exact Iff.rfl

theorem encodeIfOverflow_eq_error {x d : UInt64} {c : Counters} {f : Fault} :
    encodeIfOverflow x d c = .error f ↔ canOverflowU64 x d ∧ encodeBenefit c = .error f := by
  rw [encodeIfOverflow]
  by_cases hover : canOverflowU64 x d
  · rw [if_pos hover]
    cases he : encodeBenefit c with
    | error f' => simp [hover]
    | ok p => simp [hover]
  · rw [if_neg hover]
    simp [hover]

/-- A call stops exactly where its `encode_benefit` does. -/
theorem call_eq_error (call : CounterCall) {c : Counters} {f : Fault} :
    call.run c = .error f ↔ call.Transfers c ∧ encodeBenefit c = .error f := by
  cases call using CounterCall.cases_inc with
  | scan =>
    show incUksmPagesScanned c = .error f ↔ c.uksmPagesScanned = u64Max ∧ _
    rw [incUksmPagesScanned, bind_eq_error]
    by_cases hfull : c.uksmPagesScanned = u64Max
    · rw [if_pos hfull]
      cases he : encodeBenefit c with
      | error f' => simp [hfull]
      | ok p => simp [hfull, pure, Except.pure]
    · rw [if_neg hfull]
      simp [hfull, pure, Except.pure]
  | inc which delta =>
    rw [run_inc, incRshash, bind_eq_error, encodeIfOverflow_eq_error, transfers_inc]
    simp [pure, Except.pure]
  | adjust =>
    show adjustCounters c = .error f ↔ _
    rw [adjustCounters, bind_eq_error]
    simp [pure, Except.pure, CounterCall.Transfers]

theorem call_bug_iff (call : CounterCall) {c : Counters} (hcounts : c.benefit.CountsPages) :
    call.run c = .error .bugOnScanned ↔ ¬call.PagesSuffice c := by
  rw [call_eq_error call, encodeBenefit_bug_iff hcounts, CounterCall.PagesSuffice]
  simp only [Classical.not_imp]

/-- A guard leaves the benefit as it was, or as a transfer leaves it. -/
theorem encodeIfOverflow_countsPages {x d : UInt64} {c c' : Counters}
    (hcounts : c.benefit.CountsPages) (h : encodeIfOverflow x d c = .ok c') :
    c'.benefit.CountsPages := by
  rcases encodeIfOverflow_eq_ok.mp h with ⟨_, rfl⟩ | ⟨_, r, he⟩
  · exact hcounts
  · exact encodeBenefit_countsPages hcounts he

theorem call_countsPages (call : CounterCall) {c c' : Counters}
    (hcounts : c.benefit.CountsPages) (h : call.run c = .ok c') : c'.benefit.CountsPages := by
  cases call using CounterCall.cases_inc with
  | scan =>
    obtain ⟨c₁, hfound, hbenefit, _⟩ := incUksmPagesScanned_benefit h
    rw [hbenefit]
    rcases hfound with rfl | ⟨r, he⟩
    · exact hcounts
    · exact encodeBenefit_countsPages hcounts he
  | inc which delta =>
    rw [run_inc] at h
    obtain ⟨c₁, hguard, rfl⟩ := incRshash_eq_ok.mp h
    rw [addRunning_benefit]
    exact encodeIfOverflow_countsPages hcounts hguard
  | adjust =>
    rcases adjustCounters_eq_ok h with he | ⟨c₁, _, rfl⟩
    · exact encodeBenefit_countsPages hcounts he
    · exact fun _ => rfl

theorem Counted.countsPages {c c' : Counters} (h : Counted c c')
    (hcounts : c.benefit.CountsPages) : c'.benefit.CountsPages := by
  refine Reaches.keeps (fun c => c.benefit.CountsPages) ?_ h hcounts
  intro c₁ call c₂ hcounts₁ hrun
  exact call_countsPages call hcounts₁ hrun

/-! ### One operation -/

/-- The counter calls that an operation makes, at the current `hash_strength`.  The charges of a
rebuild are left out: the transfer before them has left nothing to transfer. -/
def Op.calls (u : Uksm) : Op → List CounterCall
  | .incUksmPagesScanned => [.incUksmPagesScanned]
  | .incRshashPos delta => [.incRshashPos delta]
  | .incRshashNeg delta => [.incRshashNeg delta]
  | .pageHash _ acc =>
    let s := u.adaptation.hashStrength
    if acc then [.incRshashPos (if s < strengthFull then strengthFull - s else 0)] else []
  | .pageHashMax _ _ => [.incRshashNeg (strengthMax - u.adaptation.hashStrength)]
  | .rmapItemHashMax _ item _ =>
    if item.hashMax = 0 then [.incRshashNeg (strengthMax - u.adaptation.hashStrength)] else []
  | .memcmpPagesWithCost cost _ _ acc => if acc then [.incRshashNeg cost] else []
  | .checkCollision cost _ item _ =>
    let s := u.adaptation.hashStrength
    if item.hashMax ≠ 0 then
      [.incRshashNeg cost, .incRshashNeg (strengthMax - s), .incRshashNeg (strengthMax - s)]
    else
      [.incRshashNeg (cost + s)]
  | .rshashAdjust _ _ _ => [.rshashAdjust]
  | .outside _ => []

/-- A sequence of counter calls. -/
def runCalls (calls : List CounterCall) (c : Counters) : Except Fault Counters :=
  calls.foldlM (fun c call => CounterCall.run call c) c

/-- Whatever an operation transfers on its way, the pages suffice. -/
def Op.PagesSuffice (op : Op) (u : Uksm) : Prop :=
  Along (fun c call => CounterCall.run call c) (fun c call => call.PagesSuffice c) u.counters
    (op.calls u)

theorem runCalls_bug_iff (calls : List CounterCall) {c : Counters}
    (hcounts : c.benefit.CountsPages) :
    runCalls calls c = .error .bugOnScanned ↔
      ¬Along (fun c call => CounterCall.run call c) (fun c call => call.PagesSuffice c) c calls :=
  foldlM_eq_error_iff _ _ (fun c => c.benefit.CountsPages)
    (fun _ call _ hcounts hrun => call_countsPages call hcounts hrun)
    (fun _ call hcounts => call_bug_iff call hcounts) calls c hcounts

section

variable {rb : Balancer ℕ} {randomNums : RandomNums}

theorem runCalls_cons (call : CounterCall) (calls : List CounterCall) (c : Counters) :
    runCalls (call :: calls) c = call.run c >>= runCalls calls := List.foldlM_cons

theorem runCalls_single (call : CounterCall) (c : Counters) : runCalls [call] c = call.run c := by
  rw [runCalls_cons]
  exact bind_pure _

theorem pageHash_calls (page : Page) (s : UInt64) (acc : Bool) (c : Counters) :
    Prod.snd <$> pageHash randomNums page s acc c =
      runCalls (if acc then [.incRshashPos (if s < strengthFull then strengthFull - s else 0)]
        else []) c := by
  rw [pageHash]
  by_cases hacc : acc = true
  · rw [if_pos hacc, if_pos hacc, runCalls_single, CounterCall.run]
    exact map_bind_eq_self fun _ => rfl
  · rw [if_neg hacc, if_neg hacc]
    rfl

theorem pageHashMax_calls (s : UInt64) (page : Page) (hashOld : UInt32) (c : Counters) :
    Prod.snd <$> pageHashMax randomNums s page hashOld c =
      runCalls [.incRshashNeg (strengthMax - s)] c := by
  rw [pageHashMax, runCalls_single, CounterCall.run]
  exact map_bind_eq_self fun _ => rfl

theorem memcmpPagesWithCost_calls (cost : UInt64) (page1 page2 : Page) (acc : Bool)
    (c : Counters) :
    Prod.snd <$> memcmpPagesWithCost cost page1 page2 acc c =
      runCalls (if acc then [.incRshashNeg cost] else []) c := by
  rw [memcmpPagesWithCost]
  by_cases hacc : acc = true
  · rw [if_pos hacc, if_pos hacc, runCalls_single, CounterCall.run]
    exact map_bind_eq_self fun _ => rfl
  · rw [if_neg hacc, if_neg hacc]
    rfl

theorem rmapItemHashMax_calls (s : UInt64) (page : Page) (item : RmapItem) (hash : UInt32)
    (c : Counters) :
    (fun p => p.2.2) <$> rmapItemHashMax randomNums s page item hash c =
      runCalls (if item.hashMax = 0 then [.incRshashNeg (strengthMax - s)] else []) c := by
  have hcalls : Prod.snd <$> pageHashMax randomNums s page hash c =
      runCalls [.incRshashNeg (strengthMax - s)] c := pageHashMax_calls s page hash c
  rw [rmapItemHashMax]
  by_cases hzero : item.hashMax = 0
  · rw [if_pos hzero, if_pos hzero, ← hcalls]
    cases pageHashMax randomNums s page hash c with
    | error f => rfl
    | ok p => rfl
  · rw [if_neg hzero, if_neg hzero]
    rfl

theorem checkCollision_calls (s cost : UInt64) (page : Page) (item : RmapItem) (hash : UInt32)
    (c : Counters) :
    Prod.snd <$> checkCollision randomNums s cost page item hash c =
      runCalls (if item.hashMax ≠ 0 then [.incRshashNeg cost, .incRshashNeg (strengthMax - s),
          .incRshashNeg (strengthMax - s)]
        else [.incRshashNeg (cost + s)]) c := by
  rw [checkCollision]
  by_cases hcached : item.hashMax ≠ 0
  · rw [if_pos hcached, if_pos hcached, runCalls_cons, CounterCall.run]
    refine map_bind_eq fun c₁ => ?_
    rw [runCalls_cons, CounterCall.run]
    refine map_bind_eq fun c₂ => ?_
    have hcalls : Prod.snd <$> pageHashMax randomNums s page hash c₂ =
        runCalls [.incRshashNeg (strengthMax - s)] c₂ := pageHashMax_calls s page hash c₂
    rw [← hcalls]
    cases pageHashMax randomNums s page hash c₂ with
    | error f => rfl
    | ok p => rfl
  · rw [if_neg hcached, if_neg hcached, runCalls_single, CounterCall.run]
    exact map_bind_eq_self fun _ => rfl

/-- An operation that only counts makes its counter calls and nothing else. -/
theorem Op.run_calls {op : Op} (h : op.Counts) (u : Uksm) :
    op.run rb randomNums u = u.counted (runCalls (op.calls u) u.counters) := by
  cases op with
  | incUksmPagesScanned => rw [Op.run, Op.calls, runCalls_single, CounterCall.run]
  | incRshashPos delta => rw [Op.run, Op.calls, runCalls_single, CounterCall.run]
  | incRshashNeg delta => rw [Op.run, Op.calls, runCalls_single, CounterCall.run]
  | pageHash page acc => rw [Op.run, Op.calls, pageHash_calls]
  | pageHashMax page hashOld => rw [Op.run, Op.calls, pageHashMax_calls]
  | rmapItemHashMax page item hash => rw [Op.run, Op.calls, rmapItemHashMax_calls]
  | memcmpPagesWithCost cost page1 page2 acc => rw [Op.run, Op.calls, memcmpPagesWithCost_calls]
  | checkCollision cost page item hash => rw [Op.run, Op.calls, checkCollision_calls]
  | rshashAdjust round pageAt choices => exact h.elim
  | outside tree => exact h.elim

/-- The rebuild has nothing to transfer, so only the transfer before it can fail the assertion. -/
theorem rshashAdjust_bug_iff {pageAt : ℕ → Page} {u : Uksm} (round : UInt64)
    (choices : ℕ → Choice) (hrange : RangeInv u.adaptation) :
    rshashAdjust rb randomNums round pageAt choices u = .error .bugOnScanned ↔
      encodeBenefit u.counters = .error .bugOnScanned := by
  constructor
  · intro h
    by_contra hencodes
    have hmeets : Meets (fun f => f ≠ .bugOnScanned) (fun _ => True)
        (rshashAdjust rb randomNums round pageAt choices u) := by
      refine rshashAdjust_meets round choices hrange ?_ (fun _ => True.intro) ?_
      · rintro ⟨f, hf⟩
        rw [(encodeBenefit_eq_error.mp hf).1] at hf
        exact absurd hf hencodes
      · intro c a he _ _
        refine ⟨fun _ => True.intro, fun _ => ?_⟩
        refine (stableTreeDeltaHash_charges _ choices u.tree (resetBenefit c)).mono ?_
          fun _ _ => True.intro
        intro f hf hbug
        exact hf.2.2 hbug (resetBenefit_quiet he)
    exact hmeets.of_error h rfl
  · intro h
    rw [rshashAdjust, h]
    rfl

/-- The assertion fails in an operation exactly when the pages do not suffice there. -/
theorem Op.bug_iff (op : Op) {u : Uksm} (hrange : RangeInv u.adaptation)
    (hcounts : u.counters.benefit.CountsPages) :
    op.run rb randomNums u = .error .bugOnScanned ↔ ¬op.PagesSuffice u := by
  rcases op.counts_or with hop | ⟨round, pageAt, choices, rfl⟩ | ⟨tree, rfl⟩
  · rw [Op.run_calls hop, Uksm.counted, map_eq_error]
    exact runCalls_bug_iff _ hcounts
  · rw [Op.run, map_eq_error, rshashAdjust_bug_iff round choices hrange,
      encodeBenefit_bug_iff hcounts, ← Classical.not_imp]
    refine not_congr ⟨fun h => ⟨fun _ => h, fun _ _ => True.intro⟩, fun h => h.1 True.intro⟩
  · refine iff_of_false ?_ (not_not_intro True.intro)
    intro h
    cases h

/-! ### A run -/

/-- The invariant: the adaptation is in range, and a benefit without pages is empty. -/
def CountInv (u : Uksm) : Prop := RangeInv u.adaptation ∧ u.counters.benefit.CountsPages

theorem Op.run_countInv (op : Op) {u u' : Uksm} (hinv : CountInv u)
    (h : op.run rb randomNums u = .ok u') : CountInv u' := by
  have hcounted : Counted u.counters u'.counters := (op.run_counted u hinv.1).of_ok h
  exact ⟨(op.run_rangeInv u hinv.1).of_ok h, hcounted.countsPages hinv.2⟩

end

/-- In every run, the assertion of `encode_benefit` never fails exactly when the pages suffice in
every operation; and whatever the run, a transfer that returns leaves pages counted, so that
`rshash_adjust` evaluates the benefit it has encoded without a division by zero. -/
theorem run_counts_pages (rb : Balancer ℕ) (randomNums : RandomNums) (ops : List Op) :
    (run rb randomNums ops ≠ .error .bugOnScanned ↔
      Along (fun u op => op.run rb randomNums u) (fun u op => op.PagesSuffice u) initialUksm ops) ∧
    Meets (fun f => f ≠ .divideByZero)
      (fun u => ∀ c, encodeBenefit u.counters = .ok (true, c) → c.benefit.scanned ≠ 0 ∧
        ∀ round, ∃ a, adjustState round c.benefit u.adaptation = .ok a)
      (run rb randomNums ops) := by
  constructor
  · have hbug := foldlM_eq_error_iff (fun u op => Op.run rb randomNums op u)
      (fun u op => op.PagesSuffice u) CountInv
      (fun _ op _ hinv hrun => op.run_countInv hinv hrun)
      (fun _ op hinv => op.bug_iff hinv.1 hinv.2) ops initialUksm ⟨rangeInv_initial, fun _ => rfl⟩
    exact (not_congr hbug).trans Classical.not_not
  · refine (run_keepsRange ops).mono (fun _ hf => hf.2) ?_
    intro u hrange c he
    have hscanned := encodeBenefit_scanned_ne_zero he
    refine ⟨hscanned, fun round => ?_⟩
    obtain ⟨a, ha, _⟩ := (adjustState_meets round u.adaptation hscanned hrange.named).exists_ok
    exact ⟨a, ha⟩

/-- One `memcmp` of the largest cost that `cal_positive_negative_costs` can store. -/
def costlyMemcmp : Op := .memcmpPagesWithCost (u64Max / 100) 0 0 true

/-- A page is scanned and 101 comparisons fill `rshash_neg`, then another page is scanned and 100
comparisons fill it again.  The second transfer finds one page counted and one pending, halves both
to nothing and fails the assertion. -/
theorem run_loses_pages :
    run (Balancer.plain ℕ) id (.incUksmPagesScanned :: List.replicate 101 costlyMemcmp ++
      .incUksmPagesScanned :: List.replicate 100 costlyMemcmp) = .error .bugOnScanned := by
  have hstop : (fun u => u.counters) <$> run (Balancer.plain ℕ) id
      (.incUksmPagesScanned :: List.replicate 101 costlyMemcmp ++
        .incUksmPagesScanned :: List.replicate 100 costlyMemcmp) = .error .bugOnScanned := by
    decide +kernel
  exact map_eq_error.mp hstop

end DirtyPages
