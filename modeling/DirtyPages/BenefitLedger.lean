import DirtyPages.Benefit

/-!
# What the benefit counters record

A ledger keeps, next to a run of the four counter operations, the exact sums of the amounts passed
to `inc_rshash_pos` and `inc_rshash_neg` since the last effective `rshash_adjust`, as natural
numbers, and whether `benefit.base` has been 0 ever since.

The guard of the two increments relies on `encode_benefit` emptying the counter, but
`encode_benefit` leaves early when no page was scanned since its last transfer.  A call is covered
when this cannot happen to it.  In a run of covered calls nothing is lost; a call that is not
covered wraps its counter.
-/

namespace DirtyPages

open Outcome

/-- A call of one of the four operations on the counters.  Of `rshash_adjust` this is the transfer
and the reset; the calls of `inc_rshash_neg` from inside its tree rebuild are calls of their own. -/
inductive CounterCall
  | incUksmPagesScanned
  | incRshashPos (delta : UInt64)
  | incRshashNeg (delta : UInt64)
  | rshashAdjust
  deriving DecidableEq, Repr

/-- `encode_benefit()` followed, when it was effective, by `reset_benefit()`. -/
def adjustCounters (c : Counters) : Except Fault Counters := do
  let p ← encodeBenefit c
  return if p.1 then resetBenefit p.2 else p.2

/-- The effect of a call on the counters. -/
def CounterCall.run : CounterCall → Counters → Except Fault Counters
  | .incUksmPagesScanned, c => DirtyPages.incUksmPagesScanned c
  | .incRshashPos delta, c => DirtyPages.incRshashPos delta c
  | .incRshashNeg delta, c => DirtyPages.incRshashNeg delta c
  | .rshashAdjust, c => adjustCounters c

/-- The counters change by a sequence of calls. -/
def Counted (c c' : Counters) : Prop := Reaches (fun c call => CounterCall.run call c) c c'

/-- The sums passed since the last effective `rshash_adjust`, and whether the base stayed 0. -/
@[ext] structure Ledger where
  pos : ℕ
  neg : ℕ
  baseStayedZero : Bool
  deriving DecidableEq, Repr

/-- The ledger after a call that leads from `c` to `c'`. -/
def CounterCall.record (call : CounterCall) (c c' : Counters) (l : Ledger) : Ledger :=
  match call with
  | .incUksmPagesScanned => { l with baseStayedZero := l.baseStayedZero && c'.benefit.base == 0 }
  | .incRshashPos delta =>
    { l with
      pos := l.pos + delta.toNat
      baseStayedZero := l.baseStayedZero && c'.benefit.base == 0 }
  | .incRshashNeg delta =>
    { l with
      neg := l.neg + delta.toNat
      baseStayedZero := l.baseStayedZero && c'.benefit.base == 0 }
  | .rshashAdjust =>
    if c.uksmPagesScanned = c.uksmPagesScannedLast then l else ⟨0, 0, c'.benefit.base == 0⟩

/-- One call, with the ledger kept alongside. -/
def auditedCall (s : Counters × Ledger) (call : CounterCall) : Except Fault (Counters × Ledger) :=
  (fun c' => (c', call.record s.1 c' s.2)) <$> call.run s.1

/-- The initial counters and an empty ledger. -/
def auditStart : Counters × Ledger := (initialCounters, ⟨0, 0, true⟩)

/-- A run of calls from the initial counters. -/
def auditedRun (calls : List CounterCall) : Except Fault (Counters × Ledger) :=
  calls.foldlM auditedCall auditStart

/-- An increment that does not fit its counter finds pages scanned since the last transfer. -/
def CounterCall.Covered (call : CounterCall) (c : Counters) : Prop :=
  match call with
  | .incRshashPos delta =>
    canOverflowU64 c.rshashPos delta → c.uksmPagesScanned ≠ c.uksmPagesScannedLast
  | .incRshashNeg delta =>
    canOverflowU64 c.rshashNeg delta → c.uksmPagesScanned ≠ c.uksmPagesScannedLast
  | _ => True

instance (call : CounterCall) (c : Counters) : Decidable (call.Covered c) :=
  match call with
  | .incUksmPagesScanned => inferInstanceAs (Decidable True)
  | .incRshashPos _ => inferInstanceAs (Decidable (_ → _))
  | .incRshashNeg _ => inferInstanceAs (Decidable (_ → _))
  | .rshashAdjust => inferInstanceAs (Decidable True)

/-- Every call of a run from `s` is covered in the state it meets. -/
def CoveredFrom (s : Counters × Ledger) : List CounterCall → Prop
  | [] => True
  | call :: calls =>
    call.Covered s.1 ∧ ∀ s' ∈ (auditedCall s call).toOption, CoveredFrom s' calls

instance decidableCoveredFrom : ∀ s calls, Decidable (CoveredFrom s calls)
  | _, [] => inferInstanceAs (Decidable True)
  | s, call :: calls =>
    have : DecidablePred fun s' => CoveredFrom s' calls := fun s' => decidableCoveredFrom s' calls
    inferInstanceAs (Decidable (call.Covered s.1 ∧
      ∀ s' ∈ (auditedCall s call).toOption, CoveredFrom s' calls))

/-- The running counter that an increment adds to did not wrap: it is at least what was added. -/
def CounterCall.DidNotWrap (call : CounterCall) (c' : Counters) : Prop :=
  match call with
  | .incRshashPos delta => delta ≤ c'.rshashPos
  | .incRshashNeg delta => delta ≤ c'.rshashNeg
  | _ => True

/-! ### One transfer at base 0 -/

/-- At base 0 the amounts are transferred unshifted, before a possible halving. -/
theorem encodedBenefit_at_zero {c : Counters} (hb : c.benefit.base = 0) :
    encodedBenefit c =
      if canOverflowU64 c.benefit.pos c.rshashPos ∨ canOverflowU64 c.benefit.neg c.rshashNeg ∨
          canOverflowU64 c.benefit.scanned (c.uksmPagesScanned - c.uksmPagesScannedLast) then
        c.benefit.halve.add (c.rshashPos >>> 1) (c.rshashNeg >>> 1)
          ((c.uksmPagesScanned - c.uksmPagesScannedLast) >>> 1)
      else
        c.benefit.add c.rshashPos c.rshashNeg (c.uksmPagesScanned - c.uksmPagesScannedLast) := by
  simp only [encodedBenefit, hb, UInt64.shiftRight_zero]

/-- An effective transfer that leaves the base at 0 found it at 0 and halved nothing. -/
theorem encodedBenefit_of_base_zero {c : Counters} (hb : c.benefit.base = 0)
    (hb' : (encodedBenefit c).base = 0) :
    (encodedBenefit c).pos.toNat = c.benefit.pos.toNat + c.rshashPos.toNat ∧
      (encodedBenefit c).neg.toNat = c.benefit.neg.toNat + c.rshashNeg.toNat := by
  have hone : ¬((0 : UInt64) + 1 = 0) := by decide
  rw [encodedBenefit_at_zero hb] at hb' ⊢
  split_ifs at hb' ⊢ with hover
  · -- the halving branch moves the base to 1
    rw [Benefit.add, Benefit.halve, hb] at hb'
    exact absurd hb' hone
  · rw [not_or, not_or] at hover
    exact ⟨toNat_add_of_not_canOverflow hover.1, toNat_add_of_not_canOverflow hover.2.1⟩

/-- What a running counter and the benefit hold together. -/
def Counters.held (c : Counters) : Running → ℕ
  | .pos => c.benefit.pos.toNat + c.rshashPos.toNat
  | .neg => c.benefit.neg.toNat + c.rshashNeg.toNat

/-- What was passed to the increment of a running counter. -/
def Ledger.sum (l : Ledger) : Running → ℕ
  | .pos => l.pos
  | .neg => l.neg

/-- The counters balance the ledger as long as the base has stayed 0. -/
def Balanced (c : Counters) (l : Ledger) : Prop :=
  l.baseStayedZero = true →
    c.benefit.base = 0 ∧ c.benefit.pos.toNat + c.rshashPos.toNat = l.pos ∧
      c.benefit.neg.toNat + c.rshashNeg.toNat = l.neg

theorem held_congr {c c' : Counters} {which : Running} (hbenefit : c'.benefit = c.benefit)
    (hrunning : ∀ which, c'.running which = c.running which) : c'.held which = c.held which := by
  cases which with
  | pos => exact congrArg₂ (fun b v => b.pos.toNat + v.toNat) hbenefit (hrunning .pos)
  | neg => exact congrArg₂ (fun b v => b.neg.toNat + v.toNat) hbenefit (hrunning .neg)

theorem balanced_iff {c : Counters} {l : Ledger} :
    Balanced c l ↔
      (l.baseStayedZero = true → c.benefit.base = 0 ∧ ∀ which, c.held which = l.sum which) := by
  constructor
  · intro hbal hzero
    obtain ⟨hb, hpos, hneg⟩ := hbal hzero
    refine ⟨hb, fun which => ?_⟩
    cases which with
    | pos => exact hpos
    | neg => exact hneg
  · intro hbal hzero
    exact ⟨(hbal hzero).1, (hbal hzero).2 .pos, (hbal hzero).2 .neg⟩

/-- A transfer keeps the balance, whatever its outcome, if the base is 0 before and after. -/
theorem encodeBenefit_held {c c' : Counters} {r : Bool} (h : encodeBenefit c = .ok (r, c'))
    (hb : c.benefit.base = 0) (hb' : c'.benefit.base = 0) (which : Running) :
    c'.held which = c.held which := by
  rcases encodeBenefit_eq_ok.mp h with ⟨_, _, rfl⟩ | ⟨_, _, b, hbenefit, _, rfl⟩
  · rfl
  · have hsums := encodedBenefit_of_base_zero hb (hbenefit ▸ hb')
    rw [← hbenefit] at hsums
    cases which with
    | pos => exact hsums.1
    | neg => exact hsums.2

theorem adjustCounters_eq_ok {c c' : Counters} (h : adjustCounters c = .ok c') :
    (encodeBenefit c = .ok (false, c')) ∨
      ∃ c₁, encodeBenefit c = .ok (true, c₁) ∧ c' = resetBenefit c₁ := by
  obtain ⟨⟨r, c₁⟩, he, hc⟩ := bind_eq_ok.mp h
  cases r with
  | false => cases hc; exact Or.inl he
  | true => cases hc; exact Or.inr ⟨c₁, he, rfl⟩

/-- A covered guard found room in the counter, or a transfer emptied both counters. -/
theorem encodeIfOverflow_covered {x d : UInt64} {c c₁ : Counters}
    (h : encodeIfOverflow x d c = .ok c₁)
    (hcov : canOverflowU64 x d → c.uksmPagesScanned ≠ c.uksmPagesScannedLast) :
    (¬canOverflowU64 x d ∧ c₁ = c) ∨
      (encodeBenefit c = .ok (true, c₁) ∧ ∀ which, c₁.running which = 0) := by
  rcases encodeIfOverflow_eq_ok.mp h with hfit | ⟨hover, r, he⟩
  · exact Or.inl hfit
  · right
    rcases encodeBenefit_eq_ok.mp he with ⟨_, hlast, _⟩ | ⟨hr, _, b, _, _, hc⟩
    · exact absurd hlast (hcov hover)
    · subst hr hc
      refine ⟨he, fun which => ?_⟩
      cases which <;> rfl

/-- With nothing scanned since the last transfer the guard does nothing, fire or not. -/
theorem encodeIfOverflow_uncovered {x d : UInt64} {c c₁ : Counters}
    (h : encodeIfOverflow x d c = .ok c₁) (hlast : c.uksmPagesScanned = c.uksmPagesScannedLast) :
    c₁ = c := by
  rcases encodeIfOverflow_eq_ok.mp h with ⟨_, hc⟩ | ⟨_, r, he⟩
  · exact hc
  · rcases encodeBenefit_eq_ok.mp he with ⟨_, _, hc⟩ | ⟨_, hne, _⟩
    · exact hc
    · exact absurd hlast hne

/-- The increments are the calls of one guarded addition. -/
def CounterCall.inc : Running → UInt64 → CounterCall
  | .pos, delta => .incRshashPos delta
  | .neg, delta => .incRshashNeg delta

/-- Every call scans a page, increments a running counter, or adjusts. -/
@[elab_as_elim] theorem CounterCall.cases_inc {motive : CounterCall → Prop}
    (scan : motive .incUksmPagesScanned) (inc : ∀ which delta, motive (.inc which delta))
    (adjust : motive .rshashAdjust) (call : CounterCall) : motive call := by
  cases call with
  | incUksmPagesScanned => exact scan
  | incRshashPos delta => exact inc .pos delta
  | incRshashNeg delta => exact inc .neg delta
  | rshashAdjust => exact adjust

section Increment

variable {which : Running} {d : UInt64} {c c' : Counters} {l : Ledger}

theorem run_inc : (CounterCall.inc which d).run c = incRshash which d c := by
  cases which <;> rfl

theorem covered_inc : (CounterCall.inc which d).Covered c ↔
    (canOverflowU64 (c.running which) d → c.uksmPagesScanned ≠ c.uksmPagesScannedLast) := by
  cases which <;> exact Iff.rfl

theorem didNotWrap_inc : (CounterCall.inc which d).DidNotWrap c' ↔ d ≤ c'.running which := by
  cases which <;> exact Iff.rfl

theorem record_inc_base : ((CounterCall.inc which d).record c c' l).baseStayedZero =
    (l.baseStayedZero && c'.benefit.base == 0) := by
  cases which <;> rfl

theorem record_inc_sum (other : Running) : ((CounterCall.inc which d).record c c' l).sum other =
    l.sum other + if other = which then d.toNat else 0 := by
  cases which <;> cases other <;> rfl

/-- An increment adds exactly what it was passed, unless it is not covered. -/
theorem incRshash_exact (h : incRshash which d c = .ok c')
    (hcov : (CounterCall.inc which d).Covered c) :
    ∃ c₁, (c₁ = c ∨ ∃ r, encodeBenefit c = .ok (r, c₁)) ∧
      (c'.running which).toNat = (c₁.running which).toNat + d.toNat ∧
      c' = c₁.addRunning d which := by
  obtain ⟨c₁, hg, rfl⟩ := incRshash_eq_ok.mp h
  rw [addRunning_running]
  rcases encodeIfOverflow_covered hg (covered_inc.mp hcov) with ⟨hfit, rfl⟩ | ⟨he, hzero⟩
  · exact ⟨c₁, Or.inl rfl, toNat_add_of_not_canOverflow hfit, rfl⟩
  · refine ⟨c₁, Or.inr ⟨true, he⟩, ?_, rfl⟩
    rw [hzero, UInt64.zero_add, UInt64.toNat_zero, Nat.zero_add]

/-- An exact addition goes to the sum of its counter alone. -/
theorem addRunning_held
    (hadd : ((c.addRunning d which).running which).toNat = (c.running which).toNat + d.toNat)
    (other : Running) : (c.addRunning d which).held other =
      c.held other + if other = which then d.toNat else 0 := by
  cases which with
  | pos =>
    cases other with
    | pos => exact (congrArg (c.benefit.pos.toNat + ·) hadd).trans (Nat.add_assoc _ _ _).symm
    | neg => rfl
  | neg =>
    cases other with
    | pos => rfl
    | neg => exact (congrArg (c.benefit.neg.toNat + ·) hadd).trans (Nat.add_assoc _ _ _).symm

end Increment

/-! ### One call and a run of calls -/

/-- A page-scan call leaves the pending amounts where an effective or idle transfer puts them. -/
theorem incUksmPagesScanned_benefit {c c' : Counters} (h : incUksmPagesScanned c = .ok c') :
    ∃ c₁, (c₁ = c ∨ ∃ r, encodeBenefit c = .ok (r, c₁)) ∧ c'.benefit = c₁.benefit ∧
      ∀ which, c'.running which = c₁.running which := by
  rcases incUksmPagesScanned_eq_ok.mp h with ⟨_, rfl⟩ | ⟨_, r, c₁, s, he, hs, rfl⟩
  · refine ⟨c, Or.inl rfl, rfl, fun which => ?_⟩
    cases which <;> rfl
  · refine ⟨c₁, Or.inr ⟨r, he⟩, ?_, fun which => ?_⟩
    · show s.benefit = c₁.benefit
      rw [hs, storePagesScanned_benefit]
    · rw [← storePagesScanned_running c₁, ← hs]
      cases which <;> rfl

/-- Where the call found the counters: as they were, or after a transfer that kept the sums. -/
theorem held_before {c c₁ : Counters} (h : c₁ = c ∨ ∃ r, encodeBenefit c = .ok (r, c₁))
    (hb : c.benefit.base = 0) (hb₁ : c₁.benefit.base = 0) (which : Running) :
    c₁.held which = c.held which := by
  rcases h with rfl | ⟨r, he⟩
  · rfl
  · exact encodeBenefit_held he hb hb₁ which

theorem balanced_call {c c' : Counters} {l : Ledger} {call : CounterCall} (hbal : Balanced c l)
    (hcov : call.Covered c) (h : call.run c = .ok c') : Balanced c' (call.record c c' l) := by
  cases call using CounterCall.cases_inc with
  | scan =>
    rw [balanced_iff]
    intro hzero
    simp only [CounterCall.record, Bool.and_eq_true, beq_iff_eq] at hzero
    obtain ⟨hb, hheld⟩ := balanced_iff.mp hbal hzero.1
    obtain ⟨c₁, hfound, hbenefit, hrunning⟩ := incUksmPagesScanned_benefit h
    refine ⟨hzero.2, fun which => ?_⟩
    rw [held_congr hbenefit hrunning, held_before hfound hb (by rw [← hbenefit]; exact hzero.2),
      hheld]
    cases which <;> rfl
  | inc which d =>
    rw [balanced_iff]
    intro hzero
    rw [record_inc_base, Bool.and_eq_true, beq_iff_eq] at hzero
    obtain ⟨hb, hheld⟩ := balanced_iff.mp hbal hzero.1
    rw [run_inc] at h
    obtain ⟨c₁, hfound, hadd, rfl⟩ := incRshash_exact h hcov
    rw [addRunning_benefit] at hzero ⊢
    refine ⟨hzero.2, fun other => ?_⟩
    rw [addRunning_held hadd, record_inc_sum, held_before hfound hb hzero.2, hheld]
  | adjust =>
    rcases adjustCounters_eq_ok h with he | ⟨c₁, he, rfl⟩
    · rcases encodeBenefit_eq_ok.mp he with ⟨_, hlast, rfl⟩ | ⟨hr, _⟩
      · simpa only [CounterCall.record, hlast, if_true] using hbal
      · cases hr
    · rcases encodeBenefit_eq_ok.mp he with ⟨hr, _⟩ | ⟨_, hlast, b, _, _, rfl⟩
      · cases hr
      · intro _
        simp only [CounterCall.record, hlast, if_false]
        exact ⟨rfl, rfl, rfl⟩

theorem balanced_of_coveredFrom (calls : List CounterCall) (s : Counters × Ledger)
    (hcov : CoveredFrom s calls) (hbal : Balanced s.1 s.2) {c : Counters} {l : Ledger}
    (h : calls.foldlM auditedCall s = .ok (c, l)) : Balanced c l := by
  induction calls generalizing s with
  | nil =>
    cases h
    exact hbal
  | cons call calls ih =>
    rw [List.foldlM_cons] at h
    obtain ⟨s', hcall, hrest⟩ := bind_eq_ok.mp h
    have hcov' : CoveredFrom s' calls := hcov.2 s' (by rw [hcall]; rfl)
    refine ih s' hcov' ?_ hrest
    cases hrun : call.run s.1 with
    | error f => rw [auditedCall, hrun] at hcall; cases hcall
    | ok c' =>
      rw [auditedCall, hrun] at hcall
      cases hcall
      exact balanced_call hbal hcov.1 hrun

/-- An increment wraps its counter exactly when it is not covered. -/
theorem didNotWrap_iff_covered {call : CounterCall} {c c' : Counters} (h : call.run c = .ok c') :
    call.DidNotWrap c' ↔ call.Covered c := by
  cases call using CounterCall.cases_inc with
  | scan => exact Iff.rfl
  | adjust => exact Iff.rfl
  | inc which d =>
    rw [run_inc] at h
    rw [didNotWrap_inc]
    constructor
    · rw [covered_inc]
      intro hle hover hlast
      obtain ⟨c₁, hg, rfl⟩ := incRshash_eq_ok.mp h
      have hsame := encodeIfOverflow_uncovered hg hlast
      subst hsame
      rw [addRunning_running] at hle
      exact not_le_add_of_canOverflow hover hle
    · intro hcov
      obtain ⟨c₁, _, hadd, _⟩ := incRshash_exact h hcov
      rw [UInt64.le_iff_toNat_le, hadd]
      exact Nat.le_add_left _ _

/-! ### Calls that count -/

theorem adjustCounters_meets (c : Counters) :
    Meets OnlyBugOnScanned (fun _ => True) (adjustCounters c) := by
  rw [adjustCounters]
  cases he : encodeBenefit c with
  | error f => exact (encodeBenefit_eq_error.mp he).1
  | ok p => exact True.intro

/-- A call counts, or stops in the assertion of `encode_benefit`. -/
theorem CounterCall.run_meets (call : CounterCall) (c : Counters) :
    Meets OnlyBugOnScanned (Counted c) (call.run c) := by
  have hstop : Meets OnlyBugOnScanned (fun _ => True) (call.run c) := by
    cases call using CounterCall.cases_inc with
    | scan => exact incUksmPagesScanned_meets c
    | inc which d =>
      rw [run_inc]
      exact incRshash_meets which d c
    | adjust => exact adjustCounters_meets c
  cases hrun : call.run c with
  | error f => exact hstop.of_error hrun
  | ok c' => exact Reaches.single (o := call) hrun

theorem incRshash_counted (which : Running) (d : UInt64) (c : Counters) :
    Meets OnlyBugOnScanned (Counted c) (incRshash which d c) := by
  rw [← run_inc]
  exact (CounterCall.inc which d).run_meets c

/-- A sequence of calls can be audited from any ledger on. -/
theorem exists_audit {calls : List CounterCall} {c c' : Counters} (l : Ledger)
    (h : calls.foldlM (fun c call => call.run c) c = .ok c') :
    ∃ l', calls.foldlM auditedCall (c, l) = .ok (c', l') := by
  induction calls generalizing c l with
  | nil =>
    cases h
    exact ⟨l, rfl⟩
  | cons call calls ih =>
    rw [List.foldlM_cons] at h
    obtain ⟨c₁, hcall, hrest⟩ := bind_eq_ok.mp h
    obtain ⟨l', hl'⟩ := ih (call.record c c₁ l) hrest
    refine ⟨l', ?_⟩
    rw [List.foldlM_cons, auditedCall, hcall]
    exact hl'

/-- Whatever counts can be audited, and balances if the calls are covered. -/
theorem Counted.audited {c : Counters} (h : Counted initialCounters c) :
    ∃ calls l, auditedRun calls = .ok (c, l) ∧ (CoveredFrom auditStart calls → Balanced c l) := by
  obtain ⟨calls, hrun⟩ := h
  obtain ⟨l, hl⟩ := exists_audit ⟨0, 0, true⟩ hrun
  refine ⟨calls, l, hl, ?_⟩
  intro hcov
  exact balanced_of_coveredFrom calls auditStart hcov (fun _ => ⟨rfl, rfl, rfl⟩) hl

/-! ### The main result -/

/-- In every run of covered calls, as long as the base has stayed 0, the counters hold the exact
sums of the ledger; and in the state reached any further increment wraps its counter exactly when
that increment is not covered. -/
theorem benefit_sums_exact (calls : List CounterCall) (hcov : CoveredFrom auditStart calls)
    (c : Counters) (l : Ledger) (h : auditedRun calls = .ok (c, l)) :
    (l.baseStayedZero = true →
      c.benefit.pos.toNat + c.rshashPos.toNat = l.pos ∧
        c.benefit.neg.toNat + c.rshashNeg.toNat = l.neg) ∧
    ∀ call c', CounterCall.run call c = .ok c' → (call.DidNotWrap c' ↔ call.Covered c) := by
  have hstart : Balanced auditStart.1 auditStart.2 := fun _ => ⟨rfl, rfl, rfl⟩
  have hbal := balanced_of_coveredFrom calls auditStart hcov hstart h
  exact ⟨fun hzero => (hbal hzero).2, fun call c' hrun => didNotWrap_iff_covered hrun⟩

/-- A covered increment near the limit: the counter holding `2 ^ 64 - 1` is transferred first. -/
theorem benefit_sums_exact_near_limit :
    let calls : List CounterCall := [.incUksmPagesScanned, .incRshashPos u64Max, .incRshashPos 7]
    ∃ c l, auditedRun calls = .ok (c, l) ∧ l.baseStayedZero = true ∧
      c.benefit.pos.toNat + c.rshashPos.toNat = l.pos := by
  intro calls
  refine ⟨⟨7, 0, ⟨u64Max, 0, 1, 0⟩, 1, 1, 0, 0⟩, ⟨2 ^ 64 + 6, 0, true⟩, by decide +kernel, rfl, ?_⟩
  exact ((benefit_sums_exact calls (by decide +kernel) _ _ (by decide +kernel)).1 rfl).1

/-- With no page scanned the transfer is skipped, and the second increment wraps `rshash_pos` to 0
while `2 ^ 64` units were passed and the base has stayed 0. -/
theorem benefit_sums_lost :
    ∃ c l, auditedRun [.incRshashPos u64Max, .incRshashPos 1] = .ok (c, l) ∧
      l.baseStayedZero = true ∧ c.benefit.pos.toNat + c.rshashPos.toNat ≠ l.pos ∧
      c.rshashPos = 0 ∧ l.pos = 2 ^ 64 := by
  refine ⟨initialCounters, ⟨2 ^ 64, 0, true⟩, by decide +kernel, rfl, by decide, rfl, rfl⟩

end DirtyPages
