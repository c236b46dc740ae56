import DirtyPages.BenefitLedger
import DirtyPages.NegRatio
import DirtyPages.PagesScanned
import DirtyPages.Lib.ScaledTotal

/-!
# What the totals stand for over whole rounds

A round is what happens between two effective calls of `rshash_adjust`.  Next to a run, the exact
sums of the round are kept as natural numbers.  The three totals of `benefit` stand for these sums
however often `encode_benefit` has halved them; so the percentage that `rshash_adjust` judges by is
the percentage of the exact sums, up to an error that is not there before a sum exceeds 64 bits and
is negligible afterwards.
-/

namespace DirtyPages

open Outcome ScaledTotal

/-! ### The exact sums -/

/-- The exact sums of a round, and how many calls it took. -/
@[ext] structure Totals where
  pos : ℕ
  neg : ℕ
  pages : ℕ
  calls : ℕ
  deriving DecidableEq, Repr

/-- The sums after a call that finds the counters `c`. -/
def CounterCall.addTo (call : CounterCall) (c : Counters) (t : Totals) : Totals :=
  match call with
  | .incUksmPagesScanned => { t with pages := t.pages + 1, calls := t.calls + 1 }
  | .incRshashPos delta => { t with pos := t.pos + delta.toNat, calls := t.calls + 1 }
  | .incRshashNeg delta => { t with neg := t.neg + delta.toNat, calls := t.calls + 1 }
  | .rshashAdjust =>
    if c.uksmPagesScanned = c.uksmPagesScannedLast then { t with calls := t.calls + 1 }
    else ⟨0, 0, 0, 0⟩

/-- One call, with the sums kept alongside. -/
def totalledCall (s : Counters × Totals) (call : CounterCall) : Except Fault (Counters × Totals) :=
  (fun c' => (c', call.addTo s.1 s.2)) <$> call.run s.1

/-- The initial counters and a new round. -/
def totalsStart : Counters × Totals := (initialCounters, ⟨0, 0, 0, 0⟩)

/-- The call does not wrap its counter, and the round has not taken 2^63 calls. -/
def Orderly (s : Counters × Totals) (call : CounterCall) : Prop :=
  call.Covered s.1 ∧ s.2.calls < 2 ^ 63

instance (s : Counters × Totals) (call : CounterCall) : Decidable (Orderly s call) :=
  inferInstanceAs (Decidable (_ ∧ _))

/-- The largest of the three sums. -/
def Totals.largest (t : Totals) : ℕ := max t.pos (max t.neg t.pages)

/-! ### The invariant -/

/-- The pages that wait for a transfer. -/
def Counters.pendingPages (c : Counters) : ℕ :=
  c.uksmPagesScanned.toNat - c.uksmPagesScannedLast.toNat

/-- The counters `c` record the sums `t` of the round.  `sent` holds what the transfers of the round
have moved, and their number. -/
structure Recorded (c : Counters) (t sent : Totals) : Prop where
  last_le : c.uksmPagesScannedLast ≤ c.uksmPagesScanned
  pos : Stands c.benefit.base.toNat c.benefit.pos.toNat sent.pos sent.calls
  neg : Stands c.benefit.base.toNat c.benefit.neg.toNat sent.neg sent.calls
  pages : Stands c.benefit.base.toNat c.benefit.scanned.toNat sent.pages sent.calls
  pos_sum : t.pos = sent.pos + c.rshashPos.toNat
  neg_sum : t.neg = sent.neg + c.rshashNeg.toNat
  pages_sum : t.pages = sent.pages + c.pendingPages
  transfers : sent.calls ≤ sent.pages
  earned : c.benefit.base ≠ 0 → 2 ^ (63 + c.benefit.base.toNat) ≤ sent.largest
  amounts : t.pos + t.calls ≤ t.calls * 2 ^ 64 ∧ t.neg + t.calls ≤ t.calls * 2 ^ 64 ∧
    t.pages ≤ t.calls
  calls_le : t.calls ≤ 2 ^ 63

section Invariant

variable {c c' : Counters} {t sent : Totals}

theorem Recorded.sent_le (h : Recorded c t sent) : sent.largest ≤ t.largest := by
  have hpos := h.pos_sum
  have hneg := h.neg_sum
  have hpages := h.pages_sum
  rw [Totals.largest, Totals.largest]
  omega

/-- A scale is earned by sums that the calls of the round can hardly bring together. -/
theorem Recorded.base_lt (h : Recorded c t sent) : c.benefit.base.toNat < 64 := by
  by_cases hzero : c.benefit.base = 0
  · rw [hzero]
    decide
  · by_contra hlarge
    have hearned : 2 ^ (63 + c.benefit.base.toNat) ≤ t.largest := (h.earned hzero).trans h.sent_le
    have hunit : 2 ^ 127 ≤ 2 ^ (63 + c.benefit.base.toNat) :=
      Nat.pow_le_pow_right Nat.two_pos (by omega)
    have hcalls : t.calls * 2 ^ 64 ≤ 2 ^ 127 := by
      calc t.calls * 2 ^ 64 ≤ 2 ^ 63 * 2 ^ 64 := Nat.mul_le_mul_right _ h.calls_le
        _ = 2 ^ 127 := by rw [← pow_add]
    obtain ⟨hpos, hneg, hpages⟩ := h.amounts
    have hcalls' := h.calls_le
    rw [Totals.largest] at hearned
    omega

/-- A new round. -/
theorem recorded_reset {c : Counters} (hpos : c.rshashPos = 0) (hneg : c.rshashNeg = 0)
    (hlast : c.uksmPagesScannedLast = c.uksmPagesScanned) :
    Recorded (resetBenefit c) ⟨0, 0, 0, 0⟩ ⟨0, 0, 0, 0⟩ where
  last_le := by
    show c.uksmPagesScannedLast ≤ c.uksmPagesScanned
    rw [hlast]
    exact UInt64.le_refl _
  pos := stands_zero
  neg := stands_zero
  pages := stands_zero
  pos_sum := by
    show 0 = 0 + c.rshashPos.toNat
    rw [hpos]
    rfl
  neg_sum := by
    show 0 = 0 + c.rshashNeg.toNat
    rw [hneg]
    rfl
  pages_sum := by
    show 0 = 0 + (c.uksmPagesScanned.toNat - c.uksmPagesScannedLast.toNat)
    rw [hlast, Nat.sub_self]
  transfers := Nat.le_refl 0
  earned h := absurd rfl h
  amounts := ⟨Nat.le_refl 0, Nat.le_refl 0, Nat.le_refl 0⟩
  calls_le := Nat.zero_le _

theorem toNat_pending (h : c.uksmPagesScannedLast ≤ c.uksmPagesScanned) :
    (c.uksmPagesScanned - c.uksmPagesScannedLast).toNat = c.pendingPages :=
  UInt64.toNat_sub_of_le _ _ h

theorem pendingPages_pos (hle : c.uksmPagesScannedLast ≤ c.uksmPagesScanned)
    (hbusy : c.uksmPagesScanned ≠ c.uksmPagesScannedLast) : 1 ≤ c.pendingPages := by
  have hleNat := UInt64.le_iff_toNat_le.mp hle
  have hne : c.uksmPagesScanned.toNat ≠ c.uksmPagesScannedLast.toNat := fun heq =>
    hbusy (UInt64.toNat_inj.mp heq)
  rw [Counters.pendingPages]
  omega

/-- The totals after a transfer of what is pending. -/
theorem Recorded.encoded (h : Recorded c t sent) :
    Stands (encodedBenefit c).base.toNat (encodedBenefit c).pos.toNat t.pos (sent.calls + 1) ∧
      Stands (encodedBenefit c).base.toNat (encodedBenefit c).neg.toNat t.neg (sent.calls + 1) ∧
      Stands (encodedBenefit c).base.toNat (encodedBenefit c).scanned.toNat t.pages
        (sent.calls + 1) ∧
      ((encodedBenefit c).base ≠ 0 →
        2 ^ (63 + (encodedBenefit c).base.toNat) ≤ t.largest) := by
  have hpending := toNat_pending h.last_le
  rw [h.pos_sum, h.neg_sum, h.pages_sum]
  by_cases hover : c.Overflows
  · obtain ⟨hbase, hpos, hneg, hscan⟩ := encodedBenefit_of_overflows h.base_lt hover
    rw [hpending] at hscan
    rw [hbase, hpos, hneg, hscan]
    refine ⟨h.pos.take_halved _, h.neg.take_halved _, h.pages.take_halved _, fun _ => ?_⟩
    have hunit : 2 ^ (63 + (c.benefit.base.toNat + 1)) = 2 ^ 64 * 2 ^ c.benefit.base.toNat := by
      rw [← pow_add]
      congr 1
      omega
    rw [hunit, Totals.largest, h.pos_sum, h.neg_sum, h.pages_sum]
    rcases hover with hfull | hfull | hfull
    · exact (h.pos.limit_le hfull).trans (le_max_left _ _)
    · exact (h.neg.limit_le hfull).trans ((le_max_left _ _).trans (le_max_right _ _))
    · rw [hpending] at hfull
      exact (h.pages.limit_le hfull).trans ((le_max_right _ _).trans (le_max_right _ _))
  · obtain ⟨hbase, hpos, hneg, hscan⟩ := encodedBenefit_of_fits h.base_lt hover
    rw [hpending] at hscan
    rw [hbase, hpos, hneg, hscan]
    exact ⟨h.pos.take _, h.neg.take _, h.pages.take _,
      fun hne => (h.earned hne).trans h.sent_le⟩

/-- A call of `encode_benefit` keeps the sums, and leaves no page pending. -/
theorem Recorded.encode {r : Bool} (h : Recorded c t sent)
    (he : encodeBenefit c = .ok (r, c')) :
    (∃ sent', Recorded c' t sent') ∧ c'.uksmPagesScannedLast = c'.uksmPagesScanned := by
  rcases encodeBenefit_eq_ok.mp he with ⟨_, hidle, rfl⟩ | ⟨_, hbusy, b, hb, _, rfl⟩
  · exact ⟨⟨sent, h⟩, hidle.symm⟩
  · obtain ⟨hpos, hneg, hpages, hearned⟩ := h.encoded
    rw [← hb] at hpos hneg hpages hearned
    have hmoved := pendingPages_pos h.last_le hbusy
    have hpagesSum := h.pages_sum
    have htransfers := h.transfers
    refine ⟨⟨⟨t.pos, t.neg, t.pages, sent.calls + 1⟩, ?_⟩, rfl⟩
    refine ⟨UInt64.le_refl _, hpos, hneg, hpages, rfl, rfl, ?_, ?_, hearned, h.amounts,
      h.calls_le⟩
    · show t.pages = t.pages + (c.uksmPagesScanned.toNat - c.uksmPagesScanned.toNat)
      omega
    · show sent.calls + 1 ≤ t.pages
      omega

/-- What a guard finds, or leaves behind, still records the sums. -/
theorem Recorded.found (h : Recorded c t sent) {c₁ : Counters}
    (hfound : c₁ = c ∨ ∃ r, encodeBenefit c = .ok (r, c₁)) : ∃ sent', Recorded c₁ t sent' := by
  rcases hfound with rfl | ⟨r, he⟩
  · exact ⟨sent, h⟩
  · exact (h.encode he).1

/-- One more page. -/
theorem Recorded.count (h : Recorded c t sent) (hcalls : t.calls < 2 ^ 63)
    (hroom : c.uksmPagesScanned ≠ u64Max) :
    Recorded { c with uksmPagesScanned := c.uksmPagesScanned + 1 }
      { t with pages := t.pages + 1, calls := t.calls + 1 } sent := by
  have hle := UInt64.le_iff_toNat_le.mp h.last_le
  have hword : (c.uksmPagesScanned + 1).toNat = c.uksmPagesScanned.toNat + 1 := by
    have hne : c.uksmPagesScanned.toNat ≠ 2 ^ 64 - 1 := by
      rw [← toNat_u64Max]
      exact fun heq => hroom (UInt64.toNat_inj.mp heq)
    have hlt := c.uksmPagesScanned.toNat_lt
    rw [UInt64.toNat_add, UInt64.toNat_one]
    omega
  have hamounts := h.amounts
  refine ⟨?_, h.pos, h.neg, h.pages, h.pos_sum, h.neg_sum, ?_, h.transfers, h.earned, ?_, hcalls⟩
  · rw [UInt64.le_iff_toNat_le]
    show c.uksmPagesScannedLast.toNat ≤ (c.uksmPagesScanned + 1).toNat
    omega
  · have hsum := h.pages_sum
    rw [Counters.pendingPages] at hsum
    show t.pages + 1 =
      sent.pages + ((c.uksmPagesScanned + 1).toNat - c.uksmPagesScannedLast.toNat)
    omega
  · show t.pos + (t.calls + 1) ≤ (t.calls + 1) * 2 ^ 64 ∧
      t.neg + (t.calls + 1) ≤ (t.calls + 1) * 2 ^ 64 ∧ t.pages + 1 ≤ t.calls + 1
    omega

/-- An exact addition to one of the two running counters. -/
theorem Recorded.add {which : Running} {d : UInt64} (h : Recorded c t sent)
    (hcalls : t.calls < 2 ^ 63)
    (hadd : ((c.addRunning d which).running which).toNat = (c.running which).toNat + d.toNat)
    (found : Counters) :
    Recorded (c.addRunning d which) ((CounterCall.inc which d).addTo found t) sent := by
  have hamounts := h.amounts
  have hd := d.toNat_lt
  cases which with
  | pos =>
    refine ⟨h.last_le, h.pos, h.neg, h.pages, ?_, h.neg_sum, h.pages_sum, h.transfers, h.earned,
      ?_, hcalls⟩
    · exact (congrArg (· + d.toNat) h.pos_sum).trans
        ((Nat.add_assoc _ _ _).trans (congrArg (sent.pos + ·) hadd.symm))
    · show t.pos + d.toNat + (t.calls + 1) ≤ (t.calls + 1) * 2 ^ 64 ∧
        t.neg + (t.calls + 1) ≤ (t.calls + 1) * 2 ^ 64 ∧ t.pages ≤ t.calls + 1
      omega
  | neg =>
    refine ⟨h.last_le, h.pos, h.neg, h.pages, h.pos_sum, ?_, h.pages_sum, h.transfers, h.earned,
      ?_, hcalls⟩
    · exact (congrArg (· + d.toNat) h.neg_sum).trans
        ((Nat.add_assoc _ _ _).trans (congrArg (sent.neg + ·) hadd.symm))
    · show t.pos + (t.calls + 1) ≤ (t.calls + 1) * 2 ^ 64 ∧
        t.neg + d.toNat + (t.calls + 1) ≤ (t.calls + 1) * 2 ^ 64 ∧ t.pages ≤ t.calls + 1
      omega

/-- The word of the page counter is stored away with no page pending. -/
theorem Recorded.stored (h : Recorded c t sent)
    (hidle : c.uksmPagesScannedLast = c.uksmPagesScanned) {s : Counters}
    (hs : s = storePagesScanned c) : Recorded s t sent := by
  have hbenefit : s.benefit = c.benefit := by rw [hs, storePagesScanned_benefit]
  have hrunning : ∀ which, s.running which = c.running which := by
    rw [hs]
    exact storePagesScanned_running c
  have hpos : s.rshashPos = c.rshashPos := hrunning .pos
  have hneg : s.rshashNeg = c.rshashNeg := hrunning .neg
  have hword : s.uksmPagesScanned = 0 := by rw [hs, storePagesScanned_uksmPagesScanned]
  have hlast : s.uksmPagesScannedLast = 0 := by rw [hs, storePagesScanned_uksmPagesScannedLast]
  have hsum := h.pages_sum
  rw [Counters.pendingPages, hidle, Nat.sub_self] at hsum
  refine ⟨?_, hbenefit ▸ h.pos, hbenefit ▸ h.neg, hbenefit ▸ h.pages, ?_, ?_, ?_, h.transfers,
    hbenefit ▸ h.earned, h.amounts, h.calls_le⟩
  · rw [hword, hlast]
    exact UInt64.le_refl _
  · rw [hpos, h.pos_sum]
  · rw [hneg, h.neg_sum]
  · rw [Counters.pendingPages, hword, hlast, hsum, Nat.sub_self]

/-! ### One call and a run of calls -/

theorem Recorded.call {call : CounterCall} (h : Recorded c t sent)
    (horderly : Orderly (c, t) call) (hrun : call.run c = .ok c') :
    ∃ sent', Recorded c' (call.addTo c t) sent' := by
  obtain ⟨hcov, hcalls⟩ := horderly
  have hcalls' : t.calls + 1 ≤ 2 ^ 63 := hcalls
  cases call using CounterCall.cases_inc with
  | scan =>
    rcases incUksmPagesScanned_eq_ok.mp hrun with ⟨hroom, rfl⟩ | ⟨_, r, c₁, s, he, hs, rfl⟩
    · exact ⟨sent, h.count hcalls hroom⟩
    · obtain ⟨⟨sent₁, h₁⟩, hidle⟩ := h.encode he
      have hword : s.uksmPagesScanned = 0 := by rw [hs, storePagesScanned_uksmPagesScanned]
      have hroom : s.uksmPagesScanned ≠ u64Max := by
        rw [hword, u64Max]
        decide
      exact ⟨sent₁, (h₁.stored hidle hs).count hcalls hroom⟩
  | inc which d =>
    rw [run_inc] at hrun
    obtain ⟨c₁, hfound, hadd, rfl⟩ := incRshash_exact hrun hcov
    obtain ⟨sent₁, h₁⟩ := h.found hfound
    exact ⟨sent₁, h₁.add hcalls hadd c⟩
  | adjust =>
    rw [CounterCall.addTo]
    rcases adjustCounters_eq_ok hrun with he | ⟨c₁, he, rfl⟩
    · rcases encodeBenefit_eq_ok.mp he with ⟨_, hidle, rfl⟩ | ⟨hr, _⟩
      · have hamounts := h.amounts
        rw [if_pos hidle]
        refine ⟨sent, ⟨h.last_le, h.pos, h.neg, h.pages, h.pos_sum, h.neg_sum, h.pages_sum,
          h.transfers, h.earned, ?_, hcalls'⟩⟩
        show t.pos + (t.calls + 1) ≤ (t.calls + 1) * 2 ^ 64 ∧
          t.neg + (t.calls + 1) ≤ (t.calls + 1) * 2 ^ 64 ∧ t.pages ≤ t.calls + 1
        omega
      · cases hr
    · rcases encodeBenefit_eq_ok.mp he with ⟨hr, _⟩ | ⟨_, hbusy, b, _, _, rfl⟩
      · cases hr
      · rw [if_neg hbusy]
        exact ⟨⟨0, 0, 0, 0⟩, recorded_reset rfl rfl rfl⟩

end Invariant

theorem totalledCall_eq_ok {s s' : Counters × Totals} {call : CounterCall} :
    totalledCall s call = .ok s' ↔ call.run s.1 = .ok s'.1 ∧ s'.2 = call.addTo s.1 s.2 := by
  rw [totalledCall]
  cases hrun : call.run s.1 with
  | error f => simp
  | ok c' => simp [Prod.ext_iff, eq_comm]

theorem recorded_start : Recorded initialCounters ⟨0, 0, 0, 0⟩ ⟨0, 0, 0, 0⟩ :=
  recorded_reset (c := initialCounters) rfl rfl rfl

theorem recorded_run (calls : List CounterCall) (s : Counters × Totals) (sent : Totals)
    (horderly : Along totalledCall Orderly s calls) (h : Recorded s.1 s.2 sent) {c : Counters}
    {t : Totals} (hrun : calls.foldlM totalledCall s = .ok (c, t)) :
    ∃ sent', Recorded c t sent' := by
  induction calls generalizing s sent with
  | nil =>
    cases hrun
    exact ⟨sent, h⟩
  | cons call calls ih =>
    rw [List.foldlM_cons] at hrun
    obtain ⟨s', hcall, hrest⟩ := bind_eq_ok.mp hrun
    obtain ⟨hstep, hsums⟩ := totalledCall_eq_ok.mp hcall
    obtain ⟨sent', h'⟩ := h.call horderly.1 hstep
    rw [← hsums] at h'
    exact ih s' sent' (horderly.2 s' hcall) h' hrest

/-! ### The main results -/

/-- What `count` units at the base `b`, with the amount `waiting` still to be transferred, tell of
the exact sum of a round of `pages` pages. -/
structure Tells (b count waiting pages sum : ℕ) : Prop where
  lower : count * 2 ^ b + waiting ≤ sum
  upper : sum ≤ (count + pages + 1) * 2 ^ b + waiting
  unscaled : b = 0 → sum = count + waiting

theorem tells_of_stands {b count sum taken waiting pages total : ℕ}
    (h : Stands b count sum taken) (htotal : total = sum + waiting) (htaken : taken ≤ pages) :
    Tells b count waiting pages total := by
  have hlower := h.lower
  have hupper := h.upper.trans (Nat.add_le_add_left (gap_mono htaken) _)
  refine ⟨by omega, ?_, ?_⟩
  · rw [gap] at hupper
    rw [Nat.add_assoc, Nat.add_mul, htotal]
    split_ifs at hupper
    · omega
    · omega
  · rintro rfl
    rw [gap, if_pos rfl] at hupper
    rw [htotal]
    omega

/-- In every orderly run, of any length, the three totals tell the exact sums of the current round
up to one unit for each page and one more, and exactly as long as the base is 0.  The base stays
below 64, so that its shifts are defined, and no unit is larger than what the largest sum needs. -/
theorem benefit_tells_totals (calls : List CounterCall)
    (horderly : Along totalledCall Orderly totalsStart calls) (c : Counters) (t : Totals)
    (hrun : calls.foldlM totalledCall totalsStart = .ok (c, t)) :
    let b := c.benefit.base.toNat
    b < 64 ∧ (b ≠ 0 → 2 ^ (63 + b) ≤ t.largest) ∧
      Tells b c.benefit.pos.toNat c.rshashPos.toNat t.pages t.pos ∧
      Tells b c.benefit.neg.toNat c.rshashNeg.toNat t.pages t.neg ∧
      Tells b c.benefit.scanned.toNat
        (c.uksmPagesScanned.toNat - c.uksmPagesScannedLast.toNat) t.pages t.pages := by
  intro b
  obtain ⟨sent, h⟩ := recorded_run calls totalsStart _ horderly recorded_start hrun
  have htaken : sent.calls ≤ t.pages := by
    have htransfers := h.transfers
    have hsum := h.pages_sum
    omega
  refine ⟨h.base_lt, ?_, tells_of_stands h.pos h.pos_sum htaken,
    tells_of_stands h.neg h.neg_sum htaken, tells_of_stands h.pages h.pages_sum htaken⟩
  intro hb
  refine (h.earned ?_).trans h.sent_le
  intro hzero
  exact hb (by rw [show b = c.benefit.base.toNat from rfl, hzero]; rfl)

/-- Three times the largest amount and four pages: the second transfer doubles the unit. -/
def wideRound : List CounterCall :=
  [.incUksmPagesScanned, .incUksmPagesScanned, .incRshashPos u64Max, .incRshashPos u64Max,
    .incUksmPagesScanned, .incUksmPagesScanned, .incRshashPos u64Max]

theorem benefit_tells_totals_wideRound :
    ∃ c t, wideRound.foldlM totalledCall totalsStart = .ok (c, t) ∧ c.benefit.base = 1 ∧
      Tells 1 c.benefit.pos.toNat c.rshashPos.toNat t.pages t.pos := by
  have hrun : wideRound.foldlM totalledCall totalsStart =
      .ok (⟨u64Max, 0, ⟨u64Max - 1, 0, 2, 1⟩, 4, 4, 0, 0⟩, ⟨3 * (2 ^ 64 - 1), 0, 4, 7⟩) := by
    decide +kernel
  exact ⟨_, _, hrun, rfl, (benefit_tells_totals wideRound (by decide +kernel) _ _ hrun).2.2.1⟩

/-! ### The percentage -/

/-- The ratio of the stored totals, with both directions of the rounding. -/
theorem getCurrentNegRatio_percent (b : Benefit) :
    ∃ r, getCurrentNegRatio b = .ok r ∧ r.toNat ≤ 100 ∧ (b.neg.toNat = 0 → r = 0) ∧
      (0 < b.pos.toNat → r.toNat * b.pos.toNat < 100 * b.neg.toNat + b.pos.toNat) ∧
      (r.toNat < 100 →
        (0 < b.pos.toNat → 100 * b.neg.toNat < (r.toNat + 1) * b.pos.toNat) ∧
        (b.pos.toNat = 0 → b.neg.toNat = 0)) := by
  by_cases hzero : b.neg = 0
  · have hnone : b.neg.toNat = 0 := by
      rw [hzero]
      rfl
    refine ⟨0, getCurrentNegRatio_of_zero hzero, Nat.zero_le _, fun _ => rfl, ?_,
      fun _ => ⟨?_, ?_⟩⟩
    · rw [UInt64.toNat_zero, Nat.zero_mul]
      exact fun hpos => Nat.lt_add_left _ hpos
    · rw [hnone, UInt64.toNat_zero, Nat.mul_zero, Nat.zero_add, Nat.one_mul]
      exact id
    · exact fun _ => hnone
  have hne : b.neg.toNat ≠ 0 := fun h => hzero (UInt64.toNat_inj.mp h)
  by_cases habove : b.neg > b.pos
  · have hlt := UInt64.lt_iff_toNat_lt.mp habove
    refine ⟨100, getCurrentNegRatio_of_above habove, Nat.le_refl 100, fun h => absurd h hne, ?_, ?_⟩
    · intro _
      show 100 * b.pos.toNat < 100 * b.neg.toNat + b.pos.toNat
      omega
    · intro h
      exact absurd h (Nat.lt_irrefl 100)
  have hneg : 0 < b.neg := UInt64.pos_iff_ne_zero.mpr hzero
  have hle : b.neg ≤ b.pos := UInt64.not_lt.mp habove
  have hleNat : b.neg.toNat ≤ b.pos.toNat := UInt64.le_iff_toNat_le.mp hle
  have hpos : 0 < b.pos.toNat := lt_of_lt_of_le (Nat.pos_of_ne_zero hne) hleNat
  -- the result is at least the percentage rounded down, and less than one above the percentage
  have hvalue : ∃ r, getCurrentNegRatio b = .ok r ∧ r.toNat ≤ 100 ∧
      100 * b.neg.toNat / b.pos.toNat ≤ r.toNat ∧
      r.toNat * b.pos.toNat < 100 * b.neg.toNat + b.pos.toNat := by
    by_cases hlarge : b.neg > u64Max / 100
    · obtain ⟨r, hr, hvalue, hdivisor⟩ := getCurrentNegRatio_prescaled hneg hle hlarge
      refine ⟨r, hr, ?_, ?_, ?_⟩
      · rw [hvalue]
        exact prescaled_div_le_scale (by decide) hdivisor hleNat
      · rw [hvalue]
        exact le_prescaled_div (by decide) (by omega)
      · rw [hvalue]
        exact prescaled_div_mul_lt (by decide) hdivisor hleNat
    · obtain ⟨r, hr, hvalue⟩ := getCurrentNegRatio_scaled hneg hle (UInt64.not_lt.mp hlarge)
      have hfloor := Nat.div_mul_le_self (100 * b.neg.toNat) b.pos.toNat
      refine ⟨r, hr, ?_, hvalue.ge, ?_⟩
      · rw [hvalue]
        exact Nat.div_le_of_le_mul (by rw [Nat.mul_comm b.pos.toNat]; gcongr)
      · rw [hvalue]
        omega
  obtain ⟨r, hr, hle100, hlow, hhigh⟩ := hvalue
  refine ⟨r, hr, hle100, fun h => absurd h hne, fun _ => hhigh, fun _ => ⟨fun _ => ?_, ?_⟩⟩
  · calc 100 * b.neg.toNat
        < 100 * b.neg.toNat / b.pos.toNat * b.pos.toNat + b.pos.toNat :=
          Nat.lt_div_mul_add hpos
      _ = (100 * b.neg.toNat / b.pos.toNat + 1) * b.pos.toNat := by
        rw [Nat.add_mul, Nat.one_mul]
      _ ≤ (r.toNat + 1) * b.pos.toNat := Nat.mul_le_mul_right _ (Nat.succ_le_succ hlow)
  · exact fun h => absurd h hpos.ne'

/-- The percentage that an effective `rshash_adjust` judges by at the end of an orderly run is the
percentage of the exact sums of the round, rounded up or down to an integer, up to an error.  It is
0 for no negative work, and with no positive work it is 100 unless the error hides the negative
work.  There is no error before one of the sums exceeds 64 bits; from then on it is below the
largest sum by a factor of `2 ^ 63` for each page scanned in the round and each percent. -/
theorem negRatio_tells_totals (calls : List CounterCall)
    (horderly : Along totalledCall Orderly totalsStart calls) (c c' : Counters) (t : Totals)
    (hrun : calls.foldlM totalledCall totalsStart = .ok (c, t))
    (hencode : encodeBenefit c = .ok (true, c')) :
    ∃ r error, getCurrentNegRatio c'.benefit = .ok r ∧ r.toNat ≤ 100 ∧
      (t.largest < 2 ^ 64 → error = 0) ∧
      error * 2 ^ 63 ≤ 100 * (t.pages + 1) * t.largest ∧
      (t.neg = 0 → r = 0) ∧
      (0 < t.pos → r.toNat * t.pos < 100 * t.neg + t.pos + error) ∧
      (r.toNat < 100 → (0 < t.pos → 100 * t.neg < (r.toNat + 1) * t.pos + error) ∧
        (t.pos = 0 → 100 * t.neg ≤ error)) := by
  obtain ⟨sent, h⟩ := recorded_run calls totalsStart _ horderly recorded_start hrun
  rcases encodeBenefit_eq_ok.mp hencode with ⟨hr, _⟩ | ⟨_, hbusy, b, hb, _, rfl⟩
  · cases hr
  obtain ⟨hpos, hneg, _, hearned⟩ := h.encoded
  rw [← hb] at hpos hneg hearned
  obtain ⟨r, hr, hle100, hnone, hlow, hhigh⟩ := getCurrentNegRatio_percent b
  have htaken : sent.calls + 1 ≤ t.pages := by
    have hmoved := pendingPages_pos h.last_le hbusy
    have htransfers := h.transfers
    have hsum := h.pages_sum
    omega
  have hgap : 100 * gap b.base.toNat (sent.calls + 1) ≤ 100 * gap b.base.toNat t.pages :=
    Nat.mul_le_mul_left 100 (gap_mono htaken)
  refine ⟨r, 100 * gap b.base.toNat t.pages, hr, hle100, ?_, ?_, ?_, ?_, fun hbelow => ⟨?_, ?_⟩⟩
  · intro hsmall
    have hzero : b.base = 0 := by
      by_contra hne
      have hunit : 2 ^ 64 ≤ 2 ^ (63 + b.base.toNat) := by
        apply Nat.pow_le_pow_right Nat.two_pos
        have hone : b.base.toNat ≠ 0 := fun h0 => hne (UInt64.toNat_inj.mp h0)
        omega
      exact absurd (hunit.trans (hearned hne)) (Nat.not_le.mpr hsmall)
    rw [hzero, gap, if_pos UInt64.toNat_zero]
  · by_cases hzero : b.base.toNat = 0
    · rw [gap, if_pos hzero]
      exact Nat.zero_le _
    · have hne : b.base ≠ 0 := fun h0 => hzero (by rw [h0]; rfl)
      calc 100 * gap b.base.toNat t.pages * 2 ^ 63
          = 100 * (t.pages + 1) * 2 ^ (63 + b.base.toNat) := by
            rw [gap, if_neg hzero, pow_add]
            ring
        _ ≤ 100 * (t.pages + 1) * t.largest := Nat.mul_le_mul_left _ (hearned hne)
  · intro hzero
    rw [hzero] at hneg
    exact hnone hneg.eq_zero
  · intro hsome
    exact (hpos.ratio_lt hneg hle100 hsome hlow).trans_le (Nat.add_le_add_left hgap _)
  · intro hsome
    exact (hpos.lt_ratio hneg hsome (hhigh hbelow).1 (hhigh hbelow).2).trans_le
      (Nat.add_le_add_left hgap _)
  · intro hzero
    rw [hzero] at hpos
    rw [(hhigh hbelow).2 hpos.eq_zero] at hneg
    exact (Nat.mul_le_mul_left 100 hneg.le_gap).trans hgap

/-- Two more pages and the largest negative amount, a third of the positive ones. -/
def mixedRound : List CounterCall :=
  wideRound ++ [.incUksmPagesScanned, .incUksmPagesScanned, .incRshashNeg u64Max]

theorem negRatio_tells_totals_mixedRound :
    ∃ c c' t r error, mixedRound.foldlM totalledCall totalsStart = .ok (c, t) ∧
      encodeBenefit c = .ok (true, c') ∧ getCurrentNegRatio c'.benefit = .ok r ∧
      r.toNat * t.pos < 100 * t.neg + t.pos + error ∧
      error * 2 ^ 63 ≤ 100 * (t.pages + 1) * t.largest := by
  have hrun : mixedRound.foldlM totalledCall totalsStart =
      .ok (⟨u64Max, u64Max, ⟨u64Max - 1, 0, 2, 1⟩, 6, 4, 0, 0⟩,
        ⟨3 * (2 ^ 64 - 1), 2 ^ 64 - 1, 6, 10⟩) := by
    decide +kernel
  have hencode : encodeBenefit ⟨u64Max, u64Max, ⟨u64Max - 1, 0, 2, 1⟩, 6, 4, 0, 0⟩ =
      .ok (true, ⟨0, 0, ⟨0xBFFFFFFFFFFFFFFE, 0x3FFFFFFFFFFFFFFF, 1, 2⟩, 6, 6, 0, 0⟩) := by
    decide +kernel
  obtain ⟨r, error, hr, _, _, herror, _, hlt, _⟩ :=
    negRatio_tells_totals mixedRound (by decide +kernel) _ _ _ hrun hencode
  exact ⟨_, _, _, r, error, hrun, hencode, hr, hlt (by decide), herror⟩

end DirtyPages
