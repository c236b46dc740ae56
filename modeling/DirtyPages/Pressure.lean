import DirtyPages.ProbeBound
import DirtyPages.Lib.Ranking

/-!
# Where a lasting pressure drives the strength

While the hash is almost always wrong, `judge_rshash_direction` says `GO_UP` in every round, and
while it is never wrong it soon says `GO_DOWN`.  From any state in range, whatever probe is under
way and whatever benefits it measures, the strength arrives at the end of its range after a bounded
number of effective calls and stays there, without a rebuild.
-/

namespace DirtyPages

open Outcome SearchTree

/-! ### The decision under pressure -/

variable {round : UInt64} {b : Benefit} {ratio : UInt64} {a a' : Adaptation}

/-- `GO_UP` in every round that is not the tenth of its 256. -/
theorem judge_high (hround : round &&& 0xFF ≠ 10) (hratio : getCurrentNegRatio b = .ok ratio)
    (hhigh : ratio > 90) (a : Adaptation) :
    judgeRshashDirection round b a = .ok (.goUp, a.noted 0 0) := by
  have hzero : ratio ≠ 0 := by
    intro h
    rw [h] at hhigh
    exact absurd hhigh (by decide)
  rw [judgeRshashDirection, if_neg hround, hratio]
  show (if ratio = 0 then _ else _ : Except Fault (RshashDirect × Adaptation)) = _
  rw [if_neg hzero, if_pos hhigh]
  rfl

/-- `GO_DOWN` from the third round on. -/
theorem judge_zero (hround : round &&& 0xFF ≠ 10) (hratio : getCurrentNegRatio b = .ok 0)
    (a : Adaptation) :
    judgeRshashDirection round b a =
      .ok (if a.rshashNegContZero + 1 > 2 then .goDown else .still,
        a.noted (a.rshashNegContZero + 1) a.rshashContObscure) := by
  rw [judgeRshashDirection, if_neg hround, hratio]
  rfl

/-- The exponent of the next step in a direction: a turn begins with the smallest step. -/
def Adaptation.exponent (a : Adaptation) (opposite : RshashDirect) : UInt64 :=
  if a.rshashState.preDirect = opposite then 0 else a.hashStrengthDelta

/-- A step in `RSHASH_STILL`. -/
def Adaptation.climbed (a : Adaptation) (m : UInt64) : Adaptation :=
  setBaseline m .goUp (incHashStrengthDelta (incHashStrength (a.exponent .goDown)
    { a with hashStrengthDelta := a.exponent .goDown }))

def Adaptation.descended (a : Adaptation) (m : UInt64) : Adaptation :=
  setBaseline m .goDown (incHashStrengthDelta (decHashStrength (a.exponent .goUp)
    { a with hashStrengthDelta := a.exponent .goUp }))

theorem adjustStill_high (hb : b.scanned ≠ 0)
    (hjudge : judgeRshashDirection round b a = .ok (.goUp, a.noted 0 0)) :
    adjustStill round b a = .ok ((a.noted 0 0).climbed (netBenefit b)) := by
  rw [adjustStill, hjudge, getCurrentBenefit_eq_ok hb]
  refine congrArg Except.ok ?_
  show setBaseline _ _ _ = _
  by_cases hpre : a.rshashState.preDirect = .goDown
  · have hexponent : (a.noted 0 0).exponent .goDown = 0 := if_pos hpre
    rw [Adaptation.noted_rshashState, if_pos hpre, Adaptation.climbed, hexponent]
    rfl
  · have hexponent : (a.noted 0 0).exponent .goDown = a.hashStrengthDelta := if_neg hpre
    rw [Adaptation.noted_rshashState, if_neg hpre, Adaptation.climbed, hexponent]
    rfl

theorem adjustStill_low (hb : b.scanned ≠ 0) {z o : UInt64}
    (hjudge : judgeRshashDirection round b a = .ok (.goDown, a.noted z o)) :
    adjustStill round b a = .ok ((a.noted z o).descended (netBenefit b)) := by
  rw [adjustStill, hjudge, getCurrentBenefit_eq_ok hb]
  refine congrArg Except.ok ?_
  show setBaseline _ _ _ = _
  by_cases hpre : a.rshashState.preDirect = .goUp
  · have hexponent : (a.noted z o).exponent .goUp = 0 := if_pos hpre
    rw [Adaptation.noted_rshashState, if_pos hpre, Adaptation.descended, hexponent]
    rfl
  · have hexponent : (a.noted z o).exponent .goUp = a.hashStrengthDelta := if_neg hpre
    rw [Adaptation.noted_rshashState, if_neg hpre, Adaptation.descended, hexponent]
    rfl

/-- The way down ends at once when the decision is `GO_UP`. -/
theorem adjustTryDown_high (hb : b.scanned ≠ 0)
    (hjudge : ∀ a, judgeRshashDirection round b a = .ok (.goUp, a.noted 0 0)) :
    ∃ z o, adjustTryDown round b a = .ok (turnUp ((a.probedDown (netBenefit b)).noted z o)) := by
  rw [adjustTryDown, getCurrentBenefit_eq_ok hb]
  show ∃ z o, (probeStops round b .goUp 1 (a.probedDown (netBenefit b)) >>= _) = _
  rw [probeStops]
  split_ifs with hbelow
  · exact ⟨(a.probedDown (netBenefit b)).rshashNegContZero,
      (a.probedDown (netBenefit b)).rshashContObscure, rfl⟩
  · rw [hjudge]
    exact ⟨0, 0, rfl⟩

theorem exponent_le (hrange : RangeInv a) (d : RshashDirect) :
    (a.exponent d).toNat ≤ hashStrengthDeltaMax := by
  rw [Adaptation.exponent]
  split_ifs
  · exact Nat.zero_le _
  · exact hrange.delta

theorem climbed_hashStrength (hrange : RangeInv a) (m : UInt64) :
    (a.climbed m).hashStrength.toNat =
      min (a.hashStrength.toNat + 2 ^ (a.exponent .goDown).toNat) hashStrengthMax :=
  incHashStrength_toNat (exponent_le hrange _) hrange.strength.2

theorem climbed_exponent (hrange : RangeInv a) (m : UInt64) :
    ((a.climbed m).exponent .goDown).toNat =
      min ((a.exponent .goDown).toNat + 1) hashStrengthDeltaMax := by
  rw [Adaptation.exponent, if_neg (by simp [Adaptation.climbed, setBaseline])]
  exact incHashStrengthDelta_toNat (exponent_le hrange _)

theorem descended_hashStrength (hrange : RangeInv a) (m : UInt64) :
    (a.descended m).hashStrength.toNat - 1 =
      a.hashStrength.toNat - 1 - 2 ^ (a.exponent .goUp).toNat := by
  have hdec := decHashStrength_toNat (exponent_le hrange .goUp)
    (a := { a with hashStrengthDelta := a.exponent .goUp })
  show (decHashStrength _ _).hashStrength.toNat - 1 = _
  rw [hdec]
  show (if a.hashStrength.toNat ≤ _ then _ else a.hashStrength.toNat - _) - 1 = _
  split_ifs
  · omega
  · omega

theorem descended_exponent (hrange : RangeInv a) (m : UInt64) :
    ((a.descended m).exponent .goUp).toNat =
      min ((a.exponent .goUp).toNat + 1) hashStrengthDeltaMax := by
  rw [Adaptation.exponent, if_neg (by simp [Adaptation.descended, setBaseline])]
  exact incHashStrengthDelta_toNat (exponent_le hrange _)

/-! ### The ranks -/

/-- The adaptation rests at the strength `s`. -/
def Adaptation.RestsAt (s : UInt64) (a : Adaptation) : Prop :=
  a.rshashState.state = .still ∧ a.hashStrength = s

/-- How many more calls `judge_rshash_direction` waits before it says `GO_DOWN`, when the hash is
never wrong; the counter wraps. -/
def Adaptation.waits (a : Adaptation) : ℕ := 3 - (a.rshashNegContZero + 1).toNat

/-- The effective calls that a state is away from the greatest strength. -/
def rankUp (a : Adaptation) : ℕ :=
  match a.rshashState.state with
  | .still => callsLeft (hashStrengthMax - a.hashStrength.toNat) (a.exponent .goDown).toNat
  | .tryUp => callsLeft (hashStrengthMax - a.hashStrength.toNat) a.hashStrengthDelta.toNat + 40
  | .tryDown => 80
  | _ => 40

/-- The effective calls that a state is away from strength 1; a call that moves down is worth four,
since after it the counter of the rounds without error may wrap. -/
def rankDown (a : Adaptation) : ℕ :=
  match a.rshashState.state with
  | .still => 4 * callsLeft (a.hashStrength.toNat - 1) (a.exponent .goUp).toNat + a.waits
  | .tryUp => 161 + a.waits
  | .tryDown => 165 + callsLeft (a.hashStrength.toNat - 1) a.hashStrengthDelta.toNat
  | _ => 160

theorem rankUp_still (h : a.rshashState.state = .still) :
    rankUp a = callsLeft (hashStrengthMax - a.hashStrength.toNat) (a.exponent .goDown).toNat := by
  rw [rankUp, h]

theorem rankUp_tryUp (h : a.rshashState.state = .tryUp) :
    rankUp a =
      callsLeft (hashStrengthMax - a.hashStrength.toNat) a.hashStrengthDelta.toNat + 40 := by
  rw [rankUp, h]

theorem rankUp_tryDown (h : a.rshashState.state = .tryDown) : rankUp a = 80 := by
  rw [rankUp, h]

theorem rankUp_settled (h : a.rshashState.state = .new ∨ a.rshashState.state = .preStill) :
    rankUp a = 40 := by
  rw [rankUp]
  cases h with
  | inl h => rw [h]
  | inr h => rw [h]

theorem rankDown_still (h : a.rshashState.state = .still) :
    rankDown a = 4 * callsLeft (a.hashStrength.toNat - 1) (a.exponent .goUp).toNat + a.waits := by
  rw [rankDown, h]

theorem rankDown_tryUp (h : a.rshashState.state = .tryUp) : rankDown a = 161 + a.waits := by
  rw [rankDown, h]

theorem rankDown_tryDown (h : a.rshashState.state = .tryDown) :
    rankDown a = 165 + callsLeft (a.hashStrength.toNat - 1) a.hashStrengthDelta.toNat := by
  rw [rankDown, h]

theorem rankDown_settled (h : a.rshashState.state = .new ∨ a.rshashState.state = .preStill) :
    rankDown a = 160 := by
  rw [rankDown]
  cases h with
  | inl h => rw [h]
  | inr h => rw [h]

theorem waits_le (a : Adaptation) : a.waits ≤ 3 := Nat.sub_le _ _

theorem callsLeft_pos (distance delta : ℕ) : 0 < callsLeft distance delta := Nat.succ_pos _

theorem rankUp_le (hrange : RangeInv a) : rankUp a ≤ 80 := by
  have hpos := hrange.strength.1
  have hmax := hashStrengthMax_eq
  have hcalls := callsLeft_le (show hashStrengthMax - a.hashStrength.toNat ≤ 1033 by omega)
  rw [rankUp]
  split
  · exact (hcalls _).trans (by omega)
  · exact (Nat.add_le_add_right (hcalls _) 40).trans (by omega)
  · exact le_rfl
  · omega

theorem rankDown_le (hrange : RangeInv a) : rankDown a ≤ 204 := by
  have hle := hrange.strength.2
  have hmax := hashStrengthMax_eq
  have hcalls := callsLeft_le (show a.hashStrength.toNat - 1 ≤ 1033 by omega)
  have hwaits := waits_le a
  rw [rankDown]
  split
  · have h := hcalls (a.exponent .goUp).toNat
    omega
  · omega
  · have h := hcalls a.hashStrengthDelta.toNat
    omega
  · omega

/-! ### One call under pressure -/

theorem adjustNew_eq (hb : b.scanned ≠ 0) : adjustNew b a = .ok (enterStill (netBenefit b) a) := by
  rw [adjustNew, getCurrentBenefit_eq_ok hb]
  rfl

/-- A settled state enters `RSHASH_STILL`. -/
theorem adjustState_settled (hb : b.scanned ≠ 0)
    (hstate : a.rshashState.state = .new ∨ a.rshashState.state = .preStill) :
    adjustState round b a = .ok (enterStill (netBenefit b) a) := by
  rw [adjustState]
  cases hstate with
  | inl hnew =>
    rw [hnew]
    exact adjustNew_eq hb
  | inr hpre =>
    rw [hpre]
    exact adjustNew_eq hb

/-- The judgement changes nothing that the range speaks about. -/
theorem RangeInv.noted (hrange : RangeInv a) (z o : UInt64) : RangeInv (a.noted z o) :=
  ⟨hrange.strength, hrange.delta, hrange.named, hrange.saved⟩

section High

variable (hrange : RangeInv a) (hb : b.scanned ≠ 0)
  (hjudge : ∀ a, judgeRshashDirection round b a = .ok (.goUp, a.noted 0 0))

include hrange hb hjudge

/-- A call brings the strength nearer to its maximum. -/
theorem rankUp_falls (hadjust : adjustState round b a = .ok a')
    (hrest : ¬a.RestsAt strengthMax) : rankUp a' < rankUp a := by
  have hstep := (adjustState_meets round a hb hrange.named).of_ok hadjust
  have hpos' := (rangeInv_step hrange hstep).strength.1
  have hmax := hashStrengthMax_eq
  have hcalls := callsLeft_le (show hashStrengthMax - a'.hashStrength.toNat ≤ 1033 by omega)
  have henter : a.rshashState.state = .new ∨ a.rshashState.state = .preStill →
      rankUp a' < rankUp a := by
    intro hsettled
    have ha' := Except.ok.inj ((adjustState_settled hb hsettled).symm.trans hadjust)
    rw [rankUp_still (ha' ▸ rfl), rankUp_settled hsettled]
    exact Nat.lt_succ_of_le (hcalls _)
  rw [adjustState] at hadjust
  cases hstate : a.rshashState.state with
  | still =>
    rw [hstate] at hadjust
    have ha' := Except.ok.inj ((adjustStill_high hb (hjudge a)).symm.trans hadjust)
    have hne : a.hashStrength.toNat ≠ hashStrengthMax := fun h =>
      hrest ⟨hstate, UInt64.toNat_inj.mp (h.trans toNat_strengthMax.symm)⟩
    have hle := hrange.strength.2
    have hstrength := climbed_hashStrength (hrange.noted 0 0) (netBenefit b)
    have hexponent := climbed_exponent (hrange.noted 0 0) (netBenefit b)
    rw [ha'] at hstrength hexponent
    have hstate' : a'.rshashState.state = .still := by
      rw [← ha']
      exact hstate
    have hfall : callsLeft (hashStrengthMax - a.hashStrength.toNat -
        2 ^ (a.exponent .goDown).toNat)
        (min ((a.exponent .goDown).toNat + 1) hashStrengthDeltaMax) <
          callsLeft (hashStrengthMax - a.hashStrength.toNat) (a.exponent .goDown).toNat :=
      callsLeft_lt (exponent_le hrange .goDown) (by omega)
    have hdistance : hashStrengthMax - a'.hashStrength.toNat =
        hashStrengthMax - a.hashStrength.toNat - 2 ^ (a.exponent .goDown).toNat := by
      rw [hstrength]
      show hashStrengthMax - min (a.hashStrength.toNat + 2 ^ (a.exponent .goDown).toNat) _ = _
      omega
    rw [rankUp_still hstate', rankUp_still hstate, hdistance, hexponent]
    exact hfall
  | tryUp =>
    rw [rankUp_tryUp hstate]
    obtain hsettled | hon := hstep.settles_or_goesOn hrange hstate
    · rw [rankUp_settled (Or.inr hsettled)]
      have hleft := callsLeft_pos (hashStrengthMax - a.hashStrength.toNat) a.hashStrengthDelta.toNat
      omega
    · have hapart := hon.apart
      have hdistance := hon.distance
      have hstate' := hon.state.trans hstate
      simp only [Adaptation.distance, hstate, hstate'] at hapart hdistance
      rw [rankUp_tryUp hstate', hdistance, hon.delta]
      exact Nat.add_lt_add_right (callsLeft_lt hrange.delta hapart) 40
  | tryDown =>
    rw [hstate] at hadjust
    obtain ⟨z, o, hturn⟩ := adjustTryDown_high (a := a) hb hjudge
    have ha' := Except.ok.inj (hturn.symm.trans hadjust)
    have hstate' : a'.rshashState.state = .tryUp := by
      rw [← ha']
      rfl
    rw [rankUp_tryUp hstate', rankUp_tryDown hstate]
    have hleft := hcalls a'.hashStrengthDelta.toNat
    omega
  | new => exact henter (Or.inl hstate)
  | preStill => exact henter (Or.inr hstate)
  | other v => exact absurd hstate (hrange.named v)

/-- At the maximum a call changes nothing that matters. -/
theorem restsAt_max_stays (hadjust : adjustState round b a = .ok a')
    (hrest : a.RestsAt strengthMax) : a'.RestsAt strengthMax := by
  rw [adjustState, hrest.1] at hadjust
  have ha' := Except.ok.inj ((adjustStill_high hb (hjudge a)).symm.trans hadjust)
  have hstrength := climbed_hashStrength (hrange.noted 0 0) (netBenefit b)
  rw [ha'] at hstrength
  refine ⟨?_, ?_⟩
  · rw [← ha']
    exact hrest.1
  · apply UInt64.toNat_inj.mp
    rw [hstrength, toNat_strengthMax, Adaptation.noted_hashStrength, hrest.2, toNat_strengthMax]
    exact Nat.min_eq_right (Nat.le_add_right _ _)

end High

/-- One round less to wait. -/
theorem waits_lt (h : ¬a.rshashNegContZero + 1 > 2)
    (h' : a'.rshashNegContZero = a.rshashNegContZero + 1) : a'.waits < a.waits := by
  rw [gt_iff_lt, UInt64.lt_iff_toNat_lt] at h
  have htwo : (2 : UInt64).toNat = 2 := rfl
  rw [Adaptation.waits, Adaptation.waits, h', UInt64.toNat_add (a.rshashNegContZero + 1),
    UInt64.toNat_one]
  omega

@[simp] theorem probedUp_rshashNegContZero (a : Adaptation) (m : UInt64) :
    (a.probedUp m).rshashNegContZero = a.rshashNegContZero := by
  rw [Adaptation.probedUp, measureUp]
  split_ifs <;> rfl

section Low

variable (hb : b.scanned ≠ 0)
  (hjudge : ∀ a, judgeRshashDirection round b a =
    .ok (if a.rshashNegContZero + 1 > 2 then .goDown else .still,
      a.noted (a.rshashNegContZero + 1) a.rshashContObscure))

include hjudge

include hb in
theorem adjustStill_zero : adjustStill round b a =
    .ok (if a.rshashNegContZero + 1 > 2 then
      (a.noted (a.rshashNegContZero + 1) a.rshashContObscure).descended (netBenefit b)
    else a.noted (a.rshashNegContZero + 1) a.rshashContObscure) := by
  have hdecision := hjudge a
  split_ifs at hdecision ⊢ with hwait
  · exact adjustStill_low hb hdecision
  · rw [adjustStill, hdecision]
    rfl

include hb in
/-- The way up ends at the latest when the decision becomes `GO_DOWN`. -/
theorem adjustTryUp_zero (hstate : a.rshashState.state = .tryUp)
    (hadjust : adjustTryUp round b a = .ok a') :
    a'.rshashState.state = .preStill ∨
      a'.rshashState.state = .tryUp ∧ ¬a.rshashNegContZero + 1 > 2 ∧
        a'.rshashNegContZero = a.rshashNegContZero + 1 := by
  rw [adjustTryUp, getCurrentBenefit_eq_ok hb] at hadjust
  obtain ⟨p, hstops, hend⟩ := bind_eq_ok.mp
    (show (probeStops round b .goDown strengthMax (a.probedUp (netBenefit b)) >>= _) = _ from
      hadjust)
  rw [probeStops] at hstops
  split_ifs at hstops with hbelow
  · cases hstops
    cases hend
    exact Or.inl rfl
  · obtain ⟨q, hq, hp⟩ := bind_eq_ok.mp hstops
    rw [hjudge] at hq
    cases hq
    cases hp
    by_cases hwait : a.rshashNegContZero + 1 > 2
    · left
      rw [probedUp_rshashNegContZero, if_pos hwait] at hend
      cases hend
      rfl
    · rw [probedUp_rshashNegContZero, if_neg hwait] at hend
      by_cases hlimit : (a.probedUp (netBenefit b)).hashStrength = strengthMax
      · left
        simp only [Adaptation.noted_hashStrength, hlimit] at hend
        cases hend
        rfl
      · right
        simp only [Adaptation.noted_hashStrength, hlimit] at hend
        cases hend
        exact ⟨(probedUp_state a _).trans hstate, hwait, rfl⟩

section Falls

variable (hrange : RangeInv a)

include hrange hb

/-- A call brings the strength nearer to 1, or ends a round of waiting. -/
theorem rankDown_falls (hadjust : adjustState round b a = .ok a') (hrest : ¬a.RestsAt 1) :
    rankDown a' < rankDown a := by
  have hstep := (adjustState_meets round a hb hrange.named).of_ok hadjust
  have hle' := (rangeInv_step hrange hstep).strength.2
  have hmax := hashStrengthMax_eq
  have hcalls := callsLeft_le (show a'.hashStrength.toNat - 1 ≤ 1033 by omega)
  have hwaits' := waits_le a'
  have henter : a.rshashState.state = .new ∨ a.rshashState.state = .preStill →
      rankDown a' < rankDown a := by
    intro hsettled
    have ha' := Except.ok.inj ((adjustState_settled hb hsettled).symm.trans hadjust)
    rw [rankDown_still (ha' ▸ rfl), rankDown_settled hsettled]
    have hleft := hcalls (a'.exponent .goUp).toNat
    omega
  rw [adjustState] at hadjust
  cases hstate : a.rshashState.state with
  | still =>
    rw [hstate] at hadjust
    have ha' := Except.ok.inj ((adjustStill_zero hb hjudge).symm.trans hadjust)
    have hpos := hrange.strength.1
    have hne : a.hashStrength.toNat ≠ 1 := fun h => hrest ⟨hstate, UInt64.toNat_inj.mp h⟩
    rw [rankDown_still hstate]
    by_cases hwait : a.rshashNegContZero + 1 > 2
    · rw [if_pos hwait] at ha'
      have hnoted := hrange.noted (a.rshashNegContZero + 1) a.rshashContObscure
      have hstrength := descended_hashStrength hnoted (netBenefit b)
      have hexponent := descended_exponent hnoted (netBenefit b)
      rw [ha'] at hstrength hexponent
      have hstate' : a'.rshashState.state = .still := by
        rw [← ha']
        exact hstate
      have hfall : callsLeft (a.hashStrength.toNat - 1 - 2 ^ (a.exponent .goUp).toNat)
          (min ((a.exponent .goUp).toNat + 1) hashStrengthDeltaMax) <
            callsLeft (a.hashStrength.toNat - 1) (a.exponent .goUp).toNat :=
        callsLeft_lt (exponent_le hrange .goUp) (by omega)
      have hdistance : a'.hashStrength.toNat - 1 =
          a.hashStrength.toNat - 1 - 2 ^ (a.exponent .goUp).toNat := hstrength
      have hexponent' : (a'.exponent .goUp).toNat =
          min ((a.exponent .goUp).toNat + 1) hashStrengthDeltaMax := hexponent
      rw [rankDown_still hstate', hdistance, hexponent']
      omega
    · rw [if_neg hwait] at ha'
      have hless : a'.waits < a.waits := waits_lt hwait (by rw [← ha']; rfl)
      have hstate' : a'.rshashState.state = .still := by
        rw [← ha']
        exact hstate
      have hstrength : a'.hashStrength = a.hashStrength := by rw [← ha']; rfl
      have hexponent : a'.exponent .goUp = a.exponent .goUp := by rw [← ha']; rfl
      rw [rankDown_still hstate', hstrength, hexponent]
      omega
  | tryUp =>
    rw [hstate] at hadjust
    rw [rankDown_tryUp hstate]
    obtain hsettled | ⟨hstate', hwait, hzero⟩ := adjustTryUp_zero hb hjudge hstate hadjust
    · rw [rankDown_settled (Or.inr hsettled)]
      omega
    · have hless := waits_lt hwait hzero
      rw [rankDown_tryUp hstate']
      omega
  | tryDown =>
    rw [rankDown_tryDown hstate]
    obtain ⟨hstate', _⟩ | hon := hstep.turns_or_goesOn hrange hstate
    · rw [rankDown_tryUp hstate']
      have hleft := callsLeft_pos (a.hashStrength.toNat - 1) a.hashStrengthDelta.toNat
      omega
    · have hapart := hon.apart
      have hdistance := hon.distance
      have hstate' := hon.state.trans hstate
      simp only [Adaptation.distance, hstate, hstate'] at hapart hdistance
      rw [rankDown_tryDown hstate', hdistance, hon.delta]
      exact Nat.add_lt_add_left (callsLeft_lt hrange.delta hapart) 165
  | new => exact henter (Or.inl hstate)
  | preStill => exact henter (Or.inr hstate)
  | other v => exact absurd hstate (hrange.named v)

/-- At strength 1 a call changes nothing that matters. -/
theorem restsAt_one_stays (hadjust : adjustState round b a = .ok a') (hrest : a.RestsAt 1) :
    a'.RestsAt 1 := by
  rw [adjustState, hrest.1] at hadjust
  have ha' := Except.ok.inj ((adjustStill_zero hb hjudge).symm.trans hadjust)
  split_ifs at ha' with hwait
  · have hnoted := hrange.noted (a.rshashNegContZero + 1) a.rshashContObscure
    have hstrength : a'.hashStrength.toNat - 1 = 0 := by
      rw [← ha', descended_hashStrength hnoted, Adaptation.noted_hashStrength, hrest.2]
      exact Nat.zero_sub _
    have hstep := (adjustState_meets round a hb hrange.named).of_ok
      (show adjustState round b a = .ok a' by rw [adjustState, hrest.1]; exact hadjust)
    have hpos := (rangeInv_step hrange hstep).strength.1
    refine ⟨by rw [← ha']; exact hrest.1, UInt64.toNat_inj.mp ?_⟩
    rw [UInt64.toNat_one]
    omega
  · rw [← ha']
    exact hrest

end Falls

end Low

/-! ### Runs of the system under pressure -/

/-- A pressure on the strength: the ratios that cause it, where it ends, and how many effective
calls a state is away from there. -/
structure Pressure where
  ratio : UInt64 → Bool
  limit : UInt64
  rank : Adaptation → ℕ
  falls : ∀ {round : UInt64} {b : Benefit} {r : UInt64} {a a' : Adaptation}, RangeInv a →
    b.scanned ≠ 0 → round &&& 0xFF ≠ 10 → getCurrentNegRatio b = .ok r → ratio r = true →
    adjustState round b a = .ok a' → ¬a.RestsAt limit → rank a' < rank a
  stays : ∀ {round : UInt64} {b : Benefit} {r : UInt64} {a a' : Adaptation}, RangeInv a →
    b.scanned ≠ 0 → round &&& 0xFF ≠ 10 → getCurrentNegRatio b = .ok r → ratio r = true →
    adjustState round b a = .ok a' → a.RestsAt limit → a'.RestsAt limit

/-- The hash is almost always wrong. -/
def pressureUp : Pressure where
  ratio r := r > 90
  limit := strengthMax
  rank := rankUp
  falls hrange hb hround hr hhigh hadjust hrest :=
    rankUp_falls hrange hb (judge_high hround hr (of_decide_eq_true hhigh)) hadjust hrest
  stays hrange hb hround hr hhigh hadjust hrest :=
    restsAt_max_stays hrange hb (judge_high hround hr (of_decide_eq_true hhigh)) hadjust hrest

/-- The hash is never wrong. -/
def pressureDown : Pressure where
  ratio r := r = 0
  limit := 1
  rank := rankDown
  falls hrange hb hround hr hzero hadjust hrest :=
    rankDown_falls hb (judge_zero hround (of_decide_eq_true hzero ▸ hr)) hrange hadjust hrest
  stays hrange hb hround hr hzero hadjust hrest :=
    restsAt_one_stays hb (judge_zero hround (of_decide_eq_true hzero ▸ hr)) hrange hadjust hrest

/-- The operation is an effective call of `rshash_adjust`. -/
def Op.effective (u : Uksm) : Op → Bool
  | .rshashAdjust _ _ _ =>
    match encodeBenefit u.counters with
    | .ok (encoded, _) => encoded
    | .error _ => false
  | _ => false

/-- The operation, where it is an effective call, finds the pressure, and not in one of the rounds
in which a probe is forced. -/
def Op.presses (p : Pressure) (u : Uksm) : Op → Bool
  | .rshashAdjust round _ _ =>
    match encodeBenefit u.counters with
    | .ok (true, c) =>
      round &&& 0xFF ≠ 10 &&
        match getCurrentNegRatio c.benefit with
        | .ok r => p.ratio r
        | .error _ => false
    | _ => true
  | _ => true

variable {rb : Balancer ℕ} {randomNums : RandomNums} {pageAt : ℕ → Page} {choices : ℕ → Choice}
  {u u' : Uksm}

/-- An effective call does what the `switch` does. -/
theorem rshashAdjust_adaptation {c : Counters} {changed : Bool}
    (he : encodeBenefit u.counters = .ok (true, c))
    (hrun : rshashAdjust rb randomNums round pageAt choices u = .ok (changed, u')) :
    adjustState round c.benefit u.adaptation = .ok u'.adaptation := by
  rw [rshashAdjust, he] at hrun
  obtain ⟨a, ha, hrest⟩ := bind_eq_ok.mp
    (show (adjustState round c.benefit u.adaptation >>= _) = _ from hrun)
  rw [ha]
  refine congrArg Except.ok ?_
  split_ifs at hrest with hchanged
  · obtain ⟨r, _, hr⟩ := bind_eq_ok.mp hrest
    cases hr
    rfl
  · cases hrest
    rfl

/-- Every other operation leaves the adaptation alone. -/
theorem Op.run_adaptation {op : Op} (hidle : op.effective u = false)
    (hrun : op.run rb randomNums u = .ok u') : u'.adaptation = u.adaptation := by
  rcases op.counts_or with hcounts | ⟨round, pageAt, choices, rfl⟩ | ⟨tree, rfl⟩
  · exact ((op.run_counts hcounts u).of_ok hrun).1
  · rw [Op.effective] at hidle
    rw [Op.run, DirtyPages.rshashAdjust] at hrun
    cases he : encodeBenefit u.counters with
    | error f =>
      rw [he] at hrun
      cases hrun
    | ok q =>
      obtain ⟨encoded, c⟩ := q
      rw [he] at hidle hrun
      have hfalse : encoded = false := hidle
      subst hfalse
      cases hrun
      rfl
  · cases hrun
    rfl

/-- What the pressure on a call is, after its `encode_benefit`. -/
theorem Op.presses_encoded {p : Pressure} {c : Counters}
    (hpress : (Op.rshashAdjust round pageAt choices).presses p u = true)
    (he : encodeBenefit u.counters = .ok (true, c)) :
    round &&& 0xFF ≠ 10 ∧ ∃ r, getCurrentNegRatio c.benefit = .ok r ∧ p.ratio r = true := by
  obtain ⟨r, hr⟩ := getCurrentNegRatio_returns c.benefit
  rw [Op.presses, he] at hpress
  simp only [hr, Bool.and_eq_true, decide_eq_true_eq] at hpress
  exact ⟨hpress.1, r, hr, hpress.2⟩

/-- An effective call under pressure. -/
theorem Op.presses_effective {p : Pressure} {op : Op} (hpress : op.presses p u = true)
    (heffective : op.effective u = true) (hrun : op.run rb randomNums u = .ok u') :
    ∃ round c r, encodeBenefit u.counters = .ok (true, c) ∧ round &&& 0xFF ≠ 10 ∧
      getCurrentNegRatio c.benefit = .ok r ∧ p.ratio r = true ∧
      adjustState round c.benefit u.adaptation = .ok u'.adaptation := by
  cases op with
  | rshashAdjust round pageAt choices =>
    rw [Op.effective] at heffective
    cases he : encodeBenefit u.counters with
    | error f =>
      rw [he] at heffective
      cases heffective
    | ok q =>
      obtain ⟨encoded, c⟩ := q
      rw [he] at heffective
      have htrue : encoded = true := heffective
      subst htrue
      obtain ⟨hround, r, hr, hratio⟩ := Op.presses_encoded hpress he
      refine ⟨round, c, r, rfl, hround, hr, hratio, ?_⟩
      cases hadjust : DirtyPages.rshashAdjust rb randomNums round pageAt choices u with
      | error f =>
        rw [Op.run, hadjust] at hrun
        cases hrun
      | ok q =>
        rw [Op.run, hadjust] at hrun
        cases hrun
        exact rshashAdjust_adaptation he hadjust
  | _ => cases heffective

/-- The rank of a pressure falls in effective calls and is left alone by everything else. -/
theorem Pressure.ranked (rb : Balancer ℕ) (randomNums : RandomNums) (p : Pressure) :
    Ranked (fun u op => Op.run rb randomNums op u) Op.effective (fun u op => op.presses p u = true)
      (fun u => RangeInv u.adaptation) (fun u => u.adaptation.RestsAt p.limit)
      (fun u => p.rank u.adaptation) where
  keeps u op _ hrange _ hrun := (op.run_keepsRange u hrange).of_ok hrun
  stays u op u' hrange hpress hrun hrest := by
    cases heffective : op.effective u with
    | false => exact Op.run_adaptation heffective hrun ▸ hrest
    | true =>
      obtain ⟨round, c, r, he, hround, hr, hratio, hadjust⟩ :=
        Op.presses_effective hpress heffective hrun
      exact p.stays hrange (encodeBenefit_scanned_ne_zero he) hround hr hratio hadjust hrest
  idle u op u' _ _ hrun hidle := by rw [Op.run_adaptation hidle hrun]
  falls u op u' hrange hpress hrun heffective hrest := by
    obtain ⟨round, c, r, he, hround, hr, hratio, hadjust⟩ :=
      Op.presses_effective hpress heffective hrun
    exact Or.inr
      (p.falls hrange (encodeBenefit_scanned_ne_zero he) hround hr hratio hadjust hrest)

/-- At rest a call under pressure changes neither the strength nor the tree. -/
theorem Pressure.rests (p : Pressure) (hrange : RangeInv u.adaptation)
    (hrest : u.adaptation.RestsAt p.limit)
    (hpress : (Op.rshashAdjust round pageAt choices).presses p u = true) :
    Meets OnlyBugOnScanned
      (fun q => q.1 = false ∧ q.2.tree = u.tree ∧ q.2.adaptation.RestsAt p.limit)
      (rshashAdjust rb randomNums round pageAt choices u) := by
  refine rshashAdjust_meets round choices hrange (fun _ => rfl) (fun _ => ⟨rfl, rfl, hrest⟩) ?_
  intro c a he _ hadjust
  obtain ⟨hround, r, hr, hratio⟩ := Op.presses_encoded hpress he
  have hrest' : a.RestsAt p.limit :=
    p.stays hrange (encodeBenefit_scanned_ne_zero he) hround hr hratio hadjust hrest
  have hsame : u.adaptation.hashStrength = a.hashStrength := hrest.2.trans hrest'.2.symm
  exact ⟨fun _ => ⟨rfl, rfl, hrest'⟩, fun hne => absurd hsame hne⟩

/-- Any reachable state, under a pressure for more effective calls than its rank. -/
theorem Pressure.drives (p : Pressure) {ops ops' : List Op} (hrun : run rb randomNums ops = .ok u)
    (hpress : Along (fun u op => Op.run rb randomNums op u) (fun u op => op.presses p u = true) u
      ops')
    (hcalls : p.rank u.adaptation <
      countAlong (fun u op => Op.run rb randomNums op u) Op.effective u ops')
    (hrun' : ops'.foldlM (fun u op => op.run rb randomNums u) u = .ok u') :
    u'.adaptation.RestsAt p.limit ∧
      ∀ round pageAt choices, (Op.rshashAdjust round pageAt choices).presses p u' = true →
        Meets OnlyBugOnScanned
          (fun q => q.1 = false ∧ q.2.tree = u'.tree ∧ q.2.adaptation.RestsAt p.limit)
          (rshashAdjust rb randomNums round pageAt choices u') := by
  have hrange := (run_rangeInv ops).of_ok hrun
  obtain ⟨hrest, hrange'⟩ :=
    (p.ranked rb randomNums).reaches hrange hpress hrun' (Or.inr hcalls)
  exact ⟨hrest, fun round pageAt choices hnext => p.rests hrange' hrest hnext⟩

/-- From every reachable state, after at most 81 effective calls that find more than 90 per cent of
the benefit gone, the strength is `HASH_STRENGTH_MAX`, and such calls keep it there without a
rebuild. -/
theorem strength_driven_up (rb : Balancer ℕ) (randomNums : RandomNums) (ops : List Op) (u : Uksm)
    (hrun : run rb randomNums ops = .ok u) (ops' : List Op) (u' : Uksm)
    (hpress : Along (fun u op => Op.run rb randomNums op u)
      (fun u op => op.presses pressureUp u = true) u ops')
    (hcalls : 81 ≤ countAlong (fun u op => Op.run rb randomNums op u) Op.effective u ops')
    (hrun' : ops'.foldlM (fun u op => op.run rb randomNums u) u = .ok u') :
    u'.adaptation.RestsAt strengthMax ∧
      ∀ round pageAt choices, (Op.rshashAdjust round pageAt choices).presses pressureUp u' = true →
        Meets OnlyBugOnScanned
          (fun q => q.1 = false ∧ q.2.tree = u'.tree ∧ q.2.adaptation.RestsAt strengthMax)
          (rshashAdjust rb randomNums round pageAt choices u') := by
  have hrank : rankUp u.adaptation ≤ 80 := rankUp_le ((run_rangeInv ops).of_ok hrun)
  exact pressureUp.drives hrun hpress (Nat.lt_of_le_of_lt hrank hcalls) hrun'

/-- Rounds with one page each, one charge and an effective call. -/
def rounds (k : ℕ) (charge : Op) : List Op :=
  (List.replicate k [.incUksmPagesScanned, charge,
    .rshashAdjust 1 (fun _ _ => 0) fun _ => ⟨false, false, false⟩]).flatten

/-- Rounds of a run from the initial state that the kernel checks. -/
theorem rounds_returns (p : Pressure) (k n : ℕ) (charge : Op)
    (hcheck : (alongCheck (fun u op => Op.run (Balancer.plain ℕ) id op u)
      (fun u op => op.presses p u) initialUksm (rounds k charge) &&
      decide (n ≤ countAlong (fun u op => Op.run (Balancer.plain ℕ) id op u) Op.effective
        initialUksm (rounds k charge)) &&
      match run (Balancer.plain ℕ) id (rounds k charge) with
      | .ok _ => true
      | .error _ => false) = true) :
    Along (fun u op => Op.run (Balancer.plain ℕ) id op u) (fun u op => op.presses p u = true)
        initialUksm (rounds k charge) ∧
      n ≤ countAlong (fun u op => Op.run (Balancer.plain ℕ) id op u) Op.effective initialUksm
        (rounds k charge) ∧
      ∃ u', run (Balancer.plain ℕ) id (rounds k charge) = .ok u' := by
  rw [Bool.and_eq_true, Bool.and_eq_true, decide_eq_true_eq] at hcheck
  refine ⟨along_of_check hcheck.1.1, hcheck.1.2, ?_⟩
  have hreturns := hcheck.2
  cases hrun : run (Balancer.plain ℕ) id (rounds k charge) with
  | error f =>
    rw [hrun] at hreturns
    cases hreturns
  | ok u' => exact ⟨u', rfl⟩

theorem strength_driven_up_wrong :
    ∃ u', run (Balancer.plain ℕ) id (rounds 81 (.incRshashNeg 100)) = .ok u' ∧
      u'.adaptation.RestsAt strengthMax := by
  obtain ⟨hpress, hcalls, u', hrun⟩ :=
    rounds_returns pressureUp 81 81 (.incRshashNeg 100) (by decide +kernel)
  exact ⟨u', hrun, (strength_driven_up (Balancer.plain ℕ) id [] initialUksm rfl _ u' hpress hcalls
    hrun).1⟩

/-- From every reachable state, after at most 205 effective calls that find no error, the strength
is 1, and such calls keep it there without a rebuild. -/
theorem strength_driven_down (rb : Balancer ℕ) (randomNums : RandomNums) (ops : List Op) (u : Uksm)
    (hrun : run rb randomNums ops = .ok u) (ops' : List Op) (u' : Uksm)
    (hpress : Along (fun u op => Op.run rb randomNums op u)
      (fun u op => op.presses pressureDown u = true) u ops')
    (hcalls : 205 ≤ countAlong (fun u op => Op.run rb randomNums op u) Op.effective u ops')
    (hrun' : ops'.foldlM (fun u op => op.run rb randomNums u) u = .ok u') :
    u'.adaptation.RestsAt 1 ∧
      ∀ round pageAt choices,
        (Op.rshashAdjust round pageAt choices).presses pressureDown u' = true →
        Meets OnlyBugOnScanned
          (fun q => q.1 = false ∧ q.2.tree = u'.tree ∧ q.2.adaptation.RestsAt 1)
          (rshashAdjust rb randomNums round pageAt choices u') := by
  have hrank : rankDown u.adaptation ≤ 204 := rankDown_le ((run_rangeInv ops).of_ok hrun)
  exact pressureDown.drives hrun hpress (Nat.lt_of_le_of_lt hrank hcalls) hrun'

theorem strength_driven_down_right :
    ∃ u', run (Balancer.plain ℕ) id (rounds 205 (.incRshashPos 100)) = .ok u' ∧
      u'.adaptation.RestsAt 1 := by
  obtain ⟨hpress, hcalls, u', hrun⟩ :=
    rounds_returns pressureDown 205 205 (.incRshashPos 100) (by decide +kernel)
  exact ⟨u', hrun, (strength_driven_down (Balancer.plain ℕ) id [] initialUksm rfl _ u' hpress
    hcalls hrun).1⟩

end DirtyPages
