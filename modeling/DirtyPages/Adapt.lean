import DirtyPages.PageHash

/-!
# The hash-strength adaptation

Section 13 of `dirtPages.c`: the variables of the adaptation, the decision
`judge_rshash_direction`, and the `switch` of `rshash_adjust`.  The part of `rshash_adjust` around
the `switch` also touches the counters and the stable tree and comes later.

An `enum` variable can hold values that name no enumerator, so both enumerations have a constructor
for these; the two `default: BUG()` branches are the branches that meet it.
-/

namespace DirtyPages

open Outcome

/-- `enum rshash_states` -/
inductive RshashStates
  | still
  | tryUp
  | tryDown
  | new
  | preStill
  | other (value : UInt32)
  deriving DecidableEq, Repr

/-- `enum rshash_direct` -/
inductive RshashDirect
  | goUp
  | goDown
  | obscure
  | still
  | other (value : UInt32)
  deriving DecidableEq, Repr

/-- The fields of `rshash_state`. -/
@[ext] structure RshashState where
  state : RshashStates
  preDirect : RshashDirect
  belowCount : UInt8
  lookupWindowIndex : UInt8
  stableBenefit : UInt64
  turnPointDown : UInt64
  turnBenefitDown : UInt64
  turnPointUp : UInt64
  turnBenefitUp : UInt64
  stablePoint : UInt64
  deriving DecidableEq, Repr

/-- The global variables that the adaptation owns. -/
@[ext] structure Adaptation where
  hashStrength : UInt64
  hashStrengthDelta : UInt64
  rshashNegContZero : UInt64
  rshashContObscure : UInt64
  rshashState : RshashState
  deriving DecidableEq, Repr

/-- The static initial values, after `init_random_sampling`. -/
def initialAdaptation : Adaptation where
  hashStrength := strengthFull >>> 4
  hashStrengthDelta := 0
  rshashNegContZero := 0
  rshashContObscure := 0
  rshashState := ⟨.new, .goUp, 0, 0, 0, 0, 0, 0, 0, 0⟩

/-- `inc_hash_strength`.  The shift is of an `int` in the source, which agrees for the exponents up
to `HASH_STRENGTH_DELTA_MAX` that occur. -/
def incHashStrength (delta : UInt64) (a : Adaptation) : Adaptation :=
  let hashStrength := a.hashStrength + (1 <<< delta)
  { a with hashStrength := if hashStrength > strengthMax then strengthMax else hashStrength }

/-- `dec_hash_strength` -/
def decHashStrength (delta : UInt64) (a : Adaptation) : Adaptation :=
  let change : UInt64 := 1 <<< delta
  { a with
    hashStrength := if a.hashStrength ≤ change + 1 then 1 else a.hashStrength - change }

/-- `HASH_STRENGTH_DELTA_MAX` as it enters 64-bit arithmetic. -/
def strengthDeltaMax : UInt64 := UInt64.ofNat hashStrengthDeltaMax

/-- `inc_hash_strength_delta` -/
def incHashStrengthDelta (a : Adaptation) : Adaptation :=
  let hashStrengthDelta := a.hashStrengthDelta + 1
  { a with
    hashStrengthDelta :=
      if hashStrengthDelta > strengthDeltaMax then strengthDeltaMax else hashStrengthDelta }

/-- `div64_u64` -/
def div64U64 (dividend divisor : UInt64) : Except Fault UInt64 :=
  if divisor = 0 then .error .divideByZero else .ok (dividend / divisor)

/-- `get_current_neg_ratio` -/
def getCurrentNegRatio (b : Benefit) : Except Fault UInt64 :=
  if b.neg = 0 then
    .ok 0
  else if b.pos = 0 ∨ b.neg > b.pos then
    .ok 100
  else do
    let limit ← div64U64 u64Max 100
    if b.neg > limit then
      let pos ← div64U64 b.pos 100
      div64U64 b.neg pos
    else
      div64U64 (b.neg * 100) b.pos

/-- `get_current_benefit` -/
def getCurrentBenefit (b : Benefit) : Except Fault UInt64 :=
  if b.neg > b.pos then .ok 0 else div64U64 (b.pos - b.neg) b.scanned

/-- `judge_rshash_direction` -/
def judgeRshashDirection (fullyScannedRound : UInt64) (b : Benefit) (a : Adaptation) :
    Except Fault (RshashDirect × Adaptation) :=
  if fullyScannedRound &&& 0xFF = 10 then
    .ok (.obscure, { a with rshashContObscure := 0 })
  else do
    let currentNegRatio ← getCurrentNegRatio b
    if currentNegRatio = 0 then
      let a := { a with rshashNegContZero := a.rshashNegContZero + 1 }
      return (if a.rshashNegContZero > 2 then .goDown else .still, a)
    else
      let a := { a with rshashNegContZero := 0 }
      if currentNegRatio > 90 then
        return (.goUp, { a with rshashContObscure := 0 })
      else
        let currentBenefit ← getCurrentBenefit b
        let stableBenefit := a.rshashState.stableBenefit
        if stableBenefit = 0 then
          return (.obscure, { a with rshashContObscure := 0 })
        else
          let delta :=
            if currentBenefit > stableBenefit then currentBenefit - stableBenefit
            else if currentBenefit < stableBenefit then stableBenefit - currentBenefit
            else 0
          let delta ← div64U64 (100 * delta) stableBenefit
          if delta > 50 then
            let a := { a with rshashContObscure := a.rshashContObscure + 1 }
            return (if a.rshashContObscure > 2 then .obscure else .still, a)
          else
            return (.still, { a with rshashContObscure := 0 })

/-- `if (lookup_window_index++ % 5 == 0) below_count = 0;` -/
def openWindow (a : Adaptation) : Adaptation :=
  { a with
    rshashState.belowCount :=
      if a.rshashState.lookupWindowIndex % 5 = 0 then 0 else a.rshashState.belowCount
    rshashState.lookupWindowIndex := a.rshashState.lookupWindowIndex + 1 }

/-- `below_count >= 3 || judge_rshash_direction() == direct || hash_strength == limit` -/
def probeStops (fullyScannedRound : UInt64) (b : Benefit) (direct : RshashDirect) (limit : UInt64)
    (a : Adaptation) : Except Fault (Bool × Adaptation) :=
  if a.rshashState.belowCount ≥ 3 then
    .ok (true, a)
  else do
    let (judged, a) ← judgeRshashDirection fullyScannedRound b a
    return (judged = direct ∨ a.hashStrength = limit, a)

/-- The comparison of one measurement in `RSHASH_TRYDOWN`. -/
def measureDown (currentBenefit : UInt64) (a : Adaptation) : Adaptation :=
  if currentBenefit < a.rshashState.stableBenefit then
    { a with rshashState.belowCount := a.rshashState.belowCount + 1 }
  else if currentBenefit > a.rshashState.turnBenefitDown then
    { a with
      rshashState.turnPointDown := a.hashStrength
      rshashState.turnBenefitDown := currentBenefit }
  else
    a

/-- The comparison of one measurement in `RSHASH_TRYUP`. -/
def measureUp (currentBenefit : UInt64) (a : Adaptation) : Adaptation :=
  if currentBenefit < a.rshashState.turnBenefitDown then
    { a with rshashState.belowCount := a.rshashState.belowCount + 1 }
  else if currentBenefit > a.rshashState.turnBenefitUp then
    { a with
      rshashState.turnPointUp := a.hashStrength
      rshashState.turnBenefitUp := currentBenefit }
  else
    a

/-- The end of `case GO_UP` and `case GO_DOWN`. -/
def setBaseline (currentBenefit : UInt64) (direct : RshashDirect) (a : Adaptation) : Adaptation :=
  { a with
    rshashState.stableBenefit := currentBenefit
    rshashState.preDirect := direct }

/-- The assignments of `case OBSCURE`: a probe starts from here. -/
def startProbe (currentBenefit : UInt64) (a : Adaptation) : Adaptation :=
  { a with
    rshashState.stablePoint := a.hashStrength
    rshashState.turnPointDown := a.hashStrength
    rshashState.turnPointUp := a.hashStrength
    rshashState.turnBenefitDown := currentBenefit
    rshashState.turnBenefitUp := currentBenefit
    rshashState.lookupWindowIndex := 0
    rshashState.state := .tryDown }

/-- The end of the way down: back to the stable point and one step above it. -/
def turnUp (a : Adaptation) : Adaptation :=
  let a := { a with hashStrength := a.rshashState.stablePoint, hashStrengthDelta := 0 }
  let a := incHashStrengthDelta (incHashStrength a.hashStrengthDelta a)
  { a with
    rshashState.lookupWindowIndex := 0
    rshashState.state := .tryUp
    hashStrengthDelta := 0 }

/-- The end of the way up: the better of the two turn points. -/
def settle (a : Adaptation) : Adaptation :=
  { a with
    hashStrength :=
      if a.rshashState.turnBenefitUp > a.rshashState.turnBenefitDown then
        a.rshashState.turnPointUp
      else
        a.rshashState.turnPointDown
    rshashState.state := .preStill }

/-- The assignments of `case RSHASH_NEW: case RSHASH_PRE_STILL`. -/
def enterStill (currentBenefit : UInt64) (a : Adaptation) : Adaptation :=
  { a with
    rshashState.stableBenefit := currentBenefit
    rshashState.state := .still
    hashStrengthDelta := 0 }

/-- `case RSHASH_STILL` -/
def adjustStill (fullyScannedRound : UInt64) (b : Benefit) (a : Adaptation) :
    Except Fault Adaptation := do
  let (judged, a) ← judgeRshashDirection fullyScannedRound b a
  match judged with
  | .goUp =>
    let a := if a.rshashState.preDirect = .goDown then { a with hashStrengthDelta := 0 } else a
    let a := incHashStrengthDelta (incHashStrength a.hashStrengthDelta a)
    let currentBenefit ← getCurrentBenefit b
    return setBaseline currentBenefit .goUp a
  | .goDown =>
    let a := if a.rshashState.preDirect = .goUp then { a with hashStrengthDelta := 0 } else a
    let a := incHashStrengthDelta (decHashStrength a.hashStrengthDelta a)
    let currentBenefit ← getCurrentBenefit b
    return setBaseline currentBenefit .goDown a
  | .obscure =>
    let currentBenefit ← getCurrentBenefit b
    let a := startProbe currentBenefit a
    return incHashStrengthDelta (decHashStrength a.hashStrengthDelta a)
  | .still => return a
  | .other _ => .error .bugDefault

/-- `case RSHASH_TRYDOWN` -/
def adjustTryDown (fullyScannedRound : UInt64) (b : Benefit) (a : Adaptation) :
    Except Fault Adaptation := do
  let a := openWindow a
  let currentBenefit ← getCurrentBenefit b
  let a := measureDown currentBenefit a
  let (stops, a) ← probeStops fullyScannedRound b .goUp 1 a
  if stops then
    return turnUp a
  else
    return incHashStrengthDelta (decHashStrength a.hashStrengthDelta a)

/-- `case RSHASH_TRYUP` -/
def adjustTryUp (fullyScannedRound : UInt64) (b : Benefit) (a : Adaptation) :
    Except Fault Adaptation := do
  let a := openWindow a
  let currentBenefit ← getCurrentBenefit b
  let a := measureUp currentBenefit a
  let (stops, a) ← probeStops fullyScannedRound b .goDown strengthMax a
  if stops then
    return settle a
  else
    return incHashStrengthDelta (incHashStrength a.hashStrengthDelta a)

/-- `case RSHASH_NEW: case RSHASH_PRE_STILL` -/
def adjustNew (b : Benefit) (a : Adaptation) : Except Fault Adaptation := do
  let currentBenefit ← getCurrentBenefit b
  return enterStill currentBenefit a

/-- The `switch` of `rshash_adjust`. -/
def adjustState (fullyScannedRound : UInt64) (b : Benefit) (a : Adaptation) :
    Except Fault Adaptation :=
  match a.rshashState.state with
  | .still => adjustStill fullyScannedRound b a
  | .tryDown => adjustTryDown fullyScannedRound b a
  | .tryUp => adjustTryUp fullyScannedRound b a
  | .new | .preStill => adjustNew b a
  | .other _ => .error .bugDefault

/-! ### No division by zero

`rshash_adjust` only gets this far after an effective `encode_benefit`, which leaves
`benefit.scanned` nonzero. -/

/-- The net benefit per scanned page. -/
def netBenefit (b : Benefit) : UInt64 :=
  if b.neg > b.pos then 0 else (b.pos - b.neg) / b.scanned

theorem div64U64_of_ne_zero {x y : UInt64} (hy : y ≠ 0) : div64U64 x y = .ok (x / y) := by
  rw [div64U64, if_neg hy]

theorem getCurrentBenefit_eq_ok {b : Benefit} (hb : b.scanned ≠ 0) :
    getCurrentBenefit b = .ok (netBenefit b) := by
  rw [getCurrentBenefit, netBenefit]
  by_cases hneg : b.neg > b.pos
  · rw [if_pos hneg, if_pos hneg]
  · rw [if_neg hneg, if_neg hneg, div64U64_of_ne_zero hb]

theorem getCurrentNegRatio_returns (b : Benefit) : ∃ ratio, getCurrentNegRatio b = .ok ratio := by
  rw [getCurrentNegRatio]
  by_cases hzero : b.neg = 0
  · rw [if_pos hzero]
    exact ⟨_, rfl⟩
  rw [if_neg hzero]
  by_cases hpos : b.pos = 0 ∨ b.neg > b.pos
  · rw [if_pos hpos]
    exact ⟨_, rfl⟩
  rw [if_neg hpos]
  rw [not_or] at hpos
  have hlimit : div64U64 u64Max 100 = .ok (u64Max / 100) := div64U64_of_ne_zero (by decide)
  have hhundred : div64U64 b.pos 100 = .ok (b.pos / 100) := div64U64_of_ne_zero (by decide)
  by_cases hlarge : b.neg > u64Max / 100
  · -- then `pos` is at least as large, and a hundredth of it is not zero
    have hquot : b.pos / 100 ≠ 0 := by
      intro hq
      have hq' := congrArg UInt64.toNat hq
      have hle := hpos.2
      rw [gt_iff_lt, UInt64.lt_iff_toNat_lt] at hle hlarge
      rw [UInt64.toNat_div] at hq' hlarge
      rw [toNat_u64Max] at hlarge
      simp only [UInt64.reduceToNat] at hq' hlarge
      omega
    refine ⟨b.neg / (b.pos / 100), bind_eq_ok.mpr ⟨_, hlimit, ?_⟩⟩
    rw [if_pos hlarge]
    exact bind_eq_ok.mpr ⟨_, hhundred, div64U64_of_ne_zero hquot⟩
  · refine ⟨b.neg * 100 / b.pos, bind_eq_ok.mpr ⟨_, hlimit, ?_⟩⟩
    rw [if_neg hlarge]
    exact div64U64_of_ne_zero hpos.1

/-! ### What one effective call can do -/

/-- The two consecutive-round counters are all that `judge_rshash_direction` changes. -/
def Adaptation.noted (a : Adaptation) (zero obscure : UInt64) : Adaptation :=
  { a with rshashNegContZero := zero, rshashContObscure := obscure }

@[simp] theorem Adaptation.noted_hashStrength (a : Adaptation) (z o : UInt64) :
    (a.noted z o).hashStrength = a.hashStrength := rfl

@[simp] theorem Adaptation.noted_hashStrengthDelta (a : Adaptation) (z o : UInt64) :
    (a.noted z o).hashStrengthDelta = a.hashStrengthDelta := rfl

@[simp] theorem Adaptation.noted_rshashState (a : Adaptation) (z o : UInt64) :
    (a.noted z o).rshashState = a.rshashState := rfl

/-- The decision is one of the four that have a name, and it is always reached. -/
theorem judgeRshashDirection_meets (r : UInt64) {b : Benefit} (a : Adaptation)
    (hb : b.scanned ≠ 0) :
    Meets (fun _ => False)
      (fun p => (p.1 = .goUp ∨ p.1 = .goDown ∨ p.1 = .obscure ∨ p.1 = .still) ∧
        ∃ z o, p.2 = a.noted z o)
      (judgeRshashDirection r b a) := by
  rw [judgeRshashDirection]
  by_cases hround : r &&& 0xFF = 10
  · rw [if_pos hround]
    exact ⟨by simp, a.rshashNegContZero, 0, rfl⟩
  rw [if_neg hround]
  obtain ⟨ratio, hratio⟩ := getCurrentNegRatio_returns b
  rw [hratio]
  show Meets _ _ (if ratio = 0 then _ else _)
  by_cases hzero : ratio = 0
  · rw [if_pos hzero]
    refine ⟨?_, a.rshashNegContZero + 1, a.rshashContObscure, rfl⟩
    show (if _ then RshashDirect.goDown else .still) = .goUp ∨ _
    split_ifs <;> simp
  rw [if_neg hzero]
  show Meets _ _ (if ratio > 90 then _ else _)
  by_cases hninety : ratio > 90
  · rw [if_pos hninety]
    exact ⟨by simp, 0, 0, rfl⟩
  rw [if_neg hninety, getCurrentBenefit_eq_ok hb]
  show Meets _ _ (if a.rshashState.stableBenefit = 0 then _ else _)
  by_cases hstable : a.rshashState.stableBenefit = 0
  · rw [if_pos hstable]
    exact ⟨by simp, 0, 0, rfl⟩
  rw [if_neg hstable, div64U64_of_ne_zero hstable]
  generalize 100 * _ / a.rshashState.stableBenefit = drift
  show Meets _ _ (if drift > 50 then _ else _)
  by_cases hdrift : drift > 50
  · rw [if_pos hdrift]
    refine ⟨?_, 0, a.rshashContObscure + 1, rfl⟩
    show (if _ then RshashDirect.obscure else .still) = .goUp ∨ _
    split_ifs <;> simp
  · rw [if_neg hdrift]
    exact ⟨by simp, 0, 0, rfl⟩

/-- The state of a phase after one measurement `m` on the way down. -/
def Adaptation.probedDown (a : Adaptation) (m : UInt64) : Adaptation := measureDown m (openWindow a)

/-- The state of a phase after one measurement `m` on the way up. -/
def Adaptation.probedUp (a : Adaptation) (m : UInt64) : Adaptation := measureUp m (openWindow a)

/-- What an effective call that measures the benefit `m` can do to the adaptation, one constructor
for each way through the `switch`. -/
inductive AdjustStep (m : UInt64) (a : Adaptation) : Adaptation → Prop
  | stay (z o : UInt64) (hstate : a.rshashState.state = .still) : AdjustStep m a (a.noted z o)
  | goUp (z o delta : UInt64) (hstate : a.rshashState.state = .still)
      (hdelta : delta = 0 ∨ delta = a.hashStrengthDelta) :
      AdjustStep m a (setBaseline m .goUp (incHashStrengthDelta (incHashStrength delta
        { a.noted z o with hashStrengthDelta := delta })))
  | goDown (z o delta : UInt64) (hstate : a.rshashState.state = .still)
      (hdelta : delta = 0 ∨ delta = a.hashStrengthDelta) :
      AdjustStep m a (setBaseline m .goDown (incHashStrengthDelta (decHashStrength delta
        { a.noted z o with hashStrengthDelta := delta })))
  | probe (z o : UInt64) (hstate : a.rshashState.state = .still) :
      AdjustStep m a (incHashStrengthDelta (decHashStrength a.hashStrengthDelta
        (startProbe m (a.noted z o))))
  | furtherDown (z o : UInt64) (hstate : a.rshashState.state = .tryDown)
      (hbelow : (a.probedDown m).rshashState.belowCount < 3) (hlimit : a.hashStrength ≠ 1) :
      AdjustStep m a (incHashStrengthDelta (decHashStrength a.hashStrengthDelta
        ((a.probedDown m).noted z o)))
  | turn (z o : UInt64) (hstate : a.rshashState.state = .tryDown) :
      AdjustStep m a (turnUp ((a.probedDown m).noted z o))
  | furtherUp (z o : UInt64) (hstate : a.rshashState.state = .tryUp)
      (hbelow : (a.probedUp m).rshashState.belowCount < 3) (hlimit : a.hashStrength ≠ strengthMax) :
      AdjustStep m a (incHashStrengthDelta (incHashStrength a.hashStrengthDelta
        ((a.probedUp m).noted z o)))
  | settle (z o : UInt64) (hstate : a.rshashState.state = .tryUp) :
      AdjustStep m a (settle ((a.probedUp m).noted z o))
  | enterStill (hstate : a.rshashState.state = .new ∨ a.rshashState.state = .preStill) :
      AdjustStep m a (enterStill m a)

theorem probeStops_meets (r : UInt64) {b : Benefit} (direct : RshashDirect) (limit : UInt64)
    (a : Adaptation) (hb : b.scanned ≠ 0) :
    Meets (fun _ => False)
      (fun p => (∃ z o, p.2 = a.noted z o) ∧
        (p.1 = false → a.rshashState.belowCount < 3 ∧ a.hashStrength ≠ limit))
      (probeStops r b direct limit a) := by
  rw [probeStops]
  by_cases hbelow : a.rshashState.belowCount ≥ 3
  · rw [if_pos hbelow]
    exact ⟨⟨a.rshashNegContZero, a.rshashContObscure, rfl⟩, fun h => by cases h⟩
  · rw [if_neg hbelow]
    refine (judgeRshashDirection_meets r a hb).bind ?_
    rintro ⟨judged, a'⟩ ⟨_, z, o, rfl⟩
    refine ⟨⟨z, o, rfl⟩, ?_⟩
    intro hstops
    have hlimit := of_decide_eq_false hstops
    rw [not_or] at hlimit
    exact ⟨UInt8.not_le.mp hbelow, hlimit.2⟩

theorem adjustStill_meets (r : UInt64) {b : Benefit} (a : Adaptation) (hb : b.scanned ≠ 0)
    (hstate : a.rshashState.state = .still) :
    Meets (fun _ => False) (AdjustStep (netBenefit b) a) (adjustStill r b a) := by
  rw [adjustStill, getCurrentBenefit_eq_ok hb]
  refine (judgeRshashDirection_meets r a hb).bind ?_
  rintro ⟨judged, a'⟩ ⟨hjudged, z, o, rfl⟩
  rcases hjudged with rfl | rfl | rfl | rfl
  · show AdjustStep _ _ (setBaseline _ _ _)
    by_cases hpre : a.rshashState.preDirect = .goDown
    · rw [Adaptation.noted_rshashState, if_pos hpre]
      exact .goUp z o 0 hstate (Or.inl rfl)
    · rw [Adaptation.noted_rshashState, if_neg hpre]
      exact .goUp z o a.hashStrengthDelta hstate (Or.inr rfl)
  · show AdjustStep _ _ (setBaseline _ _ _)
    by_cases hpre : a.rshashState.preDirect = .goUp
    · rw [Adaptation.noted_rshashState, if_pos hpre]
      exact .goDown z o 0 hstate (Or.inl rfl)
    · rw [Adaptation.noted_rshashState, if_neg hpre]
      exact .goDown z o a.hashStrengthDelta hstate (Or.inr rfl)
  · exact .probe z o hstate
  · exact .stay z o hstate

@[simp] theorem measureDown_hashStrength (m : UInt64) (a : Adaptation) :
    (measureDown m a).hashStrength = a.hashStrength := by
  rw [measureDown]
  split_ifs <;> rfl

@[simp] theorem measureDown_hashStrengthDelta (m : UInt64) (a : Adaptation) :
    (measureDown m a).hashStrengthDelta = a.hashStrengthDelta := by
  rw [measureDown]
  split_ifs <;> rfl

@[simp] theorem measureUp_hashStrength (m : UInt64) (a : Adaptation) :
    (measureUp m a).hashStrength = a.hashStrength := by
  rw [measureUp]
  split_ifs <;> rfl

@[simp] theorem measureUp_hashStrengthDelta (m : UInt64) (a : Adaptation) :
    (measureUp m a).hashStrengthDelta = a.hashStrengthDelta := by
  rw [measureUp]
  split_ifs <;> rfl

theorem adjustTryDown_meets (r : UInt64) {b : Benefit} (a : Adaptation) (hb : b.scanned ≠ 0)
    (hstate : a.rshashState.state = .tryDown) :
    Meets (fun _ => False) (AdjustStep (netBenefit b) a) (adjustTryDown r b a) := by
  rw [adjustTryDown, getCurrentBenefit_eq_ok hb]
  refine (probeStops_meets r .goUp 1 (a.probedDown (netBenefit b)) hb).bind ?_
  rintro ⟨stops, a'⟩ ⟨⟨z, o, rfl⟩, hgoesOn⟩
  cases stops with
  | true => exact .turn z o hstate
  | false =>
    obtain ⟨hbelow, hlimit⟩ := hgoesOn rfl
    rw [Adaptation.probedDown, measureDown_hashStrength] at hlimit
    have hdelta : ((a.probedDown (netBenefit b)).noted z o).hashStrengthDelta =
        a.hashStrengthDelta := measureDown_hashStrengthDelta _ _
    show AdjustStep _ _ (incHashStrengthDelta (decHashStrength _ _))
    rw [hdelta]
    exact .furtherDown z o hstate hbelow hlimit

theorem adjustTryUp_meets (r : UInt64) {b : Benefit} (a : Adaptation) (hb : b.scanned ≠ 0)
    (hstate : a.rshashState.state = .tryUp) :
    Meets (fun _ => False) (AdjustStep (netBenefit b) a) (adjustTryUp r b a) := by
  rw [adjustTryUp, getCurrentBenefit_eq_ok hb]
  refine (probeStops_meets r .goDown strengthMax (a.probedUp (netBenefit b)) hb).bind ?_
  rintro ⟨stops, a'⟩ ⟨⟨z, o, rfl⟩, hgoesOn⟩
  cases stops with
  | true => exact .settle z o hstate
  | false =>
    obtain ⟨hbelow, hlimit⟩ := hgoesOn rfl
    rw [Adaptation.probedUp, measureUp_hashStrength] at hlimit
    have hdelta : ((a.probedUp (netBenefit b)).noted z o).hashStrengthDelta =
        a.hashStrengthDelta := measureUp_hashStrengthDelta _ _
    show AdjustStep _ _ (incHashStrengthDelta (incHashStrength _ _))
    rw [hdelta]
    exact .furtherUp z o hstate hbelow hlimit

theorem adjustNew_meets {b : Benefit} (a : Adaptation) (hb : b.scanned ≠ 0)
    (hstate : a.rshashState.state = .new ∨ a.rshashState.state = .preStill) :
    Meets (fun _ => False) (AdjustStep (netBenefit b) a) (adjustNew b a) := by
  rw [adjustNew, getCurrentBenefit_eq_ok hb]
  exact .enterStill hstate

/-- From a state that has a name, with pages counted in the benefit, the `switch` neither reaches a
`default:` branch nor divides by zero, and does one of the listed steps. -/
theorem adjustState_meets (r : UInt64) {b : Benefit} (a : Adaptation) (hb : b.scanned ≠ 0)
    (hnamed : ∀ v, a.rshashState.state ≠ .other v) :
    Meets (fun _ => False) (AdjustStep (netBenefit b) a) (adjustState r b a) := by
  rw [adjustState]
  cases hstate : a.rshashState.state with
  | still => exact adjustStill_meets r a hb hstate
  | tryUp => exact adjustTryUp_meets r a hb hstate
  | tryDown => exact adjustTryDown_meets r a hb hstate
  | new => exact adjustNew_meets a hb (Or.inl hstate)
  | preStill => exact adjustNew_meets a hb (Or.inr hstate)
  | other v => exact absurd hstate (hnamed v)

end DirtyPages
