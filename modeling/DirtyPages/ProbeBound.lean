import DirtyPages.Probe

/-!
# How long a probe can last

The step exponent grows with every call until the steps are 32 wide, so either way through the
strengths takes few calls, wherever it begins and whatever exponent it inherits.
-/

namespace DirtyPages

open SearchTree

/-- The effective calls of a probe that began in the state `s`. -/
def callsIn (s : RshashStates) (ms : List Measurement) : ℕ := ms.countP fun m => m.state = s

/-- The calls that a phase has left at this distance from its limit: to make the exponent full, to
go the distance in full steps, and to end the phase. -/
def callsLeft (distance delta : ℕ) : ℕ :=
  (hashStrengthDeltaMax - delta) + (distance + 31) / 32 + 1

/-- The distance of the strength from the limit of the phase. -/
def Adaptation.distance (a : Adaptation) : ℕ :=
  match a.rshashState.state with
  | .tryDown => a.hashStrength.toNat - 1
  | _ => hashStrengthMax - a.hashStrength.toNat

theorem callsIn_snoc (s : RshashStates) (ms : List Measurement) (m : Measurement) :
    callsIn s (ms ++ [m]) = callsIn s ms + if m.state = s then 1 else 0 := by
  rw [callsIn, callsIn, List.countP_append, List.countP_singleton]
  simp only [decide_eq_true_eq]

/-- One step less to go, or one exponent. -/
theorem callsLeft_lt {distance delta : ℕ} (hdelta : delta ≤ hashStrengthDeltaMax)
    (hdistance : 0 < distance) :
    callsLeft (distance - 2 ^ delta) (min (delta + 1) hashStrengthDeltaMax) <
      callsLeft distance delta := by
  have htwo : 0 < 2 ^ delta := Nat.two_pow_pos _
  rw [callsLeft, callsLeft]
  rw [hashStrengthDeltaMax_eq] at hdelta ⊢
  by_cases hfull : delta = 5
  · subst hfull
    omega
  · omega

theorem callsLeft_le {distance : ℕ} (h : distance ≤ 1033) (delta : ℕ) :
    callsLeft distance delta ≤ 39 := by
  have hmax := hashStrengthDeltaMax_eq
  rw [callsLeft]
  omega

/-! ### One call of either phase -/

section Steps

variable {a a' : Adaptation} {m : UInt64}

@[simp] theorem probedDown_lookupWindowIndex (a : Adaptation) (m : UInt64) :
    (a.probedDown m).rshashState.lookupWindowIndex =
      (openWindow a).rshashState.lookupWindowIndex := by
  rw [Adaptation.probedDown, measureDown]
  split_ifs <;> rfl

@[simp] theorem probedUp_lookupWindowIndex (a : Adaptation) (m : UInt64) :
    (a.probedUp m).rshashState.lookupWindowIndex =
      (openWindow a).rshashState.lookupWindowIndex := by
  rw [Adaptation.probedUp, measureUp]
  split_ifs <;> rfl

/-- The phase goes on: the window has moved, the strength has made a step towards the limit of the
phase and the exponent has grown. -/
structure GoesOn (a a' : Adaptation) : Prop where
  state : a'.rshashState.state = a.rshashState.state
  index : a'.rshashState.lookupWindowIndex = (openWindow a).rshashState.lookupWindowIndex
  apart : 0 < a.distance
  distance : a'.distance = a.distance - 2 ^ a.hashStrengthDelta.toNat
  delta : a'.hashStrengthDelta.toNat = min (a.hashStrengthDelta.toNat + 1) hashStrengthDeltaMax

/-- A step further down. -/
theorem goesOn_down (hrange : RangeInv a) (hstate : a.rshashState.state = .tryDown)
    (hlimit : a.hashStrength ≠ 1) {z o : UInt64}
    (ha : a' = incHashStrengthDelta (decHashStrength a.hashStrengthDelta
      ((a.probedDown m).noted z o))) : GoesOn a a' := by
  subst ha
  have hstate' : (a.probedDown m).rshashState.state = .tryDown :=
    (probedDown_state a m).trans hstate
  have hne : a.hashStrength.toNat ≠ 1 := fun h => hlimit (UInt64.toNat_inj.mp h)
  have hpos := hrange.strength.1
  have hdelta : ((a.probedDown m).noted z o).hashStrengthDelta.toNat =
      a.hashStrengthDelta.toNat := congrArg _ (probedDown_hashStrengthDelta a m)
  refine ⟨probedDown_state a m, probedDown_lookupWindowIndex a m, ?_, ?_, ?_⟩
  · rw [Adaptation.distance, hstate]
    show 0 < a.hashStrength.toNat - 1
    omega
  · have hdec := decHashStrength_toNat (a := (a.probedDown m).noted z o) hrange.delta
    rw [Adaptation.noted_hashStrength, probedDown_hashStrength] at hdec
    rw [Adaptation.distance, Adaptation.distance, hstate, incHashStrengthDelta_rshashState,
      decHashStrength_rshashState, Adaptation.noted_rshashState, hstate']
    show (decHashStrength a.hashStrengthDelta ((a.probedDown m).noted z o)).hashStrength.toNat - 1
      = a.hashStrength.toNat - 1 - _
    rw [hdec]
    split_ifs
    · omega
    · omega
  · rw [incHashStrengthDelta_toNat]
    · rw [decHashStrength_hashStrengthDelta, hdelta]
    · rw [decHashStrength_hashStrengthDelta, hdelta]
      exact hrange.delta

/-- A step further up. -/
theorem goesOn_up (hrange : RangeInv a) (hstate : a.rshashState.state = .tryUp)
    (hlimit : a.hashStrength ≠ strengthMax) {z o : UInt64}
    (ha : a' = incHashStrengthDelta (incHashStrength a.hashStrengthDelta
      ((a.probedUp m).noted z o))) : GoesOn a a' := by
  subst ha
  have hstate' : (a.probedUp m).rshashState.state = .tryUp := (probedUp_state a m).trans hstate
  have hne : a.hashStrength.toNat ≠ hashStrengthMax := by
    intro h
    exact hlimit (UInt64.toNat_inj.mp (h.trans toNat_strengthMax.symm))
  have hle := hrange.strength.2
  have hdelta : ((a.probedUp m).noted z o).hashStrengthDelta.toNat =
      a.hashStrengthDelta.toNat := congrArg _ (probedUp_hashStrengthDelta a m)
  refine ⟨probedUp_state a m, probedUp_lookupWindowIndex a m, ?_, ?_, ?_⟩
  · rw [Adaptation.distance, hstate]
    show 0 < hashStrengthMax - a.hashStrength.toNat
    omega
  · have hinc := furtherUp_toNat (m := m) hrange z o
    rw [Adaptation.distance, Adaptation.distance, hstate, incHashStrengthDelta_rshashState,
      incHashStrength_rshashState, Adaptation.noted_rshashState, hstate']
    show hashStrengthMax -
      (incHashStrength a.hashStrengthDelta ((a.probedUp m).noted z o)).hashStrength.toNat =
        hashStrengthMax - a.hashStrength.toNat - _
    rw [hinc]
    omega
  · rw [incHashStrengthDelta_toNat]
    · rw [incHashStrength_hashStrengthDelta, hdelta]
    · rw [incHashStrength_hashStrengthDelta, hdelta]
      exact hrange.delta

/-- On the way down a call turns, or the way goes on. -/
theorem AdjustStep.turns_or_goesOn (hstep : AdjustStep m a a') (hrange : RangeInv a)
    (hstate : a.rshashState.state = .tryDown) :
    (a'.rshashState.state = .tryUp ∧ a'.rshashState.lookupWindowIndex = 0) ∨ GoesOn a a' := by
  rcases hstep.of_tryDown hstate with ⟨z, o, hlimit, ha⟩ | ⟨z, o, ha⟩
  · exact Or.inr (goesOn_down hrange hstate hlimit ha)
  · subst ha
    exact Or.inl ⟨rfl, rfl⟩

/-- On the way up a call settles, or the way goes on. -/
theorem AdjustStep.settles_or_goesOn (hstep : AdjustStep m a a') (hrange : RangeInv a)
    (hstate : a.rshashState.state = .tryUp) :
    a'.rshashState.state = .preStill ∨ GoesOn a a' := by
  rcases hstep.of_tryUp hstate with ⟨z, o, hlimit, ha⟩ | ⟨z, o, ha⟩
  · exact Or.inr (goesOn_up hrange hstate hlimit ha)
  · subst ha
    exact Or.inl rfl

/-- A further step goes down, or up. -/
theorem GoesOn.distance_lt (h : GoesOn a a') : a'.distance < a.distance := by
  have htwo : 0 < 2 ^ a.hashStrengthDelta.toNat := Nat.two_pow_pos _
  have hapart := h.apart
  rw [h.distance]
  omega

theorem GoesOn.lt_of_tryDown (h : GoesOn a a') (hstate : a.rshashState.state = .tryDown) :
    a'.rshashState.state = .tryDown ∧ a'.hashStrength < a.hashStrength := by
  have hlt := h.distance_lt
  have hstate' := h.state.trans hstate
  rw [Adaptation.distance, Adaptation.distance, hstate, hstate'] at hlt
  have hlt' : a'.hashStrength.toNat - 1 < a.hashStrength.toNat - 1 := hlt
  refine ⟨hstate', UInt64.lt_iff_toNat_lt.mpr ?_⟩
  omega

theorem GoesOn.lt_of_tryUp (h : GoesOn a a') (hstate : a.rshashState.state = .tryUp) :
    a'.rshashState.state = .tryUp ∧ a.hashStrength < a'.hashStrength := by
  have hlt := h.distance_lt
  have hstate' := h.state.trans hstate
  rw [Adaptation.distance, Adaptation.distance, hstate, hstate'] at hlt
  have hlt' : hashStrengthMax - a'.hashStrength.toNat < hashStrengthMax - a.hashStrength.toNat :=
    hlt
  refine ⟨hstate', UInt64.lt_iff_toNat_lt.mpr ?_⟩
  omega

end Steps

/-! ### The calls of a probe -/

/-- A probe has made the calls `ms` and led to `a`.  The window counts the calls of the current
phase, and these and the calls that the phase has left are at most 39. -/
structure Bounded (ms : List Measurement) (a : Adaptation) : Prop where
  range : RangeInv a
  down : callsIn .tryDown ms ≤ 39
  up : callsIn .tryUp ms ≤ 39
  first : a.rshashState.state = .tryDown → callsIn .tryUp ms = 0
  index : a.rshashState.state.Probing →
    a.rshashState.lookupWindowIndex.toNat = callsIn a.rshashState.state ms
  left : a.rshashState.state.Probing →
    callsIn a.rshashState.state ms + callsLeft a.distance a.hashStrengthDelta.toNat ≤ 39

section Phases

variable {a a' : Adaptation} {m : UInt64} {ms : List Measurement}

theorem RangeInv.distance_le (hrange : RangeInv a) : a.distance ≤ 1033 := by
  have hmax := hashStrengthMax_eq
  have hpos := hrange.strength.1
  have hle := hrange.strength.2
  rw [Adaptation.distance]
  split
  · omega
  · omega

/-- A phase that begins has all its calls left. -/
theorem bounded_begin (hrange : RangeInv a) (hdown : callsIn .tryDown ms ≤ 39)
    (hup : callsIn .tryUp ms = 0)
    (hfirst : a.rshashState.state = .tryDown → callsIn .tryDown ms = 0)
    (hindex : a.rshashState.lookupWindowIndex = 0) : Bounded ms a := by
  have hnone : a.rshashState.state.Probing → callsIn a.rshashState.state ms = 0 := by
    intro hprobing
    rcases hprobing with h | h
    · rw [h]
      exact hfirst h
    · rw [h]
      exact hup
  refine ⟨hrange, hdown, by omega, fun _ => hup, fun hprobing => ?_, fun hprobing => ?_⟩
  · rw [hindex, hnone hprobing]
    rfl
  · rw [hnone hprobing, Nat.zero_add]
    exact callsLeft_le hrange.distance_le _

/-- The OBSCURE decision begins the way down. -/
theorem bounded_start (hrange : RangeInv a) (hstate : a.rshashState.state = .still)
    (hstep : AdjustStep m a a') (hdown : a'.rshashState.state = .tryDown) : Bounded [] a' := by
  have hrange' := rangeInv_step hrange hstep
  obtain ⟨z, o, rfl⟩ := hstep.of_still hstate hdown
  exact bounded_begin hrange' (Nat.zero_le _) rfl (fun _ => rfl) rfl

/-- The window of the next call: the index does not wrap, and every fifth call of the phase clears
`below_count`. -/
theorem Bounded.next (hb : Bounded ms a) (hprobing : a.rshashState.state.Probing) :
    (openWindow a).rshashState.lookupWindowIndex.toNat = callsIn a.rshashState.state ms + 1 ∧
      (openWindow a).rshashState.belowCount =
        if callsIn a.rshashState.state ms % 5 = 0 then 0 else a.rshashState.belowCount := by
  have hindex := hb.index hprobing
  have hleft := hb.left hprobing
  constructor
  · show (a.rshashState.lookupWindowIndex + 1).toNat = _
    rw [UInt8.toNat_add, hindex]
    show (callsIn a.rshashState.state ms + 1) % 256 = _
    omega
  · show (if a.rshashState.lookupWindowIndex % 5 = 0 then (0 : UInt8) else _) = _
    have hfifth : a.rshashState.lookupWindowIndex % 5 = 0 ↔
        callsIn a.rshashState.state ms % 5 = 0 := by
      rw [← UInt8.toNat_inj, UInt8.toNat_mod, hindex]
      rfl
    simp only [hfifth]

/-- One more call of a phase that goes on. -/
theorem Bounded.goesOn (hb : Bounded ms a) (hprobing : a.rshashState.state.Probing)
    (hrange' : RangeInv a') (h : GoesOn a a') {x : Measurement}
    (hx : x.state = a.rshashState.state) : Bounded (ms ++ [x]) a' := by
  have hleft := hb.left hprobing
  have hlt := callsLeft_lt hb.range.delta h.apart
  rw [← h.distance, ← h.delta] at hlt
  have hcount : callsIn a.rshashState.state (ms ++ [x]) = callsIn a.rshashState.state ms + 1 := by
    rw [callsIn_snoc, if_pos hx]
  refine ⟨hrange', ?_, ?_, ?_, fun _ => ?_, fun _ => ?_⟩
  · rw [callsIn_snoc, hx]
    have hdown := hb.down
    split_ifs with hd
    · rw [hd] at hleft
      omega
    · omega
  · rw [callsIn_snoc, hx]
    have hup := hb.up
    split_ifs with hu
    · rw [hu] at hleft
      omega
    · omega
  · intro hd
    rw [h.state] at hd
    rw [callsIn_snoc, hx, hd, hb.first hd]
    rfl
  · rw [h.index, h.state, hcount]
    exact (hb.next hprobing).1
  · rw [h.state, hcount]
    omega

/-- One effective call during a probe. -/
theorem Bounded.step (hb : Bounded ms a) (hprobing : a.rshashState.state.Probing)
    (hstep : AdjustStep m a a') :
    Bounded (ms ++ [⟨a.rshashState.state, a.hashStrength.toNat, m.toNat⟩]) a' := by
  have hrange' := rangeInv_step hb.range hstep
  have hleft := hb.left hprobing
  have hpos : 1 ≤ callsLeft a.distance a.hashStrengthDelta.toNat := Nat.le_add_left 1 _
  have hdown := hb.down
  have hup := hb.up
  rcases hprobing with hstate | hstate
  · rcases hstep.turns_or_goesOn hb.range hstate with ⟨hturn, hindex⟩ | hgoes
    · rw [hstate] at hleft ⊢
      refine bounded_begin hrange' ?_ ?_ (fun h => by rw [hturn] at h; cases h) hindex
      · rw [callsIn_snoc, if_pos rfl]
        omega
      · rw [callsIn_snoc, if_neg RshashStates.noConfusion]
        exact hb.first hstate
    · exact hb.goesOn (Or.inl hstate) hrange' hgoes rfl
  · rcases hstep.settles_or_goesOn hb.range hstate with hsettled | hgoes
    · rw [hstate] at hleft ⊢
      have hdone : ¬a'.rshashState.state.Probing := by
        rintro (h | h) <;> rw [hsettled] at h <;> cases h
      refine ⟨hrange', ?_, ?_, fun h => absurd (Or.inl h) hdone, fun h => absurd h hdone,
        fun h => absurd h hdone⟩
      · rw [callsIn_snoc, if_neg RshashStates.noConfusion]
        exact hdown
      · rw [callsIn_snoc, if_pos rfl]
        omega
    · exact hb.goesOn (Or.inr hstate) hrange' hgoes rfl

/-- A run of calls stays within the bounds. -/
theorem ProbeCalls.bounded {rb : Balancer ℕ} {randomNums : RandomNums} (hstart : Bounded [] a)
    (hcalls : ProbeCalls rb randomNums a ms a') : Bounded ms a' := by
  induction hcalls with
  | none => exact hstart
  | call hcalls hprobing hcall ih => exact ih.step hprobing (hcall.adjustStep ih.range)

end Phases

/-- Probes are bounded.  Whatever the counters are, an effective call from a reachable state ends
the phase it is made in or takes the strength strictly further.  A probe makes at most 64 calls on
the way down and at most 64 on the way up, so the window index never wraps, and `below_count` is
cleared by every fifth call of a phase. -/
theorem probe_bounded (rb : Balancer ℕ) (randomNums : RandomNums) (ops : List Op) (u : Uksm)
    (hrun : run rb randomNums ops = .ok u) :
    (∀ m a, EffectiveCall rb randomNums u.adaptation m a →
      (u.adaptation.rshashState.state = .tryDown →
        a.rshashState.state = .tryUp ∨
          a.rshashState.state = .tryDown ∧ a.hashStrength < u.adaptation.hashStrength) ∧
      (u.adaptation.rshashState.state = .tryUp →
        a.rshashState.state = .preStill ∨
          a.rshashState.state = .tryUp ∧ u.adaptation.hashStrength < a.hashStrength)) ∧
    (u.adaptation.rshashState.state = .still →
      ∀ b₀ a, EffectiveCall rb randomNums u.adaptation b₀ a → a.rshashState.state = .tryDown →
        ∀ ms b, ProbeCalls rb randomNums a ms b →
          callsIn .tryDown ms ≤ 64 ∧ callsIn .tryUp ms ≤ 64 ∧
          (b.rshashState.state.Probing →
            let calls := callsIn b.rshashState.state ms
            b.rshashState.lookupWindowIndex.toNat = calls ∧
            (openWindow b).rshashState.lookupWindowIndex.toNat = calls + 1 ∧
            (openWindow b).rshashState.belowCount =
              if calls % 5 = 0 then 0 else b.rshashState.belowCount)) := by
  have hrange := (run_rangeInv ops).of_ok hrun
  constructor
  · intro m a hcall
    have hstep := hcall.adjustStep hrange
    constructor
    · intro hstate
      rcases hstep.turns_or_goesOn hrange hstate with ⟨hturn, _⟩ | hgoes
      · exact Or.inl hturn
      · exact Or.inr (hgoes.lt_of_tryDown hstate)
    · intro hstate
      exact (hstep.settles_or_goesOn hrange hstate).imp_right fun hgoes => hgoes.lt_of_tryUp hstate
  · intro hstill b₀ a hobscure hdown ms b hcalls
    have hb := hcalls.bounded (bounded_start hrange hstill (hobscure.adjustStep hrange) hdown)
    have hdowns := hb.down
    have hups := hb.up
    exact ⟨by omega, by omega, fun hprobing => ⟨hb.index hprobing, hb.next hprobing⟩⟩

/-- The first round, and a second one that ends in the OBSCURE decision. -/
def secondRound : List Op :=
  firstRound ++ [.incUksmPagesScanned, .incRshashPos 10,
    .rshashAdjust 10 (fun _ _ => 0) fun _ => ⟨false, false, false⟩]

/-- After the second round a call that reads 0 goes further down; and after two calls of the probe
the window index is 2. -/
theorem probe_bounded_second :
    (∃ u a, run (Balancer.plain ℕ) id secondRound = .ok u ∧
      EffectiveCall (Balancer.plain ℕ) id u.adaptation 0 a ∧
      a.hashStrength < u.adaptation.hashStrength) ∧
    ∃ ms b, probeAtTen [0, 0] = .ok (ms, b) ∧ callsIn .tryDown ms = 2 ∧
      b.rshashState.lookupWindowIndex.toNat = callsIn .tryDown ms := by
  constructor
  · have hadapt : (fun u => adjustState 1 ⟨0, 0, 1, 0⟩ u.adaptation >>= fun a =>
        (.ok (u.adaptation.rshashState.state, a.rshashState.state) : Except Fault _)) <$>
          run (Balancer.plain ℕ) id secondRound = .ok (.ok (.tryDown, .tryDown)) := by
      decide +kernel
    cases hrun : run (Balancer.plain ℕ) id secondRound with
    | error f =>
      rw [hrun] at hadapt
      cases hadapt
    | ok u =>
      rw [hrun] at hadapt
      obtain ⟨a, hadjust, hstates⟩ := Outcome.bind_eq_ok.mp (Except.ok.inj hadapt)
      obtain ⟨hdown, hdown'⟩ := Prod.mk.inj (Except.ok.inj hstates)
      have hcall : EffectiveCall (Balancer.plain ℕ) id u.adaptation 0 a :=
        effectiveCall_of_adjustState hadjust
      refine ⟨u, a, rfl, hcall, ?_⟩
      rcases ((probe_bounded (Balancer.plain ℕ) id secondRound u hrun).1 0 a hcall).1 hdown with
        hturn | hlower
      · rw [hdown'] at hturn
        cases hturn
      · exact hlower.2
  · have hmap : (fun s => (callsIn .tryDown s.1, s.2.rshashState.state)) <$>
        probeAtTen [0, 0] = .ok (2, .tryDown) := by
      decide +kernel
    cases hprobe : probeAtTen [0, 0] with
    | error f =>
      rw [hprobe] at hmap
      cases hmap
    | ok s =>
      obtain ⟨ms, b⟩ := s
      rw [hprobe] at hmap
      obtain ⟨hcount, hdown⟩ := Prod.mk.inj (Except.ok.inj hmap)
      obtain ⟨u, hrun, hu⟩ := firstRound_reaches
      obtain ⟨a, hobscure, hstart, hcalls⟩ := probeAtTen_calls hprobe
      have hstill : u.adaptation.rshashState.state = .still := by
        rw [hu]
        rfl
      have hbounds := (probe_bounded (Balancer.plain ℕ) id firstRound u hrun).2 hstill 10 a
        (hu ▸ hobscure) hstart ms b hcalls
      have hindex := (hbounds.2.2 (Or.inl hdown)).1
      have hdown' : b.rshashState.state = .tryDown := hdown
      rw [hdown'] at hindex
      exact ⟨ms, b, rfl, hcount, hindex⟩

end DirtyPages
