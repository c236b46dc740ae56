import DirtyPages.Adapt

/-!
# The range of the adaptation

Every effective call keeps `hash_strength` between 1 and `HASH_STRENGTH_MAX` and its step exponent
up to `HASH_STRENGTH_DELTA_MAX`.  The strength is also restored from saved points, which start as 0
and mean something only during a probe, so the invariant speaks about them in the two probing
states.
-/

namespace DirtyPages

/-- A strength between 1 and `HASH_STRENGTH_MAX`. -/
def InRange (s : UInt64) : Prop := 1 ≤ s.toNat ∧ s.toNat ≤ hashStrengthMax

instance (s : UInt64) : Decidable (InRange s) := inferInstanceAs (Decidable (_ ∧ _))

/-- The two states of a probe. -/
def RshashStates.Probing (s : RshashStates) : Prop := s = .tryDown ∨ s = .tryUp

/-- The invariant of the adaptation. -/
structure RangeInv (a : Adaptation) : Prop where
  strength : InRange a.hashStrength
  delta : a.hashStrengthDelta.toNat ≤ hashStrengthDeltaMax
  named : ∀ v, a.rshashState.state ≠ .other v
  saved : a.rshashState.state.Probing → InRange a.rshashState.stablePoint ∧
    InRange a.rshashState.turnPointDown ∧ InRange a.rshashState.turnPointUp

/-! ### The arithmetic of the three step functions -/

theorem toNat_one_shiftLeft {delta : UInt64} (h : delta.toNat ≤ hashStrengthDeltaMax) :
    ((1 : UInt64) <<< delta).toNat = 2 ^ delta.toNat ∧ 1 ≤ 2 ^ delta.toNat ∧
      2 ^ delta.toNat ≤ 32 := by
  rw [hashStrengthDeltaMax_eq] at h
  have hone : 1 ≤ 2 ^ delta.toNat := Nat.one_le_two_pow
  have hle : 2 ^ delta.toNat ≤ 2 ^ 5 := Nat.pow_le_pow_right (by omega) h
  refine ⟨?_, hone, hle⟩
  rw [UInt64.toNat_shiftLeft, Nat.shiftLeft_eq, Nat.mod_eq_of_lt (by omega : delta.toNat < 64)]
  rw [UInt64.toNat_one, Nat.one_mul]
  omega

theorem incHashStrength_toNat {delta : UInt64} {a : Adaptation}
    (hdelta : delta.toNat ≤ hashStrengthDeltaMax) (hs : a.hashStrength.toNat ≤ hashStrengthMax) :
    (incHashStrength delta a).hashStrength.toNat =
      min (a.hashStrength.toNat + 2 ^ delta.toNat) hashStrengthMax := by
  obtain ⟨hshift, _, hle⟩ := toNat_one_shiftLeft hdelta
  rw [hashStrengthMax_eq] at hs ⊢
  have hadd : (a.hashStrength + (1 <<< delta)).toNat = a.hashStrength.toNat + 2 ^ delta.toNat := by
    rw [UInt64.toNat_add, hshift]
    omega
  rw [incHashStrength]
  by_cases hmax : a.hashStrength + (1 <<< delta) > strengthMax
  · rw [if_pos hmax]
    rw [gt_iff_lt, UInt64.lt_iff_toNat_lt, toNat_strengthMax, hadd] at hmax
    rw [toNat_strengthMax]
    omega
  · rw [if_neg hmax]
    rw [gt_iff_lt, UInt64.lt_iff_toNat_lt, toNat_strengthMax, hadd] at hmax
    rw [hadd]
    omega

theorem decHashStrength_toNat {delta : UInt64} {a : Adaptation}
    (hdelta : delta.toNat ≤ hashStrengthDeltaMax) :
    (decHashStrength delta a).hashStrength.toNat =
      if a.hashStrength.toNat ≤ 2 ^ delta.toNat + 1 then 1
      else a.hashStrength.toNat - 2 ^ delta.toNat := by
  obtain ⟨hshift, _, hle⟩ := toNat_one_shiftLeft hdelta
  have hadd : ((1 : UInt64) <<< delta + 1).toNat = 2 ^ delta.toNat + 1 := by
    rw [UInt64.toNat_add, hshift, UInt64.toNat_one]
    omega
  rw [decHashStrength]
  by_cases hlow : a.hashStrength ≤ 1 <<< delta + 1
  · rw [if_pos hlow]
    rw [UInt64.le_iff_toNat_le, hadd] at hlow
    rw [if_pos hlow, UInt64.toNat_one]
  · rw [if_neg hlow]
    rw [UInt64.le_iff_toNat_le, hadd] at hlow
    have hle' : (1 : UInt64) <<< delta ≤ a.hashStrength := by
      rw [UInt64.le_iff_toNat_le, hshift]
      omega
    rw [if_neg hlow, UInt64.toNat_sub_of_le _ _ hle', hshift]

theorem incHashStrengthDelta_toNat {a : Adaptation}
    (h : a.hashStrengthDelta.toNat ≤ hashStrengthDeltaMax) :
    (incHashStrengthDelta a).hashStrengthDelta.toNat =
      min (a.hashStrengthDelta.toNat + 1) hashStrengthDeltaMax := by
  rw [hashStrengthDeltaMax_eq] at h ⊢
  have hmax : strengthDeltaMax.toNat = 5 := rfl
  have hadd : (a.hashStrengthDelta + 1).toNat = a.hashStrengthDelta.toNat + 1 := by
    rw [UInt64.toNat_add, UInt64.toNat_one]
    omega
  rw [incHashStrengthDelta]
  by_cases hgt : a.hashStrengthDelta + 1 > strengthDeltaMax
  · rw [if_pos hgt]
    rw [gt_iff_lt, UInt64.lt_iff_toNat_lt, hmax, hadd] at hgt
    rw [hmax]
    omega
  · rw [if_neg hgt]
    rw [gt_iff_lt, UInt64.lt_iff_toNat_lt, hmax, hadd] at hgt
    rw [hadd]
    omega

@[simp] theorem incHashStrengthDelta_hashStrength (a : Adaptation) :
    (incHashStrengthDelta a).hashStrength = a.hashStrength := rfl

@[simp] theorem incHashStrengthDelta_rshashState (a : Adaptation) :
    (incHashStrengthDelta a).rshashState = a.rshashState := rfl

@[simp] theorem incHashStrength_rshashState (delta : UInt64) (a : Adaptation) :
    (incHashStrength delta a).rshashState = a.rshashState := rfl

@[simp] theorem incHashStrength_hashStrengthDelta (delta : UInt64) (a : Adaptation) :
    (incHashStrength delta a).hashStrengthDelta = a.hashStrengthDelta := rfl

@[simp] theorem decHashStrength_rshashState (delta : UInt64) (a : Adaptation) :
    (decHashStrength delta a).rshashState = a.rshashState := rfl

@[simp] theorem decHashStrength_hashStrengthDelta (delta : UInt64) (a : Adaptation) :
    (decHashStrength delta a).hashStrengthDelta = a.hashStrengthDelta := rfl

theorem incHashStrength_inRange {delta : UInt64} {a : Adaptation}
    (hdelta : delta.toNat ≤ hashStrengthDeltaMax) (hs : InRange a.hashStrength) :
    InRange (incHashStrength delta a).hashStrength := by
  have hpos : 0 < 2 ^ delta.toNat := Nat.two_pow_pos _
  have hmax := hashStrengthMax_eq
  rw [InRange, incHashStrength_toNat hdelta hs.2]
  omega

theorem decHashStrength_inRange {delta : UInt64} {a : Adaptation}
    (hdelta : delta.toNat ≤ hashStrengthDeltaMax) (hs : InRange a.hashStrength) :
    InRange (decHashStrength delta a).hashStrength := by
  have hle := hs.2
  have hpos : 0 < 2 ^ delta.toNat := Nat.two_pow_pos _
  have hmax := hashStrengthMax_eq
  rw [InRange, decHashStrength_toNat hdelta]
  split_ifs
  · omega
  · omega

theorem incHashStrengthDelta_le {a : Adaptation}
    (h : a.hashStrengthDelta.toNat ≤ hashStrengthDeltaMax) :
    (incHashStrengthDelta a).hashStrengthDelta.toNat ≤ hashStrengthDeltaMax := by
  rw [incHashStrengthDelta_toNat h]
  exact Nat.min_le_right _ _

/-! ### The invariant -/

theorem rangeInv_initial : RangeInv initialAdaptation where
  strength := by decide +kernel
  delta := Nat.zero_le _
  named := by
    intro v h
    cases h
  saved := by
    rintro (h | h) <;> cases h

/-- A measurement on the way down keeps the saved points in range. -/
theorem probedDown_saved {a : Adaptation} (m : UInt64) (hs : InRange a.hashStrength)
    (hsaved : InRange a.rshashState.stablePoint ∧ InRange a.rshashState.turnPointDown ∧
      InRange a.rshashState.turnPointUp) :
    InRange (a.probedDown m).rshashState.stablePoint ∧
      InRange (a.probedDown m).rshashState.turnPointDown ∧
      InRange (a.probedDown m).rshashState.turnPointUp := by
  rw [Adaptation.probedDown, measureDown]
  split_ifs
  · exact hsaved
  · exact ⟨hsaved.1, hs, hsaved.2.2⟩
  · exact hsaved

/-- So does a measurement on the way up. -/
theorem probedUp_saved {a : Adaptation} (m : UInt64) (hs : InRange a.hashStrength)
    (hsaved : InRange a.rshashState.stablePoint ∧ InRange a.rshashState.turnPointDown ∧
      InRange a.rshashState.turnPointUp) :
    InRange (a.probedUp m).rshashState.stablePoint ∧
      InRange (a.probedUp m).rshashState.turnPointDown ∧
      InRange (a.probedUp m).rshashState.turnPointUp := by
  rw [Adaptation.probedUp, measureUp]
  split_ifs
  · exact hsaved
  · exact ⟨hsaved.1, hsaved.2.1, hs⟩
  · exact hsaved

@[simp] theorem probedDown_state (a : Adaptation) (m : UInt64) :
    (a.probedDown m).rshashState.state = a.rshashState.state := by
  rw [Adaptation.probedDown, measureDown]
  split_ifs <;> rfl

@[simp] theorem probedUp_state (a : Adaptation) (m : UInt64) :
    (a.probedUp m).rshashState.state = a.rshashState.state := by
  rw [Adaptation.probedUp, measureUp]
  split_ifs <;> rfl

@[simp] theorem probedDown_hashStrength (a : Adaptation) (m : UInt64) :
    (a.probedDown m).hashStrength = a.hashStrength := measureDown_hashStrength m _

@[simp] theorem probedUp_hashStrength (a : Adaptation) (m : UInt64) :
    (a.probedUp m).hashStrength = a.hashStrength := measureUp_hashStrength m _

@[simp] theorem probedDown_hashStrengthDelta (a : Adaptation) (m : UInt64) :
    (a.probedDown m).hashStrengthDelta = a.hashStrengthDelta := measureDown_hashStrengthDelta m _

@[simp] theorem probedUp_hashStrengthDelta (a : Adaptation) (m : UInt64) :
    (a.probedUp m).hashStrengthDelta = a.hashStrengthDelta := measureUp_hashStrengthDelta m _

theorem not_probing_of_still {s : RshashStates} (h : s = .still) : ¬s.Probing := by
  rintro (h' | h') <;> rw [h] at h' <;> cases h'

/-- Every step keeps the invariant. -/
theorem rangeInv_step {m : UInt64} {a a' : Adaptation} (hinv : RangeInv a)
    (hstep : AdjustStep m a a') : RangeInv a' := by
  obtain ⟨hs, hd, hn, hsaved⟩ := hinv
  cases hstep with
  | stay z o hstate => exact ⟨hs, hd, hn, hsaved⟩
  | goUp z o delta hstate hdelta =>
    have hle : delta.toNat ≤ hashStrengthDeltaMax := by
      rcases hdelta with rfl | rfl
      · exact Nat.zero_le _
      · exact hd
    exact ⟨incHashStrength_inRange hle hs, incHashStrengthDelta_le hle, hn,
      fun h => absurd h (not_probing_of_still hstate)⟩
  | goDown z o delta hstate hdelta =>
    have hle : delta.toNat ≤ hashStrengthDeltaMax := by
      rcases hdelta with rfl | rfl
      · exact Nat.zero_le _
      · exact hd
    exact ⟨decHashStrength_inRange hle hs, incHashStrengthDelta_le hle, hn,
      fun h => absurd h (not_probing_of_still hstate)⟩
  | probe z o hstate =>
    refine ⟨decHashStrength_inRange hd hs, incHashStrengthDelta_le hd, ?_, fun _ => ⟨hs, hs, hs⟩⟩
    intro v h
    cases h
  | furtherDown z o hstate hbelow hlimit =>
    have hsaved' := probedDown_saved m hs (hsaved (Or.inl hstate))
    refine ⟨?_, ?_, ?_, fun _ => hsaved'⟩
    · exact decHashStrength_inRange hd (by simpa using hs)
    · exact incHashStrengthDelta_le (by simpa using hd)
    · intro v h
      exact hn v (by simpa using h)
  | turn z o hstate =>
    have hsaved' := probedDown_saved m hs (hsaved (Or.inl hstate))
    refine ⟨?_, Nat.zero_le _, ?_, fun _ => hsaved'⟩
    · exact incHashStrength_inRange (Nat.zero_le _) hsaved'.1
    · intro v h
      cases h
  | furtherUp z o hstate hbelow hlimit =>
    have hsaved' := probedUp_saved m hs (hsaved (Or.inr hstate))
    refine ⟨?_, ?_, ?_, fun _ => hsaved'⟩
    · exact incHashStrength_inRange hd (by simpa using hs)
    · exact incHashStrengthDelta_le (by simpa using hd)
    · intro v h
      exact hn v (by simpa using h)
  | settle z o hstate =>
    have hsaved' := probedUp_saved m hs (hsaved (Or.inr hstate))
    refine ⟨?_, ?_, ?_, ?_⟩
    · show InRange (if _ then _ else _)
      split_ifs
      · exact hsaved'.2.2
      · exact hsaved'.2.1
    · show (a.probedUp m).hashStrengthDelta.toNat ≤ _
      rw [probedUp_hashStrengthDelta]
      exact hd
    · intro v h
      cases h
    · rintro (h | h) <;> cases h
  | enterStill hstate =>
    refine ⟨hs, Nat.zero_le _, ?_, ?_⟩
    · intro v h
      cases h
    · rintro (h | h) <;> cases h

end DirtyPages
