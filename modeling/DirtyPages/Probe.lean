import DirtyPages.System
import Mathlib.Data.Finset.Max

/-!
# Which measurements a probe takes into account

A probe begins with the OBSCURE decision, goes down, then up, and settles at one of two turn points.
On the way down a benefit below the old `stable_benefit` is not compared with the best one so far,
so it can be lost although it is the best of the probe.  Nothing else can.
-/

namespace DirtyPages

open Outcome SearchTree

/-- One reading of `get_current_benefit`, with the state and the strength in which it was taken. -/
@[ext] structure Measurement where
  state : RshashStates
  strength : ℕ
  benefit : ℕ
  deriving DecidableEq, Repr

/-- The reading was taken on the way down and is below the old `stable_benefit`. -/
def Measurement.Ignored (stableBenefit : ℕ) (m : Measurement) : Prop :=
  m.state = .tryDown ∧ m.benefit < stableBenefit

instance (stableBenefit : ℕ) (m : Measurement) : Decidable (m.Ignored stableBenefit) :=
  inferInstanceAs (Decidable (_ ∧ _))

/-- The best reading of all was taken at the strength `s`. -/
def BestAt (s : ℕ) (ms : List Measurement) : Prop :=
  ∃ m ∈ ms, m.strength = s ∧ ∀ m' ∈ ms, m'.benefit ≤ m.benefit

/-- No ignored reading is above all others; or the probe began at strength 1, where the way down
measures the same strength once more, and found nothing better above. -/
def NoneLost (stableBenefit strength benefit : ℕ) (ms : List Measurement) : Prop :=
  (∀ d ∈ ms, d.Ignored stableBenefit →
    ∃ m ∈ ms, ¬m.Ignored stableBenefit ∧ d.benefit ≤ m.benefit) ∨
  strength = 1 ∧ ∀ m ∈ ms, m.state = .tryUp → m.benefit ≤ benefit

/-! ### The two turn points and the readings -/

/-- What the two turn points know of the readings `ms` of a probe that began at the strength `s₀`
with the benefit `b₀`. -/
structure TurnPoints (stableBenefit s₀ b₀ : ℕ) (ms : List Measurement)
    (pointDown benefitDown pointUp benefitUp : ℕ) : Prop where
  down : ∃ m ∈ ms, ¬m.Ignored stableBenefit ∧ m.strength = pointDown ∧ m.benefit = benefitDown
  up : ∃ m ∈ ms, ¬m.Ignored stableBenefit ∧ m.strength = pointUp ∧ m.benefit = benefitUp
  most : ∀ m ∈ ms, ¬m.Ignored stableBenefit → m.benefit ≤ benefitDown ∨ m.benefit ≤ benefitUp
  apart : s₀ ≠ 1 → ∀ d ∈ ms, d.Ignored stableBenefit → d.strength ≠ pointDown ∧ d.strength < s₀
  alone : s₀ = 1 → ∀ d ∈ ms, d.Ignored stableBenefit →
    d.strength = 1 ∧ pointDown = 1 ∧ benefitDown = b₀
  climb : (pointUp = s₀ ∧ benefitUp = b₀) ∨
    (b₀ < benefitUp ∧ s₀ ≤ pointUp ∧ (s₀ = 1 → pointUp ≠ 1) ∧
      ∃ m ∈ ms, m.state = .tryUp ∧ m.benefit = benefitUp)

section TurnPoints

variable {stableBenefit s₀ b₀ pd bd pu bu pd' bd' pu' bu' : ℕ} {ms : List Measurement}

/-- One more reading `x`.  A turn point stays or moves to `x`; the remaining conditions say that `x`
is either ignored or bounded by the new turn points. -/
theorem TurnPoints.read {x : Measurement} (ht : TurnPoints stableBenefit s₀ b₀ ms pd bd pu bu)
    (hdown : (pd' = pd ∧ bd' = bd) ∨
      (¬x.Ignored stableBenefit ∧ x.strength = pd' ∧ x.benefit = bd' ∧ bd ≤ bd'))
    (hup : (pu' = pu ∧ bu' = bu) ∨
      (x.state = .tryUp ∧ x.strength = pu' ∧ x.benefit = bu' ∧ bu < bu' ∧ s₀ ≤ pu' ∧
        (s₀ = 1 → pu' ≠ 1)))
    (hx : ¬x.Ignored stableBenefit → x.benefit ≤ bd' ∨ x.benefit ≤ bu')
    (hapart : s₀ ≠ 1 → (∀ d ∈ ms, d.Ignored stableBenefit → d.strength ≠ pd') ∧
      (x.Ignored stableBenefit → x.strength ≠ pd' ∧ x.strength < s₀))
    (halone : s₀ = 1 → ∀ d ∈ ms ++ [x], d.Ignored stableBenefit →
      d.strength = 1 ∧ pd' = 1 ∧ bd' = b₀) :
    TurnPoints stableBenefit s₀ b₀ (ms ++ [x]) pd' bd' pu' bu' := by
  have hkeep : ∀ n ∈ ms, n ∈ ms ++ [x] := fun n hn => List.mem_append_left _ hn
  have hlast : x ∈ ms ++ [x] := List.mem_append_right _ (List.mem_singleton.mpr rfl)
  have hcases : ∀ n ∈ ms ++ [x], n ∈ ms ∨ n = x := by
    intro n hn
    rwa [List.mem_append, List.mem_singleton] at hn
  have hgrow : bd ≤ bd' ∧ bu ≤ bu' := by omega
  refine ⟨?_, ?_, ?_, ?_, halone, ?_⟩
  · rcases hdown with ⟨rfl, rfl⟩ | ⟨hi, hs, hb, _⟩
    · obtain ⟨n, hn, hrest⟩ := ht.down
      exact ⟨n, hkeep n hn, hrest⟩
    · exact ⟨x, hlast, hi, hs, hb⟩
  · rcases hup with ⟨rfl, rfl⟩ | ⟨hstate, hs, hb, _⟩
    · obtain ⟨n, hn, hrest⟩ := ht.up
      exact ⟨n, hkeep n hn, hrest⟩
    · refine ⟨x, hlast, ?_, hs, hb⟩
      intro hi
      rw [hi.1] at hstate
      cases hstate
  · intro n hn hi
    cases hcases n hn with
    | inl hold =>
      have hmost := ht.most n hold hi
      omega
    | inr hnew =>
      subst hnew
      exact hx hi
  · intro hs d hd hi
    cases hcases d hd with
    | inl hold => exact ⟨(hapart hs).1 d hold hi, (ht.apart hs d hold hi).2⟩
    | inr hnew =>
      subst hnew
      exact (hapart hs).2 hi
  · rcases hup with ⟨rfl, rfl⟩ | ⟨hstate, _, hb, hlt, hle, hone⟩
    · refine ht.climb.imp_right ?_
      intro hc
      obtain ⟨h1, h2, h3, n, hn, hrest⟩ := hc
      exact ⟨h1, h2, h3, n, hkeep n hn, hrest⟩
    · right
      refine ⟨?_, hle, hone, x, hlast, hstate, hb⟩
      rcases ht.climb with ⟨_, hbase⟩ | ⟨hbase, _⟩
      · omega
      · omega

/-- A reading was taken at the better turn point and bounds all readings that are not ignored. -/
theorem TurnPoints.chosen (ht : TurnPoints stableBenefit s₀ b₀ ms pd bd pu bu) :
    ∃ m ∈ ms, ¬m.Ignored stableBenefit ∧ m.strength = (if bu > bd then pu else pd) ∧
      ∀ m' ∈ ms, ¬m'.Ignored stableBenefit → m'.benefit ≤ m.benefit := by
  obtain ⟨m, hm, hi, hs, hb⟩ := ht.down
  obtain ⟨n, hn, hj, ht', hc⟩ := ht.up
  by_cases hgt : bu > bd
  · refine ⟨n, hn, hj, by rw [if_pos hgt]; exact ht', ?_⟩
    intro m' hm' hi'
    have hmost := ht.most m' hm' hi'
    omega
  · refine ⟨m, hm, hi, by rw [if_neg hgt]; exact hs, ?_⟩
    intro m' hm' hi'
    have hmost := ht.most m' hm' hi'
    omega

/-- An ignored reading at the better turn point: the probe began at strength 1 and found nothing
better above. -/
theorem TurnPoints.of_ignored_chosen (ht : TurnPoints stableBenefit s₀ b₀ ms pd bd pu bu)
    {d : Measurement} (hd : d ∈ ms) (hi : d.Ignored stableBenefit)
    (hchosen : d.strength = if bu > bd then pu else pd) :
    s₀ = 1 ∧ ∀ n ∈ ms, n.state = .tryUp → n.benefit ≤ b₀ := by
  by_cases hs : s₀ = 1
  · refine ⟨hs, ?_⟩
    obtain ⟨hone, hpd, hbd⟩ := ht.alone hs d hd hi
    intro n hn hstate
    have hni : ¬n.Ignored stableBenefit := by
      intro h
      rw [h.1] at hstate
      cases hstate
    have hmost := ht.most n hn hni
    rw [hone] at hchosen
    rcases ht.climb with ⟨_, hbu⟩ | ⟨hlt, _, hpu, _⟩
    · omega
    · rw [if_pos (by omega)] at hchosen
      exact absurd hchosen.symm (hpu hs)
  · exfalso
    obtain ⟨hne, hlow⟩ := ht.apart hs d hd hi
    by_cases hgt : bu > bd
    · rw [if_pos hgt] at hchosen
      rcases ht.climb with ⟨hpu, _⟩ | ⟨_, hle, _⟩
      · omega
      · omega
    · rw [if_neg hgt] at hchosen
      exact hne hchosen

/-- In such a probe every ignored reading was taken at the better turn point. -/
theorem TurnPoints.chosen_of_alone (ht : TurnPoints stableBenefit s₀ b₀ ms pd bd pu bu)
    (hs : s₀ = 1) (hups : ∀ n ∈ ms, n.state = .tryUp → n.benefit ≤ b₀) {d : Measurement}
    (hd : d ∈ ms) (hi : d.Ignored stableBenefit) :
    d.strength = if bu > bd then pu else pd := by
  obtain ⟨hone, hpd, hbd⟩ := ht.alone hs d hd hi
  have hbu : ¬bu > bd := by
    rcases ht.climb with ⟨_, hbu⟩ | ⟨_, _, _, n, hn, hstate, hb⟩
    · omega
    · have hle := hups n hn hstate
      omega
  rw [if_neg hbu, hone, hpd]

/-- A probe settles at the better turn point, which is the best of all readings if and only if none
was lost. -/
theorem TurnPoints.bestAt_iff (ht : TurnPoints stableBenefit s₀ b₀ ms pd bd pu bu)
    (hstart : ms ≠ []) :
    BestAt (if bu > bd then pu else pd) ms ↔ NoneLost stableBenefit s₀ b₀ ms := by
  constructor
  · intro hbest
    obtain ⟨m, hm, hms, hmax⟩ := hbest
    by_cases hi : m.Ignored stableBenefit
    · exact Or.inr (ht.of_ignored_chosen hm hi hms)
    · left
      intro d hd _
      exact ⟨m, hm, hi, hmax d hd⟩
  · intro hnone
    obtain ⟨c, hc, _, hcs, hcmost⟩ := ht.chosen
    rcases hnone with hall | ⟨hs, hups⟩
    · refine ⟨c, hc, hcs, ?_⟩
      intro m' hm'
      by_cases hi : m'.Ignored stableBenefit
      · obtain ⟨n, hn, hni, hle⟩ := hall m' hm' hi
        exact le_trans hle (hcmost n hn hni)
      · exact hcmost m' hm' hi
    · obtain ⟨m, hm, hmax⟩ := Finset.exists_max_image ms.toFinset Measurement.benefit
        (by simpa using hstart)
      rw [List.mem_toFinset] at hm
      have hmax' : ∀ m' ∈ ms, m'.benefit ≤ m.benefit :=
        fun m' hm' => hmax m' (List.mem_toFinset.mpr hm')
      by_cases hi : m.Ignored stableBenefit
      · exact ⟨m, hm, ht.chosen_of_alone hs hups hm hi, hmax'⟩
      · exact ⟨c, hc, hcs, fun m' hm' => le_trans (hmax' m' hm') (hcmost m hm hi)⟩

end TurnPoints

/-! ### The phases of a probe -/

/-- The turn points of a state and the readings. -/
def RshashState.Knows (stableBenefit s₀ b₀ : ℕ) (ms : List Measurement) (r : RshashState) : Prop :=
  TurnPoints stableBenefit s₀ b₀ ms r.turnPointDown.toNat r.turnBenefitDown.toNat
    r.turnPointUp.toNat r.turnBenefitUp.toNat

/-- On the way down the strength `h` is below all strengths measured, unless the probe began at
strength 1 and has not moved. -/
def Descending (s₀ b₀ : ℕ) (ms : List Measurement) (h : ℕ) : Prop :=
  (∀ m ∈ ms, h < m.strength) ∨ ms = [⟨.still, s₀, b₀⟩] ∧ s₀ = 1 ∧ h = 1

/-- A probe that began at the strength `s₀` with the benefit `b₀` has led to `a` with the readings
`ms`. -/
structure Probes (stableBenefit s₀ b₀ : ℕ) (ms : List Measurement) (a : Adaptation) : Prop where
  range : RangeInv a
  baseline : a.rshashState.stableBenefit.toNat = stableBenefit
  start : ⟨.still, s₀, b₀⟩ ∈ ms
  goingDown : a.rshashState.state = .tryDown → a.rshashState.Knows stableBenefit s₀ b₀ ms ∧
    a.rshashState.stablePoint.toNat = s₀ ∧ Descending s₀ b₀ ms a.hashStrength.toNat
  goingUp : a.rshashState.state = .tryUp → a.rshashState.Knows stableBenefit s₀ b₀ ms ∧
    s₀ ≤ a.hashStrength.toNat ∧ (s₀ = 1 → a.hashStrength.toNat ≠ 1)
  settled : a.rshashState.state = .preStill →
    (BestAt a.hashStrength.toNat ms ↔ NoneLost stableBenefit s₀ b₀ ms)

@[simp] theorem probedDown_stablePoint (a : Adaptation) (m : UInt64) :
    (a.probedDown m).rshashState.stablePoint = a.rshashState.stablePoint := by
  rw [Adaptation.probedDown, measureDown]
  split_ifs <;> rfl

@[simp] theorem probedDown_stableBenefit (a : Adaptation) (m : UInt64) :
    (a.probedDown m).rshashState.stableBenefit = a.rshashState.stableBenefit := by
  rw [Adaptation.probedDown, measureDown]
  split_ifs <;> rfl

@[simp] theorem probedUp_stableBenefit (a : Adaptation) (m : UInt64) :
    (a.probedUp m).rshashState.stableBenefit = a.rshashState.stableBenefit := by
  rw [Adaptation.probedUp, measureUp]
  split_ifs <;> rfl

section Phases

variable {stableBenefit s₀ b₀ : ℕ} {ms : List Measurement} {a a' : Adaptation} {m : UInt64}

/-- Away from strength 1 the way down is below all readings. -/
theorem Descending.below {h : ℕ} (hlow : Descending s₀ b₀ ms h) (hs : s₀ ≠ 1) :
    ∀ n ∈ ms, h < n.strength := by
  rcases hlow with hall | ⟨_, hone, _⟩
  · exact hall
  · exact absurd hone hs

/-- A probe from strength 1 has no reading on the way down yet. -/
theorem Descending.first {h : ℕ} (hlow : Descending s₀ b₀ ms h) (hstart : ⟨.still, s₀, b₀⟩ ∈ ms)
    (hpos : 1 ≤ h) (hs : s₀ = 1) : ms = [⟨.still, s₀, b₀⟩] ∧ h = 1 := by
  rcases hlow with hall | ⟨hms, _, hone⟩
  · have hlt := hall _ hstart
    simp only at hlt
    omega
  · exact ⟨hms, hone⟩

/-- The reading of the OBSCURE decision is never ignored. -/
theorem not_ignored_of_start {d : Measurement} (hd : d ∈ [(⟨.still, s₀, b₀⟩ : Measurement)]) :
    ¬d.Ignored stableBenefit := by
  rw [List.mem_singleton] at hd
  subst hd
  intro hi
  cases hi.1

/-- A reading on the way down that is ignored. -/
theorem knows_ignored (hk : a.rshashState.Knows stableBenefit s₀ b₀ ms)
    (hstart : ⟨.still, s₀, b₀⟩ ∈ ms) (hlow : Descending s₀ b₀ ms a.hashStrength.toNat)
    (hpos : 1 ≤ a.hashStrength.toNat) (hlt : m.toNat < stableBenefit) :
    a.rshashState.Knows stableBenefit s₀ b₀
      (ms ++ [⟨.tryDown, a.hashStrength.toNat, m.toNat⟩]) := by
  refine TurnPoints.read hk (Or.inl ⟨rfl, rfl⟩) (Or.inl ⟨rfl, rfl⟩)
    (fun hx => absurd ⟨rfl, hlt⟩ hx) ?_ ?_
  · intro hs
    refine ⟨fun d hd hi => (hk.apart hs d hd hi).1, fun _ => ?_⟩
    obtain ⟨n, hn, _, hpoint, _⟩ := hk.down
    have hn' := hlow.below hs n hn
    have hs' := hlow.below hs _ hstart
    show a.hashStrength.toNat ≠ a.rshashState.turnPointDown.toNat ∧ a.hashStrength.toNat < s₀
    simp only at hs'
    omega
  · intro hs d hd hi
    obtain ⟨hms, hone⟩ := hlow.first hstart hpos hs
    obtain ⟨n, hn, _, hpoint, hbenefit⟩ := hk.down
    rw [hms, List.mem_singleton] at hn
    subst hn
    rw [List.mem_append] at hd
    cases hd with
    | inl hold =>
      rw [hms] at hold
      exact absurd hi (not_ignored_of_start hold)
    | inr hnew =>
      rw [List.mem_singleton] at hnew
      subst hnew
      exact ⟨hone, hpoint.symm.trans hs, hbenefit.symm⟩

/-- The comparison of a reading on the way down. -/
theorem knows_probedDown (hk : a.rshashState.Knows stableBenefit s₀ b₀ ms)
    (hbase : a.rshashState.stableBenefit.toNat = stableBenefit) (hstart : ⟨.still, s₀, b₀⟩ ∈ ms)
    (hlow : Descending s₀ b₀ ms a.hashStrength.toNat) (hpos : 1 ≤ a.hashStrength.toNat) :
    (a.probedDown m).rshashState.Knows stableBenefit s₀ b₀
      (ms ++ [⟨.tryDown, a.hashStrength.toNat, m.toNat⟩]) := by
  rw [Adaptation.probedDown, measureDown]
  by_cases hignored : m < (openWindow a).rshashState.stableBenefit
  · rw [if_pos hignored]
    rw [UInt64.lt_iff_toNat_lt] at hignored
    exact knows_ignored hk hstart hlow hpos (hbase ▸ hignored)
  · rw [if_neg hignored]
    have hx : ¬(⟨.tryDown, a.hashStrength.toNat, m.toNat⟩ : Measurement).Ignored stableBenefit := by
      intro hi
      rw [UInt64.lt_iff_toNat_lt] at hignored
      exact hignored (hbase ▸ hi.2)
    -- a probe from strength 1 ignores none of its readings then
    have halone : ∀ pd bd : ℕ, s₀ = 1 →
        ∀ d ∈ ms ++ [⟨.tryDown, a.hashStrength.toNat, m.toNat⟩], d.Ignored stableBenefit →
          d.strength = 1 ∧ pd = 1 ∧ bd = b₀ := by
      intro pd bd hs d hd hi
      rw [List.mem_append, List.mem_singleton] at hd
      cases hd with
      | inl hold =>
        rw [(hlow.first hstart hpos hs).1] at hold
        exact absurd hi (not_ignored_of_start hold)
      | inr hnew => exact absurd (hnew ▸ hi) hx
    by_cases hmore : m > (openWindow a).rshashState.turnBenefitDown
    · rw [if_pos hmore]
      rw [gt_iff_lt, UInt64.lt_iff_toNat_lt] at hmore
      refine hk.read (Or.inr ⟨hx, rfl, rfl, le_of_lt hmore⟩) (Or.inl ⟨rfl, rfl⟩)
        (fun _ => Or.inl le_rfl) ?_ (halone _ _)
      intro hs
      refine ⟨fun d hd _ => ?_, fun hi => absurd hi hx⟩
      exact ne_of_gt (hlow.below hs d hd)
    · rw [if_neg hmore]
      rw [gt_iff_lt, UInt64.lt_iff_toNat_lt, not_lt] at hmore
      refine hk.read (Or.inl ⟨rfl, rfl⟩) (Or.inl ⟨rfl, rfl⟩) (fun _ => Or.inl hmore) ?_
        (halone _ _)
      intro hs
      exact ⟨fun d hd hi => (hk.apart hs d hd hi).1, fun hi => absurd hi hx⟩

/-- The comparison of a reading on the way up. -/
theorem knows_probedUp (hk : a.rshashState.Knows stableBenefit s₀ b₀ ms)
    (hhigh : s₀ ≤ a.hashStrength.toNat) (hone : s₀ = 1 → a.hashStrength.toNat ≠ 1) :
    (a.probedUp m).rshashState.Knows stableBenefit s₀ b₀
      (ms ++ [⟨.tryUp, a.hashStrength.toNat, m.toNat⟩]) := by
  have hx : ¬(⟨.tryUp, a.hashStrength.toNat, m.toNat⟩ : Measurement).Ignored stableBenefit := by
    intro hi
    cases hi.1
  have hapart : s₀ ≠ 1 → (∀ d ∈ ms, d.Ignored stableBenefit →
        d.strength ≠ a.rshashState.turnPointDown.toNat) ∧
      ((⟨.tryUp, a.hashStrength.toNat, m.toNat⟩ : Measurement).Ignored stableBenefit →
        a.hashStrength.toNat ≠ a.rshashState.turnPointDown.toNat ∧ a.hashStrength.toNat < s₀) :=
    fun hs => ⟨fun d hd hi => (hk.apart hs d hd hi).1, fun hi => absurd hi hx⟩
  have halone : s₀ = 1 → ∀ d ∈ ms ++ [⟨.tryUp, a.hashStrength.toNat, m.toNat⟩],
      d.Ignored stableBenefit → d.strength = 1 ∧ a.rshashState.turnPointDown.toNat = 1 ∧
        a.rshashState.turnBenefitDown.toNat = b₀ := by
    intro hs d hd hi
    rw [List.mem_append, List.mem_singleton] at hd
    cases hd with
    | inl hold => exact hk.alone hs d hold hi
    | inr hnew => exact absurd (hnew ▸ hi) hx
  rw [Adaptation.probedUp, measureUp]
  by_cases hbelow : m < (openWindow a).rshashState.turnBenefitDown
  · rw [if_pos hbelow]
    rw [UInt64.lt_iff_toNat_lt] at hbelow
    exact hk.read (Or.inl ⟨rfl, rfl⟩) (Or.inl ⟨rfl, rfl⟩) (fun _ => Or.inl (le_of_lt hbelow))
      hapart halone
  · rw [if_neg hbelow]
    by_cases hmore : m > (openWindow a).rshashState.turnBenefitUp
    · rw [if_pos hmore]
      rw [gt_iff_lt, UInt64.lt_iff_toNat_lt] at hmore
      exact hk.read (Or.inl ⟨rfl, rfl⟩) (Or.inr ⟨rfl, rfl, rfl, hmore, hhigh, hone⟩)
        (fun _ => Or.inr le_rfl) hapart halone
    · rw [if_neg hmore]
      rw [gt_iff_lt, UInt64.lt_iff_toNat_lt, not_lt] at hmore
      exact hk.read (Or.inl ⟨rfl, rfl⟩) (Or.inl ⟨rfl, rfl⟩) (fun _ => Or.inr hmore) hapart halone

/-- A call that leads from RSHASH_STILL to RSHASH_TRYDOWN is the OBSCURE decision. -/
theorem AdjustStep.of_still (hstep : AdjustStep m a a') (hstate : a.rshashState.state = .still)
    (hdown : a'.rshashState.state = .tryDown) :
    ∃ z o, a' = incHashStrengthDelta (decHashStrength a.hashStrengthDelta
      (startProbe m (a.noted z o))) := by
  cases hstep with
  | probe z o _ => exact ⟨z, o, rfl⟩
  | stay z o _ => rw [Adaptation.noted_rshashState, hstate] at hdown; cases hdown
  | goUp z o delta _ hdelta =>
    have hsame : a.rshashState.state = .tryDown := hdown
    rw [hstate] at hsame
    cases hsame
  | goDown z o delta _ hdelta =>
    have hsame : a.rshashState.state = .tryDown := hdown
    rw [hstate] at hsame
    cases hsame
  | furtherDown z o h => rw [hstate] at h; cases h
  | turn z o h => rw [hstate] at h; cases h
  | furtherUp z o h => rw [hstate] at h; cases h
  | settle z o h => rw [hstate] at h; cases h
  | enterStill h => cases hdown

/-- On the way down a call goes further down or turns. -/
theorem AdjustStep.of_tryDown (hstep : AdjustStep m a a')
    (hstate : a.rshashState.state = .tryDown) :
    (∃ z o, a.hashStrength ≠ 1 ∧ a' = incHashStrengthDelta (decHashStrength a.hashStrengthDelta
      ((a.probedDown m).noted z o))) ∨
    ∃ z o, a' = turnUp ((a.probedDown m).noted z o) := by
  cases hstep with
  | furtherDown z o _ _ hlimit => exact Or.inl ⟨z, o, hlimit, rfl⟩
  | turn z o _ => exact Or.inr ⟨z, o, rfl⟩
  | stay z o h => rw [hstate] at h; cases h
  | goUp z o delta h => rw [hstate] at h; cases h
  | goDown z o delta h => rw [hstate] at h; cases h
  | probe z o h => rw [hstate] at h; cases h
  | furtherUp z o h => rw [hstate] at h; cases h
  | settle z o h => rw [hstate] at h; cases h
  | enterStill h => rcases h with h | h <;> rw [hstate] at h <;> cases h

/-- On the way up a call goes further up or settles. -/
theorem AdjustStep.of_tryUp (hstep : AdjustStep m a a') (hstate : a.rshashState.state = .tryUp) :
    (∃ z o, a.hashStrength ≠ strengthMax ∧ a' = incHashStrengthDelta
      (incHashStrength a.hashStrengthDelta ((a.probedUp m).noted z o))) ∨
    ∃ z o, a' = DirtyPages.settle ((a.probedUp m).noted z o) := by
  cases hstep with
  | furtherUp z o _ _ hlimit => exact Or.inl ⟨z, o, hlimit, rfl⟩
  | settle z o _ => exact Or.inr ⟨z, o, rfl⟩
  | stay z o h => rw [hstate] at h; cases h
  | goUp z o delta h => rw [hstate] at h; cases h
  | goDown z o delta h => rw [hstate] at h; cases h
  | probe z o h => rw [hstate] at h; cases h
  | furtherDown z o h => rw [hstate] at h; cases h
  | turn z o h => rw [hstate] at h; cases h
  | enterStill h => rcases h with h | h <;> rw [hstate] at h <;> cases h

/-- The OBSCURE decision starts a probe with its own reading. -/
theorem probes_start (hrange : RangeInv a) (hstate : a.rshashState.state = .still)
    (hstep : AdjustStep m a a') (hdown : a'.rshashState.state = .tryDown) :
    Probes a.rshashState.stableBenefit.toNat a.hashStrength.toNat m.toNat
      [⟨.still, a.hashStrength.toNat, m.toNat⟩] a' := by
  have hrange' := rangeInv_step hrange hstep
  obtain ⟨z, o, rfl⟩ := hstep.of_still hstate hdown
  have hpos := hrange.strength.1
  have htwo : 0 < 2 ^ a.hashStrengthDelta.toNat := Nat.two_pow_pos _
  have hdec : (decHashStrength a.hashStrengthDelta
      (startProbe m (a.noted z o))).hashStrength.toNat =
      if a.hashStrength.toNat ≤ 2 ^ a.hashStrengthDelta.toNat + 1 then 1
      else a.hashStrength.toNat - 2 ^ a.hashStrengthDelta.toNat :=
    decHashStrength_toNat hrange.delta
  have hself := List.mem_singleton.mpr
    (rfl : (⟨.still, a.hashStrength.toNat, m.toNat⟩ : Measurement) = _)
  refine ⟨hrange', rfl, hself, fun _ => ⟨?_, rfl, ?_⟩, ?_, ?_⟩
  · refine ⟨⟨_, hself, not_ignored_of_start hself, rfl, rfl⟩,
      ⟨_, hself, not_ignored_of_start hself, rfl, rfl⟩, ?_,
      fun _ d hd hi => absurd hi (not_ignored_of_start hd),
      fun _ d hd hi => absurd hi (not_ignored_of_start hd), Or.inl ⟨rfl, rfl⟩⟩
    intro n hn _
    rw [List.mem_singleton] at hn
    subst hn
    exact Or.inl le_rfl
  · show Descending _ _ _ (decHashStrength a.hashStrengthDelta
      (startProbe m (a.noted z o))).hashStrength.toNat
    rw [hdec]
    by_cases hone : a.hashStrength.toNat = 1
    · right
      rw [if_pos (by omega)]
      exact ⟨rfl, hone, rfl⟩
    · left
      intro n hn
      rw [List.mem_singleton] at hn
      subst hn
      show _ < a.hashStrength.toNat
      split_ifs
      · omega
      · omega
  · intro h
    cases h
  · intro h
    cases h

/-- A further step down lowers the strength. -/
theorem furtherDown_lt (hrange : RangeInv a) (hlimit : a.hashStrength ≠ 1) (z o : UInt64) :
    (decHashStrength a.hashStrengthDelta
      ((a.probedDown m).noted z o)).hashStrength.toNat < a.hashStrength.toNat := by
  have hpos := hrange.strength.1
  have htwo : 0 < 2 ^ a.hashStrengthDelta.toNat := Nat.two_pow_pos _
  have hne : a.hashStrength.toNat ≠ 1 := fun h => hlimit (UInt64.toNat_inj.mp h)
  rw [decHashStrength_toNat hrange.delta, Adaptation.noted_hashStrength, probedDown_hashStrength]
  split_ifs
  · omega
  · omega

/-- The turn goes to the strength above the one the probe began at. -/
theorem turnUp_toNat (hsaved : a.rshashState.stablePoint.toNat ≤ hashStrengthMax) (z o : UInt64) :
    (turnUp ((a.probedDown m).noted z o)).hashStrength.toNat =
      min (a.rshashState.stablePoint.toNat + 1) hashStrengthMax := by
  have hpoint := probedDown_stablePoint a m
  show (incHashStrength 0 { (a.probedDown m).noted z o with
    hashStrength := (a.probedDown m).rshashState.stablePoint
    hashStrengthDelta := 0 }).hashStrength.toNat = _
  rw [incHashStrength_toNat (Nat.zero_le _)]
  · show min ((a.probedDown m).rshashState.stablePoint.toNat + 2 ^ 0) _ = _
    rw [hpoint, pow_zero]
  · show (a.probedDown m).rshashState.stablePoint.toNat ≤ hashStrengthMax
    rw [hpoint]
    exact hsaved

theorem furtherUp_toNat (hrange : RangeInv a) (z o : UInt64) :
    (incHashStrength a.hashStrengthDelta ((a.probedUp m).noted z o)).hashStrength.toNat =
      min (a.hashStrength.toNat + 2 ^ a.hashStrengthDelta.toNat) hashStrengthMax := by
  rw [incHashStrength_toNat hrange.delta]
  · rw [Adaptation.noted_hashStrength, probedUp_hashStrength]
  · rw [Adaptation.noted_hashStrength, probedUp_hashStrength]
    exact hrange.strength.2

/-- One more reading above a lower strength. -/
theorem Descending.snoc {h h' : ℕ} (hlow : Descending s₀ b₀ ms h) (hne : h ≠ 1) (hlt : h' < h)
    (benefit : ℕ) : Descending s₀ b₀ (ms ++ [⟨.tryDown, h, benefit⟩]) h' := by
  refine Or.inl fun n hn => ?_
  rw [List.mem_append, List.mem_singleton] at hn
  cases hn with
  | inl hold =>
    rcases hlow with hall | ⟨_, _, hone⟩
    · exact lt_trans hlt (hall n hold)
    · exact absurd hone hne
  | inr hnew =>
    subst hnew
    exact hlt

/-- A reading on the way down after which the way goes on. -/
theorem Probes.furtherDown (hp : Probes stableBenefit s₀ b₀ ms a)
    (hstate : a.rshashState.state = .tryDown) (hlimit : a.hashStrength ≠ 1) {z o : UInt64}
    (ha : a' = incHashStrengthDelta (decHashStrength a.hashStrengthDelta
      ((a.probedDown m).noted z o))) (hrange' : RangeInv a') :
    Probes stableBenefit s₀ b₀ (ms ++ [⟨.tryDown, a.hashStrength.toNat, m.toNat⟩]) a' := by
  subst ha
  obtain ⟨hk, hpoint, hlow⟩ := hp.goingDown hstate
  have hstate' : (a.probedDown m).rshashState.state = .tryDown :=
    (probedDown_state a m).trans hstate
  have hne : a.hashStrength.toNat ≠ 1 := fun h => hlimit (UInt64.toNat_inj.mp h)
  refine ⟨hrange', (congrArg _ (probedDown_stableBenefit a m)).trans hp.baseline,
    List.mem_append_left _ hp.start,
    fun _ => ⟨?_, (congrArg _ (probedDown_stablePoint a m)).trans hpoint, ?_⟩, ?_, ?_⟩
  · exact knows_probedDown hk hp.baseline hp.start hlow hp.range.strength.1
  · exact hlow.snoc hne (furtherDown_lt hp.range hlimit z o) m.toNat
  · intro h
    have h' : (a.probedDown m).rshashState.state = .tryUp := h
    rw [hstate'] at h'
    cases h'
  · intro h
    have h' : (a.probedDown m).rshashState.state = .preStill := h
    rw [hstate'] at h'
    cases h'

/-- The last reading on the way down. -/
theorem Probes.turn (hp : Probes stableBenefit s₀ b₀ ms a)
    (hstate : a.rshashState.state = .tryDown) {z o : UInt64}
    (ha : a' = turnUp ((a.probedDown m).noted z o)) (hrange' : RangeInv a') :
    Probes stableBenefit s₀ b₀ (ms ++ [⟨.tryDown, a.hashStrength.toNat, m.toNat⟩]) a' := by
  subst ha
  obtain ⟨hk, hpoint, hlow⟩ := hp.goingDown hstate
  have hpos := hp.range.strength.1
  have hmax := hashStrengthMax_eq
  have hsaved := (hp.range.saved (Or.inl hstate)).1.2
  have hinc := turnUp_toNat (m := m) hsaved z o
  rw [hpoint] at hsaved hinc
  refine ⟨hrange', (congrArg _ (probedDown_stableBenefit a m)).trans hp.baseline,
    List.mem_append_left _ hp.start, ?_, fun _ => ⟨?_, ?_, ?_⟩, ?_⟩
  · intro h
    cases h
  · exact knows_probedDown hk hp.baseline hp.start hlow hpos
  · rw [hinc]
    omega
  · intro hs
    rw [hinc]
    omega
  · intro h
    cases h

/-- A reading on the way up after which the way goes on. -/
theorem Probes.furtherUp (hp : Probes stableBenefit s₀ b₀ ms a)
    (hstate : a.rshashState.state = .tryUp) {z o : UInt64}
    (ha : a' = incHashStrengthDelta (incHashStrength a.hashStrengthDelta
      ((a.probedUp m).noted z o))) (hrange' : RangeInv a') :
    Probes stableBenefit s₀ b₀ (ms ++ [⟨.tryUp, a.hashStrength.toNat, m.toNat⟩]) a' := by
  subst ha
  obtain ⟨hk, hhigh, hone⟩ := hp.goingUp hstate
  have hstate' : (a.probedUp m).rshashState.state = .tryUp := (probedUp_state a m).trans hstate
  have hinc := furtherUp_toNat (m := m) hp.range z o
  have htwo : 0 < 2 ^ a.hashStrengthDelta.toNat := Nat.two_pow_pos _
  have hpos := hp.range.strength.1
  have hle := hp.range.strength.2
  have hmax := hashStrengthMax_eq
  refine ⟨hrange', (congrArg _ (probedUp_stableBenefit a m)).trans hp.baseline,
    List.mem_append_left _ hp.start, ?_, fun _ => ⟨?_, ?_, ?_⟩, ?_⟩
  · intro h
    have h' : (a.probedUp m).rshashState.state = .tryDown := h
    rw [hstate'] at h'
    cases h'
  · exact knows_probedUp hk hhigh hone
  · refine le_of_le_of_eq ?_ hinc.symm
    omega
  · intro hs h
    have h' := hinc.symm.trans h
    omega
  · intro h
    have h' : (a.probedUp m).rshashState.state = .preStill := h
    rw [hstate'] at h'
    cases h'

/-- The last reading of the probe. -/
theorem Probes.settle (hp : Probes stableBenefit s₀ b₀ ms a)
    (hstate : a.rshashState.state = .tryUp) {z o : UInt64}
    (ha : a' = DirtyPages.settle ((a.probedUp m).noted z o)) (hrange' : RangeInv a') :
    Probes stableBenefit s₀ b₀ (ms ++ [⟨.tryUp, a.hashStrength.toNat, m.toNat⟩]) a' := by
  subst ha
  obtain ⟨hk, hhigh, hone⟩ := hp.goingUp hstate
  have hk' := knows_probedUp (m := m) hk hhigh hone
  refine ⟨hrange', (congrArg _ (probedUp_stableBenefit a m)).trans hp.baseline,
    List.mem_append_left _ hp.start, ?_, ?_, fun _ => ?_⟩
  · intro h
    cases h
  · intro h
    cases h
  · refine Iff.trans ?_ (hk'.bestAt_iff (by simp))
    show BestAt (UInt64.toNat (if _ then _ else _)) _ ↔ _
    rw [apply_ite UInt64.toNat]
    simp only [gt_iff_lt, UInt64.lt_iff_toNat_lt]
    rfl

/-- One effective call during a probe. -/
theorem Probes.step (hp : Probes stableBenefit s₀ b₀ ms a) (hprobing : a.rshashState.state.Probing)
    (hstep : AdjustStep m a a') :
    Probes stableBenefit s₀ b₀
      (ms ++ [⟨a.rshashState.state, a.hashStrength.toNat, m.toNat⟩]) a' := by
  have hrange' := rangeInv_step hp.range hstep
  rcases hprobing with hstate | hstate
  · rw [hstate]
    rcases hstep.of_tryDown hstate with ⟨z, o, hlimit, ha⟩ | ⟨z, o, ha⟩
    · exact hp.furtherDown hstate hlimit ha hrange'
    · exact hp.turn hstate ha hrange'
  · rw [hstate]
    rcases hstep.of_tryUp hstate with ⟨z, o, _, ha⟩ | ⟨z, o, ha⟩
    · exact hp.furtherUp hstate ha hrange'
    · exact hp.settle hstate ha hrange'

end Phases

/-! ### Runs of effective calls -/

section Calls

variable (rb : Balancer ℕ) (randomNums : RandomNums)

/-- An effective call of `rshash_adjust` leads from `a` to `a'` and reads the benefit `m`.  The
counters and the stable tree may be anything when it is made. -/
def EffectiveCall (a : Adaptation) (m : UInt64) (a' : Adaptation) : Prop :=
  ∃ (round : UInt64) (pageAt : ℕ → Page) (choices : ℕ → Choice) (u : Uksm) (c : Counters)
    (changed : Bool) (u' : Uksm),
    u.adaptation = a ∧ encodeBenefit u.counters = .ok (true, c) ∧
    getCurrentBenefit c.benefit = .ok m ∧
    rshashAdjust rb randomNums round pageAt choices u = .ok (changed, u') ∧ u'.adaptation = a'

/-- Effective calls in a row that begin in a probing state each, with their readings. -/
inductive ProbeCalls (a : Adaptation) : List Measurement → Adaptation → Prop
  | none : ProbeCalls a [] a
  | call {ms : List Measurement} {b c : Adaptation} {m : UInt64} (hcalls : ProbeCalls a ms b)
      (hprobing : b.rshashState.state.Probing) (hcall : EffectiveCall rb randomNums b m c) :
      ProbeCalls a (ms ++ [⟨b.rshashState.state, b.hashStrength.toNat, m.toNat⟩]) c

end Calls

section

variable {rb : Balancer ℕ} {randomNums : RandomNums} {a a' : Adaptation} {m : UInt64}

theorem EffectiveCall.adjustStep (hcall : EffectiveCall rb randomNums a m a') (hinv : RangeInv a) :
    AdjustStep m a a' := by
  obtain ⟨round, pageAt, choices, u, c, changed, u', hu, he, hm, hrun, hu'⟩ := hcall
  subst hu hu'
  have hbusy : ¬u.counters.Quiet := by
    rcases encodeBenefit_eq_ok.mp he with ⟨hr, _⟩ | ⟨_, hne, _⟩
    · cases hr
    · exact hne
  have hmeets : Meets (fun _ => True) (fun p => AdjustStep m u.adaptation p.2.adaptation)
      (rshashAdjust rb randomNums round pageAt choices u) := by
    refine rshashAdjust_meets round choices hinv (fun _ => True.intro)
      (fun hq => absurd hq hbusy) ?_
    intro c' a he' hstep _
    rw [he] at he'
    have hc : c = c' := (Prod.mk.inj (Except.ok.inj he')).2
    subst hc
    rw [getCurrentBenefit_eq_ok (encodeBenefit_scanned_ne_zero he)] at hm
    rw [Except.ok.inj hm] at hstep
    refine ⟨fun _ => hstep, fun _ => ?_⟩
    exact (stableTreeDeltaHash_charges _ choices u.tree _).mono (fun _ _ => True.intro)
      fun _ _ => hstep
  exact hmeets.of_ok hrun

/-- A run of calls carries the readings along. -/
theorem ProbeCalls.probes {stableBenefit s₀ b₀ : ℕ} {before ms : List Measurement}
    (hstart : Probes stableBenefit s₀ b₀ before a) (hcalls : ProbeCalls rb randomNums a ms a') :
    Probes stableBenefit s₀ b₀ (before ++ ms) a' := by
  induction hcalls with
  | none => rw [List.append_nil]; exact hstart
  | call hcalls hprobing hcall ih =>
    rw [← List.append_assoc]
    exact ih.step hprobing (hcall.adjustStep ih.range)

end

/-- A probe from a reachable state, from the OBSCURE decision to the call that settles, ends at a
strength where the best of its readings was taken if and only if it lost none. -/
theorem probe_ends_at_best (rb : Balancer ℕ) (randomNums : RandomNums) (ops : List Op) (u : Uksm)
    (hrun : run rb randomNums ops = .ok u) (hstill : u.adaptation.rshashState.state = .still)
    (b₀ : UInt64) (a a' : Adaptation) (hobscure : EffectiveCall rb randomNums u.adaptation b₀ a)
    (hdown : a.rshashState.state = .tryDown) (ms : List Measurement)
    (hcalls : ProbeCalls rb randomNums a ms a') (hend : a'.rshashState.state = .preStill) :
    let s₀ := u.adaptation.hashStrength.toNat
    let readings := ⟨.still, s₀, b₀.toNat⟩ :: ms
    BestAt a'.hashStrength.toNat readings ↔
      NoneLost u.adaptation.rshashState.stableBenefit.toNat s₀ b₀.toNat readings := by
  have hrange := (run_rangeInv ops).of_ok hrun
  have hprobes := probes_start hrange hstill (hobscure.adjustStep hrange) hdown
  exact (hcalls.probes hprobes).settled hend

/-! ### Two probes -/

/-- One page scanned since the last transfer, and the benefit `m` to transfer. -/
def pendingBenefit (m : UInt64) : Counters :=
  { initialCounters with rshashPos := m, uksmPagesScanned := 1 }

theorem encodeBenefit_pending (m : UInt64) :
    encodeBenefit (pendingBenefit m) =
      .ok (true, (pendingBenefit m).transferred ⟨m, 0, 1, 0⟩) := by
  have hpos : ¬canOverflowU64 0 m := by
    rw [canOverflowU64_iff, UInt64.toNat_zero]
    have hm := m.toNat_lt
    omega
  have hneg : ¬canOverflowU64 0 0 := by decide +kernel
  have hscanned : ¬canOverflowU64 0 (1 - 0) := by decide +kernel
  have hencoded : encodedBenefit (pendingBenefit m) = ⟨m, 0, 1, 0⟩ := by
    rw [encodedBenefit_at_zero rfl]
    show (if canOverflowU64 0 m ∨ canOverflowU64 0 0 ∨ canOverflowU64 0 (1 - 0) then _ else _) = _
    rw [if_neg (by rw [not_or, not_or]; exact ⟨hpos, hneg, hscanned⟩)]
    show (⟨0 + m, 0 + 0, 0 + (1 - 0), 0⟩ : Benefit) = _
    rw [UInt64.zero_add]
    rfl
  have hone : (1 : UInt64) ≠ 0 := by decide
  exact encodeBenefit_eq_ok.mpr (Or.inr ⟨rfl, hone, ⟨m, 0, 1, 0⟩, hencoded.symm, hone, rfl⟩)

/-- The `switch` alone decides what an effective call does to the adaptation. -/
theorem effectiveCall_of_adjustState {rb : Balancer ℕ} {randomNums : RandomNums}
    {a a' : Adaptation} {m round : UInt64} (h : adjustState round ⟨m, 0, 1, 0⟩ a = .ok a') :
    EffectiveCall rb randomNums a m a' := by
  have hbenefit : getCurrentBenefit ⟨m, 0, 1, 0⟩ = .ok m := by
    rw [getCurrentBenefit_eq_ok (by show (1 : UInt64) ≠ 0; decide), netBenefit, if_neg (by
      show ¬(0 : UInt64) > m
      exact UInt64.not_lt.mpr UInt64.zero_le), UInt64.sub_zero, UInt64.div_one]
  have hstable : StableInv randomNums (fun _ _ => 0) a.hashStrength.toUInt32.toUInt64 initialTree :=
    initialTree_empty.stableInv _
  have hquiet : (resetBenefit ((pendingBenefit m).transferred ⟨m, 0, 1, 0⟩)).Quiet := rfl
  have hrebuild : Meets (StopsFrom (resetBenefit ((pendingBenefit m).transferred ⟨m, 0, 1, 0⟩)))
      (fun r => StableInv randomNums (fun _ _ => 0) a'.hashStrength r.tree)
      (stableTreeDeltaHash rb randomNums (fun _ _ => 0) a'.hashStrength a.hashStrength.toUInt32
        (fun _ => ⟨false, false, false⟩) initialTree
        (resetBenefit ((pendingBenefit m).transferred ⟨m, 0, 1, 0⟩))) :=
    stableTreeDeltaHash_inv hstable
  obtain ⟨r, hr, _⟩ :=
    (hrebuild.mono (fun f hf => absurd hquiet hf.2) fun _ hr => hr).exists_ok
  by_cases hsame : a.hashStrength = a'.hashStrength
  · refine ⟨round, fun _ _ => 0, fun _ => ⟨false, false, false⟩, ⟨a, pendingBenefit m, initialTree⟩,
      _, false, ⟨a', resetBenefit ((pendingBenefit m).transferred ⟨m, 0, 1, 0⟩), initialTree⟩, rfl,
      encodeBenefit_pending m, hbenefit, ?_, rfl⟩
    rw [rshashAdjust, encodeBenefit_pending]
    show adjustState round ⟨m, 0, 1, 0⟩ a >>= _ = _
    rw [h]
    show (if a.hashStrength ≠ a'.hashStrength then _ else _) = _
    rw [if_neg (not_not_intro hsame)]
    rfl
  · refine ⟨round, fun _ _ => 0, fun _ => ⟨false, false, false⟩, ⟨a, pendingBenefit m, initialTree⟩,
      _, true, ⟨a', r.counters, r.tree⟩, rfl, encodeBenefit_pending m, hbenefit, ?_, rfl⟩
    rw [rshashAdjust, encodeBenefit_pending]
    show adjustState round ⟨m, 0, 1, 0⟩ a >>= _ = _
    rw [h]
    show (if a.hashStrength ≠ a'.hashStrength then _ else _) = _
    rw [if_pos hsame]
    show stableTreeDeltaHash rb randomNums (fun _ _ => 0) a'.hashStrength a.hashStrength.toUInt32
      (fun _ => ⟨false, false, false⟩) initialTree
      (resetBenefit ((pendingBenefit m).transferred ⟨m, 0, 1, 0⟩)) >>= _ = _
    rw [hr]
    rfl

instance (s : RshashStates) : Decidable s.Probing := inferInstanceAs (Decidable (_ ∨ _))

/-- The calls of a probe that find the given benefits, made until the probe settles. -/
def readBenefits (s : List Measurement × Adaptation) (benefits : List UInt64) :
    Except Fault (List Measurement × Adaptation) :=
  benefits.foldlM
    (fun s m =>
      if s.2.rshashState.state.Probing then
        (fun b => (s.1 ++ [⟨s.2.rshashState.state, s.2.hashStrength.toNat, m.toNat⟩], b)) <$>
          adjustState 1 ⟨m, 0, 1, 0⟩ s.2
      else
        .ok s) s

theorem probeCalls_of_readBenefits {rb : Balancer ℕ} {randomNums : RandomNums} {a : Adaptation}
    (benefits : List UInt64) (s s' : List Measurement × Adaptation)
    (hs : ProbeCalls rb randomNums a s.1 s.2) (h : readBenefits s benefits = .ok s') :
    ProbeCalls rb randomNums a s'.1 s'.2 := by
  have hmeets : Meets (fun _ => True)
      (fun s : List Measurement × Adaptation => ProbeCalls rb randomNums a s.1 s.2)
      (readBenefits s benefits) := by
    refine Meets.foldlM ?_ benefits s hs
    intro s m hs
    by_cases hprobing : s.2.rshashState.state.Probing
    · rw [if_pos hprobing]
      cases hadjust : adjustState 1 ⟨m, 0, 1, 0⟩ s.2 with
      | error f => exact True.intro
      | ok b => exact .call hs hprobing (effectiveCall_of_adjustState hadjust)
    · rw [if_neg hprobing]
      exact hs
  exact hmeets.of_ok h

/-- One round after init: the strength is 64 and the stable benefit 100. -/
def firstRound : List Op :=
  [.incUksmPagesScanned, .incRshashPos 100,
    .rshashAdjust 1 (fun _ _ => 0) fun _ => ⟨false, false, false⟩]

theorem firstRound_reaches : ∃ u, run (Balancer.plain ℕ) id firstRound = .ok u ∧
    u.adaptation = enterStill 100 initialAdaptation := by
  have hstill : (fun u => u.adaptation) <$> run (Balancer.plain ℕ) id firstRound =
      .ok (enterStill 100 initialAdaptation) := by
    decide +kernel
  cases hrun : run (Balancer.plain ℕ) id firstRound with
  | error f =>
    rw [hrun] at hstill
    cases hstill
  | ok u =>
    rw [hrun] at hstill
    exact ⟨u, rfl, Except.ok.inj hstill⟩

/-- The probe from there that begins with the benefit 10. -/
def probeAtTen (benefits : List UInt64) : Except Fault (List Measurement × Adaptation) := do
  let a ← adjustState 10 ⟨10, 0, 1, 0⟩ (enterStill 100 initialAdaptation)
  readBenefits ([], a) benefits

theorem probeAtTen_calls {benefits : List UInt64} {s : List Measurement × Adaptation}
    (h : probeAtTen benefits = .ok s) :
    ∃ a, EffectiveCall (Balancer.plain ℕ) id (enterStill 100 initialAdaptation) 10 a ∧
      a.rshashState.state = .tryDown ∧ ProbeCalls (Balancer.plain ℕ) id a s.1 s.2 := by
  obtain ⟨a, ha, hread⟩ := bind_eq_ok.mp h
  refine ⟨a, effectiveCall_of_adjustState ha, ?_,
    probeCalls_of_readBenefits benefits ([], a) s .none hread⟩
  have hdown : (fun a => a.rshashState.state) <$>
      adjustState 10 ⟨10, 0, 1, 0⟩ (enterStill 100 initialAdaptation) = .ok .tryDown := by
    decide +kernel
  rw [ha] at hdown
  exact Except.ok.inj hdown

/-- With 0 on the way down and up the probe ends where it began, at its best reading. -/
theorem probe_ends_at_best_flat :
    ∃ (a' : Adaptation) (ms : List Measurement), probeAtTen [0, 0, 0, 0] = .ok (ms, a') ∧
      BestAt a'.hashStrength.toNat (⟨.still, 64, 10⟩ :: ms) := by
  have hmap : (fun s => (s.1, s.2.hashStrength, s.2.rshashState.state)) <$>
      probeAtTen [0, 0, 0, 0] =
      .ok ([⟨.tryDown, 63, 0⟩, ⟨.tryDown, 61, 0⟩, ⟨.tryDown, 57, 0⟩, ⟨.tryUp, 65, 0⟩], 64,
        .preStill) := by
    decide +kernel
  cases hprobe : probeAtTen [0, 0, 0, 0] with
  | error f =>
    rw [hprobe] at hmap
    cases hmap
  | ok s =>
    obtain ⟨ms, a'⟩ := s
    rw [hprobe] at hmap
    have hms := Prod.mk.inj (Except.ok.inj hmap)
    obtain ⟨u, hrun, hu⟩ := firstRound_reaches
    obtain ⟨a, hobscure, hdown, hcalls⟩ := probeAtTen_calls hprobe
    have hstill : u.adaptation.rshashState.state = .still := by
      rw [hu]
      rfl
    refine ⟨a', ms, rfl, ?_⟩
    have hbest := (probe_ends_at_best (Balancer.plain ℕ) id firstRound u hrun hstill 10 a a'
      (hu ▸ hobscure) hdown ms hcalls (Prod.mk.inj hms.2).2).mpr
    have hstrength : (enterStill 100 initialAdaptation).hashStrength.toNat = 64 := by decide +kernel
    have hbenefit : UInt64.toNat 10 = 10 := rfl
    rw [hu, hstrength, hbenefit] at hbest
    refine hbest (Or.inl ?_)
    intro d hd hi
    refine ⟨⟨.still, 64, 10⟩, List.mem_cons_self, fun h => (by cases h.1), ?_⟩
    have hms' : ms = _ := hms.1
    rw [hms'] at hd
    simp only [List.mem_cons, List.not_mem_nil, or_false] at hd
    rcases hd with rfl | rfl | rfl | rfl | rfl
    · exact le_rfl
    · exact Nat.zero_le _
    · exact Nat.zero_le _
    · exact Nat.zero_le _
    · exact Nat.zero_le _

/-- With 50 at the strength 63, below the stable benefit 100, the probe ends at the strength 64,
where it had read 10. -/
theorem probe_loses_best :
    ∃ u a a' ms, run (Balancer.plain ℕ) id firstRound = .ok u ∧
      u.adaptation.rshashState.state = .still ∧ u.adaptation.hashStrength = 64 ∧
      EffectiveCall (Balancer.plain ℕ) id u.adaptation 10 a ∧ a.rshashState.state = .tryDown ∧
      ProbeCalls (Balancer.plain ℕ) id a ms a' ∧ a'.rshashState.state = .preStill ∧
      a'.hashStrength = 64 ∧ ⟨.tryDown, 63, 50⟩ ∈ ms ∧
      ¬BestAt a'.hashStrength.toNat (⟨.still, 64, 10⟩ :: ms) := by
  have hmap : (fun s => (s.1, s.2.hashStrength, s.2.rshashState.state)) <$>
      probeAtTen [50, 0, 0, 0] =
      .ok ([⟨.tryDown, 63, 50⟩, ⟨.tryDown, 61, 0⟩, ⟨.tryDown, 57, 0⟩, ⟨.tryUp, 65, 0⟩], 64,
        .preStill) := by
    decide +kernel
  cases hprobe : probeAtTen [50, 0, 0, 0] with
  | error f =>
    rw [hprobe] at hmap
    cases hmap
  | ok s =>
    obtain ⟨ms, a'⟩ := s
    rw [hprobe] at hmap
    have hms := Prod.mk.inj (Except.ok.inj hmap)
    have hms' : ms = _ := hms.1
    have hs : a'.hashStrength = 64 := (Prod.mk.inj hms.2).1
    obtain ⟨u, hrun, hu⟩ := firstRound_reaches
    obtain ⟨a, hobscure, hdown, hcalls⟩ := probeAtTen_calls hprobe
    refine ⟨u, a, a', ms, hrun, by rw [hu]; rfl, by rw [hu]; decide +kernel, hu ▸ hobscure, hdown,
      hcalls, (Prod.mk.inj hms.2).2, hs, by rw [hms']; exact List.mem_cons_self, ?_⟩
    rw [hms', hs]
    intro hbest
    obtain ⟨m, hm, hstrength, hmax⟩ := hbest
    have hfifty := hmax ⟨.tryDown, 63, 50⟩ (List.mem_cons_of_mem _ List.mem_cons_self)
    simp only [List.mem_cons, List.not_mem_nil, or_false] at hm
    rcases hm with rfl | rfl | rfl | rfl | rfl
    · exact absurd hfifty (by decide)
    · exact absurd hstrength (by decide)
    · exact absurd hstrength (by decide)
    · exact absurd hstrength (by decide)
    · exact absurd hstrength (by decide)

end DirtyPages
