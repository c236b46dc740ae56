import DirtyPages.BenefitScale

/-!
# The grand total of scanned pages

`inc_uksm_pages_scanned` counts in a 64-bit word.  When the word is full, the pages of the current
round go to the benefit first, then the word is shifted to the scale of `pages_scanned_stored` and
both positions restart at zero.  No page of the round is lost, and the grand total, the stored part
at its scale together with the word, loses less than two units of the new scale.
-/

namespace DirtyPages

open Outcome

/-! ### Storing the full word -/

/-- The stored total takes in the full word as a total of the benefit takes in a pending amount. -/
theorem storePagesScanned_carries {c : Counters} (hbase : c.pagesScannedBase.toNat < 64) :
    ((storePagesScanned c).pagesScannedBase.toNat = c.pagesScannedBase.toNat ∨
      (storePagesScanned c).pagesScannedBase.toNat = c.pagesScannedBase.toNat + 1) ∧
    Carried c.pagesScannedBase.toNat (storePagesScanned c).pagesScannedBase.toNat
      c.pagesScannedStored.toNat c.uksmPagesScanned.toNat
      (storePagesScanned c).pagesScannedStored.toNat := by
  have hdelta : (c.uksmPagesScanned >>> c.pagesScannedBase).toNat =
      c.uksmPagesScanned.toNat / 2 ^ c.pagesScannedBase.toNat := toNat_shiftRight_base _ hbase
  simp only [storePagesScanned]
  by_cases hover :
      canOverflowU64 c.pagesScannedStored (c.uksmPagesScanned >>> c.pagesScannedBase)
  · have hbase' : (c.pagesScannedBase + 1).toNat = c.pagesScannedBase.toNat + 1 := by
      rw [UInt64.toNat_add, UInt64.toNat_one]
      omega
    have hhalf : c.uksmPagesScanned.toNat / 2 ^ (c.pagesScannedBase.toNat + 1) =
        c.uksmPagesScanned.toNat / 2 ^ c.pagesScannedBase.toNat / 2 := by
      rw [pow_succ, Nat.div_div_eq_div_mul]
    simp only [if_pos hover, hbase', toNat_add_halves, hdelta, ← hhalf]
    exact ⟨Or.inr True.intro, carried_halved _ _ _⟩
  · simp only [if_neg hover, toNat_add_of_not_canOverflow hover, hdelta]
    exact ⟨Or.inl True.intro, carried_same _ _ _⟩

@[simp] theorem storePagesScanned_uksmPagesScanned (c : Counters) :
    (storePagesScanned c).uksmPagesScanned = 0 := by
  simp only [storePagesScanned]
  split_ifs <;> rfl

@[simp] theorem storePagesScanned_uksmPagesScannedLast (c : Counters) :
    (storePagesScanned c).uksmPagesScannedLast = 0 := by
  simp only [storePagesScanned]
  split_ifs <;> rfl

/-! ### The pages of the round -/

/-- The pages of the current round: those in the benefit and those still to be transferred. -/
def Counters.roundPages (c : Counters) : ℕ :=
  c.benefit.scanned.toNat + (c.uksmPagesScanned.toNat - c.uksmPagesScannedLast.toNat)

/-- The grand total: the stored part at its scale, and the word that is counted in. -/
def Counters.grandTotal (c : Counters) : ℕ :=
  c.pagesScannedStored.toNat * 2 ^ c.pagesScannedBase.toNat + c.uksmPagesScanned.toNat

/-- A transfer at base 0 that keeps the base moves every pending page. -/
theorem encodeBenefit_roundPages {c c' : Counters} {r : Bool}
    (hlast : c.uksmPagesScannedLast ≤ c.uksmPagesScanned) (hbase : c.benefit.base = 0)
    (hbase' : c'.benefit.base = 0) (h : encodeBenefit c = .ok (r, c')) :
    c'.benefit.scanned.toNat = c.roundPages := by
  have hpending : (c.uksmPagesScanned - c.uksmPagesScannedLast).toNat =
      c.uksmPagesScanned.toNat - c.uksmPagesScannedLast.toNat := UInt64.toNat_sub_of_le _ _ hlast
  rcases encodeBenefit_eq_ok.mp h with ⟨_, hsame, rfl⟩ | ⟨_, _, b, hb, _, rfl⟩
  · rw [Counters.roundPages, hsame, Nat.sub_self, Nat.add_zero]
  · have hzero : c.benefit.base.toNat = 0 := congrArg UInt64.toNat hbase
    have hbaseLt : c.benefit.base.toNat < 64 := by omega
    have hkept : b.base = 0 := hbase'
    have hfits : ¬c.Overflows := by
      intro hover
      obtain ⟨hraised, _⟩ := encodedBenefit_of_overflows hbaseLt hover
      rw [← hb, hkept, hzero] at hraised
      exact absurd hraised (by decide)
    obtain ⟨_, _, _, hscan⟩ := encodedBenefit_of_fits hbaseLt hfits
    show b.scanned.toNat = _
    rw [hb, hscan, hzero, pow_zero, Nat.div_one, hpending, Counters.roundPages]

theorem encodeBenefit_uksmPagesScanned {c c' : Counters} {r : Bool}
    (h : encodeBenefit c = .ok (r, c')) : c'.uksmPagesScanned = c.uksmPagesScanned := by
  rcases encodeBenefit_eq_ok.mp h with ⟨_, _, rfl⟩ | ⟨_, _, b, _, _, rfl⟩ <;> rfl

/-- A transfer does not touch the stored part. -/
theorem encodeBenefit_stored {c c' : Counters} {r : Bool} (h : encodeBenefit c = .ok (r, c')) :
    c'.pagesScannedStored = c.pagesScannedStored ∧ c'.pagesScannedBase = c.pagesScannedBase := by
  rcases encodeBenefit_eq_ok.mp h with ⟨_, _, rfl⟩ | ⟨_, _, b, _, _, rfl⟩ <;> exact ⟨rfl, rfl⟩

/-! ### The main result -/

/-- What one call of `inc_uksm_pages_scanned` does to the two counts: the position of the last
transfer stays behind the word, the round gains exactly the page, the grand total gains the page up
to two units of its new scale, and the stored part does not wrap. -/
structure PageCounted (c c' : Counters) : Prop where
  last_le : c'.uksmPagesScannedLast ≤ c'.uksmPagesScanned
  round : c.benefit.base = 0 → c'.benefit.base = 0 → c'.roundPages = c.roundPages + 1
  total_le : c'.grandTotal ≤ c.grandTotal + 1
  total_gt : c.grandTotal + 1 < c'.grandTotal + 2 * 2 ^ c'.pagesScannedBase.toNat
  stored : c'.pagesScannedStored = c.pagesScannedStored ∧
      c'.pagesScannedBase = c.pagesScannedBase ∨
    c'.pagesScannedStored.toNat = c.pagesScannedStored.toNat /
        2 ^ (c'.pagesScannedBase.toNat - c.pagesScannedBase.toNat) +
      c.uksmPagesScanned.toNat / 2 ^ c'.pagesScannedBase.toNat

/-- A word that is not full is only counted up. -/
theorem pageCounted_of_room {c : Counters} (hlast : c.uksmPagesScannedLast ≤ c.uksmPagesScanned)
    (hroom : c.uksmPagesScanned ≠ u64Max) :
    PageCounted c { c with uksmPagesScanned := c.uksmPagesScanned + 1 } := by
  have hword : (c.uksmPagesScanned + 1).toNat = c.uksmPagesScanned.toNat + 1 := by
    have hne : c.uksmPagesScanned.toNat ≠ 2 ^ 64 - 1 := by
      rw [← toNat_u64Max]
      exact fun h => hroom (UInt64.toNat_inj.mp h)
    have hlt := c.uksmPagesScanned.toNat_lt
    rw [UInt64.toNat_add, UInt64.toNat_one]
    omega
  have hlastNat : c.uksmPagesScannedLast.toNat ≤ c.uksmPagesScanned.toNat :=
    UInt64.le_iff_toNat_le.mp hlast
  have hunit : 0 < 2 ^ c.pagesScannedBase.toNat := Nat.two_pow_pos _
  constructor
  case last_le =>
    rw [UInt64.le_iff_toNat_le]
    show c.uksmPagesScannedLast.toNat ≤ (c.uksmPagesScanned + 1).toNat
    omega
  case round =>
    intro _ _
    simp only [Counters.roundPages, hword]
    omega
  case total_le =>
    simp only [Counters.grandTotal, hword]
    omega
  case total_gt =>
    simp only [Counters.grandTotal, hword]
    omega
  case stored => exact Or.inl ⟨rfl, rfl⟩

/-- A full word is transferred, stored away and restarted before it counts the page.  The state with
the word stored away is kept as a variable, so that nothing evaluates it. -/
theorem pageCounted_of_full {c c₁ s : Counters} {r : Bool}
    (hlast : c.uksmPagesScannedLast ≤ c.uksmPagesScanned)
    (hbase : c.pagesScannedBase.toNat < 64) (he : encodeBenefit c = .ok (r, c₁))
    (hs : s = storePagesScanned c₁) :
    PageCounted c { s with uksmPagesScanned := s.uksmPagesScanned + 1 } := by
  obtain ⟨hstored, hscale⟩ := encodeBenefit_stored he
  have hword : c₁.uksmPagesScanned = c.uksmPagesScanned := encodeBenefit_uksmPagesScanned he
  have hcarried : Carried c.pagesScannedBase.toNat s.pagesScannedBase.toNat
      c.pagesScannedStored.toNat c.uksmPagesScanned.toNat s.pagesScannedStored.toNat := by
    rw [hs, ← hstored, ← hscale, ← hword]
    exact (storePagesScanned_carries (hscale ▸ hbase)).2
  have hbenefit : s.benefit = c₁.benefit := by rw [hs, storePagesScanned_benefit]
  have hrestart : s.uksmPagesScanned + 1 = 1 := by
    rw [hs, storePagesScanned_uksmPagesScanned, UInt64.zero_add]
  have hrestartLast : s.uksmPagesScannedLast = 0 := by
    rw [hs, storePagesScanned_uksmPagesScannedLast]
  constructor
  case last_le =>
    simp only [hrestartLast]
    exact UInt64.zero_le
  case round =>
    intro hzero hzero'
    simp only [hbenefit] at hzero'
    have hround := encodeBenefit_roundPages hlast hzero hzero' he
    simp only [Counters.roundPages, hbenefit, hrestart, hrestartLast, UInt64.toNat_one,
      UInt64.toNat_zero, Nat.sub_zero] at hround ⊢
    rw [hround]
  case total_le =>
    have hlower := hcarried.lower
    simp only [Counters.grandTotal, hrestart, UInt64.toNat_one]
    omega
  case total_gt =>
    have hupper := hcarried.upper
    rw [Nat.add_mul] at hupper
    simp only [Counters.grandTotal, hrestart, UInt64.toNat_one]
    omega
  case stored => exact Or.inr hcarried.sum

/-- Whatever the counters, with the position of the last transfer behind the word and the scale of
the stored part below 64, a call that does not stop in the assertion of `encode_benefit` returns and
counts the page. -/
theorem incUksmPagesScanned_counts (c : Counters)
    (hlast : c.uksmPagesScannedLast ≤ c.uksmPagesScanned) (hbase : c.pagesScannedBase.toNat < 64)
    (hbug : incUksmPagesScanned c ≠ .error .bugOnScanned) :
    ∃ c', incUksmPagesScanned c = .ok c' ∧ PageCounted c c' := by
  cases hrun : incUksmPagesScanned c with
  | error f =>
    have hf : f = .bugOnScanned := (incUksmPagesScanned_meets c).of_error hrun
    rw [hf] at hrun
    exact absurd hrun hbug
  | ok c' =>
    refine ⟨c', rfl, ?_⟩
    rcases incUksmPagesScanned_eq_ok.mp hrun with
      ⟨hroom, rfl⟩ | ⟨_, r, c₁, s, he, hs, rfl⟩
    · exact pageCounted_of_room hlast hroom
    · exact pageCounted_of_full hlast hbase he hs

/-- The word is full, with three pages pending, and the stored part is full as well: one call encodes
the pages, halves the stored part and starts anew. -/
def fullWord : Counters where
  rshashPos := 0
  rshashNeg := 0
  benefit := ⟨0, 0, 4, 0⟩
  uksmPagesScanned := u64Max
  uksmPagesScannedLast := u64Max - 3
  pagesScannedStored := u64Max
  pagesScannedBase := 0

theorem incUksmPagesScanned_counts_fullWord :
    ∃ c', incUksmPagesScanned fullWord = .ok c' ∧ PageCounted fullWord c' :=
  incUksmPagesScanned_counts fullWord (by decide +kernel) (by decide +kernel) (by decide +kernel)

end DirtyPages
