import DirtyPages.Basic
import DirtyPages.Lib.Outcome

/-!
# The benefit counters

Sections 7 and 9 of `dirtPages.c`: the running counters `rshash_pos` and `rshash_neg`, the scaled
`benefit` they are transferred to, and the page-scan counters that decide whether there is anything
to transfer.  All of them are 64-bit words and wrap as in the source.

Each function gets one lemma that says everything a call can do; later proofs use these lemmas and
do not unfold the functions again.
-/

namespace DirtyPages

open Outcome

/-- `U64_MAX`.  Irreducible, so that no unification counts down from it. -/
@[irreducible] def u64Max : UInt64 := 0xFFFFFFFFFFFFFFFF

/-- `CAN_OVERFLOW_U64(x, delta)` -/
abbrev canOverflowU64 (x delta : UInt64) : Prop := u64Max - x < delta

/-- `struct uksm_benefit` -/
@[ext] structure Benefit where
  pos : UInt64
  neg : UInt64
  scanned : UInt64
  base : UInt64
  deriving DecidableEq, Repr

/-- The counters of Section 4 that the benefit tracking reads and writes. -/
@[ext] structure Counters where
  rshashPos : UInt64
  rshashNeg : UInt64
  benefit : Benefit
  uksmPagesScanned : UInt64
  uksmPagesScannedLast : UInt64
  pagesScannedStored : UInt64
  pagesScannedBase : UInt64
  deriving DecidableEq, Repr

/-- Static initialisation: every counter starts at zero. -/
def initialCounters : Counters := ⟨0, 0, ⟨0, 0, 0, 0⟩, 0, 0, 0, 0⟩

/-- The three halvings and `benefit.base++`. -/
def Benefit.halve (b : Benefit) : Benefit := ⟨b.pos >>> 1, b.neg >>> 1, b.scanned >>> 1, b.base + 1⟩

/-- The three additions. -/
def Benefit.add (b : Benefit) (posDelta negDelta scannedDelta : UInt64) : Benefit :=
  { b with pos := b.pos + posDelta, neg := b.neg + negDelta, scanned := b.scanned + scannedDelta }

/-- The benefit that `encode_benefit` stores when pages were scanned since the last encoding. -/
def encodedBenefit (c : Counters) : Benefit :=
  let base := c.benefit.base
  let scannedDelta := (c.uksmPagesScanned - c.uksmPagesScannedLast) >>> base
  let posDelta := c.rshashPos >>> base
  let negDelta := c.rshashNeg >>> base
  if canOverflowU64 c.benefit.pos posDelta ∨ canOverflowU64 c.benefit.neg negDelta ∨
      canOverflowU64 c.benefit.scanned scannedDelta then
    c.benefit.halve.add (posDelta >>> 1) (negDelta >>> 1) (scannedDelta >>> 1)
  else
    c.benefit.add posDelta negDelta scannedDelta

/-- `encode_benefit` -/
def encodeBenefit (c : Counters) : Except Fault (Bool × Counters) :=
  if c.uksmPagesScanned - c.uksmPagesScannedLast = 0 then
    .ok (false, c)
  else
    let benefit := encodedBenefit c
    if benefit.scanned = 0 then
      .error .bugOnScanned
    else
      .ok (true, { c with
        benefit := benefit
        rshashPos := 0
        rshashNeg := 0
        uksmPagesScannedLast := c.uksmPagesScanned })

/-- `reset_benefit` -/
def resetBenefit (c : Counters) : Counters := { c with benefit := ⟨0, 0, 0, 0⟩ }

/-- `if (CAN_OVERFLOW_U64(counter, delta)) encode_benefit();` -/
def encodeIfOverflow (counter delta : UInt64) (c : Counters) : Except Fault Counters :=
  if canOverflowU64 counter delta then Prod.snd <$> encodeBenefit c else .ok c

/-- The two running counters of work. -/
inductive Running
  | pos
  | neg
  deriving DecidableEq, Repr

/-- The value of a running counter. -/
def Counters.running (c : Counters) : Running → UInt64
  | .pos => c.rshashPos
  | .neg => c.rshashNeg

/-- `counter += delta;` -/
def Counters.addRunning (c : Counters) (delta : UInt64) : Running → Counters
  | .pos => { c with rshashPos := c.rshashPos + delta }
  | .neg => { c with rshashNeg := c.rshashNeg + delta }

/-- The common text of `inc_rshash_pos` and `inc_rshash_neg`. -/
def incRshash (which : Running) (delta : UInt64) (c : Counters) : Except Fault Counters := do
  let c ← encodeIfOverflow (c.running which) delta c
  return c.addRunning delta which

/-- `inc_rshash_pos` -/
def incRshashPos (delta : UInt64) (c : Counters) : Except Fault Counters := incRshash .pos delta c

/-- `inc_rshash_neg` -/
def incRshashNeg (delta : UInt64) (c : Counters) : Except Fault Counters := incRshash .neg delta c

/-- The high-order part of `uksm_pages_scanned` moves to `pages_scanned_stored`, both restart. -/
def storePagesScanned (c : Counters) : Counters :=
  let delta := c.uksmPagesScanned >>> c.pagesScannedBase
  if canOverflowU64 c.pagesScannedStored delta then
    { c with
      pagesScannedStored := (c.pagesScannedStored >>> 1) + (delta >>> 1)
      pagesScannedBase := c.pagesScannedBase + 1
      uksmPagesScanned := 0
      uksmPagesScannedLast := 0 }
  else
    { c with
      pagesScannedStored := c.pagesScannedStored + delta
      uksmPagesScanned := 0
      uksmPagesScannedLast := 0 }

/-- `inc_uksm_pages_scanned` -/
def incUksmPagesScanned (c : Counters) : Except Fault Counters := do
  let c ← (if c.uksmPagesScanned = u64Max then
      (fun p => storePagesScanned p.2) <$> encodeBenefit c
    else
      .ok c)
  return { c with uksmPagesScanned := c.uksmPagesScanned + 1 }

/-! ### What one call can do -/

theorem toNat_u64Max : u64Max.toNat = 2 ^ 64 - 1 := by
  rw [u64Max]
  rfl

/-- The guard is exact: it fires when the sum does not fit 64 bits. -/
theorem canOverflowU64_iff (x delta : UInt64) :
    canOverflowU64 x delta ↔ 2 ^ 64 ≤ x.toNat + delta.toNat := by
  have hx := x.toNat_lt
  have hle : x ≤ u64Max := by
    rw [UInt64.le_iff_toNat_le, toNat_u64Max]
    omega
  rw [canOverflowU64, UInt64.lt_iff_toNat_lt, UInt64.toNat_sub_of_le _ _ hle, toNat_u64Max]
  omega

/-- An addition that the guard lets through is exact. -/
theorem toNat_add_of_not_canOverflow {x delta : UInt64} (h : ¬canOverflowU64 x delta) :
    (x + delta).toNat = x.toNat + delta.toNat := by
  rw [canOverflowU64_iff] at h
  rw [UInt64.toNat_add]
  omega

/-- An addition that the guard flags wraps below what was added. -/
theorem not_le_add_of_canOverflow {x delta : UInt64} (h : canOverflowU64 x delta) :
    ¬delta ≤ x + delta := by
  rw [canOverflowU64_iff] at h
  rw [UInt64.le_iff_toNat_le, UInt64.toNat_add]
  have hx := x.toNat_lt
  have hd := delta.toNat_lt
  omega

/-- Nothing was scanned since the last encoding. -/
theorem scanned_sub_eq_zero (c : Counters) :
    c.uksmPagesScanned - c.uksmPagesScannedLast = 0 ↔
      c.uksmPagesScanned = c.uksmPagesScannedLast := by
  rw [UInt64.sub_eq_iff_eq_add, UInt64.zero_add]

/-- The state after an effective transfer that stored the benefit `b`. -/
def Counters.transferred (c : Counters) (b : Benefit) : Counters :=
  { c with
    benefit := b
    rshashPos := 0
    rshashNeg := 0
    uksmPagesScannedLast := c.uksmPagesScanned }

/-- A call of `encode_benefit` returns 0 and does nothing, or transfers the running counters.  The
stored benefit is kept as a variable, so that nothing evaluates it. -/
theorem encodeBenefit_eq_ok {c c' : Counters} {r : Bool} :
    encodeBenefit c = .ok (r, c') ↔
      (r = false ∧ c.uksmPagesScanned = c.uksmPagesScannedLast ∧ c' = c) ∨
      (r = true ∧ c.uksmPagesScanned ≠ c.uksmPagesScannedLast ∧
        ∃ b, b = encodedBenefit c ∧ b.scanned ≠ 0 ∧ c' = c.transferred b) := by
  simp only [encodeBenefit, scanned_sub_eq_zero]
  split_ifs with h1 h2
  · simp [h1, eq_comm]
  · simp [h1, h2]
  · simp [h1, h2, Counters.transferred, eq_comm]

/-- The only way `encode_benefit` stops is its own assertion. -/
theorem encodeBenefit_eq_error {c : Counters} {f : Fault} :
    encodeBenefit c = .error f ↔
      f = .bugOnScanned ∧ c.uksmPagesScanned ≠ c.uksmPagesScannedLast ∧
        (encodedBenefit c).scanned = 0 := by
  simp only [encodeBenefit, scanned_sub_eq_zero]
  split_ifs with h1 h2
  · simp [h1]
  · simp [h1, h2, eq_comm]
  · simp [h1, h2]

/-- After an effective encoding the benefit counts at least one page. -/
theorem encodeBenefit_scanned_ne_zero {c c' : Counters} (h : encodeBenefit c = .ok (true, c')) :
    c'.benefit.scanned ≠ 0 := by
  rcases encodeBenefit_eq_ok.mp h with ⟨hr, _⟩ | ⟨_, _, b, _, hs, rfl⟩
  · cases hr
  · exact hs

@[simp] theorem storePagesScanned_benefit (c : Counters) :
    (storePagesScanned c).benefit = c.benefit := by
  simp only [storePagesScanned]
  split_ifs <;> rfl

@[simp] theorem storePagesScanned_running (c : Counters) (which : Running) :
    (storePagesScanned c).running which = c.running which := by
  simp only [storePagesScanned]
  split_ifs <;> rfl

/-- The guard returns the state itself, or the state after `encode_benefit`. -/
theorem encodeIfOverflow_eq_ok {x d : UInt64} {c c' : Counters} :
    encodeIfOverflow x d c = .ok c' ↔
      (¬canOverflowU64 x d ∧ c' = c) ∨
      (canOverflowU64 x d ∧ ∃ r, encodeBenefit c = .ok (r, c')) := by
  rw [encodeIfOverflow]
  split_ifs with h
  · cases he : encodeBenefit c with
    | error f => simp [h]
    | ok p => simp [h, Prod.ext_iff]
  · simp [h, eq_comm]

@[simp] theorem addRunning_benefit (c : Counters) (d : UInt64) (which : Running) :
    (c.addRunning d which).benefit = c.benefit := by
  cases which <;> rfl

@[simp] theorem addRunning_running (c : Counters) (d : UInt64) (which : Running) :
    (c.addRunning d which).running which = c.running which + d := by
  cases which <;> rfl

/-- An increment guards its counter and then adds to it. -/
theorem incRshash_eq_ok {which : Running} {d : UInt64} {c c' : Counters} :
    incRshash which d c = .ok c' ↔
      ∃ c₁, encodeIfOverflow (c.running which) d c = .ok c₁ ∧ c' = c₁.addRunning d which := by
  rw [incRshash, bind_eq_ok]
  simp [pure, Except.pure, eq_comm]

/-- A charge that fits its counter adds exactly. -/
theorem incRshashNeg_of_fits (d : UInt64) (c : Counters)
    (h : c.rshashNeg.toNat + d.toNat < 2 ^ 64) :
    ∃ c', incRshashNeg d c = .ok c' ∧ c'.rshashNeg.toNat = c.rshashNeg.toNat + d.toNat := by
  have hfit : ¬canOverflowU64 c.rshashNeg d := by
    rw [canOverflowU64_iff]
    omega
  have hguard : encodeIfOverflow c.rshashNeg d c = .ok c :=
    encodeIfOverflow_eq_ok.mpr (Or.inl ⟨hfit, rfl⟩)
  exact ⟨_, incRshash_eq_ok.mpr ⟨c, hguard, rfl⟩, toNat_add_of_not_canOverflow hfit⟩

/-- A call of `inc_uksm_pages_scanned` stores the counter away when it is full, then counts. -/
theorem incUksmPagesScanned_eq_ok {c c' : Counters} :
    incUksmPagesScanned c = .ok c' ↔
      (c.uksmPagesScanned ≠ u64Max ∧
        c' = { c with uksmPagesScanned := c.uksmPagesScanned + 1 }) ∨
      (c.uksmPagesScanned = u64Max ∧ ∃ r c₁ s, encodeBenefit c = .ok (r, c₁) ∧
        s = storePagesScanned c₁ ∧ c' = { s with uksmPagesScanned := s.uksmPagesScanned + 1 }) := by
  rw [incUksmPagesScanned, bind_eq_ok]
  split_ifs with h
  · cases he : encodeBenefit c with
    | error f => simp [h]
    | ok p =>
      obtain ⟨_ | _, c₁⟩ := p <;> simp [h, pure, Except.pure, eq_comm]
  · simp [h, pure, Except.pure, eq_comm]

/-! ### When a call returns -/

/-- The assertion of `encode_benefit` is the only way in which an increment stops. -/
def OnlyBugOnScanned (f : Fault) : Prop := f = .bugOnScanned

theorem encodeIfOverflow_meets (x d : UInt64) (c : Counters) :
    Meets OnlyBugOnScanned (fun _ => True) (encodeIfOverflow x d c) := by
  rw [encodeIfOverflow]
  split_ifs
  · cases he : encodeBenefit c with
    | error f => exact (encodeBenefit_eq_error.mp he).1
    | ok p => exact True.intro
  · exact True.intro

theorem incRshash_meets (which : Running) (d : UInt64) (c : Counters) :
    Meets OnlyBugOnScanned (fun _ => True) (incRshash which d c) := by
  rw [incRshash]
  refine (encodeIfOverflow_meets _ _ c).bind ?_
  intro c' _
  exact meets_pure.mpr True.intro

theorem incUksmPagesScanned_meets (c : Counters) :
    Meets OnlyBugOnScanned (fun _ => True) (incUksmPagesScanned c) := by
  rw [incUksmPagesScanned]
  refine Meets.bind (?_ : Meets OnlyBugOnScanned (fun _ => True) _) ?_
  · split_ifs
    · cases he : encodeBenefit c with
      | error f => exact (encodeBenefit_eq_error.mp he).1
      | ok p => exact True.intro
    · exact True.intro
  · intro c' _
    exact meets_pure.mpr True.intro

end DirtyPages
