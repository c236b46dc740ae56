import DirtyPages.BenefitLedger
import DirtyPages.DeltaHash

/-!
# Hashing a page and charging for it

Sections 8 and 12 of `dirtPages.c`: the sampled hash and the full-strength hash of a page, with the
amounts that each of them adds to the benefit counters, and the comparison that tells a changed page
from a hash collision.  The global variables `random_nums`, `hash_strength` and `memcmp_cost` are
parameters; the counters are passed along.

A strength is an `unsigned long` here and an `int` or `u32` in Section 6.  The adaptation keeps it
far below `2 ^ 31`, where the three agree.
-/

namespace DirtyPages

open Outcome

/-- `HASH_STRENGTH_FULL` as it enters 64-bit arithmetic. -/
@[irreducible] def strengthFull : UInt64 := UInt64.ofNat hashStrengthFull

/-- `HASH_STRENGTH_MAX` as it enters 64-bit arithmetic. -/
@[irreducible] def strengthMax : UInt64 := UInt64.ofNat hashStrengthMax

@[simp] theorem toNat_strengthFull : strengthFull.toNat = 1024 := by
  rw [strengthFull]
  rfl

@[simp] theorem toNat_strengthMax : strengthMax.toNat = 1034 := by
  rw [strengthMax]
  rfl

/-- The part of `struct rmap_item` that the unstable tree uses: the cached full-strength hash, 0
when there is none. -/
structure RmapItem where
  hashMax : UInt32
  deriving DecidableEq, Repr

/-- `if (!hash_max) hash_max = 1;` -/
def nonzeroHash (hash : UInt32) : UInt32 := if hash = 0 then 1 else hash

section Calls

variable (randomNums : RandomNums) (hashStrength memcmpCost : UInt64)

/-- `page_hash`; the strength is an argument of its own in the source. -/
def pageHash (page : Page) (hashStrength : UInt64) (costAccounting : Bool) (c : Counters) :
    Except Fault (UInt32 × Counters) := do
  let val := (randomSampleHash randomNums page hashStrength.toNat).hash
  if costAccounting then
    let delta := if hashStrength < strengthFull then strengthFull - hashStrength else 0
    let c ← incRshashPos delta c
    return (val, c)
  else
    return (val, c)

/-- `page_hash_max` -/
def pageHashMax (page : Page) (hashOld : UInt32) (c : Counters) :
    Except Fault (UInt32 × Counters) := do
  let hashMax :=
    nonzeroHash (deltaHash randomNums page hashStrength.toNat hashStrengthMax hashOld).hash
  let c ← incRshashNeg (strengthMax - hashStrength) c
  return (hashMax, c)

/-- `memcmp_pages_with_cost`; the result says whether the two pages differ. -/
def memcmpPagesWithCost (page1 page2 : Page) (costAccounting : Bool) (c : Counters) :
    Except Fault (Bool × Counters) := do
  let ret := decide (page1 ≠ page2)
  if costAccounting then
    let c ← incRshashNeg memcmpCost c
    return (ret, c)
  else
    return (ret, c)

/-- `rmap_item_hash_max`, which also stores the hash in the item. -/
def rmapItemHashMax (page : Page) (item : RmapItem) (hash : UInt32) (c : Counters) :
    Except Fault (UInt32 × RmapItem × Counters) :=
  if item.hashMax = 0 then do
    let (hashMax, c) ← pageHashMax randomNums hashStrength page hash c
    return (hashMax, { item with hashMax := hashMax }, c)
  else
    return (item.hashMax, item, c)

/-- `check_collision`; `page` is what `rmap_item->page` holds during the call. -/
def checkCollision (page : Page) (item : RmapItem) (hash : UInt32) (c : Counters) :
    Except Fault (MergeErr × Counters) :=
  if item.hashMax ≠ 0 then do
    let c ← incRshashNeg memcmpCost c
    let c ← incRshashNeg (strengthMax - hashStrength) c
    let (hashMax, c) ← pageHashMax randomNums hashStrength page hash c
    return (if item.hashMax = hashMax then .colli else .changed, c)
  else do
    let c ← incRshashNeg (memcmpCost + hashStrength) c
    let (val, c) ← pageHash randomNums page hashStrength false c
    return (if val = hash then .colli else .changed, c)

end Calls

/-! ### What a call returns

The counters decide only whether a call returns; what it returns does not depend on them. -/

variable {randomNums : RandomNums} {hashStrength memcmpCost : UInt64} {page : Page}

theorem nonzeroHash_ne_zero (hash : UInt32) : nonzeroHash hash ≠ 0 := by
  rw [nonzeroHash]
  split_ifs with h
  · decide
  · exact h

/-- The hash of the page at `HASH_STRENGTH_MAX`, as `page_hash_max` would store it: what a cached
`hash_max` stands for. -/
def fullHash (randomNums : RandomNums) (page : Page) : UInt32 :=
  nonzeroHash (randomSampleHash randomNums page hashStrengthMax).hash

theorem fullHash_ne_zero : fullHash randomNums page ≠ 0 := nonzeroHash_ne_zero _

/-- Extending a genuine hash of the page, at whatever strength, gives its full-strength hash. -/
theorem nonzeroHash_deltaHash (s : ℕ) :
    nonzeroHash (deltaHash randomNums page s hashStrengthMax
      (randomSampleHash randomNums page s).hash).hash = fullHash randomNums page := by
  rw [deltaHash_of_sample, fullHash]

theorem pageHash_silent (s : UInt64) (c : Counters) :
    pageHash randomNums page s false c =
      .ok ((randomSampleHash randomNums page s.toNat).hash, c) := rfl

theorem pageHashMax_eq_ok {hashOld v : UInt32} {c c' : Counters} :
    pageHashMax randomNums hashStrength page hashOld c = .ok (v, c') ↔
      v = nonzeroHash
        (deltaHash randomNums page hashStrength.toNat hashStrengthMax hashOld).hash ∧
      incRshashNeg (strengthMax - hashStrength) c = .ok c' := by
  rw [pageHashMax]
  cases incRshashNeg (strengthMax - hashStrength) c with
  | error f => simp [bind, Except.bind]
  | ok c₁ => simp [bind, Except.bind, pure, Except.pure, eq_comm]

/-- `rmap_item_hash_max` returns and caches the same value, and keeps what was cached. -/
theorem rmapItemHashMax_eq_ok {item item' : RmapItem} {hash v : UInt32} {c c' : Counters}
    (h : rmapItemHashMax randomNums hashStrength page item hash c = .ok (v, item', c')) :
    v = item'.hashMax ∧
      item'.hashMax = (if item.hashMax = 0 then
        nonzeroHash (deltaHash randomNums page hashStrength.toNat hashStrengthMax hash).hash
      else item.hashMax) := by
  rw [rmapItemHashMax] at h
  split_ifs at h ⊢ with hz
  · obtain ⟨⟨m, c₁⟩, hm, hr⟩ := bind_eq_ok.mp h
    have hv := (pageHashMax_eq_ok.mp hm).1
    cases hr
    exact ⟨rfl, hv⟩
  · cases h
    exact ⟨rfl, rfl⟩

/-- What `check_collision` answers, whenever it returns. -/
theorem checkCollision_eq_ok {item : RmapItem} {hash : UInt32} {c c' : Counters} {err : MergeErr}
    (h : checkCollision randomNums hashStrength memcmpCost page item hash c = .ok (err, c')) :
    err = if item.hashMax ≠ 0 then
        (if item.hashMax = nonzeroHash
          (deltaHash randomNums page hashStrength.toNat hashStrengthMax hash).hash
        then .colli else .changed)
      else
        (if (randomSampleHash randomNums page hashStrength.toNat).hash = hash
        then .colli else .changed) := by
  rw [checkCollision] at h
  split_ifs at h with hcached
  · obtain ⟨c₁, _, h⟩ := bind_eq_ok.mp h
    obtain ⟨c₂, _, h⟩ := bind_eq_ok.mp h
    obtain ⟨⟨m, c₃⟩, hm, h⟩ := bind_eq_ok.mp h
    have hv := (pageHashMax_eq_ok.mp hm).1
    cases h
    rw [if_pos hcached, hv]
  · obtain ⟨c₁, _, h⟩ := bind_eq_ok.mp h
    obtain ⟨⟨v, c₂⟩, hv, h⟩ := bind_eq_ok.mp h
    rw [pageHash_silent] at hv
    cases hv
    cases h
    rw [if_neg hcached]

/-! ### When a call returns -/

/-- No page was scanned since the last transfer, as after every `rshash_adjust` transfer. -/
def Counters.Quiet (c : Counters) : Prop := c.uksmPagesScanned = c.uksmPagesScannedLast

/-- While the counters are quiet an increment transfers nothing and cannot stop. -/
theorem incRshashNeg_of_quiet (d : UInt64) {c : Counters} (hq : c.Quiet) :
    ∃ c', incRshashNeg d c = .ok c' ∧ c'.Quiet := by
  have hidle : encodeBenefit c = .ok (false, c) := encodeBenefit_eq_ok.mpr (Or.inl ⟨rfl, hq, rfl⟩)
  have hguard : encodeIfOverflow c.rshashNeg d c = .ok c := by
    rw [encodeIfOverflow_eq_ok]
    by_cases hover : canOverflowU64 c.rshashNeg d
    · exact Or.inr ⟨hover, false, hidle⟩
    · exact Or.inl ⟨hover, rfl⟩
  exact ⟨_, incRshash_eq_ok.mpr ⟨c, hguard, rfl⟩, hq⟩

theorem pageHash_meets (s : UInt64) (acc : Bool) (c : Counters) :
    Meets OnlyBugOnScanned (fun p => Counted c p.2) (pageHash randomNums page s acc c) := by
  rw [pageHash]
  by_cases hacc : acc = true
  · rw [if_pos hacc]
    refine (incRshash_counted .pos _ c).bind ?_
    intro c' hc'
    exact meets_pure.mpr hc'
  · rw [if_neg hacc]
    exact meets_pure.mpr (Reaches.refl _ c)

theorem pageHashMax_meets (hashOld : UInt32) (c : Counters) :
    Meets OnlyBugOnScanned (fun p => Counted c p.2)
      (pageHashMax randomNums hashStrength page hashOld c) := by
  rw [pageHashMax]
  refine (incRshash_counted .neg _ c).bind ?_
  intro c' hc'
  exact meets_pure.mpr hc'

theorem memcmpPagesWithCost_meets (page1 page2 : Page) (acc : Bool) (c : Counters) :
    Meets OnlyBugOnScanned (fun p => Counted c p.2)
      (memcmpPagesWithCost memcmpCost page1 page2 acc c) := by
  rw [memcmpPagesWithCost]
  by_cases hacc : acc = true
  · rw [if_pos hacc]
    refine (incRshash_counted .neg _ c).bind ?_
    intro c' hc'
    exact meets_pure.mpr hc'
  · rw [if_neg hacc]
    exact meets_pure.mpr (Reaches.refl _ c)

theorem rmapItemHashMax_meets (item : RmapItem) (hash : UInt32) (c : Counters) :
    Meets OnlyBugOnScanned (fun p => Counted c p.2.2)
      (rmapItemHashMax randomNums hashStrength page item hash c) := by
  rw [rmapItemHashMax]
  by_cases hzero : item.hashMax = 0
  · rw [if_pos hzero]
    refine (pageHashMax_meets hash c).bind ?_
    intro p hp
    exact meets_pure.mpr hp
  · rw [if_neg hzero]
    exact meets_pure.mpr (Reaches.refl _ c)

theorem checkCollision_meets (item : RmapItem) (hash : UInt32) (c : Counters) :
    Meets OnlyBugOnScanned (fun p => Counted c p.2)
      (checkCollision randomNums hashStrength memcmpCost page item hash c) := by
  rw [checkCollision]
  by_cases hcached : item.hashMax ≠ 0
  · rw [if_pos hcached]
    refine (incRshash_counted .neg _ c).bind ?_
    intro c₁ h₁
    refine (incRshash_counted .neg _ c₁).bind ?_
    intro c₂ h₂
    refine (pageHashMax_meets hash c₂).bind ?_
    intro p hp
    exact meets_pure.mpr ((h₁.trans h₂).trans hp)
  · rw [if_neg hcached]
    refine (incRshash_counted .neg _ c).bind ?_
    intro c₁ h₁
    refine (pageHash_meets _ false c₁).bind ?_
    intro p hp
    exact meets_pure.mpr (h₁.trans hp)

/-! ### What a call charges

Away from the overflow of `rshash_neg` nothing is transferred, and a charge is a sum of amounts. -/

theorem toNat_strengthMax_sub {s : UInt64} (hs : s.toNat ≤ hashStrengthMax) :
    (strengthMax - s).toNat = hashStrengthMax - s.toNat := by
  have hle : s ≤ strengthMax := by
    rw [UInt64.le_iff_toNat_le, toNat_strengthMax]
    exact hs
  rw [UInt64.toNat_sub_of_le _ _ hle, toNat_strengthMax, hashStrengthMax_eq]

theorem pageHashMax_charge (page : Page) (hashOld : UInt32) {s : UInt64} {c : Counters}
    (hs : s.toNat ≤ hashStrengthMax) (hfits : c.rshashNeg.toNat + hashStrengthMax < 2 ^ 64) :
    ∃ v c', pageHashMax randomNums s page hashOld c = .ok (v, c') ∧
      c'.rshashNeg.toNat = c.rshashNeg.toNat + (hashStrengthMax - s.toNat) := by
  have hext := toNat_strengthMax_sub hs
  obtain ⟨c', hrun, hneg⟩ := incRshashNeg_of_fits (strengthMax - s) c (by omega)
  exact ⟨_, c', pageHashMax_eq_ok.mpr ⟨rfl, hrun⟩, hneg.trans (by rw [hext])⟩

/-- With a cached full-strength hash the extension to the full strength is charged by
`check_collision` and once more by `page_hash_max`. -/
theorem checkCollision_charge (page : Page) (item : RmapItem) (hash : UInt32)
    {s memcmpCost : UInt64} {c : Counters} (hs : s.toNat ≤ hashStrengthMax)
    (hfits : c.rshashNeg.toNat + memcmpCost.toNat + 2 * hashStrengthMax < 2 ^ 64) :
    ∃ err c', checkCollision randomNums s memcmpCost page item hash c = .ok (err, c') ∧
      c'.rshashNeg.toNat = c.rshashNeg.toNat + memcmpCost.toNat +
        (if item.hashMax ≠ 0 then 2 * (hashStrengthMax - s.toNat) else s.toNat) := by
  have hext := toNat_strengthMax_sub hs
  simp only [hashStrengthMax_eq] at hs hfits hext ⊢
  rw [checkCollision]
  by_cases hcached : item.hashMax ≠ 0
  · obtain ⟨c₁, h1, hneg1⟩ := incRshashNeg_of_fits memcmpCost c (by omega)
    obtain ⟨c₂, h2, hneg2⟩ := incRshashNeg_of_fits (strengthMax - s) c₁ (by omega)
    obtain ⟨v, c₃, h3, hneg3⟩ := pageHashMax_charge page hash hs
      (by rw [hashStrengthMax_eq]; omega : c₂.rshashNeg.toNat + hashStrengthMax < 2 ^ 64)
    rw [if_pos hcached, if_pos hcached]
    refine ⟨_, c₃,
      bind_eq_ok.mpr ⟨c₁, h1, bind_eq_ok.mpr ⟨c₂, h2, bind_eq_ok.mpr ⟨_, h3, rfl⟩⟩⟩, ?_⟩
    rw [hashStrengthMax_eq] at hneg3
    omega
  · have hadd : (memcmpCost + s).toNat = memcmpCost.toNat + s.toNat := by
      rw [UInt64.toNat_add]
      omega
    obtain ⟨c₁, h1, hneg1⟩ := incRshashNeg_of_fits (memcmpCost + s) c (by omega)
    rw [if_neg hcached, if_neg hcached]
    refine ⟨_, c₁, bind_eq_ok.mpr ⟨c₁, h1, bind_eq_ok.mpr ⟨_, pageHash_silent s c₁, rfl⟩⟩, ?_⟩
    omega

end DirtyPages
