import DirtyPages.PageHash

/-!
# Collision or change

What `check_collision` tells about a page.  For a page that kept its content the answer is always
"collision", whatever strengths the cached and the current hash were computed at.  For a page whose
content changed the answer rests on the hash that the caller passes in: the full-strength hash is
not recomputed but extended from that partial hash, over the current words of the page.  So the
answer is right as long as the partial hash is still the hash of the page.
-/

namespace DirtyPages

open Outcome

variable (randomNums : RandomNums)

/-- The sampled hash of a page at a strength, as the callers of Section 12 pass it. -/
def sampleHash (page : Page) (hashStrength : UInt64) : UInt32 :=
  (randomSampleHash randomNums page hashStrength.toNat).hash

/-! ### A page that keeps its content -/

/-- One call of `rmap_item_hash_max` for the item of a page: the strength at that time, and the
counters it met. -/
structure CacheCall where
  hashStrength : UInt64
  counters : Counters

/-- The item after a call with the hash of the page at the strength of the call. -/
def cacheStep (page : Page) (item : RmapItem) (call : CacheCall) : Except Fault RmapItem := do
  let (_, item, _) ← rmapItemHashMax randomNums call.hashStrength page item
    (sampleHash randomNums page call.hashStrength) call.counters
  return item

/-- The item of a page after any number of calls at any strengths, from an empty cache. -/
def cacheRun (page : Page) (calls : List CacheCall) : Except Fault RmapItem :=
  calls.foldlM (cacheStep randomNums page) ⟨0⟩

/-- The cached hash is absent, or it is the full-strength hash of the page. -/
def CacheValid (page : Page) (item : RmapItem) : Prop :=
  item.hashMax = 0 ∨ item.hashMax = fullHash randomNums page

variable {randomNums}

theorem cacheStep_valid (page : Page) (item : RmapItem) (call : CacheCall)
    (hitem : CacheValid randomNums page item) :
    Meets OnlyBugOnScanned (CacheValid randomNums page) (cacheStep randomNums page item call) := by
  rw [cacheStep]
  cases hrun : rmapItemHashMax randomNums call.hashStrength page item
      (sampleHash randomNums page call.hashStrength) call.counters with
  | error f => exact (rmapItemHashMax_meets item _ _).of_error hrun
  | ok r =>
    obtain ⟨v, item', c'⟩ := r
    have hcache := (rmapItemHashMax_eq_ok hrun).2
    show CacheValid randomNums page item'
    by_cases hzero : item.hashMax = 0
    · rw [if_pos hzero, sampleHash, nonzeroHash_deltaHash] at hcache
      exact Or.inr hcache
    · rw [if_neg hzero] at hcache
      exact Or.inr (hcache.trans (hitem.resolve_left hzero))

/-- The cached hash never goes stale while the page keeps its content. -/
theorem cacheRun_valid (page : Page) (calls : List CacheCall) :
    Meets OnlyBugOnScanned (CacheValid randomNums page) (cacheRun randomNums page calls) :=
  Meets.foldlM (fun item call hitem => cacheStep_valid page item call hitem) calls ⟨0⟩ (Or.inl rfl)

theorem checkCollision_of_valid {page : Page} {item : RmapItem} (s memcmpCost : UInt64)
    (c : Counters) (hitem : CacheValid randomNums page item) :
    Meets OnlyBugOnScanned (fun r => r.1 = .colli)
      (checkCollision randomNums s memcmpCost page item (sampleHash randomNums page s) c) := by
  cases hrun :
      checkCollision randomNums s memcmpCost page item (sampleHash randomNums page s) c with
  | error f => exact (checkCollision_meets item _ c).of_error hrun
  | ok r =>
    obtain ⟨err, c'⟩ := r
    have herr := checkCollision_eq_ok hrun
    show err = .colli
    by_cases hzero : item.hashMax = 0
    · rw [if_neg (not_not.mpr hzero), sampleHash, if_pos rfl] at herr
      exact herr
    · have hfull := hitem.resolve_left hzero
      rw [if_pos hzero, sampleHash, nonzeroHash_deltaHash, if_pos hfull] at herr
      exact herr

/-- An unchanged page is never reported as changed.  However often and at whatever strengths its
full-strength hash was asked for, the cached hash is the hash of the page or absent; any later
computation of it gives the same value; and `check_collision` at any later strength answers
"collision".  Only the assertion of `encode_benefit` can keep it from answering, and not even that
when `rshash_neg` is away from its limit. -/
theorem checkCollision_unchanged (page : Page) (calls : List CacheCall) :
    Meets OnlyBugOnScanned
      (fun item => CacheValid randomNums page item ∧
        (∀ s c, Meets OnlyBugOnScanned (fun r => r.1 = fullHash randomNums page)
          (pageHashMax randomNums s page (sampleHash randomNums page s) c)) ∧
        ∀ s memcmpCost c,
          Meets OnlyBugOnScanned (fun r => r.1 = .colli)
            (checkCollision randomNums s memcmpCost page item (sampleHash randomNums page s) c) ∧
          (s.toNat ≤ hashStrengthMax →
            c.rshashNeg.toNat + memcmpCost.toNat + 2 * hashStrengthMax < 2 ^ 64 →
            ∃ c', checkCollision randomNums s memcmpCost page item
              (sampleHash randomNums page s) c = .ok (.colli, c')))
      (cacheRun randomNums page calls) := by
  refine (cacheRun_valid page calls).imp ?_
  intro item hitem
  refine ⟨hitem, ?_, ?_⟩
  · intro s c
    cases hrun : pageHashMax randomNums s page (sampleHash randomNums page s) c with
    | error f => exact (pageHashMax_meets _ c).of_error hrun
    | ok r =>
      obtain ⟨v, c'⟩ := r
      have hv := (pageHashMax_eq_ok.mp hrun).1
      rw [sampleHash, nonzeroHash_deltaHash] at hv
      exact hv
  · intro s memcmpCost c
    have hcolli := checkCollision_of_valid s memcmpCost c hitem
    refine ⟨hcolli, ?_⟩
    intro hs hfits
    obtain ⟨err, c', hrun, _⟩ :=
      checkCollision_charge page item (sampleHash randomNums page s) hs hfits
    have herr : err = .colli := hcolli.of_ok hrun
    exact ⟨c', by rw [hrun, herr]⟩

/-! ### A page whose content changed -/

/-- The hashes that a cached full-strength hash stands for: 1 is also stored for 0. -/
def cachedFor (hashMax : UInt32) : List UInt32 := if hashMax = 1 then [0, 1] else [hashMax]

theorem mem_cachedFor {v hashMax : UInt32} (hmax : hashMax ≠ 0) :
    v ∈ cachedFor hashMax ↔ nonzeroHash v = hashMax := by
  rw [cachedFor, nonzeroHash]
  by_cases hone : hashMax = 1
  · rw [if_pos hone, hone]
    by_cases hv : v = 0
    · simp [hv]
    · simp [hv]
  · rw [if_neg hone, List.mem_singleton]
    by_cases hv : v = 0
    · rw [if_pos hv, hv]
      exact ⟨fun h => absurd h.symm hmax, fun h => absurd h.symm hone⟩
    · rw [if_neg hv]

/-- Two hashes are stored alike when they are equal, or when one of them is 0 and the other 1. -/
theorem nonzeroHash_eq_iff {v w : UInt32} :
    nonzeroHash v = nonzeroHash w ↔ v = w ∨ (v = 0 ∧ w = 1) ∨ (v = 1 ∧ w = 0) := by
  rw [nonzeroHash, nonzeroHash]
  by_cases hv : v = 0
  · by_cases hw : w = 0
    · simp [hv, hw]
    · simp [hv, hw, eq_comm]
  · by_cases hw : w = 0
    · simp [hv, hw]
    · simp [hv, hw]

/-- Whether the verdict is the one that the full-strength hashes call for. -/
theorem verdict_eq_iff {cached computed current : UInt32} :
    ((if cached = computed then MergeErr.colli else .changed) =
        if current ≠ cached then .changed else .colli) ↔
      (cached = computed ↔ current = cached) := by
  by_cases hext : cached = computed
  · by_cases hfull : current = cached
    · simp [hext, hfull]
    · simp [← hext, hfull]
  · by_cases hfull : current = cached
    · simp [hext, hfull]
    · simp [hext, hfull]

section Changed

variable {s memcmpCost : UInt64} {old new : Page} {item : RmapItem} {c c' : Counters}
  {err : MergeErr}

/-- The verdict for an item whose hash was cached while its page held `old`. -/
theorem checkCollision_of_cached (hitem : item.hashMax = fullHash randomNums old)
    (hrun : checkCollision randomNums s memcmpCost new item (sampleHash randomNums old s) c =
      .ok (err, c')) :
    err = if item.hashMax = nonzeroHash (deltaHash randomNums new s.toNat hashStrengthMax
      (sampleHash randomNums old s)).hash then .colli else .changed := by
  have hne : item.hashMax ≠ 0 := by
    rw [hitem]
    exact fullHash_ne_zero
  rw [checkCollision_eq_ok hrun, if_pos hne]

/-- What the call computes is the full-strength hash of the page when the sampled hashes agree. -/
theorem extension_of_same_sample
    (hsame : sampleHash randomNums old s = sampleHash randomNums new s) :
    nonzeroHash (deltaHash randomNums new s.toNat hashStrengthMax
      (sampleHash randomNums old s)).hash = fullHash randomNums new := by
  rw [hsame, sampleHash, nonzeroHash_deltaHash]

/-- When they differ it is not, but for the value that is stored for 0 and for 1. -/
theorem extension_ne_of_sample_ne
    (hdiff : sampleHash randomNums old s ≠ sampleHash randomNums new s)
    (hone : fullHash randomNums new ≠ 1) :
    nonzeroHash (deltaHash randomNums new s.toNat hashStrengthMax
      (sampleHash randomNums old s)).hash ≠ fullHash randomNums new := by
  rw [← nonzeroHash_deltaHash s.toNat, ← sampleHash] at hone ⊢
  rw [Ne, nonzeroHash_eq_iff]
  rintro (heq | ⟨_, heq⟩ | ⟨_, heq⟩)
  · exact hdiff ((deltaHash_bijective randomNums new s.toNat hashStrengthMax).injective heq)
  · exact hone (by rw [heq]; rfl)
  · exact hone (by rw [heq]; rfl)

/-- The words that the extension reads are unchanged. -/
def SameExtension (randomNums : RandomNums) (s : UInt64) (old new : Page) : Prop :=
  ∀ i, s.toNat ≤ i → i < hashStrengthMax →
    sampledWord randomNums old (tableIndex i) = sampledWord randomNums new (tableIndex i)

/-- Then the call computes the cached hash again, whatever else has changed. -/
theorem extension_of_sameExtension (hs : s.toNat ≤ hashStrengthMax)
    (hwords : SameExtension randomNums s old new) :
    nonzeroHash (deltaHash randomNums new s.toNat hashStrengthMax
      (sampleHash randomNums old s)).hash = fullHash randomNums old := by
  rw [← deltaHash_congr randomNums hs hwords, sampleHash, nonzeroHash_deltaHash]

/-- And the two contents have the same hash at full strength exactly when they have at `s`. -/
theorem randomSampleHash_eq_iff (hs : s.toNat ≤ hashStrengthMax)
    (hwords : SameExtension randomNums s old new) :
    (randomSampleHash randomNums new hashStrengthMax).hash =
        (randomSampleHash randomNums old hashStrengthMax).hash ↔
      sampleHash randomNums old s = sampleHash randomNums new s := by
  rw [← deltaHash_of_sample randomNums new s.toNat, ← deltaHash_of_sample randomNums old s.toNat,
    ← deltaHash_congr randomNums hs hwords,
    (deltaHash_bijective randomNums old s.toNat hashStrengthMax).injective.eq_iff, sampleHash,
    sampleHash, eq_comm]

end Changed

/-- When `check_collision` gives the verdict of the full-strength hashes.  The item was cached while
its page held `old`, and the page holds `new` when it is checked with the hash of `old`.  Equal
sampled hashes are enough.  When they differ the call extends a stale hash: "collision" is then the
wrong answer unless the cached hash is 1, which is stored for 0 as well; and it is the answer
whenever the words beyond the strength are unchanged, right only when the hash went from 0 to 1 or
back. -/
theorem checkCollision_full_strength (randomNums : RandomNums) (s memcmpCost : UInt64)
    (old new : Page) (item : RmapItem) (hashMax : UInt32) (c₀ c₁ c c' : Counters) (err : MergeErr)
    (hcached : rmapItemHashMax randomNums s old ⟨0⟩ (sampleHash randomNums old s) c₀ =
      .ok (hashMax, item, c₁))
    (hrun : checkCollision randomNums s memcmpCost new item (sampleHash randomNums old s) c =
      .ok (err, c')) :
    (sampleHash randomNums old s = sampleHash randomNums new s →
      err = if fullHash randomNums new ≠ item.hashMax then .changed else .colli) ∧
    (err = .colli → item.hashMax ≠ 1 →
      (fullHash randomNums new = item.hashMax ↔
        sampleHash randomNums old s = sampleHash randomNums new s)) ∧
    (s.toNat ≤ hashStrengthMax → SameExtension randomNums s old new →
      ((err = if fullHash randomNums new ≠ item.hashMax then .changed else .colli) ↔
        sampleHash randomNums old s = sampleHash randomNums new s ∨
        ((randomSampleHash randomNums new hashStrengthMax).hash = 0 ∧
          (randomSampleHash randomNums old hashStrengthMax).hash = 1) ∨
        ((randomSampleHash randomNums new hashStrengthMax).hash = 1 ∧
          (randomSampleHash randomNums old hashStrengthMax).hash = 0))) := by
  have hitem : item.hashMax = fullHash randomNums old := by
    have hstored := (rmapItemHashMax_eq_ok hcached).2
    rwa [if_pos rfl, sampleHash, nonzeroHash_deltaHash] at hstored
  have herr := checkCollision_of_cached hitem hrun
  refine ⟨?_, ?_, ?_⟩
  · intro hsame
    rw [herr, verdict_eq_iff, extension_of_same_sample hsame]
    exact eq_comm
  · intro hcolli hone
    rw [hcolli] at herr
    have hext : item.hashMax = nonzeroHash (deltaHash randomNums new s.toNat hashStrengthMax
        (sampleHash randomNums old s)).hash := by
      by_contra hne
      rw [if_neg hne] at herr
      exact nomatch herr
    constructor
    · intro hfull
      by_contra hdiff
      have hne := extension_ne_of_sample_ne hdiff (by rwa [hfull])
      exact hne (hext.symm.trans hfull.symm)
    · intro hsame
      rw [hext, extension_of_same_sample hsame]
  · intro hs hwords
    rw [herr, verdict_eq_iff, extension_of_sameExtension hs hwords,
      ← randomSampleHash_eq_iff hs hwords, ← nonzeroHash_eq_iff, hitem]
    exact ⟨fun h => h.mp rfl, fun h => iff_of_true rfl h⟩

/-- The first call for an item caches the full-strength hash of its page. -/
theorem rmapItemHashMax_empty {page : Page} {s : UInt64} {c c' : Counters}
    (h : incRshashNeg (strengthMax - s) c = .ok c') :
    rmapItemHashMax randomNums s page ⟨0⟩ (sampleHash randomNums page s) c =
      .ok (fullHash randomNums page, ⟨fullHash randomNums page⟩, c') := by
  have hmax : pageHashMax randomNums s page (sampleHash randomNums page s) c =
      .ok (fullHash randomNums page, c') := by
    rw [pageHashMax_eq_ok, sampleHash, nonzeroHash_deltaHash]
    exact ⟨rfl, h⟩
  rw [rmapItemHashMax, if_pos rfl, hmax]
  rfl

/-- The page of zeros with one word set. -/
def touchedPage (word : Fin hashStrengthFull) : Page := fun i => if i = word then 1 else 0

/-- A change of word 100, which strength 64 does not sample, is reported as a change. -/
theorem checkCollision_full_strength_unsampled :
    ∃ c', checkCollision id 64 100 (touchedPage 100) ⟨fullHash id 0⟩ (sampleHash id 0 64)
      initialCounters = .ok (.changed, c') := by
  have hcached : rmapItemHashMax id 64 0 ⟨0⟩ (sampleHash id 0 64) initialCounters =
      .ok (fullHash id 0, ⟨fullHash id 0⟩, { initialCounters with rshashNeg := 970 }) :=
    rmapItemHashMax_empty (by decide +kernel)
  obtain ⟨err, c', hrun, _⟩ := checkCollision_charge (touchedPage 100) ⟨fullHash id 0⟩
    (sampleHash id 0 64) (show (64 : UInt64).toNat ≤ hashStrengthMax by decide)
    (show initialCounters.rshashNeg.toNat + (100 : UInt64).toNat + 2 * hashStrengthMax < 2 ^ 64 by
      decide)
  have herr := (checkCollision_full_strength id 64 100 0 (touchedPage 100) _ _ _ _ _ c' err
    hcached hrun).1 (by decide +kernel)
  rw [if_pos (by decide +kernel)] at herr
  exact ⟨c', by rw [hrun, herr]⟩

/-- A change of word 10, which strength 64 samples, is reported as a collision, although the
full-strength hash of the page has changed. -/
theorem checkCollision_misses_change :
    (∃ c₁, rmapItemHashMax id 64 0 ⟨0⟩ (sampleHash id 0 64) initialCounters =
      .ok (fullHash id 0, ⟨fullHash id 0⟩, c₁)) ∧
    (∃ c', checkCollision id 64 100 (touchedPage 10) ⟨fullHash id 0⟩ (sampleHash id 0 64)
      initialCounters = .ok (.colli, c')) ∧
    fullHash id (touchedPage 10) ≠ fullHash id 0 := by
  refine ⟨⟨{ initialCounters with rshashNeg := 970 }, ?_⟩,
    ⟨{ initialCounters with rshashNeg := 2040 }, ?_⟩, ?_⟩
  · exact rmapItemHashMax_empty (by decide +kernel)
  · decide +kernel
  · decide +kernel

end DirtyPages
