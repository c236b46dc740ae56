import DirtyPages.DeltaHash
import DirtyPages.Lib.KeyedFold

/-!
# What a sampled hash sees of a page

A hash of strength `s` is a fold of the mixing step over the words that the first `s` strength
positions select.  It depends on these words only.  The mixing step is reversible in the running
hash and in the word, so a change of one word is seen whenever that word is sampled exactly once;
a word that the loop-back samples a second time may cancel its own change.
-/

namespace DirtyPages

open Function KeyedFold

/-! ### The hash as a fold of the sampled words -/

/-- The table entries that a hash of strength `s` uses, in the order of use. -/
def sampledIndices (s : ℕ) : List ℕ :=
  List.range (min s hashStrengthFull) ++ List.range (s - hashStrengthFull)

section

variable (randomNums : RandomNums) (key : Page)

theorem hashFromTo_map (b : ℕ) (run : HashRun) :
    (hashFromTo randomNums key 0 b run).hash =
      ((List.range b).map (sampledWord randomNums key)).foldl (fun h w => mix w h) run.hash := by
  rw [hashFromTo_hash, List.foldl_map, Nat.sub_zero, List.range_eq_range']

theorem randomSampleHash_foldl (s : ℕ) :
    (randomSampleHash randomNums key s).hash =
      ((sampledIndices s).map (sampledWord randomNums key)).foldl (fun h w => mix w h)
        0xdeadbeef := by
  rw [sampledIndices, List.map_append, List.foldl_append]
  simp only [randomSampleHash]
  by_cases hs : s > hashStrengthFull
  · rw [if_pos hs, if_pos hs, hashFromTo_map, hashFromTo_map, Nat.min_eq_right (le_of_lt hs)]
  · rw [if_neg hs, if_neg hs, hashFromTo_map, Nat.min_eq_left (not_lt.mp hs),
      Nat.sub_eq_zero_of_le (not_lt.mp hs)]
    rfl

end

/-! ### The mixing step is reversible in both arguments -/

theorem mix_eq_mix_zero (word hash : UInt32) : mix word hash = mix 0 (hash + word) := by
  simp only [mix, UInt32.add_zero]

open scoped UInt32.CommRing in
theorem mix_reversible : Reversible fun hash word : UInt32 => mix word hash where
  state word := (mixPerm word).bijective
  input hash := by
    simp only [mix_eq_mix_zero _ hash]
    exact (mixPerm 0).bijective.comp (Equiv.addLeft hash).bijective

/-! ### Which entries are used, and how often -/

variable {randomNums : RandomNums} {s : ℕ}

theorem sampledWord_fin (key : Page) (i : Fin hashStrengthFull) :
    sampledWord randomNums key i = key (randomNums i) := by
  rw [sampledWord, Fin.ofNat_eq_cast, Fin.cast_val_eq_self]

/-- The loop-back uses no entry that the first pass has not used. -/
theorem mem_sampledIndices {j : ℕ} (hs : s ≤ hashStrengthMax) (hj : j ∈ sampledIndices s) :
    j < min s hashStrengthFull := by
  have hfull := hashStrengthFull_eq
  have hmax := hashStrengthMax_eq
  rw [sampledIndices, List.mem_append, List.mem_range, List.mem_range] at hj
  omega

/-- An entry behind the loop-back is used once. -/
theorem count_sampledIndices {i : ℕ} (hlow : s - hashStrengthFull ≤ i)
    (hhigh : i < min s hashStrengthFull) : (sampledIndices s).count i = 1 := by
  have hfirst : (List.range (min s hashStrengthFull)).count i = 1 :=
    List.count_eq_one_of_mem List.nodup_range (List.mem_range.mpr hhigh)
  have hback : (List.range (s - hashStrengthFull)).count i = 0 := by
    rw [List.count_eq_zero, List.mem_range]
    omega
  rw [sampledIndices, List.count_append, hfirst, hback]

/-! ### What is seen and what is not -/

/-- Pages that agree on the sampled words have the same hash. -/
theorem randomSampleHash_congr {p p' : Page} (hs : s ≤ hashStrengthMax)
    (h : ∀ i : Fin hashStrengthFull, i.val < min s hashStrengthFull →
      p (randomNums i) = p' (randomNums i)) :
    (randomSampleHash randomNums p s).hash = (randomSampleHash randomNums p' s).hash := by
  rw [randomSampleHash_foldl, randomSampleHash_foldl]
  refine congrArg (fun words => List.foldl _ _ words) (List.map_congr_left fun j hj => ?_)
  have hj' := mem_sampledIndices hs hj
  have hfull : j < hashStrengthFull := lt_of_lt_of_le hj' (Nat.min_le_right _ _)
  rw [← Fin.val_mk hfull, sampledWord_fin, sampledWord_fin]
  exact h ⟨j, hfull⟩ hj'

/-- A change of one word that is sampled once is seen. -/
theorem randomSampleHash_ne {p p' : Page} (hperm : Injective randomNums)
    (hs : s ≤ hashStrengthMax) (i : Fin hashStrengthFull) (hlow : s - hashStrengthFull ≤ i.val)
    (hhigh : i.val < min s hashStrengthFull) (hdiff : ∀ w, p w = p' w ↔ w ≠ randomNums i) :
    (randomSampleHash randomNums p s).hash ≠ (randomSampleHash randomNums p' s).hash := by
  rw [randomSampleHash_foldl, randomSampleHash_foldl]
  refine mix_reversible.foldl_ne (count_sampledIndices hlow hhigh) ?_ ?_ _
  · intro j hj hji
    have hfull : j < hashStrengthFull :=
      lt_of_lt_of_le (mem_sampledIndices hs hj) (Nat.min_le_right _ _)
    rw [← Fin.val_mk hfull, sampledWord_fin, sampledWord_fin, hdiff]
    intro heq
    exact hji (congrArg Fin.val (hperm heq))
  · rw [sampledWord_fin, sampledWord_fin]
    intro heq
    exact (hdiff _).mp heq rfl

/-- For a permutation `random_nums` and a strength up to the maximum: a hash does not see a change
outside the sampled words, and it does see a change of exactly one word whose position is sampled
exactly once. -/
theorem randomSampleHash_sees (randomNums : RandomNums) (hperm : Bijective randomNums) (s : ℕ)
    (hs : s ≤ hashStrengthMax) (p p' : Page) :
    ((∀ i : Fin hashStrengthFull, i.val < min s hashStrengthFull →
        p (randomNums i) = p' (randomNums i)) →
      (randomSampleHash randomNums p s).hash = (randomSampleHash randomNums p' s).hash) ∧
    ∀ i : Fin hashStrengthFull, s - hashStrengthFull ≤ i.val → i.val < min s hashStrengthFull →
      (∀ w, p w = p' w ↔ w ≠ randomNums i) →
      (randomSampleHash randomNums p s).hash ≠ (randomSampleHash randomNums p' s).hash :=
  ⟨randomSampleHash_congr hs,
    fun i hlow hhigh hdiff => randomSampleHash_ne hperm.injective hs i hlow hhigh hdiff⟩

/-- Two pages that differ in the word 700 only, at a strength that samples it once. -/
theorem randomSampleHash_sees_one_word :
    (randomSampleHash id (fun _ => 0) 1034).hash ≠
      (randomSampleHash id (fun w => if w = 700 then 1 else 0) 1034).hash := by
  refine (randomSampleHash_sees id bijective_id 1034 (by decide) (fun _ => 0)
    (fun w => if w = 700 then 1 else 0)).2 700 (by decide) (by decide) ?_
  intro w
  show (0 : UInt32) = (if w = 700 then 1 else 0) ↔ w ≠ 700
  by_cases hw : w = 700
  · rw [if_pos hw]
    exact ⟨fun h => absurd h (by decide), fun h => absurd hw h⟩
  · rw [if_neg hw]
    exact ⟨fun _ => hw, fun _ => rfl⟩

end DirtyPages
