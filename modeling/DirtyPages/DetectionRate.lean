import DirtyPages.BlindSpot
import DirtyPages.RandomNums
import DirtyPages.Lib.ShuffleCount

/-!
# How often a change is seen

`init_random_sampling` draws the table by which the hashes sample a page.  Of all its draws, counted
exactly, some sample none of the words of a change, and then the change is not seen.  A change of
one word is seen by all others; of the new contents of several words each of the others misses one
in 2^32.
-/

namespace DirtyPages

open Function Shuffle Equidistribution Nat

variable {s : ℕ} {draws : List ℕ} {D : Finset (Fin hashStrengthFull)}

/-! ### The table of a draw vector -/

/-- The table that the draws leave, as the hashes read it. -/
def drawnTable (draws : List ℕ) : RandomNums :=
  tableEntries (shuffle draws (List.range hashStrengthFull))

theorem shuffle_range_perm {n : ℕ} (h : draws ∈ drawVectors n) :
    (shuffle draws (List.range n)).Perm (List.range n) := shuffle_perm (validDraws_range h)

theorem drawnTable_bijective (h : draws ∈ drawVectors hashStrengthFull) :
    Bijective (drawnTable draws) := tableEntries_bijective (shuffle_range_perm h)

/-- The draws that leave only entries of one kind in the first `s` places. -/
theorem card_drawn {n : ℕ} (hs : s ≤ n) (p : ℕ → Bool) :
    Nat.card {draws : drawVectors n //
        ∀ i < s, p ((shuffle draws (List.range n)).getD i 0) = true} =
      ((List.range n).countP p).descFactorial s * (n - s)! := by
  have hcard := card_places p 0 (show s ≤ (List.range n).length by rwa [List.length_range])
  rw [List.length_range] at hcard
  rw [← hcard]
  exact Nat.card_congr ((Equiv.subtypeSubtypeEquivSubtypeInter (· ∈ drawVectors n)
    fun draws => ∀ i < s, p ((shuffle draws (List.range n)).getD i 0) = true).trans
      (Equiv.subtypeEquivRight fun draws => and_congr_left' mem_drawVectors))

/-- A hash of strength `s` samples none of the words of `D`. -/
def SamplesNone (s : ℕ) (D : Finset (Fin hashStrengthFull)) (draws : List ℕ) : Prop :=
  ∀ i : Fin hashStrengthFull, i.val < min s hashStrengthFull → drawnTable draws i ∉ D

theorem countP_outside (D : Finset (Fin hashStrengthFull)) :
    (List.range hashStrengthFull).countP (fun y => decide (Fin.ofNat hashStrengthFull y ∉ D)) =
      hashStrengthFull - D.card := by
  have hwords : (List.finRange hashStrengthFull).countP (fun w => decide (w ∉ D)) = Dᶜ.card := by
    rw [List.countP_eq_length_filter, ← List.toFinset_card_of_nodup
      ((List.nodup_finRange hashStrengthFull).filter _)]
    congr 1
    ext w
    rw [List.mem_toFinset, List.mem_filter, Finset.mem_compl, decide_eq_true_iff]
    exact and_iff_right (List.mem_finRange w)
  rw [Finset.card_compl, Fintype.card_fin] at hwords
  rw [← hwords, ← List.map_coe_finRange_eq_range, List.countP_map]
  apply List.countP_congr
  intro w _
  rw [Function.comp_apply, Fin.ofNat_eq_cast, Fin.cast_val_eq_self]

/-- How many draws leave a table by which a hash of strength `s` samples none of `k` words. -/
def blindDraws (s k : ℕ) : ℕ :=
  (hashStrengthFull - k).descFactorial (min s hashStrengthFull) *
    (hashStrengthFull - min s hashStrengthFull)!

theorem card_samplesNone (s : ℕ) (D : Finset (Fin hashStrengthFull)) :
    Nat.card {draws : drawVectors hashStrengthFull // SamplesNone s D draws} =
      blindDraws s D.card := by
  rw [blindDraws, ← countP_outside, ← card_drawn (Nat.min_le_right _ _)]
  refine Nat.card_congr (Equiv.subtypeEquivRight fun draws => ?_)
  constructor
  · intro hnone i hi
    exact decide_eq_true (hnone ⟨i, lt_of_lt_of_le hi (Nat.min_le_right _ _)⟩ hi)
  · intro hnone i hi
    exact of_decide_eq_true (hnone i.val hi)

instance finite_drawVectors (n : ℕ) : Finite (drawVectors n) :=
  Finite.of_injective
    (fun draws : drawVectors n =>
      (⟨draws.1, mem_drawVectors.mp draws.2, trivial⟩ : {rs // ValidDraws n rs ∧ True}))
    fun _ _ h => Subtype.ext (congrArg (fun rs => rs.1) h)

theorem card_drawVectors (n : ℕ) : Nat.card (drawVectors n) = n ! := by
  rw [← card_draws n]
  exact Nat.card_congr (Equiv.subtypeEquivRight fun draws => by
    rw [and_true]
    exact mem_drawVectors)

/-! ### Changes that are seen, and changes that are not -/

/-- With the table that the draws leave, a hash of strength `s` does not tell the pages apart. -/
def Misses (content : ℕ → ℕ) (s : ℕ) (p p' : Page) (draws : List ℕ) : Prop :=
  ∃ table, shuffledBy hashStrengthFull content draws = .ok table ∧
    (randomSampleHash (tableEntries table) p s).hash =
      (randomSampleHash (tableEntries table) p' s).hash

/-- The words in which two pages differ. -/
def changedWords (p p' : Page) : Finset (Fin hashStrengthFull) :=
  Finset.univ.filter fun w => p w ≠ p' w

section Seen

variable {content : ℕ → ℕ} {p p' : Page}

theorem mem_changedWords {w : Fin hashStrengthFull} : w ∈ changedWords p p' ↔ p w ≠ p' w := by
  rw [changedWords, Finset.mem_filter]
  exact and_iff_right (Finset.mem_univ w)

theorem misses_iff (h : draws ∈ drawVectors hashStrengthFull) :
    Misses content s p p' draws ↔
      (randomSampleHash (drawnTable draws) p s).hash =
        (randomSampleHash (drawnTable draws) p' s).hash := by
  rw [Misses, shuffledBy_eq _ content (mem_drawVectors.mp h)]
  constructor
  · intro hmiss
    obtain ⟨table, htable, hhash⟩ := hmiss
    rw [← Except.ok.inj htable] at hhash
    exact hhash
  · exact fun hhash => ⟨_, rfl, hhash⟩

/-- A change outside the sampled words is not seen. -/
theorem misses_of_samplesNone (h : draws ∈ drawVectors hashStrengthFull)
    (hs : s ≤ hashStrengthMax) (hnone : SamplesNone s (changedWords p p') draws) :
    Misses content s p p' draws := by
  rw [misses_iff h]
  apply randomSampleHash_congr hs
  intro i hi
  have hnot := hnone i hi
  rwa [mem_changedWords, not_not] at hnot

/-- A change of one word that a hash samples is seen. -/
theorem samplesNone_of_misses (h : draws ∈ drawVectors hashStrengthFull)
    (hs : s ≤ hashStrengthFull) (hone : (changedWords p p').card = 1)
    (hmiss : Misses content s p p' draws) : SamplesNone s (changedWords p p') draws := by
  intro i hi hmem
  obtain ⟨w, hw⟩ := Finset.card_eq_one.mp hone
  rw [misses_iff h] at hmiss
  refine randomSampleHash_ne (drawnTable_bijective h).injective
    (hs.trans (Nat.le_add_right _ _)) i (by omega) hi ?_ hmiss
  intro w'
  rw [← not_iff_not, not_not, ← ne_eq, ← mem_changedWords, hw, Finset.mem_singleton]
  rw [hw, Finset.mem_singleton] at hmem
  rw [hmem]

/-- The orders of `n` words in which a given one is behind the first `s` places. -/
theorem descFactorial_pred {n : ℕ} (hs : s ≤ n) :
    (n - 1).descFactorial s * (n - s)! * n = (n - s) * n ! := by
  cases n with
  | zero => rw [Nat.mul_zero, Nat.zero_sub, Nat.zero_mul]
  | succ n =>
    calc n.descFactorial s * (n + 1 - s)! * (n + 1)
        = (n + 1) * n.descFactorial s * (n + 1 - s)! := by
          rw [Nat.mul_comm, Nat.mul_assoc]
      _ = (n + 1 - s) * (n + 1).descFactorial s * (n + 1 - s)! := by
          rw [← Nat.succ_descFactorial_succ, Nat.descFactorial_succ]
      _ = (n + 1 - s) * (n + 1)! := by
          rw [Nat.mul_assoc, Nat.mul_comm (Nat.descFactorial _ _),
            Nat.factorial_mul_descFactorial hs]

/-- The strongest of some hashes. -/
def strongest (strengths : List ℕ) : ℕ := strengths.foldr max 0

/-- The strongest of some hashes samples what they sample together. -/
theorem samplesNone_strongest (strengths : List ℕ) :
    SamplesNone (strongest strengths) D draws ↔ ∀ s ∈ strengths, SamplesNone s D draws := by
  induction strengths with
  | nil =>
    refine iff_of_true (fun i hi => ?_) fun s hs => absurd hs List.not_mem_nil
    exact absurd hi (Nat.not_lt_of_le ((Nat.min_le_left _ _).trans (Nat.zero_le _)))
  | cons s strengths ih =>
    rw [List.forall_mem_cons, ← ih]
    show SamplesNone (max s (strongest strengths)) D draws ↔ _
    constructor
    · exact fun hnone => ⟨fun i hi => hnone i (by omega), fun i hi => hnone i (by omega)⟩
    · intro hnone i hi
      by_cases hfirst : i.val < min s hashStrengthFull
      · exact hnone.1 i hfirst
      · exact hnone.2 i (by omega)

theorem strongest_le {strengths : List ℕ} {limit : ℕ} (h : ∀ s ∈ strengths, s ≤ limit) :
    strongest strengths ≤ limit := by
  induction strengths with
  | nil => exact Nat.zero_le limit
  | cons s strengths ih =>
    rw [List.forall_mem_cons] at h
    exact max_le h.1 (ih h.2)

/-- How often a given change is seen, by hashes of any strengths that are taken in one scan or in
many.  There are as many draws as orders of the words of a page.  Some draws, exactly counted, leave
a table with none of the changed words in reach of the strongest hash, and each of them misses the
change in all scans.  A change of one word is missed by these only: by the share `1 - s / 1024` of
all draws, where `s` is the greatest strength, however often the page is scanned. -/
theorem drawnTables_see (content : ℕ → ℕ) (strengths : List ℕ)
    (hs : ∀ s ∈ strengths, s ≤ hashStrengthMax) (p p' : Page) :
    Nat.card (drawVectors hashStrengthFull) = hashStrengthFull.factorial ∧
      (∀ draws : drawVectors hashStrengthFull,
        SamplesNone (strongest strengths) (changedWords p p') draws →
          ∀ s ∈ strengths, Misses content s p p' draws) ∧
      Nat.card {draws : drawVectors hashStrengthFull //
          SamplesNone (strongest strengths) (changedWords p p') draws} =
        blindDraws (strongest strengths) (changedWords p p').card ∧
      blindDraws (strongest strengths) (changedWords p p').card ≤
        Nat.card {draws : drawVectors hashStrengthFull //
          ∀ s ∈ strengths, Misses content s p p' draws} ∧
      ((∀ s ∈ strengths, s ≤ hashStrengthFull) → (changedWords p p').card = 1 →
        (∀ draws : drawVectors hashStrengthFull, (∀ s ∈ strengths, Misses content s p p' draws) ↔
          SamplesNone (strongest strengths) (changedWords p p') draws) ∧
        Nat.card {draws : drawVectors hashStrengthFull //
          ∀ s ∈ strengths, Misses content s p p' draws} * hashStrengthFull =
            (hashStrengthFull - strongest strengths) * hashStrengthFull.factorial) := by
  have hmiss : ∀ draws : drawVectors hashStrengthFull,
      SamplesNone (strongest strengths) (changedWords p p') draws →
        ∀ s ∈ strengths, Misses content s p p' draws := fun draws hnone s hmem =>
    misses_of_samplesNone draws.2 (hs s hmem) ((samplesNone_strongest strengths).mp hnone s hmem)
  refine ⟨card_drawVectors _, hmiss, card_samplesNone _ _, ?_, ?_⟩
  · rw [← card_samplesNone]
    exact Nat.card_le_card_of_injective _ (Subtype.impEmbedding _ _ hmiss).injective
  · intro hfull hone
    have hmiss_iff : ∀ draws : drawVectors hashStrengthFull,
        (∀ s ∈ strengths, Misses content s p p' draws) ↔
          SamplesNone (strongest strengths) (changedWords p p') draws := fun draws =>
      ⟨fun h => (samplesNone_strongest strengths).mpr fun s hmem =>
        samplesNone_of_misses draws.2 (hfull s hmem) hone (h s hmem), hmiss draws⟩
    have hstrongest := strongest_le hfull
    refine ⟨hmiss_iff, ?_⟩
    simp only [hmiss_iff]
    rw [card_samplesNone, hone, blindDraws, Nat.min_eq_left hstrongest]
    exact descFactorial_pred hstrongest

/-- Scans at the strengths 64, 65, 67 and 64 miss a change of one word as often as one at 67. -/
theorem drawnTables_see_oneWord :
    Nat.card {draws : drawVectors hashStrengthFull // ∀ s ∈ [64, 65, 67, 64],
        Misses (fun _ => 0) s (fun _ => 0) (update (fun _ => 0) 3 1) draws} * hashStrengthFull =
      (hashStrengthFull - 67) * hashStrengthFull.factorial := by
  have hone : changedWords (fun _ => 0) (update (fun _ => 0) 3 1) = {3} := by
    ext w
    rw [mem_changedWords, Finset.mem_singleton]
    by_cases hw : w = 3
    · rw [hw, update_self]
      exact iff_of_true (by decide) rfl
    · rw [update_of_ne hw]
      exact iff_of_false (fun h => h rfl) hw
  have hstrongest : strongest [64, 65, 67, 64] = 67 := rfl
  have hshare := (drawnTables_see (fun _ => 0) [64, 65, 67, 64] (by decide) (fun _ => 0)
    (update (fun _ => 0) 3 1)).2.2.2.2 (by decide) (by rw [hone, Finset.card_singleton])
  rw [hstrongest] at hshare
  exact hshare.2

end Seen

/-! ### New contents of several words -/

/-- The page with other contents of the words of `D`. -/
def overwrite (D : Finset (Fin hashStrengthFull)) (old new : Page) : Page := fun w =>
  if w ∈ D then new w else old w

theorem overwrite_update {old new : Page} {w : Fin hashStrengthFull} (hw : w ∈ D) (v : UInt32) :
    overwrite D old (update new w v) = update (overwrite D old new) w v := by
  funext w'
  by_cases hsame : w' = w
  · rw [hsame, update_self, overwrite, if_pos hw, update_self]
  · rw [update_of_ne hsame, overwrite, overwrite, update_of_ne hsame]

theorem changedWords_overwrite {old new : Page} : changedWords old (overwrite D old new) ⊆ D := by
  intro w hw
  rw [mem_changedWords, overwrite] at hw
  by_contra hnot
  exact hw (if_neg hnot).symm

/-- Of more words than the loop-back samples twice, one is sampled exactly once if any is. -/
theorem sampled_once (h : draws ∈ drawVectors hashStrengthFull)
    (hwords : s - hashStrengthFull < D.card) (hsome : ¬SamplesNone s D draws) :
    ∃ i : Fin hashStrengthFull, drawnTable draws i ∈ D ∧ s - hashStrengthFull ≤ i.val ∧
      i.val < min s hashStrengthFull := by
  by_contra hnone
  have htwice : ∀ i, drawnTable draws i ∈ D → i.val < min s hashStrengthFull →
      i.val < s - hashStrengthFull := by
    intro i hmem hi
    by_contra hlow
    exact hnone ⟨i, hmem, not_lt.mp hlow, hi⟩
  by_cases hs : s ≤ hashStrengthFull
  · apply hsome
    intro i hi hmem
    have hlow := htwice i hmem hi
    omega
  · -- every word of `D` is sampled, so it is one of those of the loop-back
    have hcover : D ⊆ (Finset.range (s - hashStrengthFull)).image fun j =>
        drawnTable draws (Fin.ofNat hashStrengthFull j) := by
      intro w hw
      obtain ⟨i, rfl⟩ := (drawnTable_bijective h).surjective w
      refine Finset.mem_image.mpr ⟨i.val, Finset.mem_range.mpr (htwice i hw (by omega)), ?_⟩
      rw [Fin.ofNat_eq_cast, Fin.cast_val_eq_self]
    have hcard := (Finset.card_le_card hcover).trans Finset.card_image_le
    rw [Finset.card_range] at hcard
    omega

/-- The other draws miss one new content in 2^32. -/
theorem card_overlooked (h : draws ∈ drawVectors hashStrengthFull) (hs : s ≤ hashStrengthMax)
    (hwords : s - hashStrengthFull < D.card) (hsome : ¬SamplesNone s D draws) (content : ℕ → ℕ)
    (old : Page) :
    Nat.card {new // Misses content s old (overwrite D old new) draws} * 2 ^ 32 =
      Nat.card Page := by
  obtain ⟨i, hmem, hlow, hhigh⟩ := sampled_once h hwords hsome
  have hinj := (drawnTable_bijective h).injective
  have hone : (stretch 0 s).count i.val = 1 := by
    apply count_stretch (p := i.val) (Nat.zero_le _) (by omega)
    intro q _ hq
    rw [tableIndex]
    split_ifs
    · exact Iff.rfl
    · omega
  have hshare : ∀ new, Nat.card {v : UInt32 // Misses content s old
      (overwrite D old ((Lens.coordinate (drawnTable draws i)).set new v)) draws} = 1 := by
    intro new
    have hbij := deltaHash_word_bijective hinj (Nat.zero_le s) hs i hone (overwrite D old new)
      0xdeadbeef
    have hcard := card_preimage hbij (· = (deltaHash (drawnTable draws) old 0 s 0xdeadbeef).hash)
    refine (Nat.card_congr (Equiv.subtypeEquivRight fun v => ?_)).trans
      (hcard.trans Nat.card_unique)
    show Misses content s old (overwrite D old (update new (drawnTable draws i) v)) draws ↔ _
    rw [misses_iff h, overwrite_update hmem, randomSampleHash_stretch, randomSampleHash_stretch,
      eq_comm]
  have hcard := card_of_card_part (Lens.coordinate (drawnTable draws i))
    (P := fun new => Misses content s old (overwrite D old new) draws) hshare
  rwa [card_word, Nat.one_mul] at hcard

/-- How often an arbitrary change of the words of `D` is missed.  Each draw that samples none of
them misses every new content, and each other draw misses one new content in 2^32; this counts the
draws of the first kind, and the pairs of a draw and a content that it misses.  At strengths with a
loop-back it needs more words than the loop-back samples twice. -/
theorem drawnTables_miss (content : ℕ → ℕ) (hs : s ≤ hashStrengthMax)
    (D : Finset (Fin hashStrengthFull)) (hwords : s - hashStrengthFull < D.card) (old : Page) :
    (∀ draws : drawVectors hashStrengthFull, SamplesNone s D draws →
        ∀ new, Misses content s old (overwrite D old new) draws) ∧
      (∀ draws : drawVectors hashStrengthFull, ¬SamplesNone s D draws →
        Nat.card {new // Misses content s old (overwrite D old new) draws} * 2 ^ 32 =
          Nat.card Page) ∧
      Nat.card {draws : drawVectors hashStrengthFull // SamplesNone s D draws} =
        blindDraws s D.card ∧
      Nat.card {x : drawVectors hashStrengthFull × Page //
          Misses content s old (overwrite D old x.2) x.1} * 2 ^ 32 =
        (blindDraws s D.card * 2 ^ 32 + (hashStrengthFull.factorial - blindDraws s D.card)) *
          Nat.card Page := by
  have hblind : ∀ draws : drawVectors hashStrengthFull, SamplesNone s D draws →
      ∀ new, Misses content s old (overwrite D old new) draws := fun draws hnone new =>
    misses_of_samplesNone draws.2 hs fun i hi hmem => hnone i hi (changedWords_overwrite hmem)
  have hall : ∀ draws : drawVectors hashStrengthFull, SamplesNone s D draws →
      Nat.card {new // Misses content s old (overwrite D old new) draws} * 2 ^ 32 =
        2 ^ 32 * Nat.card Page := by
    intro draws hnone
    rw [Nat.card_congr (Equiv.subtypeUnivEquiv (hblind draws hnone)), Nat.mul_comm]
  have hsome : ∀ draws : drawVectors hashStrengthFull, ¬SamplesNone s D draws →
      Nat.card {new // Misses content s old (overwrite D old new) draws} * 2 ^ 32 =
        Nat.card Page := fun draws hsome => card_overlooked draws.2 hs hwords hsome content old
  have hothers : Nat.card {draws : drawVectors hashStrengthFull // ¬SamplesNone s D draws} =
      hashStrengthFull.factorial - blindDraws s D.card := by
    classical
    have hsum := Nat.card_congr (Equiv.sumCompl fun draws : drawVectors hashStrengthFull =>
      SamplesNone s D draws)
    rw [Nat.card_sum, card_samplesNone, card_drawVectors] at hsum
    omega
  refine ⟨hblind, hsome, card_samplesNone s D, ?_⟩
  rw [card_pairs_of_kinds (fun draws : drawVectors hashStrengthFull => SamplesNone s D draws)
    hall hsome, card_samplesNone, hothers, ← Nat.mul_assoc, ← Nat.add_mul]

/-- Two words of a page of zeros at strength 64. -/
theorem drawnTables_miss_twoWords :
    Nat.card {x : drawVectors hashStrengthFull × Page //
        Misses (fun _ => 0) 64 0 (overwrite {700, 701} 0 x.2) x.1} * 2 ^ 32 =
      (blindDraws 64 2 * 2 ^ 32 + (hashStrengthFull.factorial - blindDraws 64 2)) *
        Nat.card Page := by
  have htwo : ({700, 701} : Finset (Fin hashStrengthFull)).card = 2 :=
    Finset.card_pair (by decide)
  have hmiss := drawnTables_miss (fun _ => 0) (show 64 ≤ hashStrengthMax by decide) {700, 701}
    (show 64 - hashStrengthFull < ({700, 701} : Finset (Fin hashStrengthFull)).card by
      rw [htwo]
      decide) 0
  rw [htwo] at hmiss
  exact hmiss.2.2.2

end DirtyPages
