import DirtyPages.Collision
import DirtyPages.SampledWords
import DirtyPages.Lib.Equidistribution
import Mathlib.Data.FinEnum

/-!
# The blind spot of the dirty detection

How many contents of a page have a given sampled hash, how many `check_collision` does not report as
changed, and how many pass both tests.  Every strength between two bounds samples some word exactly
once, and the hash is a bijection in that word; so the numbers are exact, whatever the page held
before.
-/

namespace DirtyPages

open Function KeyedFold Equidistribution ReversibleWalk

variable {randomNums : RandomNums} {a b s : ℕ}

/-! ### The words of a stretch -/

/-- The table entries that an update from strength `a` up to strength `b` uses. -/
def stretch (a b : ℕ) : List ℕ := (List.range' a (b - a)).map tableIndex

theorem deltaHash_stretch (key : Page) (hab : a ≤ b) (h : UInt32) :
    (deltaHash randomNums key a b h).hash =
      ((stretch a b).map (sampledWord randomNums key)).foldl (fun h w => mix w h) h := by
  rw [deltaHash_travel, ← Nat.add_sub_cancel' hab, travel_up, stretch, List.map_map,
    List.foldl_map, Nat.add_sub_cancel' hab]
  rfl

/-- The hash of a page is the stretch from 0 on. -/
theorem randomSampleHash_stretch (key : Page) (s : ℕ) :
    (randomSampleHash randomNums key s).hash =
      (deltaHash randomNums key 0 s 0xdeadbeef).hash := by
  rw [randomSampleHash_climb, deltaHash_travel, travel_zero]

theorem mem_stretch_lt (hb : b ≤ hashStrengthMax) {j : ℕ} (hj : j ∈ stretch a b) :
    j < hashStrengthFull := by
  have hfull := hashStrengthFull_eq
  have hmax := hashStrengthMax_eq
  obtain ⟨i, hi, rfl⟩ := List.mem_map.mp hj
  rw [List.mem_range'_1] at hi
  rw [tableIndex]
  split_ifs
  · assumption
  · omega

/-- Replacing the word that a table entry selects. -/
theorem sampledWord_update (hperm : Injective randomNums) (key : Page) (w : UInt32)
    (i : Fin hashStrengthFull) {j : ℕ} (hj : j < hashStrengthFull) :
    sampledWord randomNums (update key (randomNums i) w) j =
      update (sampledWord randomNums key) i.val w j := by
  by_cases hji : j = i.val
  · subst hji
    rw [sampledWord_fin, update_self, update_self]
  · have hne : randomNums ⟨j, hj⟩ ≠ randomNums i := fun heq =>
      hji (congrArg Fin.val (hperm heq))
    rw [update_of_ne hji, show j = (⟨j, hj⟩ : Fin hashStrengthFull).val from rfl, sampledWord_fin,
      sampledWord_fin, update_of_ne hne]

/-- A stretch is a bijection in a word that it samples once. -/
theorem deltaHash_word_bijective (hperm : Injective randomNums) (hab : a ≤ b)
    (hb : b ≤ hashStrengthMax) (i : Fin hashStrengthFull) (hone : (stretch a b).count i.val = 1)
    (key : Page) (h : UInt32) :
    Bijective fun w => (deltaHash randomNums (update key (randomNums i) w) a b h).hash := by
  have hwords : ∀ w, (stretch a b).map (sampledWord randomNums (update key (randomNums i) w)) =
      (stretch a b).map (update (sampledWord randomNums key) i.val w) := by
    intro w
    apply List.map_congr_left
    intro j hj
    exact sampledWord_update hperm key w i (mem_stretch_lt hb hj)
  simp only [deltaHash_stretch _ hab, hwords]
  exact mix_reversible.foldl_update hone _ h

/-- A stretch does not see a word that it does not sample. -/
theorem deltaHash_update_of_not_mem (hperm : Injective randomNums) (hab : a ≤ b)
    (hb : b ≤ hashStrengthMax) (i : Fin hashStrengthFull) (hnot : i.val ∉ stretch a b)
    (key : Page) (w h : UInt32) :
    (deltaHash randomNums (update key (randomNums i) w) a b h).hash =
      (deltaHash randomNums key a b h).hash := by
  rw [deltaHash_stretch _ hab, deltaHash_stretch _ hab]
  congr 1
  apply List.map_congr_left
  intro j hj
  rw [sampledWord_update hperm key w i (mem_stretch_lt hb hj), update_of_ne]
  intro hji
  exact hnot (hji ▸ hj)

/-! ### Words that are sampled once -/

/-- An entry is used once on a stretch when one position of the stretch uses it. -/
theorem count_stretch {j p : ℕ} (hp : a ≤ p) (hp' : p < b)
    (honly : ∀ q, a ≤ q → q < b → (tableIndex q = j ↔ q = p)) : (stretch a b).count j = 1 := by
  have hcount : (stretch a b).count j = (List.range' a (b - a)).count p := by
    rw [stretch, List.count, List.countP_map, List.count]
    apply List.countP_congr
    intro q hq
    rw [List.mem_range'_1] at hq
    simpa using honly q hq.1 (by omega)
  rw [hcount]
  exact List.count_eq_one_of_mem (List.nodup_range' 1 Nat.one_pos)
    (List.mem_range'_1.mpr ⟨hp, by omega⟩)

theorem not_mem_stretch {j : ℕ} (hnone : ∀ q, a ≤ q → q < b → tableIndex q ≠ j) :
    j ∉ stretch a b := by
  intro hj
  obtain ⟨q, hq, hqj⟩ := List.mem_map.mp hj
  rw [List.mem_range'_1] at hq
  exact hnone q hq.1 (by omega) hqj

/-- The entry of the last word of a hash before the loop-back. -/
def lastWord (s : ℕ) : ℕ := min s hashStrengthFull - 1

theorem lastWord_lt (s : ℕ) : lastWord s < hashStrengthFull := by
  have hfull := hashStrengthFull_eq
  rw [lastWord]
  omega

/-- A hash samples its last word before the loop-back once. -/
theorem count_lastWord (hlow : 1 ≤ s) (hhigh : s ≤ hashStrengthMax) :
    (stretch 0 s).count (lastWord s) = 1 := by
  have hfull := hashStrengthFull_eq
  have hmax := hashStrengthMax_eq
  rw [lastWord]
  apply count_stretch (p := min s hashStrengthFull - 1) (Nat.zero_le _) (by omega)
  intro q _ hq
  rw [tableIndex]
  split_ifs
  · exact Iff.rfl
  · omega

/-- The entry of the last word before the loop-back that the full-strength hash adds to a hash; at a
hash that has looped back already, the entry of the very last word. -/
def addedWord (s : ℕ) : ℕ :=
  if s < hashStrengthFull then hashStrengthFull - 1 else hashStrengthMax - hashStrengthFull - 1

theorem addedWord_lt (s : ℕ) : addedWord s < hashStrengthFull := by
  have hfull := hashStrengthFull_eq
  have hmax := hashStrengthMax_eq
  rw [addedWord]
  split_ifs
  · omega
  · omega

/-- What the full-strength hash adds samples this word once. -/
theorem count_addedWord (hhigh : s < hashStrengthMax) :
    (stretch s hashStrengthMax).count (addedWord s) = 1 := by
  have hfull := hashStrengthFull_eq
  have hmax := hashStrengthMax_eq
  rw [addedWord]
  split_ifs with hs
  · apply count_stretch (p := hashStrengthFull - 1) (by omega) (by omega)
    intro q _ hq
    rw [tableIndex]
    split_ifs
    · exact Iff.rfl
    · omega
  · apply count_stretch (p := hashStrengthMax - 1) (by omega) (by omega)
    intro q _ hq
    rw [tableIndex]
    split_ifs
    · omega
    · omega

/-! ### The numbers -/

/-- The part of a page that is its last word in a hash. -/
abbrev lastPart (randomNums : RandomNums) (s : ℕ) : Lens Page UInt32 :=
  Lens.coordinate (randomNums ⟨lastWord s, lastWord_lt s⟩)

/-- The part of a page that is its added word. -/
abbrev addedPart (randomNums : RandomNums) (s : ℕ) : Lens Page UInt32 :=
  Lens.coordinate (randomNums ⟨addedWord s, addedWord_lt s⟩)

theorem hash_lastPart_bijective (hperm : Injective randomNums) (hlow : 1 ≤ s)
    (hhigh : s ≤ hashStrengthMax) (page : Page) :
    Bijective fun w =>
      (randomSampleHash randomNums ((lastPart randomNums s).set page w) s).hash := by
  simp only [randomSampleHash_stretch]
  exact deltaHash_word_bijective hperm (Nat.zero_le s) hhigh _ (count_lastWord hlow hhigh) page _

theorem extension_addedPart_bijective (hperm : Injective randomNums) (hhigh : s < hashStrengthMax)
    (page : Page) (h : UInt32) :
    Bijective fun w =>
      (deltaHash randomNums ((addedPart randomNums s).set page w) s hashStrengthMax h).hash :=
  deltaHash_word_bijective hperm hhigh.le (Nat.le_refl _) _ (count_addedWord hhigh) page h

/-- Below the loop-back the hash does not see the added word. -/
theorem hash_addedPart (hperm : Injective randomNums) (hlow : s < hashStrengthFull) (page : Page)
    (w : UInt32) :
    (randomSampleHash randomNums ((addedPart randomNums s).set page w) s).hash =
      (randomSampleHash randomNums page s).hash := by
  have hfull := hashStrengthFull_eq
  have hmax := hashStrengthMax_eq
  rw [randomSampleHash_stretch, randomSampleHash_stretch]
  apply deltaHash_update_of_not_mem hperm (Nat.zero_le s) (by omega)
  apply not_mem_stretch
  intro q _ hq
  show tableIndex q ≠ addedWord s
  rw [tableIndex, addedWord, if_pos hlow, if_pos (by omega)]
  omega

/-- From the loop-back on the added words do not see the last word before it. -/
theorem extension_lastPart (hperm : Injective randomNums) (hlow : hashStrengthFull ≤ s)
    (hhigh : s ≤ hashStrengthMax) (page : Page) (w h : UInt32) :
    (deltaHash randomNums ((lastPart randomNums s).set page w) s hashStrengthMax h).hash =
      (deltaHash randomNums page s hashStrengthMax h).hash := by
  have hfull := hashStrengthFull_eq
  have hmax := hashStrengthMax_eq
  apply deltaHash_update_of_not_mem hperm hhigh (Nat.le_refl _)
  apply not_mem_stretch
  intro q hq hq'
  show tableIndex q ≠ lastWord s
  rw [tableIndex, lastWord, if_neg (by omega), Nat.min_eq_right hlow]
  omega

theorem parts_ne (hperm : Injective randomNums) (s : ℕ) :
    randomNums ⟨lastWord s, lastWord_lt s⟩ ≠ randomNums ⟨addedWord s, addedWord_lt s⟩ := by
  have hfull := hashStrengthFull_eq
  have hmax := hashStrengthMax_eq
  intro heq
  have hword : lastWord s = addedWord s := congrArg Fin.val (hperm heq)
  rw [lastWord, addedWord] at hword
  split_ifs at hword
  · omega
  · omega

/-- The hash of a page at a strength spreads evenly over its values. -/
theorem hash_spreads (hperm : Injective randomNums) (hlow : 1 ≤ s) (hhigh : s ≤ hashStrengthMax) :
    Spreads fun page : Page => (randomSampleHash randomNums page s).hash :=
  spreads_of_bijective_part (lastPart randomNums s) (hash_lastPart_bijective hperm hlow hhigh)

/-- So does the extension of any hash to the full strength. -/
theorem extension_spreads (hperm : Injective randomNums) (hhigh : s < hashStrengthMax)
    (h : UInt32) :
    Spreads fun page : Page => (deltaHash randomNums page s hashStrengthMax h).hash :=
  spreads_of_bijective_part (addedPart randomNums s) fun page =>
    extension_addedPart_bijective hperm hhigh page h

/-- The two are independent of each other. -/
theorem hash_extension_spreads (hperm : Injective randomNums) (hlow : 1 ≤ s)
    (hhigh : s < hashStrengthMax) (h : UInt32) :
    Spreads fun page : Page => ((randomSampleHash randomNums page s).hash,
      (deltaHash randomNums page s hashStrengthMax h).hash) := by
  by_cases hs : s < hashStrengthFull
  · apply spreads_of_bijective_part (Lens.coordinates (parts_ne hperm s))
    intro page
    convert pair_bijective (hash_lastPart_bijective hperm hlow hhigh.le page) (fun w =>
      extension_addedPart_bijective hperm hhigh ((lastPart randomNums s).set page w) h) using 2
    exact Prod.ext (hash_addedPart hperm hs _ _) rfl
  · apply spreads_of_bijective_part (Lens.coordinates (parts_ne hperm s).symm)
    intro page
    convert chained_bijective (fun w => hash_lastPart_bijective hperm hlow hhigh.le
      ((addedPart randomNums s).set page w)) (fun _ : UInt32 =>
        extension_addedPart_bijective hperm hhigh page h) using 2
    exact Prod.ext rfl (extension_lastPart hperm (Nat.le_of_not_lt hs) hhigh.le _ _ h)

theorem card_word : Nat.card UInt32 = 2 ^ 32 := by
  rw [Nat.card_eq_fintype_card, ← FinEnum.card_eq_fintypeCard, FinEnum.card_UInt32]

theorem card_pairs : Nat.card (UInt32 × UInt32) = 2 ^ 64 := by
  rw [Nat.card_prod, card_word, ← pow_add]

/-! ### The verdict -/

/-- `check_collision` answers "collision" for a page that holds `new`, while the hash it is given is
the hash of `old`. -/
def Overlooks (randomNums : RandomNums) (s memcmpCost : UInt64) (c : Counters) (item : RmapItem)
    (old new : Page) : Prop :=
  ∃ c', checkCollision randomNums s memcmpCost new item (sampleHash randomNums old s) c =
    .ok (.colli, c')

/-- How many of 2^32 contents the cached full-strength hash does not tell from `old`. -/
def blindness (randomNums : RandomNums) (s : UInt64) (old : Page) : ℕ :=
  if s.toNat = hashStrengthMax then 2 ^ 32 else (cachedFor (fullHash randomNums old)).length

section Verdict

variable {s memcmpCost : UInt64} {c : Counters} {old new : Page}

theorem overlooks_iff (item : RmapItem) (hhigh : s.toNat ≤ hashStrengthMax)
    (hfits : c.rshashNeg.toNat + memcmpCost.toNat + 2 * hashStrengthMax < 2 ^ 64) :
    Overlooks randomNums s memcmpCost c item old new ↔
      if item.hashMax ≠ 0 then
        item.hashMax = nonzeroHash (deltaHash randomNums new s.toNat hashStrengthMax
          (sampleHash randomNums old s)).hash
      else sampleHash randomNums new s = sampleHash randomNums old s := by
  obtain ⟨err, c', hrun, _⟩ :=
    checkCollision_charge new item (sampleHash randomNums old s) hhigh hfits
  have herr := checkCollision_eq_ok hrun
  have hcolli : Overlooks randomNums s memcmpCost c item old new ↔ err = .colli := by
    rw [Overlooks, hrun]
    simp
  rw [hcolli, herr]
  split_ifs with hcached hsame hsame
  · exact iff_of_true rfl hsame
  · exact iff_of_false (fun h => nomatch h) hsame
  · exact iff_of_true rfl hsame
  · exact iff_of_false (fun h => nomatch h) hsame

theorem overlooks_cached_iff (hhigh : s.toNat ≤ hashStrengthMax)
    (hfits : c.rshashNeg.toNat + memcmpCost.toNat + 2 * hashStrengthMax < 2 ^ 64) :
    Overlooks randomNums s memcmpCost c ⟨fullHash randomNums old⟩ old new ↔
      (deltaHash randomNums new s.toNat hashStrengthMax (sampleHash randomNums old s)).hash ∈
        cachedFor (fullHash randomNums old) := by
  rw [overlooks_iff _ hhigh hfits, if_pos fullHash_ne_zero, mem_cachedFor fullHash_ne_zero]
  exact eq_comm

/-- At full strength nothing is added, and the cached hash is compared with the hash passed in. -/
theorem overlooks_full (hs : s.toNat = hashStrengthMax)
    (hfits : c.rshashNeg.toNat + memcmpCost.toNat + 2 * hashStrengthMax < 2 ^ 64) :
    Overlooks randomNums s memcmpCost c ⟨fullHash randomNums old⟩ old new := by
  rw [overlooks_cached_iff hs.le hfits, mem_cachedFor fullHash_ne_zero, hs, deltaHash_travel,
    travel_self, sampleHash, hs]
  rfl

theorem card_cachedFor (hashMax : UInt32) :
    Nat.card {v // v ∈ cachedFor hashMax} = (cachedFor hashMax).length := by
  have hnodup : (cachedFor hashMax).Nodup := by
    rw [cachedFor]
    split_ifs
    · decide
    · exact List.nodup_singleton _
  rw [← List.toFinset_card_of_nodup hnodup]
  exact Nat.subtype_card _ fun v => List.mem_toFinset

/-- The blind spot of `check_collision`, in numbers.  For a page whose content was replaced, with
the hash of the old content passed in: an item without a cached hash makes it answer "collision" for
one content in 2^32; so does an item with the cached hash of the old content, for two when this hash
is 1, but at full strength for every content.  Of the contents that also have the sampled hash of
the old one, so that the page was looked for in the right place, the cached hash leaves the same
share again. -/
theorem checkCollision_blindSpot (hperm : Injective randomNums) (hlow : 1 ≤ s.toNat)
    (hhigh : s.toNat ≤ hashStrengthMax)
    (hfits : c.rshashNeg.toNat + memcmpCost.toNat + 2 * hashStrengthMax < 2 ^ 64) (old : Page) :
    Nat.card {new // Overlooks randomNums s memcmpCost c ⟨0⟩ old new} * 2 ^ 32 =
        Nat.card Page ∧
      Nat.card {new // Overlooks randomNums s memcmpCost c ⟨fullHash randomNums old⟩ old new} *
        2 ^ 32 = blindness randomNums s old * Nat.card Page ∧
      Nat.card {new // sampleHash randomNums new s = sampleHash randomNums old s ∧
        Overlooks randomNums s memcmpCost c ⟨fullHash randomNums old⟩ old new} * 2 ^ 64 =
          blindness randomNums s old * Nat.card Page := by
  have hsampled : Nat.card {new // sampleHash randomNums new s = sampleHash randomNums old s} *
      2 ^ 32 = Nat.card Page := by
    have hcard := hash_spreads hperm hlow hhigh (· = sampleHash randomNums old s)
    have hone : Nat.card {v // v = sampleHash randomNums old s} = 1 := Nat.card_unique
    rwa [hone, Nat.one_mul, card_word] at hcard
  refine ⟨?_, ?_, ?_⟩
  · simp only [overlooks_iff _ hhigh hfits]
    exact hsampled
  · rw [blindness]
    split_ifs with hs
    · simp only [overlooks_full hs hfits]
      rw [Nat.card_congr (Equiv.subtypeUnivEquiv fun _ => trivial), Nat.mul_comm]
    · simp only [overlooks_cached_iff hhigh hfits]
      rw [← card_word, ← card_cachedFor]
      exact extension_spreads hperm (by omega) _ (· ∈ cachedFor (fullHash randomNums old))
  · rw [blindness]
    split_ifs with hs
    · simp only [overlooks_full hs hfits, and_true]
      rw [show (2 : ℕ) ^ 64 = 2 ^ 32 * 2 ^ 32 by rw [← pow_add], ← Nat.mul_assoc, hsampled,
        Nat.mul_comm]
    · simp only [overlooks_cached_iff hhigh hfits]
      have hpairs : Nat.card {v : UInt32 × UInt32 // v.1 = sampleHash randomNums old s ∧
          v.2 ∈ cachedFor (fullHash randomNums old)} =
            (cachedFor (fullHash randomNums old)).length := by
        rw [Nat.card_congr (Equiv.subtypeProdEquivProd
          (p := (· = sampleHash randomNums old s))), Nat.card_prod, card_cachedFor,
          Nat.card_unique, Nat.one_mul]
      rw [← hpairs, ← card_pairs]
      exact hash_extension_spreads hperm hlow (by omega) (sampleHash randomNums old s) fun v =>
        v.1 = sampleHash randomNums old s ∧ v.2 ∈ cachedFor (fullHash randomNums old)

end Verdict

/-- A page of zeros whose full-strength hash was cached at strength 64. -/
theorem checkCollision_blindSpot_zeroPage :
    blindness id 64 0 = 1 ∧
      Nat.card {new // Overlooks id 64 100 initialCounters ⟨fullHash id 0⟩ 0 new} * 2 ^ 32 =
        1 * Nat.card Page := by
  have hblind : blindness id 64 0 = 1 := by decide +kernel
  have hspot := checkCollision_blindSpot (injective_id : Injective (id : RandomNums))
    (show 1 ≤ (64 : UInt64).toNat by decide) (by decide)
    (show initialCounters.rshashNeg.toNat + (100 : UInt64).toNat + 2 * hashStrengthMax < 2 ^ 64 by
      decide) 0
  rw [hblind] at hspot
  exact ⟨hblind, hspot.2.1⟩

end DirtyPages
