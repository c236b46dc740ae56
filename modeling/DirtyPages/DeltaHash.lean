import DirtyPages.SampleHash

/-!
# Incremental hashing agrees with hashing from scratch

Strength positions `0, …, 1033` form a track: position `i` mixes in the word selected by table entry
`i`, and the positions beyond `HASH_STRENGTH_FULL` loop back to entry 0.  `random_sample_hash`
climbs the track from the seed and `delta_hash` travels along it, each branch being one or two
stretches of the way.  Everything below follows from the path independence of `travel`.
-/

namespace DirtyPages

open ReversibleWalk

variable (randomNums : RandomNums) (key : Page)

/-- The table entry used at strength position `i`. -/
def tableIndex (i : ℕ) : ℕ := if i < hashStrengthFull then i else i - hashStrengthFull

/-- The mixing steps in the order of the strength positions. -/
def track (i : ℕ) : Equiv.Perm UInt32 := mixPerm (sampledWord randomNums key (tableIndex i))

/-! ### One stretch of the track -/

/-- A loop carries the hash and the indices along independently. -/
theorem foldl_run (step : ℕ → UInt32 → UInt32) (indices : List ℕ) (run : HashRun) :
    indices.foldl (fun run index => ⟨step index run.hash, run.visited ++ [index]⟩) run =
      ⟨indices.foldl (fun h i => step i h) run.hash, run.visited ++ indices⟩ := by
  induction indices generalizing run with
  | nil => simp
  | cons i indices ih =>
    rw [List.foldl_cons, ih]
    simp

theorem hashFromTo_hash (a b : ℕ) (run : HashRun) :
    (hashFromTo randomNums key a b run).hash =
      (List.range' a (b - a)).foldl (fun h i => mix (sampledWord randomNums key i) h) run.hash := by
  rw [hashFromTo, foldl_run fun i h => mix (sampledWord randomNums key i) h]

theorem hashFromTo_visited (a b : ℕ) (run : HashRun) :
    (hashFromTo randomNums key a b run).visited = run.visited ++ List.range' a (b - a) := by
  rw [hashFromTo, foldl_run fun i h => mix (sampledWord randomNums key i) h]

theorem hashFromDownTo_hash (a b : ℕ) (run : HashRun) :
    (hashFromDownTo randomNums key a b run).hash =
      (List.range' b (a - b)).reverse.foldl
        (fun h i => unmix (sampledWord randomNums key i) h) run.hash := by
  rw [hashFromDownTo, foldl_run fun i h => unmix (sampledWord randomNums key i) h]

theorem hashFromDownTo_visited (a b : ℕ) (run : HashRun) :
    (hashFromDownTo randomNums key a b run).visited =
      run.visited ++ (List.range' b (a - b)).reverse := by
  rw [hashFromDownTo, foldl_run fun i h => unmix (sampledWord randomNums key i) h]

/-- An up loop over table entries `a, …, b - 1` travels the positions `k + a, …, k + b - 1`, where
`k` is 0 or `HASH_STRENGTH_FULL`. -/
theorem hashFromTo_travel {k a b : ℕ} (hab : a ≤ b)
    (hk : ∀ i, a ≤ i → i < b → tableIndex (k + i) = i) (run : HashRun) :
    (hashFromTo randomNums key a b run).hash =
      travel (track randomNums key) (k + a) (k + b) run.hash := by
  have hb : k + b = k + a + (b - a) := by omega
  rw [hashFromTo_hash, hb, travel_up, ← List.map_add_range' (a := k), List.foldl_map]
  apply List.foldl_ext
  intro h i hi
  rw [List.mem_range'_1] at hi
  simp only [track, hk i hi.1 (by omega)]
  rfl

/-- A down loop from `a` to `b` travels the same positions downwards. -/
theorem hashFromDownTo_travel {k a b : ℕ} (hba : b ≤ a)
    (hk : ∀ i, b ≤ i → i < a → tableIndex (k + i) = i) (run : HashRun) :
    (hashFromDownTo randomNums key a b run).hash =
      travel (track randomNums key) (k + a) (k + b) run.hash := by
  have ha : k + a = k + b + (a - b) := by omega
  rw [hashFromDownTo_hash, ha, travel_down, ← List.map_add_range' (a := k), ← List.map_reverse,
    List.foldl_map]
  apply List.foldl_ext
  intro h i hi
  rw [List.mem_reverse, List.mem_range'_1] at hi
  simp only [track, hk i hi.1 (by omega)]
  rfl

theorem tableIndex_low {i : ℕ} (h : i < hashStrengthFull) : tableIndex (0 + i) = i := by
  rw [tableIndex, Nat.zero_add, if_pos h]

theorem tableIndex_high (i : ℕ) : tableIndex (hashStrengthFull + i) = i := by
  rw [tableIndex, if_neg (by omega), Nat.add_sub_cancel_left]

/-! ### The two functions along the track -/

/-- `random_sample_hash` climbs the track from the seed. -/
theorem randomSampleHash_climb (s : ℕ) :
    (randomSampleHash randomNums key s).hash = climb (track randomNums key) s 0xdeadbeef := by
  simp only [randomSampleHash]
  split
  · rename_i hs
    rw [hashFromTo_travel (k := hashStrengthFull) _ _ (Nat.zero_le _)
        (fun i _ _ => tableIndex_high i),
      hashFromTo_travel (k := 0) _ _ (Nat.zero_le _) (fun i _ hi => tableIndex_low hi),
      Nat.add_zero, Nat.add_zero, Nat.zero_add, travel_travel, Nat.add_sub_cancel' (le_of_lt hs),
      travel_zero]
  · rename_i hs
    rw [hashFromTo_travel (k := 0) _ _ (Nat.zero_le _)
        (fun i _ hi => tableIndex_low (by omega)), Nat.zero_add, Nat.zero_add, travel_zero]

/-- `delta_hash` travels the track from one strength to the other, in each of its six branches. -/
theorem deltaHash_travel (a b : ℕ) (h : UInt32) :
    (deltaHash randomNums key a b h).hash = travel (track randomNums key) a b h := by
  simp only [deltaHash]
  split_ifs with h1 h2 h3 h4 h5
  · rw [hashFromTo_travel (k := hashStrengthFull) _ _ (by omega) (fun i _ _ => tableIndex_high i),
      Nat.add_sub_cancel' h2, Nat.add_sub_cancel' (by omega)]
  · rw [hashFromTo_travel (k := 0) _ _ (by omega) (fun i _ hi => tableIndex_low (by omega)),
      Nat.zero_add, Nat.zero_add]
  · rw [hashFromTo_travel (k := hashStrengthFull) _ _ (by omega) (fun i _ _ => tableIndex_high i),
      hashFromTo_travel (k := 0) _ _ (by omega) (fun i _ hi => tableIndex_low hi),
      Nat.zero_add, Nat.zero_add, Nat.add_zero, travel_travel, Nat.add_sub_cancel' (by omega)]
  · rw [hashFromDownTo_travel (k := 0) _ _ (by omega) (fun i _ hi => tableIndex_low (by omega)),
      Nat.zero_add, Nat.zero_add]
  · rw [hashFromDownTo_travel (k := hashStrengthFull) _ _ (by omega)
        (fun i _ _ => tableIndex_high i), Nat.add_sub_cancel' (by omega), Nat.add_sub_cancel' h5]
  · rw [hashFromDownTo_travel (k := 0) _ _ (by omega) (fun i _ hi => tableIndex_low hi),
      hashFromDownTo_travel (k := hashStrengthFull) _ _ (by omega)
        (fun i _ _ => tableIndex_high i),
      Nat.zero_add, Nat.zero_add, Nat.add_zero, travel_travel, Nat.add_sub_cancel' (by omega)]

/-- Updating the hash of one strength gives the hash of the other. -/
theorem deltaHash_of_sample (a b : ℕ) :
    (deltaHash randomNums key a b (randomSampleHash randomNums key a).hash).hash =
      (randomSampleHash randomNums key b).hash := by
  rw [deltaHash_travel, randomSampleHash_climb, randomSampleHash_climb, ← travel_zero,
    travel_travel, travel_zero]

/-- A stop on the way does not change an update, wherever it lies. -/
theorem deltaHash_stop (a b c : ℕ) (h : UInt32) :
    (deltaHash randomNums key b c (deltaHash randomNums key a b h).hash).hash =
      (deltaHash randomNums key a c h).hash := by
  rw [deltaHash_travel, deltaHash_travel, deltaHash_travel, travel_travel]

theorem deltaHash_bijective (a b : ℕ) :
    Function.Bijective fun h => (deltaHash randomNums key a b h).hash := by
  simp only [deltaHash_travel]
  exact (travel (track randomNums key) a b).bijective

/-- An update is undone by the update in the opposite direction. -/
theorem deltaHash_deltaHash (a b : ℕ) (h : UInt32) :
    (deltaHash randomNums key b a (deltaHash randomNums key a b h).hash).hash = h := by
  rw [deltaHash_stop, deltaHash_travel, travel_self]

/-- An upwards update depends only on the words it reads. -/
theorem deltaHash_congr {key key' : Page} {a b : ℕ} (hab : a ≤ b)
    (hwords : ∀ i, a ≤ i → i < b →
      sampledWord randomNums key (tableIndex i) = sampledWord randomNums key' (tableIndex i))
    (h : UInt32) :
    (deltaHash randomNums key a b h).hash = (deltaHash randomNums key' a b h).hash := by
  rw [deltaHash_travel, deltaHash_travel]
  apply travel_congr hab
  intro i ha hb
  rw [track, track, hwords i ha hb]

/-! ### The table indices that are read -/

/-- `random_sample_hash` stays inside `random_nums` at every strength up to the maximum. -/
theorem randomSampleHash_visited_lt {s : ℕ} (hs : s ≤ hashStrengthMax) :
    ∀ i ∈ (randomSampleHash randomNums key s).visited, i < hashStrengthFull := by
  simp only [hashStrengthMax_eq] at hs
  simp only [randomSampleHash]
  split_ifs with h <;> intro i hi <;>
    simp only [hashFromTo_visited, List.nil_append, List.mem_append, List.mem_range'_1,
      hashStrengthFull_eq] at h hi ⊢ <;> omega

/-- `delta_hash` stays inside `random_nums` between any two strengths up to the maximum. -/
theorem deltaHash_visited_lt {a b : ℕ} (ha : a ≤ hashStrengthMax) (hb : b ≤ hashStrengthMax)
    (h : UInt32) : ∀ i ∈ (deltaHash randomNums key a b h).visited, i < hashStrengthFull := by
  simp only [hashStrengthMax_eq] at ha hb
  have hfull := hashStrengthFull_eq
  simp only [deltaHash]
  split_ifs <;> intro i hi <;>
    simp only [hashFromTo_visited, hashFromDownTo_visited, List.nil_append, List.mem_append,
      List.mem_reverse, List.mem_range'_1] at hi <;> omega

/-! ### The number of positions that are hashed -/

theorem randomSampleHash_visited_length (s : ℕ) :
    (randomSampleHash randomNums key s).visited.length = s := by
  simp only [randomSampleHash]
  split_ifs with h
  · simp only [hashFromTo_visited, List.nil_append, List.length_append, List.length_range']
    omega
  · simp only [hashFromTo_visited, List.nil_append, List.length_range', Nat.sub_zero]

/-- An update hashes the positions between the two strengths, in either direction. -/
theorem deltaHash_visited_length (a b : ℕ) (h : UInt32) :
    (deltaHash randomNums key a b h).visited.length = (b - a) + (a - b) := by
  simp only [deltaHash]
  split_ifs <;>
    simp only [hashFromTo_visited, hashFromDownTo_visited, List.nil_append, List.length_append,
      List.length_reverse, List.length_range'] <;> omega

/-! ### The main results -/

/-- For strengths `from'` and `to'` up to `HASH_STRENGTH_MAX`, in any order and on either side of
`HASH_STRENGTH_FULL`, the incremental update of the hash at `from'` is the hash at `to'`, and it
reads no table entry outside `random_nums`. -/
theorem deltaHash_eq_randomSampleHash (from' to' : ℕ) (hfrom : from' ≤ hashStrengthMax)
    (hto : to' ≤ hashStrengthMax) :
    (deltaHash randomNums key from' to' (randomSampleHash randomNums key from').hash).hash =
        (randomSampleHash randomNums key to').hash ∧
      ∀ i ∈ (deltaHash randomNums key from' to'
          (randomSampleHash randomNums key from').hash).visited, i < hashStrengthFull :=
  ⟨deltaHash_of_sample randomNums key from' to', deltaHash_visited_lt randomNums key hfrom hto _⟩

/-- From the full page and its loop-back down to half a page, for the all-zero page. -/
theorem deltaHash_eq_randomSampleHash_down :
    (deltaHash id (fun _ => 0) 1034 512 (randomSampleHash id (fun _ => 0) 1034).hash).hash =
        (randomSampleHash id (fun _ => 0) 512).hash ∧
      ∀ i ∈ (deltaHash id (fun _ => 0) 1034 512
          (randomSampleHash id (fun _ => 0) 1034).hash).visited, i < hashStrengthFull :=
  deltaHash_eq_randomSampleHash id (fun _ => 0) 1034 512 (by decide) (by decide)

/-- Updates compose along any three strengths and for any running hash, whether or not it is the
hash of a page; so an update has an inverse and permutes the words. -/
theorem deltaHash_path_independent :
    (∀ a b c h, (deltaHash randomNums key b c (deltaHash randomNums key a b h).hash).hash =
      (deltaHash randomNums key a c h).hash) ∧
    (∀ a b h, (deltaHash randomNums key b a (deltaHash randomNums key a b h).hash).hash = h) ∧
    ∀ a b, Function.Bijective fun h => (deltaHash randomNums key a b h).hash :=
  ⟨deltaHash_stop randomNums key, deltaHash_deltaHash randomNums key,
    deltaHash_bijective randomNums key⟩

end DirtyPages
