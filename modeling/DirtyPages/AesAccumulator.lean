import DirtyPages.BlockChange
import DirtyPages.Lib.AesRound
import Mathlib.Data.Finite.Prod

/-!
# A change of one chunk changes the AES accumulator

`fast_hash_4096_aes` absorbs the 256 aligned chunks of sixteen bytes in four accumulators, with one
round of AES for each chunk, and merges the accumulators by three more rounds.  A round is a
bijection of the register, so the merged accumulator is one in each of the chunks.  Blocks that
differ in one chunk only can collide only where the two halves of the accumulator are folded.
-/

namespace DirtyPages

open Function KeyedFold

/-! ### The instruction -/

/-- `_mm_storeu_si128` -/
def storeu (mem : Memory) (p : ℕ) (x : M128i) : Memory :=
  storeWord (storeWord mem p x.lo) (p + 8) x.hi

/-- The bytes of a register as a state of AES, the lowest byte in the first row of the first
column. -/
def registerState (x : M128i) : AesRound.State := fun c r =>
  storeu (fun _ => 0) 0 x (4 * c + r)

/-- The register with the bytes of a state. -/
def stateRegister (s : AesRound.State) : M128i := loadu s.byte 0

/-- `_mm_aesenc_si128` -/
def aesenc (x k : M128i) : M128i :=
  (stateRegister (AesRound.keylessRound (registerState x))).xor k

example : aesenc ⟨0x63746f725d53475d, 0x7b5b546573745665⟩ ⟨0x5b477565726f6e5d, 0x4869285368617929⟩ =
    ⟨0x8b104b58ded7e595, 0xa8311c2f9fdba3c5⟩ := by decide +kernel

theorem loadu_storeu (mem : Memory) (p : ℕ) (x : M128i) : loadu (storeu mem p x) p = x := by
  rw [loadu, storeu, fhLoad64_storeWord_of_disjoint _ _ (by omega), fhLoad64_storeWord,
    fhLoad64_storeWord]

theorem loadu_storeu_of_disjoint (mem : Memory) {p q : ℕ} (x : M128i)
    (h : q + 16 ≤ p ∨ p + 16 ≤ q) : loadu (storeu mem p x) q = loadu mem q := by
  simp (disch := omega) only [loadu, storeu, fhLoad64_storeWord_of_disjoint]

/-- Registers are equal when their bytes are, and only then. -/
theorem loadu_eq_iff {mem mem' : Memory} {p q : ℕ} :
    loadu mem p = loadu mem' q ↔ SameBytes mem p mem' q 16 := by
  refine ⟨fun h i hi => ?_, loadu_congr⟩
  rw [loadu, loadu, M128i.mk.injEq, fhLoad64_eq_iff, fhLoad64_eq_iff] at h
  rcases Nat.lt_or_ge i 8 with hlow | hhigh
  · exact h.1 i hlow
  · have hbyte := h.2 (i - 8) (by omega)
    rwa [Nat.add_assoc, Nat.add_assoc, Nat.add_sub_cancel' hhigh] at hbyte

theorem registerState_injective : Injective registerState := by
  intro x y h
  have hsame : SameBytes (storeu (fun _ => 0) 0 x) 0 (storeu (fun _ => 0) 0 y) 0 16 := by
    intro i hi
    have hi4 : i / 4 < 4 := by omega
    have hbyte := congrFun (congrFun h ⟨i / 4, hi4⟩) ⟨i % 4, Nat.mod_lt i (by decide)⟩
    simp only [registerState, Nat.div_add_mod] at hbyte
    rwa [Nat.zero_add]
  rw [← loadu_storeu (fun _ => 0) 0 x, ← loadu_storeu (fun _ => 0) 0 y]
  exact loadu_congr hsame

theorem stateRegister_injective : Injective stateRegister := by
  intro s t h
  funext c r
  have hbyte := loadu_eq_iff.mp h (4 * c + r) (by omega)
  have hcol : (0 + (4 * (c : ℕ) + r)) / 4 = c := by omega
  have hrow : Fin.ofNat 4 (0 + (4 * (c : ℕ) + r)) = r := by
    apply Fin.ext
    rw [Fin.val_ofNat]
    omega
  simpa only [AesRound.State.byte, hcol, hrow, Fin.ofNat_val_eq_self] using hbyte

instance : Finite M128i := by
  refine Finite.of_injective (fun x => (x.lo.toFin, x.hi.toFin)) fun x y h => ?_
  rw [Prod.mk.injEq, UInt64.toFin_inj, UInt64.toFin_inj] at h
  rw [← M128i.mk.injEq] at h
  exact h

theorem M128i.xor_left_bijective (c : M128i) : Bijective fun x => c.xor x := by
  refine Involutive.bijective fun x => ?_
  simp only [M128i.xor, ← UInt64.xor_assoc, UInt64.xor_self, UInt64.zero_xor]

theorem M128i.xor_right_bijective (c : M128i) : Bijective fun x : M128i => x.xor c := by
  refine Involutive.bijective fun x => ?_
  simp only [M128i.xor, UInt64.xor_assoc, UInt64.xor_self, UInt64.xor_zero]

/-- One round of AES is a bijection of the register, for every key. -/
theorem aesenc_bijective (k : M128i) : Bijective fun x => aesenc x k := by
  have hround : Bijective fun x => stateRegister (AesRound.keylessRound (registerState x)) :=
    Finite.injective_iff_bijective.mp (stateRegister_injective.comp
      (AesRound.keylessRound_injective.comp registerState_injective))
  exact (M128i.xor_right_bijective k).comp hround

/-! ### The accumulators -/

/-- One chunk absorbed in an accumulator. -/
def absorb (k acc d : M128i) : M128i := aesenc (acc.xor d) k

theorem absorb_reversible (k : M128i) : Reversible (absorb k) where
  state d := (aesenc_bijective k).comp (M128i.xor_right_bijective d)
  input acc := (aesenc_bijective k).comp (M128i.xor_left_bijective acc)

/-- The key of all rounds. -/
def fhKey : M128i := ⟨fhK2, fhK1⟩

/-- The three rounds of the merge. -/
def mergeAccumulators (k : M128i) (accs : Accumulators) : M128i :=
  absorb k (absorb k accs.acc0 accs.acc1) (absorb k accs.acc2 accs.acc3)

/-- The accumulator `acc0` of `fast_hash_4096_aes` after the merge. -/
def aesAccumulator (mem : Memory) (p : ℕ) : M128i :=
  let accs := (List.range' 0 64 64).foldl
    (fun accs i => {
      acc0 := aesenc (accs.acc0.xor (loadu mem (p + i))) fhKey
      acc1 := aesenc (accs.acc1.xor (loadu mem (p + i + 16))) fhKey
      acc2 := aesenc (accs.acc2.xor (loadu mem (p + i + 32))) fhKey
      acc3 := aesenc (accs.acc3.xor (loadu mem (p + i + 48))) fhKey : Accumulators })
    ⟨set1 fhK1, set1 fhK2, set1 fhK3, set1 (fhK1 ^^^ fhK2)⟩
  mergeAccumulators fhKey accs

/-- The hash folds the halves of the accumulator and mixes the result. -/
theorem fastHash4096Aes_eq (mem : Memory) (p : ℕ) :
    fastHash4096Aes aesenc mem p =
      fhMix ((aesAccumulator mem p).lo ^^^ (aesAccumulator mem p).hi ^^^ 4096) := rfl

/-- The chunk with number `j` of the block at `p`. -/
def blockChunk (mem : Memory) (p j : ℕ) : M128i := loadu mem (p + j * 16)

/-- An accumulator over the chunks of a block, given by their numbers. -/
def chunkLane (k seed : M128i) (chunks : ℕ → M128i) (d : ℕ) : M128i :=
  ((List.range' 0 64 4).map fun j => chunks (j + d)).foldl (absorb k) seed

/-- The merged accumulator of a sequence of chunks. -/
def mergedLanes (chunks : ℕ → M128i) : M128i :=
  mergeAccumulators fhKey ⟨chunkLane fhKey (set1 fhK1) chunks 0, chunkLane fhKey (set1 fhK2) chunks 1,
    chunkLane fhKey (set1 fhK3) chunks 2, chunkLane fhKey (set1 (fhK1 ^^^ fhK2)) chunks 3⟩

/-- The loop over the four accumulators at once. -/
theorem foldl_chunkLanes (k : M128i) (chunks : ℕ → M128i) (numbers : List ℕ) (s : Accumulators) :
    numbers.foldl
      (fun accs j => {
        acc0 := absorb k accs.acc0 (chunks (j + 0))
        acc1 := absorb k accs.acc1 (chunks (j + 1))
        acc2 := absorb k accs.acc2 (chunks (j + 2))
        acc3 := absorb k accs.acc3 (chunks (j + 3)) : Accumulators }) s =
      ⟨(numbers.map fun j => chunks (j + 0)).foldl (absorb k) s.acc0,
        (numbers.map fun j => chunks (j + 1)).foldl (absorb k) s.acc1,
        (numbers.map fun j => chunks (j + 2)).foldl (absorb k) s.acc2,
        (numbers.map fun j => chunks (j + 3)).foldl (absorb k) s.acc3⟩ := by
  induction numbers generalizing s with
  | nil => rfl
  | cons j numbers ih =>
    rw [List.foldl_cons, ih]
    rfl

theorem aesAccumulator_eq (mem : Memory) (p : ℕ) :
    aesAccumulator mem p = mergedLanes (blockChunk mem p) := by
  -- the byte offsets are the chunk numbers, sixteen times
  have hoffsets : List.range' 0 64 64 = (List.range' 0 64 4).map fun j => j * 16 := by decide
  have hchunk : ∀ j d, loadu mem (p + j * 16 + d * 16) = blockChunk mem p (j + d) := by
    intro j d
    rw [blockChunk, Nat.add_assoc, ← Nat.add_mul]
  have hchunk0 : ∀ j, loadu mem (p + j * 16) = blockChunk mem p (j + 0) := fun j => hchunk j 0
  have hchunk1 : ∀ j, loadu mem (p + j * 16 + 16) = blockChunk mem p (j + 1) := fun j => hchunk j 1
  have hchunk2 : ∀ j, loadu mem (p + j * 16 + 32) = blockChunk mem p (j + 2) := fun j => hchunk j 2
  have hchunk3 : ∀ j, loadu mem (p + j * 16 + 48) = blockChunk mem p (j + 3) := fun j => hchunk j 3
  rw [aesAccumulator, hoffsets, List.foldl_map]
  simp only [hchunk0, hchunk1, hchunk2, hchunk3]
  exact congrArg (mergeAccumulators fhKey)
    (foldl_chunkLanes fhKey (blockChunk mem p) (List.range' 0 64 4) _)

/-! ### One chunk of the block -/

section Chunk

variable {chunks chunks' : ℕ → M128i} {j : ℕ}

/-- The merged accumulator as a function of one chunk: the chunk enters one accumulator, and each
accumulator enters the merge reversibly. -/
theorem mergedLanes_update (chunks : ℕ → M128i) (hj : j < 256) :
    Bijective fun d => mergedLanes (update chunks j d) := by
  have hcases : j % 4 = 0 ∨ j % 4 = 1 ∨ j % 4 = 2 ∨ j % 4 = 3 := by omega
  have hkey : Reversible (absorb fhKey) := absorb_reversible fhKey
  have hown : ∀ (d : ℕ) (seed : M128i), j % 4 = d →
      Bijective fun x => chunkLane fhKey seed (update chunks j x) d :=
    fun d seed hd => hkey.foldl_strided chunks (n := 64) hj hd seed
  have hother : ∀ (d : ℕ) (seed x : M128i), d < 4 → j % 4 ≠ d →
      chunkLane fhKey seed (update chunks j x) d = chunkLane fhKey seed chunks d := by
    intro d seed x hd hne
    rw [chunkLane, chunkLane, strided_of_ne chunks hd hne x]
  simp only [mergedLanes, mergeAccumulators]
  rcases hcases with h | h | h | h
  · simp only [hother 1 _ _ (by decide) (by omega), hother 2 _ _ (by decide) (by omega),
      hother 3 _ _ (by decide) (by omega)]
    exact (hkey.state _).comp ((hkey.state _).comp (hown 0 _ h))
  · simp only [hother 0 _ _ (by decide) (by omega), hother 2 _ _ (by decide) (by omega),
      hother 3 _ _ (by decide) (by omega)]
    exact (hkey.state _).comp ((hkey.input _).comp (hown 1 _ h))
  · simp only [hother 0 _ _ (by decide) (by omega), hother 1 _ _ (by decide) (by omega),
      hother 3 _ _ (by decide) (by omega)]
    exact (hkey.input _).comp ((hkey.state _).comp (hown 2 _ h))
  · simp only [hother 0 _ _ (by decide) (by omega), hother 1 _ _ (by decide) (by omega),
      hother 2 _ _ (by decide) (by omega)]
    exact (hkey.input _).comp ((hkey.input _).comp (hown 3 _ h))

theorem mergedLanes_congr (h : ∀ j < 256, chunks j = chunks' j) :
    mergedLanes chunks = mergedLanes chunks' := by
  have hlane : ∀ (seed : M128i) (d : ℕ), d < 4 →
      chunkLane fhKey seed chunks d = chunkLane fhKey seed chunks' d := by
    intro seed d hd
    rw [chunkLane, chunkLane]
    refine congrArg _ (List.map_congr_left fun i hi => h (i + d) ?_)
    obtain ⟨t, ht, rfl⟩ := List.mem_range'.mp hi
    omega
  rw [mergedLanes, mergedLanes, hlane _ 0 (by decide), hlane _ 1 (by decide),
    hlane _ 2 (by decide), hlane _ 3 (by decide)]

theorem mergedLanes_ne (hj : j < 256) (hother : ∀ i < 256, i ≠ j → chunks i = chunks' i)
    (hne : chunks j ≠ chunks' j) : mergedLanes chunks ≠ mergedLanes chunks' := by
  have hchunks' : mergedLanes chunks' = mergedLanes (update chunks j (chunks' j)) := by
    refine mergedLanes_congr fun i hi => ?_
    by_cases hij : i = j
    · subst hij
      rw [update_self]
    · rw [update_of_ne hij, hother i hi hij]
  have hchunks : mergedLanes chunks = mergedLanes (update chunks j (chunks j)) := by
    rw [update_eq_self]
  rw [hchunks, hchunks']
  exact fun heq => hne ((mergedLanes_update chunks hj).injective heq)

end Chunk

/-- Storing a chunk of a block changes that chunk and no other. -/
theorem blockChunk_storeu (mem : Memory) (p j : ℕ) (d : M128i) :
    blockChunk (storeu mem (p + j * 16) d) p = update (blockChunk mem p) j d := by
  funext i
  by_cases hij : i = j
  · subst hij
    rw [update_self, blockChunk, loadu_storeu]
  · rw [update_of_ne hij, blockChunk, blockChunk, loadu_storeu_of_disjoint]
    omega

/-! ### The main result -/

/-- The blocks of 4096 bytes at `p` and `q` differ in their aligned chunks with number `j` and
nowhere else. -/
def DifferInChunk (mem : Memory) (p : ℕ) (mem' : Memory) (q j : ℕ) : Prop :=
  (∀ i < 4096, i / 16 ≠ j → mem (p + i) = mem' (q + i)) ∧
    ¬SameBytes mem (p + j * 16) mem' (q + j * 16) 16

theorem DifferInChunk.blockChunk_ne {mem mem' : Memory} {p q j : ℕ}
    (h : DifferInChunk mem p mem' q j) : blockChunk mem p j ≠ blockChunk mem' q j :=
  fun heq => h.2 (loadu_eq_iff.mp heq)

theorem DifferInChunk.blockChunk_eq {mem mem' : Memory} {p q i j : ℕ}
    (h : DifferInChunk mem p mem' q j) (hi : i < 256) (hij : i ≠ j) :
    blockChunk mem p i = blockChunk mem' q i := by
  refine loadu_congr fun b hb => ?_
  rw [Nat.add_assoc, Nat.add_assoc]
  exact h.1 (i * 16 + b) (by omega) (by omega)

/-- With one round of AES as `_mm_aesenc_si128`, for every block and every aligned chunk of it: the
merged accumulator of `fast_hash_4096_aes` is a bijection in this chunk; blocks that differ in this
chunk only have different accumulators, and collide exactly when the two halves of these have the
same sum. -/
theorem fastHash4096Aes_chunk_sensitive (j : ℕ) (hj : j < 256) :
    (∀ mem p, Bijective fun d => aesAccumulator (storeu mem (p + j * 16) d) p) ∧
    ∀ mem p mem' q, DifferInChunk mem p mem' q j →
      aesAccumulator mem p ≠ aesAccumulator mem' q ∧
      (fastHash4096Aes aesenc mem p = fastHash4096Aes aesenc mem' q ↔
        (aesAccumulator mem p).lo ^^^ (aesAccumulator mem p).hi =
          (aesAccumulator mem' q).lo ^^^ (aesAccumulator mem' q).hi) := by
  constructor
  · intro mem p
    simp only [aesAccumulator_eq, blockChunk_storeu]
    exact mergedLanes_update _ hj
  · intro mem p mem' q hdiff
    constructor
    · rw [aesAccumulator_eq, aesAccumulator_eq]
      exact mergedLanes_ne hj (fun i hi hij => hdiff.blockChunk_eq hi hij) hdiff.blockChunk_ne
    · rw [fastHash4096Aes_eq, fastHash4096Aes_eq]
      exact (fhMix_len_bijective 4096).injective.eq_iff

/-- One flipped bit in byte 2000 of a block of 4096 bytes. -/
theorem fastHash4096Aes_chunk_sensitive_bit :
    aesAccumulator (fun _ => 0x11) 0 ≠ aesAccumulator (update (fun _ => 0x11) 2000 0x10) 0 := by
  refine ((fastHash4096Aes_chunk_sensitive 125 (by decide)).2 _ 0 _ 0 ⟨?_, ?_⟩).1
  · intro i _ hi
    rw [update_of_ne (by omega)]
  · intro hsame
    have hbyte := hsame 0 (by decide)
    rw [update_self] at hbyte
    exact absurd hbyte (by decide)

end DirtyPages
