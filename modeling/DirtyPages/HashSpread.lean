import DirtyPages.AesAccumulator
import DirtyPages.BucketCount
import DirtyPages.Lib.Equidistribution
import Mathlib.Data.FinEnum

/-!
# The block hashes spread evenly

Every 64-bit value is the hash of equally many blocks, wherever the block lies and whatever is
around it.  For the scalar hashes this rests on the first word of the block, in which they are
bijections; for the AES hash on the first chunk, in which the merged accumulator is one, and on the
final fold.  So the buckets of a table get the same share of all blocks, for every number of buckets
that `init_hash_table` chooses.
-/

namespace DirtyPages

open Function Outcome BucketLog Equidistribution

/-! ### A block in the memory -/

/-- The content of a block. -/
abbrev Block (len : ℕ) := Fin len → UInt8

/-- The memory with a block at `p`. -/
def placeBlock {len : ℕ} (mem : Memory) (p : ℕ) (block : Block len) : Memory := fun q =>
  if h : q - p < len then if p ≤ q then block ⟨q - p, h⟩ else mem q else mem q

/-- The block at `p`. -/
def readBlock (mem : Memory) (p len : ℕ) : Block len := fun i => mem (p + i)

theorem readBlock_placeBlock {len : ℕ} (mem : Memory) (p : ℕ) (block : Block len) :
    readBlock (placeBlock mem p block) p len = block := by
  funext i
  have hi : p + i - p < len := by
    rw [Nat.add_sub_cancel_left]
    exact i.isLt
  rw [readBlock, placeBlock, dif_pos hi, if_pos (Nat.le_add_right p i)]
  exact congrArg block (Fin.ext (Nat.add_sub_cancel_left p i))

/-- A memory that agrees with another one outside the block is this one with its block. -/
theorem placeBlock_readBlock {len : ℕ} {mem mem' : Memory} {p : ℕ}
    (h : ∀ q, q < p ∨ p + len ≤ q → mem' q = mem q) :
    placeBlock mem p (readBlock mem' p len) = mem' := by
  funext q
  rw [placeBlock]
  split_ifs with hlt hle
  · rw [readBlock, Nat.add_sub_cancel' hle]
  · exact (h q (by omega)).symm
  · exact (h q (by omega)).symm

theorem placeBlock_outside {len : ℕ} (mem : Memory) {p q : ℕ} (block : Block len)
    (h : q < p ∨ p + len ≤ q) : placeBlock mem p block q = mem q := by
  rw [placeBlock]
  split_ifs with hlt hle
  · omega
  · rfl
  · rfl

/-- A part of the memory that lies in the block is a part of the block. -/
def blockPart {K : Type} (l : Lens Memory K) (mem : Memory) (p len : ℕ)
    (hin : ∀ mem k q, q < p ∨ p + len ≤ q → l.set mem k q = mem q) : Lens (Block len) K where
  get block := l.get (placeBlock mem p block)
  set block k := readBlock (l.set (placeBlock mem p block) k) p len
  get_set block k := by
    rw [placeBlock_readBlock, l.get_set]
    intro q hq
    rw [hin _ _ q hq, placeBlock_outside mem block hq]
  set_get block := by rw [l.set_get, readBlock_placeBlock]
  set_set block k k' := by
    rw [placeBlock_readBlock, l.set_set]
    intro q hq
    rw [hin _ _ q hq, placeBlock_outside mem block hq]

theorem placeBlock_blockPart {K : Type} (l : Lens Memory K) {mem : Memory} {p len : ℕ}
    (hin : ∀ mem k q, q < p ∨ p + len ≤ q → l.set mem k q = mem q) (block : Block len) (k : K) :
    placeBlock mem p ((blockPart l mem p len hin).set block k) =
      l.set (placeBlock mem p block) k := by
  apply placeBlock_readBlock
  intro q hq
  show l.set (placeBlock mem p block) k q = mem q
  rw [hin _ _ q hq, placeBlock_outside mem block hq]

/-! ### Words and chunks of the memory -/

theorem storeWord_fhLoad64 (mem : Memory) (p : ℕ) : storeWord mem p (fhLoad64 mem p) = mem := by
  have hsame := fhLoad64_eq_iff.mp (fhLoad64_storeWord mem p (fhLoad64 mem p))
  funext q
  by_cases hq : p ≤ q ∧ q < p + 8
  · have hbyte := hsame (q - p) (by omega)
    rwa [Nat.add_sub_cancel' hq.1] at hbyte
  · rw [storeWord, if_neg hq]

theorem storeWord_outside (mem : Memory) {p q : ℕ} (w : UInt64) (h : q < p ∨ p + 8 ≤ q) :
    storeWord mem p w q = mem q := by
  rw [storeWord, if_neg (by omega)]

theorem storeWord_storeWord (mem : Memory) (p : ℕ) (w w' : UInt64) :
    storeWord (storeWord mem p w) p w' = storeWord mem p w' := by
  funext q
  simp only [storeWord]
  split_ifs
  · rfl
  · rfl

theorem storeWord_comm (mem : Memory) {p q : ℕ} (w w' : UInt64) (h : p + 8 ≤ q) :
    storeWord (storeWord mem q w') p w = storeWord (storeWord mem p w) q w' := by
  funext r
  simp only [storeWord]
  split_ifs
  · omega
  · rfl
  · rfl
  · rfl

/-- The word at `p`. -/
def wordPart (p : ℕ) : Lens Memory UInt64 where
  get mem := fhLoad64 mem p
  set mem w := storeWord mem p w
  get_set mem w := fhLoad64_storeWord mem p w
  set_get mem := storeWord_fhLoad64 mem p
  set_set mem w w' := storeWord_storeWord mem p w w'

/-- The chunk at `p`. -/
def chunkPart (p : ℕ) : Lens Memory M128i where
  get mem := loadu mem p
  set mem d := storeu mem p d
  get_set mem d := loadu_storeu mem p d
  set_get mem := by rw [storeu, loadu, storeWord_fhLoad64, storeWord_fhLoad64]
  set_set mem d d' := by
    rw [storeu, storeu, storeu, storeWord_comm _ _ _ (Nat.le_refl _), storeWord_storeWord,
      storeWord_storeWord]

theorem storeu_outside (mem : Memory) {p q : ℕ} (d : M128i) (h : q < p ∨ p + 16 ≤ q) :
    storeu mem p d q = mem q := by
  rw [storeu, storeWord_outside _ _ (by omega), storeWord_outside _ _ (by omega)]

/-! ### The spread of a block hash -/

/-- Wherever the block lies and whatever is around it, the hash takes every set of values on its
share of the contents. -/
def SpreadsEvenly (hash : Memory → ℕ → UInt64) (len : ℕ) : Prop :=
  ∀ mem p, Spreads fun block : Block len => hash (placeBlock mem p block) p

theorem spreadsEvenly_of_word {hash : Memory → ℕ → UInt64} {len : ℕ} (hlen : 8 ≤ len)
    (h : WordSensitive hash len 0) : SpreadsEvenly hash len := by
  intro mem p
  have hin : ∀ mem w q, q < p ∨ p + len ≤ q → (wordPart p).set mem w q = mem q :=
    fun mem w q hq => storeWord_outside mem w (by omega)
  apply spreads_of_bijective_part (blockPart (wordPart p) mem p len hin)
  intro block
  have hword := h.1 (placeBlock mem p block) p
  simp only [Nat.zero_mul, Nat.add_zero] at hword
  simp only [placeBlock_blockPart]
  exact hword

/-- The scalar hashes, of any length that is a positive multiple of 32. -/
theorem spreadsEvenly_of_lanesHash {hash : Memory → ℕ → UInt64} {len : ℕ} (length : UInt64)
    (hlen : 32 ∣ len) (hpos : 0 < len)
    (hhash : ∀ mem p, hash mem p = lanesHash (blockWord mem p) (len / 32) length) :
    SpreadsEvenly hash len := by
  have hle : 32 ≤ len := Nat.le_of_dvd hpos hlen
  exact spreadsEvenly_of_word (by omega)
    (wordSensitive_of_lanesHash length hlen (by omega) hhash)

/-- The merged accumulator spreads over all registers. -/
theorem aesAccumulator_spreads (mem : Memory) (p : ℕ) :
    Spreads fun block : Block 4096 => aesAccumulator (placeBlock mem p block) p := by
  have hin : ∀ mem d q, q < p ∨ p + 4096 ≤ q → (chunkPart p).set mem d q = mem q :=
    fun mem d q hq => storeu_outside mem d (by omega)
  apply spreads_of_bijective_part (blockPart (chunkPart p) mem p 4096 hin)
  intro block
  have hchunk : ∀ d, blockChunk (storeu (placeBlock mem p block) p d) p =
      update (blockChunk (placeBlock mem p block) p) 0 d := by
    intro d
    rw [← blockChunk_storeu, Nat.zero_mul, Nat.add_zero]
  simp only [placeBlock_blockPart, aesAccumulator_eq]
  simp only [chunkPart, hchunk]
  exact mergedLanes_update _ (by decide)

/-- The lower half of a register. -/
def lowHalf : Lens M128i UInt64 where
  get x := x.lo
  set x w := ⟨w, x.hi⟩
  get_set _ _ := rfl
  set_get _ := rfl
  set_set _ _ _ := rfl

/-- The final fold spreads the registers over the words. -/
theorem finalFold_spreads : Spreads fun x : M128i => fhMix (x.lo ^^^ x.hi ^^^ 4096) := by
  apply spreads_of_bijective_part lowHalf
  intro x
  exact (fhMix_len_bijective 4096).comp (xor_right_bijective x.hi)

theorem fastHash4096Aes_spreads : SpreadsEvenly (fastHash4096Aes aesenc) 4096 := by
  intro mem p
  have : Nonempty M128i := ⟨set1 0⟩
  exact finalFold_spreads.comp (aesAccumulator_spreads mem p)

/-- The dispatcher of `fast_hash.h`, in both builds. -/
theorem dispatcher_spreads {aesni : Option (M128i → M128i → M128i)}
    (hbuild : aesni = none ∨ aesni = some aesenc) {len : ℕ} (hlen : len = 128 ∨ len = 4096) :
    SpreadsEvenly (fun mem p => fastHash aesni mem p len) len := by
  rcases hlen with rfl | rfl
  · exact spreadsEvenly_of_lanesHash 128 (by decide) (by decide) fastHash128_eq_lanesHash
  · rcases hbuild with rfl | rfl
    · exact spreadsEvenly_of_lanesHash 4096 (by decide) (by decide)
        fastHash4096Scalar_eq_lanesHash
    · exact fastHash4096Aes_spreads

/-! ### The buckets -/

/-- A table that `init_hash_table` has set up has a power of two of buckets. -/
theorem roundUp_eq_doubled {fuel k : ℕ} {bucketCount n : UInt64}
    (h : roundUp fuel (doubled k) bucketCount = .ok n) : ∃ j, n = doubled j := by
  induction fuel generalizing k with
  | zero => cases h
  | succ fuel ih =>
    rw [roundUp] at h
    split_ifs at h
    · rw [doubled_shiftLeft] at h
      exact ih h
    · cases h
      exact ⟨k, rfl⟩

theorem initHashTable_masks {fuel : ℕ} {calloc : UInt64 → Bool} {request : UInt64} {t : FhTable}
    (h : initHashTable fuel calloc request = .ok (some t)) : MasksModulo t.bucketCount := by
  obtain ⟨n, hn, hrest⟩ := bind_eq_ok.mp h
  have ht : t.bucketCount = n := by
    split_ifs at hrest
    · cases hrest
      rfl
    · cases hrest
  have hne : n ≠ 0 := roundUp_ne_zero (by decide) hn
  obtain ⟨j, hj⟩ := roundUp_eq_doubled (k := 0) hn
  have hlt : j < 64 := by
    by_contra hge
    have hzero : 2 ^ j % 2 ^ 64 = 0 := Nat.mod_eq_zero_of_dvd (Nat.pow_dvd_pow 2 (by omega))
    apply hne
    apply UInt64.toNat_inj.mp
    rw [hj, doubled, UInt64.toNat_ofNat', hzero]
    rfl
  rw [ht, hj]
  exact masksModulo_doubled hlt

theorem xor_and_distrib (a b mask : UInt64) :
    (a ^^^ b) &&& mask = (a &&& mask) ^^^ (b &&& mask) := by
  apply UInt64.toBitVec_inj.mp
  ext i hi
  simp [Bool.and_xor_distrib_right]

/-- Two indices under a mask are the indices of equally many words. -/
theorem card_masked {mask idx idx' : UInt64} (h : idx &&& mask = idx)
    (h' : idx' &&& mask = idx') :
    Nat.card {v // v &&& mask = idx} = Nat.card {v // v &&& mask = idx'} := by
  have hswap : Involutive fun v => v ^^^ (idx ^^^ idx') := by
    intro v
    show v ^^^ (idx ^^^ idx') ^^^ (idx ^^^ idx') = v
    rw [UInt64.xor_assoc, UInt64.xor_self, UInt64.xor_zero]
  apply Nat.card_congr
  apply hswap.toPerm.subtypeEquiv
  intro v
  show v &&& mask = idx ↔ (v ^^^ (idx ^^^ idx')) &&& mask = idx'
  rw [xor_and_distrib, xor_and_distrib, h, h']
  constructor
  · intro hv
    rw [hv, ← UInt64.xor_assoc, UInt64.xor_self, UInt64.zero_xor]
  · intro hv
    calc v &&& mask = (v &&& mask) ^^^ (idx ^^^ idx') ^^^ (idx ^^^ idx') := (hswap _).symm
      _ = idx' ^^^ (idx' ^^^ idx) := by rw [hv, UInt64.xor_comm idx]
      _ = idx := by rw [← UInt64.xor_assoc, UInt64.xor_self, UInt64.zero_xor]

theorem MasksModulo.and_of_lt {n idx : UInt64} (h : MasksModulo n) (hidx : idx < n) :
    idx &&& (n - 1) = idx := by
  apply UInt64.toNat_inj.mp
  rw [(h idx).2]
  exact Nat.mod_eq_of_lt (UInt64.lt_iff_toNat_lt.mp hidx)

/-! ### The main results -/

/-- Every set of 64-bit values is the hash of its share of all blocks, wherever the block lies and
whatever is around it: for the loop of `hashalg.c` and every length that is a positive multiple of
32, and for the hashes of `fast_hash.h`, with and without AES-NI. -/
theorem fastHash_spreads :
    (∀ len, 32 ∣ len → 0 < len → SpreadsEvenly (fun mem p => Hashalg.fastHash mem p len) len) ∧
      ∀ aesni len, aesni = none ∨ aesni = some aesenc → len = 128 ∨ len = 4096 →
        SpreadsEvenly (fun mem p => fastHash aesni mem p len) len := by
  constructor
  · intro len hlen hpos
    refine spreadsEvenly_of_lanesHash (UInt64.ofNat len) hlen hpos fun mem p => ?_
    rw [hashalg_eq_lanesHash, show (len / 8 + 3) / 4 = len / 32 by omega]
  · intro aesni len hbuild hlen
    exact dispatcher_spreads hbuild hlen

/-- The blocks of 160 bytes for the loop, and the pages for the AES hash, with hash 0. -/
theorem fastHash_spreads_zero :
    Nat.card {block : Block 160 // Hashalg.fastHash (placeBlock (fun _ => 0) 8 block) 8 160 = 0} *
        Nat.card UInt64 = Nat.card {v : UInt64 // v = 0} * Nat.card (Block 160) ∧
      Nat.card {block : Block 4096 //
        fastHash (some aesenc) (placeBlock (fun _ => 0) 8 block) 8 4096 = 0} * Nat.card UInt64 =
          Nat.card {v : UInt64 // v = 0} * Nat.card (Block 4096) :=
  ⟨fastHash_spreads.1 160 (by decide) (by decide) (fun _ => 0) 8 (· = 0),
    fastHash_spreads.2 (some aesenc) 4096 (Or.inr rfl) (Or.inr rfl) (fun _ => 0) 8 (· = 0)⟩

/-- Any two buckets of a table that `init_hash_table` has set up receive the same number of blocks,
whatever the requested number of buckets was. -/
theorem hashTable_buckets_even {fuel : ℕ} {calloc : UInt64 → Bool} {request : UInt64}
    {t : FhTable} (hinit : initHashTable fuel calloc request = .ok (some t))
    {aesni : Option (M128i → M128i → M128i)} (hbuild : aesni = none ∨ aesni = some aesenc)
    {len : ℕ} (hlen : len = 128 ∨ len = 4096) (mem : Memory) (p : ℕ) {idx idx' : UInt64}
    (hidx : idx < t.bucketCount) (hidx' : idx' < t.bucketCount) :
    Nat.card {block : Block len //
        fastHash aesni (placeBlock mem p block) p len &&& (t.bucketCount - 1) = idx} =
      Nat.card {block : Block len //
        fastHash aesni (placeBlock mem p block) p len &&& (t.bucketCount - 1) = idx'} := by
  have hmask := initHashTable_masks hinit
  exact (dispatcher_spreads hbuild hlen mem p).card_congr
    (S := fun v => v &&& (t.bucketCount - 1) = idx)
    (T := fun v => v &&& (t.bucketCount - 1) = idx')
    (card_masked (hmask.and_of_lt hidx) (hmask.and_of_lt hidx'))

/-- The first and the last of the four buckets of a table for three. -/
theorem hashTable_buckets_even_four :
    Nat.card {block : Block 128 //
        fastHash none (placeBlock (fun _ => 0) 0 block) 0 128 &&& (4 - 1) = 0} =
      Nat.card {block : Block 128 //
        fastHash none (placeBlock (fun _ => 0) 0 block) 0 128 &&& (4 - 1) = 3} :=
  hashTable_buckets_even
    (show initHashTable 3 (fun _ => true) 3 = .ok (some ⟨fun _ => [], 4, 0⟩) from rfl)
    (Or.inl rfl) (Or.inl rfl) (fun _ => 0) 0 (show (0 : UInt64) < 4 by decide)
    (show (3 : UInt64) < 4 by decide)

end DirtyPages
