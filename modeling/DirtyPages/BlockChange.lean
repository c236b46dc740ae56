import DirtyPages.Hashalg
import DirtyPages.Lib.KeyedFold
import DirtyPages.Lib.XorShift
import Mathlib.Algebra.Group.Units.Equiv
import Mathlib.Data.Nat.Digits.Lemmas
import Mathlib.Data.UInt

/-!
# A change of one word changes the block hash

Every step of the block hash is reversible: a lane step in the lane and in the word, the merge of
the lanes in each lane, and the final mixing.  As a function of one aligned word the hash of a block
is therefore a bijection, and two blocks that differ in one aligned word only never collide.
-/

namespace DirtyPages

open Function KeyedFold

/-! ### Words in memory -/

/-- The memory with the eight bytes of `w` at `p`. -/
def storeWord (mem : Memory) (p : ℕ) (w : UInt64) : Memory := fun q =>
  if p ≤ q ∧ q < p + 8 then UInt8.ofNat (w.toNat / 256 ^ (q - p) % 256) else mem q

/-- Appending a byte to a word below `2 ^ 56`. -/
theorem toNat_shiftLeft_or {v : UInt64} (hv : v.toNat < 2 ^ 56) (byte : UInt8) :
    ((v <<< 8) ||| byte.toUInt64).toNat = byte.toNat + 256 * v.toNat := by
  have hbyte : byte.toNat < 2 ^ 8 := byte.toNat_lt
  have hshift : (v <<< 8).toNat = v.toNat <<< 8 := by
    rw [UInt64.toNat_shiftLeft]
    show v.toNat <<< 8 % 2 ^ 64 = _
    rw [Nat.shiftLeft_eq]
    omega
  rw [UInt64.toNat_or, hshift, UInt8.toNat_toUInt64, ← Nat.shiftLeft_add_eq_or_of_lt hbyte,
    Nat.shiftLeft_eq]
  omega

/-- The bytes of the word at `p`, the lowest first. -/
def wordBytes (mem : Memory) (p : ℕ) : List ℕ := (List.range 8).map fun i => (mem (p + i)).toNat

theorem wordBytes_lt (mem : Memory) (p : ℕ) : ∀ b ∈ wordBytes mem p, b < 256 := by
  intro b hb
  obtain ⟨i, _, rfl⟩ := List.mem_map.mp hb
  exact (mem (p + i)).toNat_lt

/-- A word is the number that its bytes write in base 256. -/
theorem fhLoad64_toNat (mem : Memory) (p : ℕ) :
    (fhLoad64 mem p).toNat = Nat.ofDigits 256 (wordBytes mem p) := by
  have hfold : ∀ l : List ℕ, l.length ≤ 8 →
      (l.foldr (fun i (v : UInt64) => (v <<< 8) ||| (mem (p + i)).toUInt64) 0).toNat =
        Nat.ofDigits 256 (l.map fun i => (mem (p + i)).toNat) := by
    intro l hl
    induction l with
    | nil => rfl
    | cons i l ih =>
      rw [List.length_cons] at hl
      have hrest := ih (by omega)
      have hlt : Nat.ofDigits 256 (l.map fun i => (mem (p + i)).toNat) < 256 ^ l.length := by
        have hbound := Nat.ofDigits_lt_base_pow_length (b := 256)
          (l := l.map fun i => (mem (p + i)).toNat) (by decide) ?_
        · rwa [List.length_map] at hbound
        · intro b hb
          obtain ⟨j, _, rfl⟩ := List.mem_map.mp hb
          exact (mem (p + j)).toNat_lt
      have hpow : 256 ^ l.length ≤ 256 ^ 7 := Nat.pow_le_pow_right (by decide) (by omega)
      rw [List.foldr_cons, toNat_shiftLeft_or (by omega), hrest, List.map_cons, Nat.ofDigits_cons]
  exact hfold (List.range 8) (by decide)

/-- Words are equal when their bytes are, and only then. -/
theorem fhLoad64_eq_iff {mem mem' : Memory} {p q : ℕ} :
    fhLoad64 mem p = fhLoad64 mem' q ↔ SameBytes mem p mem' q 8 := by
  refine ⟨?_, fhLoad64_congr⟩
  intro h i hi
  have hdigits : wordBytes mem p = wordBytes mem' q := by
    refine Nat.ofDigits_inj_of_len_eq (by decide) (by simp [wordBytes]) (wordBytes_lt mem p)
      (wordBytes_lt mem' q) ?_
    rw [← fhLoad64_toNat, ← fhLoad64_toNat, h]
  have hbyte := List.map_inj_left.mp hdigits i (List.mem_range.mpr hi)
  exact UInt8.toNat_inj.mp hbyte

/-- The first `k` digits of a number. -/
theorem ofDigits_range (b n k : ℕ) :
    Nat.ofDigits b ((List.range k).map fun i => n / b ^ i % b) = n % b ^ k := by
  induction k with
  | zero => rw [List.range_zero, List.map_nil, Nat.ofDigits_nil, pow_zero, Nat.mod_one]
  | succ k ih =>
    rw [List.range_succ, List.map_append, Nat.ofDigits_append, ih, List.length_map,
      List.length_range, Nat.mod_pow_succ, List.map_cons, List.map_nil, Nat.ofDigits_singleton]

theorem fhLoad64_storeWord (mem : Memory) (p : ℕ) (w : UInt64) :
    fhLoad64 (storeWord mem p w) p = w := by
  have hbytes : wordBytes (storeWord mem p w) p =
      (List.range 8).map fun i => w.toNat / 256 ^ i % 256 := by
    refine List.map_congr_left fun i hi => ?_
    rw [List.mem_range] at hi
    show (storeWord mem p w (p + i)).toNat = _
    rw [storeWord, if_pos ⟨Nat.le_add_right p i, by omega⟩, Nat.add_sub_cancel_left,
      UInt8.toNat_ofNat']
    exact Nat.mod_mod _ _
  have hw := w.toNat_lt
  apply UInt64.toNat_inj.mp
  rw [fhLoad64_toNat, hbytes, ofDigits_range]
  exact Nat.mod_eq_of_lt hw

theorem fhLoad64_storeWord_of_disjoint (mem : Memory) {p q : ℕ} (w : UInt64)
    (h : q + 8 ≤ p ∨ p + 8 ≤ q) : fhLoad64 (storeWord mem p w) q = fhLoad64 mem q := by
  refine fhLoad64_congr fun i hi => ?_
  rw [storeWord, if_neg (by omega)]

/-- Storing a word of a block changes that word and no other. -/
theorem blockWord_storeWord (mem : Memory) (p i : ℕ) (w : UInt64) :
    blockWord (storeWord mem (p + i * 8) w) p = update (blockWord mem p) i w := by
  funext j
  by_cases hji : j = i
  · subst hji
    rw [update_self, blockWord, fhLoad64_storeWord]
  · rw [update_of_ne hji, blockWord, blockWord, fhLoad64_storeWord_of_disjoint]
    omega

/-! ### The steps of the hash are reversible -/

theorem xor_right_bijective (c : UInt64) : Bijective fun h : UInt64 => h ^^^ c := by
  refine Involutive.bijective fun h => ?_
  rw [UInt64.xor_assoc, UInt64.xor_self, UInt64.xor_zero]

theorem xor_left_bijective (c : UInt64) : Bijective fun h : UInt64 => c ^^^ h := by
  simp only [UInt64.xor_comm c]
  exact xor_right_bijective c

open scoped UInt64.CommRing in
/-- Multiplication by a number with an inverse modulo `2 ^ 64`, as every odd number has one. -/
theorem mul_bijective {k : UInt64} (k' : UInt64) (h : k * k' = 1) :
    Bijective fun x : UInt64 => x * k :=
  (Units.mkOfMulEqOne k k' h).mulRight_bijective

theorem mul_fhK1_bijective : Bijective fun x : UInt64 => x * fhK1 :=
  mul_bijective 0xF1DE83E19937733D (by decide)

theorem mul_fhK2_bijective : Bijective fun x : UInt64 => x * fhK2 :=
  mul_bijective 0x96DE1B173F119089 (by decide)

theorem mul_fhK3_bijective : Bijective fun x : UInt64 => x * fhK3 :=
  mul_bijective 0x319642B2D24D8EC3 (by decide)

theorem toBitVec_bijective : Bijective UInt64.toBitVec :=
  bijective_iff_has_inverse.mpr ⟨UInt64.ofBitVec, fun _ => rfl, fun _ => rfl⟩

/-- An xor-shift of a word, seen on its bits. -/
theorem xorShift_bijective {n : ℕ} {f : UInt64 → UInt64} (hn : 64 ≤ n + n + (n + n))
    (hf : ∀ h, (f h).toBitVec = XorShift.fold n h.toBitVec) : Bijective f := by
  have hcomp : UInt64.toBitVec ∘ f = XorShift.fold n ∘ UInt64.toBitVec := funext hf
  have hbij : Bijective (UInt64.toBitVec ∘ f) := by
    rw [hcomp]
    exact (XorShift.fold_bijective hn).comp toBitVec_bijective
  exact (Bijective.of_comp_iff' toBitVec_bijective f).mp hbij

theorem fhMix_bijective : Bijective fhMix := by
  have h33 : Bijective fun h : UInt64 => h ^^^ (h >>> 33) :=
    xorShift_bijective (n := 33) (by decide) fun _ => rfl
  have h29 : Bijective fun h : UInt64 => h ^^^ (h >>> 29) :=
    xorShift_bijective (n := 29) (by decide) fun _ => rfl
  have h32 : Bijective fun h : UInt64 => h ^^^ (h >>> 32) :=
    xorShift_bijective (n := 32) (by decide) fun _ => rfl
  exact h32.comp (mul_fhK3_bijective.comp (h29.comp (mul_fhK2_bijective.comp h33)))

theorem laneStep_reversible {k : UInt64} (hk : Bijective fun x : UInt64 => x * k) :
    Reversible (laneStep k) where
  state word := hk.comp (xor_right_bijective word)
  input h := hk.comp (xor_left_bijective h)

/-! ### One word of the block -/

section Lanes

variable {k : UInt64} {words words' : ℕ → UInt64} {n i d : ℕ}

theorem lane_congr (seed : UInt64) {numbers : List ℕ} (h : ∀ j ∈ numbers, words j = words' j) :
    lane k seed words numbers = lane k seed words' numbers := by
  rw [lane, lane, List.map_congr_left h]

/-- The lane that the word with number `i` belongs to. -/
theorem lane_update (words : ℕ → UInt64) (hk : Bijective fun x : UInt64 => x * k) (seed : UInt64)
    (hi : i < 4 * n) (hd : i % 4 = d) :
    Bijective fun w => lane k seed (fun j => update words i w (j + d)) (List.range' 0 n 4) :=
  (laneStep_reversible hk).foldl_strided words hi hd seed

/-- The other lanes do not see it. -/
theorem lane_update_of_ne (seed : UInt64) (hd : d < 4) (hne : i % 4 ≠ d) (w : UInt64) :
    lane k seed (fun j => update words i w (j + d)) (List.range' 0 n 4) =
      lane k seed (fun j => words (j + d)) (List.range' 0 n 4) := by
  rw [lane, lane, strided_of_ne words hd hne w]

/-- The final mixing of a block of `len` bytes. -/
theorem fhMix_len_bijective (len : UInt64) : Bijective fun h => fhMix (h ^^^ len) :=
  fhMix_bijective.comp (xor_right_bijective len)

/-- The hash of a block as a function of one of its words: the word enters one lane, and each lane
enters the result reversibly. -/
theorem lanesHash_update (words : ℕ → UInt64) (hi : i < 4 * n) (len : UInt64) :
    Bijective fun w => lanesHash (update words i w) n len := by
  have hmix := fhMix_len_bijective len
  have hcases : i % 4 = 0 ∨ i % 4 = 1 ∨ i % 4 = 2 ∨ i % 4 = 3 := by omega
  have hother : ∀ {d : ℕ} (k seed w : UInt64), d < 4 → i % 4 ≠ d →
      lane k seed (fun j => update words i w (j + d)) (List.range' 0 n 4) =
        lane k seed (fun j => words (j + d)) (List.range' 0 n 4) :=
    fun _ seed w hd hne => lane_update_of_ne seed hd hne w
  simp only [lanesHash, fhFold]
  rcases hcases with h | h | h | h
  · have hlane := lane_update words mul_fhK1_bijective fhK1 hi h
    simp only [hother (d := 1) _ _ _ (by decide) (by omega),
      hother (d := 2) _ _ _ (by decide) (by omega), hother (d := 3) _ _ _ (by decide) (by omega)]
    exact hmix.comp ((xor_right_bijective _).comp (mul_fhK3_bijective.comp
      ((xor_right_bijective _).comp (mul_fhK2_bijective.comp ((xor_right_bijective _).comp
        (mul_fhK1_bijective.comp hlane))))))
  · have hlane := lane_update words mul_fhK2_bijective fhK2 hi h
    simp only [hother (d := 0) _ _ _ (by decide) (by omega),
      hother (d := 2) _ _ _ (by decide) (by omega), hother (d := 3) _ _ _ (by decide) (by omega)]
    exact hmix.comp ((xor_right_bijective _).comp (mul_fhK3_bijective.comp
      ((xor_right_bijective _).comp (mul_fhK2_bijective.comp
        ((xor_left_bijective _).comp hlane)))))
  · have hlane := lane_update words mul_fhK3_bijective fhK3 hi h
    simp only [hother (d := 0) _ _ _ (by decide) (by omega),
      hother (d := 1) _ _ _ (by decide) (by omega), hother (d := 3) _ _ _ (by decide) (by omega)]
    exact hmix.comp ((xor_right_bijective _).comp (mul_fhK3_bijective.comp
      ((xor_left_bijective _).comp hlane)))
  · have hlane := lane_update words mul_fhK1_bijective (fhK1 ^^^ fhK2) hi h
    simp only [hother (d := 0) _ _ _ (by decide) (by omega),
      hother (d := 1) _ _ _ (by decide) (by omega), hother (d := 2) _ _ _ (by decide) (by omega)]
    exact hmix.comp ((xor_left_bijective _).comp hlane)

theorem lanesHash_congr (h : ∀ j < 4 * n, words j = words' j) (len : UInt64) :
    lanesHash words n len = lanesHash words' n len := by
  have hlane : ∀ {d : ℕ} (k seed : UInt64), d < 4 →
      lane k seed (fun j => words (j + d)) (List.range' 0 n 4) =
        lane k seed (fun j => words' (j + d)) (List.range' 0 n 4) := by
    intro d k seed hd
    refine lane_congr seed fun j hj => h (j + d) ?_
    obtain ⟨t, ht, rfl⟩ := List.mem_range'.mp hj
    omega
  rw [lanesHash, lanesHash, hlane (d := 0) _ _ (by decide), hlane (d := 1) _ _ (by decide),
    hlane (d := 2) _ _ (by decide), hlane (d := 3) _ _ (by decide)]

/-- Blocks that differ in one word. -/
theorem lanesHash_ne (hi : i < 4 * n) (hother : ∀ j < 4 * n, j ≠ i → words j = words' j)
    (hne : words i ≠ words' i) (len : UInt64) :
    lanesHash words n len ≠ lanesHash words' n len := by
  have hwords' : lanesHash words' n len = lanesHash (update words i (words' i)) n len := by
    refine lanesHash_congr (fun j hj => ?_) len
    by_cases hji : j = i
    · subst hji
      rw [update_self]
    · rw [update_of_ne hji, hother j hj hji]
  have hwords : lanesHash words n len = lanesHash (update words i (words i)) n len := by
    rw [update_eq_self]
  rw [hwords, hwords']
  exact fun heq => hne ((lanesHash_update words hi len).injective heq)

end Lanes

/-! ### The main result -/

/-- The blocks of `len` bytes at `p` and `q` differ in their aligned words with number `i` and
nowhere else. -/
def DifferInWord (mem : Memory) (p : ℕ) (mem' : Memory) (q len i : ℕ) : Prop :=
  (∀ j < len / 8, j ≠ i → SameBytes mem (p + j * 8) mem' (q + j * 8) 8) ∧
    ¬SameBytes mem (p + i * 8) mem' (q + i * 8) 8

/-- What holds of a block hash that reverses a change of the word with number `i`. -/
def WordSensitive (hash : Memory → ℕ → UInt64) (len i : ℕ) : Prop :=
  (∀ mem p, Bijective fun w => hash (storeWord mem (p + i * 8) w) p) ∧
    ∀ mem p mem' q, DifferInWord mem p mem' q len i → hash mem p ≠ hash mem' q

theorem wordSensitive_of_lanesHash {hash : Memory → ℕ → UInt64} {len i : ℕ}
    (length : UInt64) (hlen : 32 ∣ len) (hi : i < len / 8)
    (hhash : ∀ mem p, hash mem p = lanesHash (blockWord mem p) (len / 32) length) :
    WordSensitive hash len i := by
  have hwords : len / 8 = 4 * (len / 32) := by omega
  rw [hwords] at hi
  constructor
  · intro mem p
    simp only [hhash, blockWord_storeWord]
    exact lanesHash_update _ hi length
  · intro mem p mem' q hdiff
    rw [DifferInWord, hwords] at hdiff
    rw [hhash, hhash]
    refine lanesHash_ne hi (fun j hj hji => ?_) (fun heq => ?_) length
    · exact fhLoad64_eq_iff.mpr (hdiff.1 j hj hji)
    · exact hdiff.2 (fhLoad64_eq_iff.mp heq)

/-- For every length that is a positive multiple of 32 and every aligned word of the block: the
reference hash is a bijection in this word, and blocks that differ in this word only have different
hashes.  The same holds of the two hashes of `fast_hash.h` for their lengths. -/
theorem fastHash_word_sensitive (len i : ℕ) (hlen : 32 ∣ len) (hi : i < len / 8) :
    WordSensitive (fun mem p => Hashalg.fastHash mem p len) len i ∧
    (len = 128 → WordSensitive fastHash128 128 i) ∧
    (len = 4096 → WordSensitive fastHash4096Scalar 4096 i) := by
  refine ⟨?_, ?_, ?_⟩
  · refine wordSensitive_of_lanesHash (UInt64.ofNat len) hlen hi fun mem p => ?_
    rw [hashalg_eq_lanesHash, show (len / 8 + 3) / 4 = len / 32 by omega]
  · intro h
    subst h
    exact wordSensitive_of_lanesHash _ hlen hi fastHash128_eq_lanesHash
  · intro h
    subst h
    exact wordSensitive_of_lanesHash _ hlen hi fastHash4096Scalar_eq_lanesHash

/-- One flipped bit in byte 2000 of a block of 4096 bytes. -/
theorem fastHash_word_sensitive_bit :
    Hashalg.fastHash (fun _ => 0x11) 0 4096 ≠
      Hashalg.fastHash (update (fun _ => 0x11) 2000 0x10) 0 4096 := by
  refine (fastHash_word_sensitive 4096 250 (by decide) (by decide)).1.2 _ 0 _ 0 ⟨?_, ?_⟩
  · intro j _ hj i hi
    rw [update_of_ne (by omega)]
  · intro hsame
    have hbyte := hsame 0 (by decide)
    simp at hbyte

end DirtyPages
