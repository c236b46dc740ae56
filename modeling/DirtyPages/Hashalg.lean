import DirtyPages.FastHash

/-!
# The reference loop of the block hash

`hashalg.c` computes the block hash by one loop over the words of the block, for any length that is
a multiple of four words.  The unrolled and the byte-stepping versions of `fast_hash.h` compute the
same function.

Each of the four lanes only sees every fourth word, so a hash is a fold of the words of each lane
and a last mixing of the four results.
-/

namespace DirtyPages

namespace Hashalg

/-- `FH_K1` -/
def fhK1 : UInt64 := 0x9E3779B97F4A7C15

/-- `FH_K2` -/
def fhK2 : UInt64 := 0xBF58476D1CE4E5B9

/-- `FH_K3` -/
def fhK3 : UInt64 := 0x94D049BB133111EB

/-- `fh_load64` -/
def fhLoad64 (mem : Memory) (p : ℕ) : UInt64 :=
  (List.range 8).foldr (fun i v => (v <<< 8) ||| (mem (p + i)).toUInt64) 0

/-- `fh_mix` -/
def fhMix (h : UInt64) : UInt64 :=
  let h := h ^^^ (h >>> 33)
  let h := h * fhK2
  let h := h ^^^ (h >>> 29)
  let h := h * fhK3
  h ^^^ (h >>> 32)

/-- `fast_hash`.  The loop index runs through `0, 4, …` below `len / 8`. -/
def fastHash (mem : Memory) (p len : ℕ) : UInt64 :=
  let words := len / 8
  let lanes := (List.range' 0 ((words + 3) / 4) 4).foldl
    (fun lanes i => {
      h0 := (lanes.h0 ^^^ fhLoad64 mem (p + (i + 0) * 8)) * fhK1
      h1 := (lanes.h1 ^^^ fhLoad64 mem (p + (i + 1) * 8)) * fhK2
      h2 := (lanes.h2 ^^^ fhLoad64 mem (p + (i + 2) * 8)) * fhK3
      h3 := (lanes.h3 ^^^ fhLoad64 mem (p + (i + 3) * 8)) * fhK1 : Lanes })
    ⟨fhK1, fhK2, fhK3, fhK1 ^^^ fhK2⟩
  let h := lanes.h0
  let h := (h * fhK1) ^^^ lanes.h1
  let h := (h * fhK2) ^^^ lanes.h2
  let h := (h * fhK3) ^^^ lanes.h3
  fhMix (h ^^^ UInt64.ofNat len)

end Hashalg

/-! ### Four independent lanes -/

/-- One step of a lane. -/
def laneStep (k h word : UInt64) : UInt64 := (h ^^^ word) * k

/-- A lane over the words of a block, given by their numbers. -/
def lane (k seed : UInt64) (words : ℕ → UInt64) (numbers : List ℕ) : UInt64 :=
  (numbers.map words).foldl (laneStep k) seed

/-- The block hash of the words `0, …, 4 * n - 1`, lane by lane. -/
def lanesHash (words : ℕ → UInt64) (n : ℕ) (len : UInt64) : UInt64 :=
  let numbers := List.range' 0 n 4
  fhFold (lane fhK1 fhK1 (fun i => words (i + 0)) numbers)
    (lane fhK2 fhK2 (fun i => words (i + 1)) numbers)
    (lane fhK3 fhK3 (fun i => words (i + 2)) numbers)
    (lane fhK1 (fhK1 ^^^ fhK2) (fun i => words (i + 3)) numbers) len

/-- The word with number `i` of the block at `p`. -/
def blockWord (mem : Memory) (p i : ℕ) : UInt64 := fhLoad64 mem (p + i * 8)

/-- A loop over the four lanes at once. -/
theorem foldl_lanes (words : ℕ → UInt64) (numbers : List ℕ) (s : Lanes) :
    numbers.foldl
      (fun lanes i => {
        h0 := (lanes.h0 ^^^ words (i + 0)) * fhK1
        h1 := (lanes.h1 ^^^ words (i + 1)) * fhK2
        h2 := (lanes.h2 ^^^ words (i + 2)) * fhK3
        h3 := (lanes.h3 ^^^ words (i + 3)) * fhK1 : Lanes }) s =
      ⟨lane fhK1 s.h0 (fun i => words (i + 0)) numbers,
        lane fhK2 s.h1 (fun i => words (i + 1)) numbers,
        lane fhK3 s.h2 (fun i => words (i + 2)) numbers,
        lane fhK1 s.h3 (fun i => words (i + 3)) numbers⟩ := by
  induction numbers generalizing s with
  | nil => rfl
  | cons i numbers ih =>
    rw [List.foldl_cons, ih]
    rfl

/-! ### The two files share their constants and helpers -/

theorem hashalg_fhK1 : Hashalg.fhK1 = fhK1 := rfl

theorem hashalg_fhK2 : Hashalg.fhK2 = fhK2 := rfl

theorem hashalg_fhK3 : Hashalg.fhK3 = fhK3 := rfl

theorem hashalg_fhLoad64 (mem : Memory) (p : ℕ) : Hashalg.fhLoad64 mem p = fhLoad64 mem p := rfl

theorem hashalg_fhMix (h : UInt64) : Hashalg.fhMix h = fhMix h := by
  rw [Hashalg.fhMix, fhMix, hashalg_fhK2, hashalg_fhK3]

/-! ### The three loops -/

theorem hashalg_eq_lanesHash (mem : Memory) (p len : ℕ) :
    Hashalg.fastHash mem p len =
      lanesHash (blockWord mem p) ((len / 8 + 3) / 4) (UInt64.ofNat len) := by
  have hload : ∀ i, fhLoad64 mem (p + i * 8) = blockWord mem p i := fun _ => rfl
  rw [lanesHash, Hashalg.fastHash]
  simp only [hashalg_fhK1, hashalg_fhK2, hashalg_fhK3, hashalg_fhLoad64, hashalg_fhMix, hload,
    foldl_lanes, fhFold]

theorem fastHash4096Scalar_eq_lanesHash (mem : Memory) (p : ℕ) :
    fastHash4096Scalar mem p = lanesHash (blockWord mem p) 128 4096 := by
  -- the byte offsets are the word numbers, eight times
  have hoffsets : List.range' 0 128 32 = (List.range' 0 128 4).map fun i => i * 8 := by decide
  have hload : ∀ i d, fhLoad64 mem (p + i * 8 + d * 8) = blockWord mem p (i + d) := by
    intro i d
    rw [blockWord, Nat.add_assoc, ← Nat.add_mul]
  have hload0 : ∀ i, fhLoad64 mem (p + i * 8 + 0) = blockWord mem p (i + 0) := fun i => hload i 0
  have hload1 : ∀ i, fhLoad64 mem (p + i * 8 + 8) = blockWord mem p (i + 1) := fun i => hload i 1
  have hload2 : ∀ i, fhLoad64 mem (p + i * 8 + 16) = blockWord mem p (i + 2) := fun i => hload i 2
  have hload3 : ∀ i, fhLoad64 mem (p + i * 8 + 24) = blockWord mem p (i + 3) := fun i => hload i 3
  rw [lanesHash, fastHash4096Scalar, hoffsets, List.foldl_map]
  simp only [hload0, hload1, hload2, hload3, foldl_lanes]

theorem fastHash128_eq_lanesHash (mem : Memory) (p : ℕ) :
    fastHash128 mem p = lanesHash (blockWord mem p) 4 128 := by
  have hnumbers : List.range' 0 4 4 = [0, 4, 8, 12] := rfl
  simp only [lanesHash, hnumbers, lane, List.map_cons, List.map_nil, List.foldl_cons,
    List.foldl_nil]
  rfl

/-! ### The header computes the reference loop -/

/-- For every block of 128 and of 4096 bytes the functions of `fast_hash.h`, and its dispatcher in a
build without AES-NI, return what the loop of `hashalg.c` returns. -/
theorem fastHash_eq_hashalg (mem : Memory) (p : ℕ) :
    fastHash128 mem p = Hashalg.fastHash mem p 128 ∧
    fastHash4096Scalar mem p = Hashalg.fastHash mem p 4096 ∧
    ∀ len, len = 128 ∨ len = 4096 → fastHash none mem p len = Hashalg.fastHash mem p len := by
  have hsmall : fastHash128 mem p = Hashalg.fastHash mem p 128 := by
    rw [fastHash128_eq_lanesHash, hashalg_eq_lanesHash]
    rfl
  have hlarge : fastHash4096Scalar mem p = Hashalg.fastHash mem p 4096 := by
    rw [fastHash4096Scalar_eq_lanesHash, hashalg_eq_lanesHash]
    rfl
  refine ⟨hsmall, hlarge, ?_⟩
  intro len hlen
  rcases hlen with rfl | rfl
  · rw [fastHash, if_pos rfl, hsmall]
  · rw [fastHash, if_neg (by omega), fastHash4096, hlarge]

end DirtyPages
