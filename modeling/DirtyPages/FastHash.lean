import Mathlib.Algebra.Ring.Nat
import Mathlib.Data.List.Basic
import Mathlib.Tactic.Common

/-!
# Hashing fixed-size blocks

`fast_hash.h`: the hash of a block of 128 or 4096 bytes.  Blocks lie in one flat byte memory, words
are little-endian, and `_mm_aesenc_si128` is a parameter that is present in builds with AES-NI.
-/

namespace DirtyPages

/-- The bytes of the memory. -/
abbrev Memory := ℕ → UInt8

/-- `FH_K1` -/
def fhK1 : UInt64 := 0x9E3779B97F4A7C15

/-- `FH_K2` -/
def fhK2 : UInt64 := 0xBF58476D1CE4E5B9

/-- `FH_K3` -/
def fhK3 : UInt64 := 0x94D049BB133111EB

/-- `fh_load64` -/
def fhLoad64 (mem : Memory) (p : ℕ) : UInt64 :=
  (List.range 8).foldr (fun i v => (v <<< 8) ||| (mem (p + i)).toUInt64) 0

/-- `fh_mix` -/
def fhMix (h : UInt64) : UInt64 :=
  let h := h ^^^ (h >>> 33)
  let h := h * fhK2
  let h := h ^^^ (h >>> 29)
  let h := h * fhK3
  h ^^^ (h >>> 32)

/-- `STEP(n, lane, K)` -/
def fhStep (mem : Memory) (p n : ℕ) (lane k : UInt64) : UInt64 :=
  (lane ^^^ fhLoad64 mem (p + n * 8)) * k

/-- The four lanes folded into one, and the length. -/
def fhFold (h0 h1 h2 h3 len : UInt64) : UInt64 :=
  let h := h0
  let h := (h * fhK1) ^^^ h1
  let h := (h * fhK2) ^^^ h2
  let h := (h * fhK3) ^^^ h3
  fhMix (h ^^^ len)

/-- `fast_hash_128` -/
def fastHash128 (mem : Memory) (p : ℕ) : UInt64 :=
  let h0 := fhK1
  let h1 := fhK2
  let h2 := fhK3
  let h3 := fhK1 ^^^ fhK2
  let h0 := fhStep mem p 0 h0 fhK1
  let h1 := fhStep mem p 1 h1 fhK2
  let h2 := fhStep mem p 2 h2 fhK3
  let h3 := fhStep mem p 3 h3 fhK1
  let h0 := fhStep mem p 4 h0 fhK1
  let h1 := fhStep mem p 5 h1 fhK2
  let h2 := fhStep mem p 6 h2 fhK3
  let h3 := fhStep mem p 7 h3 fhK1
  let h0 := fhStep mem p 8 h0 fhK1
  let h1 := fhStep mem p 9 h1 fhK2
  let h2 := fhStep mem p 10 h2 fhK3
  let h3 := fhStep mem p 11 h3 fhK1
  let h0 := fhStep mem p 12 h0 fhK1
  let h1 := fhStep mem p 13 h1 fhK2
  let h2 := fhStep mem p 14 h2 fhK3
  let h3 := fhStep mem p 15 h3 fhK1
  fhFold h0 h1 h2 h3 128

/-- The accumulators of the scalar path. -/
structure Lanes where
  h0 : UInt64
  h1 : UInt64
  h2 : UInt64
  h3 : UInt64
  deriving DecidableEq, Repr

/-- `fast_hash_4096_scalar` -/
def fastHash4096Scalar (mem : Memory) (p : ℕ) : UInt64 :=
  let lanes := (List.range' 0 128 32).foldl
    (fun lanes i => {
      h0 := (lanes.h0 ^^^ fhLoad64 mem (p + i + 0)) * fhK1
      h1 := (lanes.h1 ^^^ fhLoad64 mem (p + i + 8)) * fhK2
      h2 := (lanes.h2 ^^^ fhLoad64 mem (p + i + 16)) * fhK3
      h3 := (lanes.h3 ^^^ fhLoad64 mem (p + i + 24)) * fhK1 : Lanes })
    ⟨fhK1, fhK2, fhK3, fhK1 ^^^ fhK2⟩
  fhFold lanes.h0 lanes.h1 lanes.h2 lanes.h3 4096

/-- `__m128i`: the two 64-bit halves, in the order of `_mm_storeu_si128`. -/
structure M128i where
  lo : UInt64
  hi : UInt64
  deriving DecidableEq, Repr

/-- `_mm_xor_si128` -/
def M128i.xor (a b : M128i) : M128i := ⟨a.lo ^^^ b.lo, a.hi ^^^ b.hi⟩

/-- `_mm_loadu_si128` -/
def loadu (mem : Memory) (p : ℕ) : M128i := ⟨fhLoad64 mem p, fhLoad64 mem (p + 8)⟩

/-- `_mm_set1_epi64x` -/
def set1 (a : UInt64) : M128i := ⟨a, a⟩

/-- The accumulators of the AES path. -/
structure Accumulators where
  acc0 : M128i
  acc1 : M128i
  acc2 : M128i
  acc3 : M128i
  deriving DecidableEq, Repr

/-- `fast_hash_4096_aes`, given `_mm_aesenc_si128` -/
def fastHash4096Aes (aesenc : M128i → M128i → M128i) (mem : Memory) (p : ℕ) : UInt64 :=
  let k : M128i := ⟨fhK2, fhK1⟩
  let accs := (List.range' 0 64 64).foldl
    (fun accs i => {
      acc0 := aesenc (accs.acc0.xor (loadu mem (p + i))) k
      acc1 := aesenc (accs.acc1.xor (loadu mem (p + i + 16))) k
      acc2 := aesenc (accs.acc2.xor (loadu mem (p + i + 32))) k
      acc3 := aesenc (accs.acc3.xor (loadu mem (p + i + 48))) k : Accumulators })
    ⟨set1 fhK1, set1 fhK2, set1 fhK3, set1 (fhK1 ^^^ fhK2)⟩
  let acc0 := aesenc (accs.acc0.xor accs.acc1) k
  let acc2 := aesenc (accs.acc2.xor accs.acc3) k
  let out := aesenc (acc0.xor acc2) k
  fhMix (out.lo ^^^ out.hi ^^^ 4096)

/-- `fast_hash_4096`; `aesni` is `_mm_aesenc_si128` where `FH_HAVE_AESNI` holds. -/
def fastHash4096 (aesni : Option (M128i → M128i → M128i)) (mem : Memory) (p : ℕ) : UInt64 :=
  match aesni with
  | some aesenc => fastHash4096Aes aesenc mem p
  | none => fastHash4096Scalar mem p

/-- `fast_hash` -/
def fastHash (aesni : Option (M128i → M128i → M128i)) (mem : Memory) (p len : ℕ) : UInt64 :=
  if len = 128 then fastHash128 mem p else fastHash4096 aesni mem p

/-! ### The hash reads the block and nothing else -/

/-- The `len` bytes from `p` in one memory are those from `q` in another. -/
def SameBytes (mem : Memory) (p : ℕ) (mem' : Memory) (q len : ℕ) : Prop :=
  ∀ i < len, mem (p + i) = mem' (q + i)

variable {mem mem' : Memory} {p q len : ℕ}

/-- A part of two equal blocks. -/
theorem SameBytes.part (h : SameBytes mem p mem' q len) {start n : ℕ} (hn : start + n ≤ len) :
    SameBytes mem (p + start) mem' (q + start) n := by
  intro i hi
  have hbyte := h (start + i) (by omega)
  rw [Nat.add_assoc, hbyte, Nat.add_assoc]

theorem fhLoad64_congr (h : SameBytes mem p mem' q 8) : fhLoad64 mem p = fhLoad64 mem' q := by
  have hbyte : ∀ i ∈ List.range 8, mem (p + i) = mem' (q + i) :=
    fun i hi => h i (List.mem_range.mp hi)
  rw [fhLoad64, fhLoad64]
  generalize List.range 8 = indices at hbyte
  induction indices with
  | nil => rfl
  | cons i indices ih =>
    rw [List.foldr_cons, List.foldr_cons, hbyte i List.mem_cons_self,
      ih fun j hj => hbyte j (List.mem_cons_of_mem i hj)]

theorem loadu_congr (h : SameBytes mem p mem' q 16) : loadu mem p = loadu mem' q := by
  have hlo : SameBytes mem p mem' q 8 := fun i hi => h i (by omega)
  have hhi : SameBytes mem (p + 8) mem' (q + 8) 8 := h.part (by omega)
  rw [loadu, loadu, fhLoad64_congr hlo, fhLoad64_congr hhi]

theorem fastHash128_congr (h : SameBytes mem p mem' q 128) :
    fastHash128 mem p = fastHash128 mem' q := by
  have hload : ∀ n, n < 16 → fhLoad64 mem (p + n * 8) = fhLoad64 mem' (q + n * 8) :=
    fun n hn => fhLoad64_congr (h.part (by omega))
  simp (disch := omega) only [fastHash128, fhStep, hload]

theorem fastHash4096Scalar_congr (h : SameBytes mem p mem' q 4096) :
    fastHash4096Scalar mem p = fastHash4096Scalar mem' q := by
  have hload : ∀ i ∈ List.range' 0 128 32, ∀ d, d + 8 ≤ 32 →
      fhLoad64 mem (p + i + d) = fhLoad64 mem' (q + i + d) := by
    intro i hi d hd
    obtain ⟨j, hj, rfl⟩ := List.mem_range'.mp hi
    have hfit : 0 + 32 * j + d + 8 ≤ 4096 := by omega
    rw [Nat.add_assoc p, Nat.add_assoc q]
    exact fhLoad64_congr (h.part hfit)
  rw [fastHash4096Scalar, fastHash4096Scalar]
  rw [List.foldl_ext _ _ _ fun lanes i hi => ?_]
  simp (disch := omega) only [hload i hi]

theorem fastHash4096Aes_congr (aesenc : M128i → M128i → M128i)
    (h : SameBytes mem p mem' q 4096) :
    fastHash4096Aes aesenc mem p = fastHash4096Aes aesenc mem' q := by
  have hload : ∀ i ∈ List.range' 0 64 64, ∀ d, d + 16 ≤ 64 →
      loadu mem (p + i + d) = loadu mem' (q + i + d) := by
    intro i hi d hd
    obtain ⟨j, hj, rfl⟩ := List.mem_range'.mp hi
    have hfit : 0 + 64 * j + d + 16 ≤ 4096 := by omega
    rw [Nat.add_assoc p, Nat.add_assoc q]
    exact loadu_congr (h.part hfit)
  have hload0 : ∀ i ∈ List.range' 0 64 64, loadu mem (p + i) = loadu mem' (q + i) :=
    fun i hi => hload i hi 0 (by omega)
  rw [fastHash4096Aes, fastHash4096Aes]
  rw [List.foldl_ext _ _ _ fun accs i hi => ?_]
  simp (disch := omega) only [hload i hi, hload0 i hi]

/-- Equal blocks of a supported length have equal hashes. -/
theorem fastHash_congr (aesni : Option (M128i → M128i → M128i)) (hlen : len = 128 ∨ len = 4096)
    (h : SameBytes mem p mem' q len) : fastHash aesni mem p len = fastHash aesni mem' q len := by
  rcases hlen with rfl | rfl
  · rw [fastHash, fastHash, if_pos rfl, if_pos rfl, fastHash128_congr h]
  · rw [fastHash, fastHash, if_neg (by omega), if_neg (by omega)]
    cases aesni with
    | none => exact fastHash4096Scalar_congr h
    | some aesenc => exact fastHash4096Aes_congr aesenc h

end DirtyPages
