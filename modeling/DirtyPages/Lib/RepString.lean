import Mathlib.Data.Nat.Digits.Lemmas
import Mathlib.Data.UInt
import Mathlib.Tactic.Common

/-!
# Repeated string instructions

The part of the x86 string instructions that decides their result: words in memory are
little-endian, a comparison sets the zero and the carry flag from a difference, and the prefix
`repe` repeats it until the count is used up or a comparison clears the zero flag.  With a count of
zero no comparison runs and the flags are those found.
-/

namespace RepString

/-- The zero flag and the carry flag. -/
structure Flags where
  zf : Bool
  cf : Bool
  deriving DecidableEq, Repr

/-- The flags of the difference `a - b`. -/
def compare (a b : ℕ) : Flags := ⟨a = b, a < b⟩

/-- `test r, r` -/
def testSelf (r : ℕ) : Flags := ⟨r = 0, false⟩

/-- The word of `w` bytes at `p`. -/
def wordAt (w : ℕ) (mem : ℕ → UInt8) (p : ℕ) : ℕ :=
  Nat.ofDigits 256 ((List.range w).map fun i => (mem (p + i)).toNat)

/-- The prefix `repe`: `iteration i` gives the flags of the comparison with number `i`. -/
def repe (iteration : ℕ → Flags) : ℕ → ℕ → Flags → Flags
  | 0, _, flags => flags
  | count + 1, i, _ =>
    let flags := iteration i
    if flags.zf then repe iteration count (i + 1) flags else flags

/-- `repe; cmps` on words of `w` bytes -/
def repeCmps (w : ℕ) (mem : ℕ → UInt8) (src dst count : ℕ) (flags : Flags) : Flags :=
  repe (fun i => compare (wordAt w mem (src + w * i)) (wordAt w mem (dst + w * i))) count 0 flags

/-- `repe; scas` on words of `w` bytes, with `a` in the accumulator -/
def repeScas (w : ℕ) (mem : ℕ → UInt8) (a dst count : ℕ) (flags : Flags) : Flags :=
  repe (fun i => compare a (wordAt w mem (dst + w * i))) count 0 flags

/-- `sete` -/
def sete (flags : Flags) : UInt8 := if flags.zf then 1 else 0

/-- `sbb r, r` on a register of `n` bits -/
def sbbSelf (n : ℕ) (flags : Flags) : BitVec n := if flags.cf then -1 else 0

/-! ### The flags after the last comparison -/

theorem repe_zf_of_pos {iteration : ℕ → Flags} {count : ℕ} (hcount : 0 < count) (i : ℕ)
    (flags : Flags) :
    (repe iteration count i flags).zf = true ↔ ∀ j < count, (iteration (i + j)).zf = true := by
  induction count generalizing i flags with
  | zero => exact absurd hcount (Nat.lt_irrefl 0)
  | succ count ih =>
    have hsplit : (∀ j < count + 1, (iteration (i + j)).zf = true) ↔
        (iteration i).zf = true ∧ ∀ j < count, (iteration (i + 1 + j)).zf = true := by
      constructor
      · intro h
        refine ⟨h 0 (by omega), fun j hj => ?_⟩
        rw [Nat.add_assoc, Nat.add_comm 1 j]
        exact h (j + 1) (by omega)
      · rintro ⟨h0, h⟩ j hj
        cases j with
        | zero => exact h0
        | succ j =>
          have hj' := h j (by omega)
          rwa [Nat.add_assoc, Nat.add_comm 1 j] at hj'
    rw [hsplit, repe]
    cases hzf : (iteration i).zf with
    | false => simp [hzf]
    | true =>
      simp only [if_pos, true_and]
      rcases Nat.eq_zero_or_pos count with rfl | hpos
      · simp [repe, hzf]
      · exact ih hpos (i + 1) (iteration i)

theorem compare_zf {a b : ℕ} : (compare a b).zf = true ↔ a = b := decide_eq_true_iff

theorem repeCmps_zf_of_pos {w count : ℕ} {mem : ℕ → UInt8} {src dst : ℕ} (hcount : 0 < count)
    (flags : Flags) :
    (repeCmps w mem src dst count flags).zf = true ↔
      ∀ j < count, wordAt w mem (src + w * j) = wordAt w mem (dst + w * j) := by
  rw [repeCmps, repe_zf_of_pos hcount]
  simp only [compare_zf, Nat.zero_add]

theorem repeScas_zf_of_pos {w count : ℕ} {mem : ℕ → UInt8} {a dst : ℕ} (hcount : 0 < count)
    (flags : Flags) :
    (repeScas w mem a dst count flags).zf = true ↔ ∀ j < count, a = wordAt w mem (dst + w * j) := by
  rw [repeScas, repe_zf_of_pos hcount]
  simp only [compare_zf, Nat.zero_add]

/-! ### Words and bytes -/

section Words

variable {w n : ℕ} {mem mem' : ℕ → UInt8} {p q : ℕ}

theorem byte_lt (w : ℕ) (mem : ℕ → UInt8) (p : ℕ) :
    ∀ b ∈ (List.range w).map fun i => (mem (p + i)).toNat, b < 256 := by
  intro b hb
  obtain ⟨i, _, rfl⟩ := List.mem_map.mp hb
  exact (mem (p + i)).toNat_lt

theorem wordAt_lt (w : ℕ) (mem : ℕ → UInt8) (p : ℕ) : wordAt w mem p < 256 ^ w := by
  have hlt := Nat.ofDigits_lt_base_pow_length (by decide) (byte_lt w mem p)
  rwa [List.length_map, List.length_range] at hlt

/-- Words are equal when their bytes are, and only then. -/
theorem wordAt_eq_iff : wordAt w mem p = wordAt w mem' q ↔ ∀ i < w, mem (p + i) = mem' (q + i) := by
  constructor
  · intro h i hi
    have hdigits := Nat.ofDigits_inj_of_len_eq (b := 256) (by decide) (by simp)
      (byte_lt w mem p) (byte_lt w mem' q) h
    exact UInt8.toNat_inj.mp (List.map_inj_left.mp hdigits i (List.mem_range.mpr hi))
  · intro h
    rw [wordAt, wordAt, List.map_congr_left fun i hi => by rw [h i (List.mem_range.mp hi)]]

/-- A buffer of whole words, word by word. -/
theorem forall_words_iff (hw : 0 < w) (hn : w ∣ n) :
    (∀ j < n / w, wordAt w mem (p + w * j) = wordAt w mem' (q + w * j)) ↔
      ∀ i < n, mem (p + i) = mem' (q + i) := by
  obtain ⟨k, rfl⟩ := hn
  rw [Nat.mul_div_cancel_left k hw]
  simp only [wordAt_eq_iff]
  constructor
  · intro h i hi
    have hj : i / w < k := Nat.div_lt_of_lt_mul hi
    have hbyte := h (i / w) hj (i % w) (Nat.mod_lt i hw)
    rwa [Nat.add_assoc, Nat.add_assoc, Nat.div_add_mod] at hbyte
  · intro h j hj i hi
    rw [Nat.add_assoc, Nat.add_assoc]
    refine h (w * j + i) ?_
    calc w * j + i < w * j + w := by omega
      _ = w * (j + 1) := by rw [Nat.mul_add, Nat.mul_one]
      _ ≤ w * k := Nat.mul_le_mul_left w hj

/-- A word is zero when its bytes are. -/
theorem wordAt_zero : wordAt w (fun _ => 0) p = 0 := by
  rw [wordAt]
  induction w with
  | zero => rfl
  | succ w ih =>
    rw [List.range_succ, List.map_append, Nat.ofDigits_append, ih]
    simp

end Words

end RepString
