import Mathlib.Data.Fin.Basic
import Mathlib.Data.UInt
import Mathlib.Logic.Function.Basic
import Mathlib.Tactic.Common

/-!
# One round of AES

The round permutes the sixteen bytes of a state: `ShiftRows` moves them, `SubBytes` replaces each by
its image under the S-box, `MixColumns` multiplies each column by an invertible matrix over the field
of 256 elements.  Each of the three has an inverse, so no two states have the same image.

A state is given by column and row.  The field is that of the polynomials over two elements modulo
`x ^ 8 + x ^ 4 + x ^ 3 + x + 1`, a byte holding the coefficients.
-/

namespace AesRound

open Function

/-! ### The field -/

/-- The product with `x`, of the number that a byte is. -/
def double (b : ℕ) : ℕ := if b < 128 then 2 * b else (2 * b) ^^^ 0x11b

/-- The product of `a` with the polynomial of the lowest `n` bits of `b`. -/
def gfMul : ℕ → ℕ → ℕ → ℕ
  | 0, _, _ => 0
  | n + 1, a, b =>
    if b % 2 = 0 then gfMul n (double a) (b / 2) else a ^^^ gfMul n (double a) (b / 2)

def gfSquare (a : ℕ) : ℕ := gfMul 8 a a

/-- The power 254, which is the inverse of every element but zero. -/
def gfInv (a : ℕ) : ℕ :=
  let a2 := gfSquare a
  let a3 := gfMul 8 a2 a
  let a12 := gfSquare (gfSquare a3)
  let a15 := gfMul 8 a12 a3
  let a240 := gfSquare (gfSquare (gfSquare (gfSquare a15)))
  gfMul 8 (gfMul 8 a240 a12) a2

theorem forall_byte {P : UInt8 → Prop} (h : ∀ n < 256, P (UInt8.ofNat n)) (b : UInt8) : P b := by
  have hb := h b.toNat b.toNat_lt
  rwa [UInt8.ofNat_toNat] at hb

/-- Taking inverses twice leads back; each of the 256 elements is checked. -/
theorem gfInv_gfInv : ∀ n < 256, gfInv n < 256 ∧ gfInv (gfInv n) = n := by decide +kernel

/-! ### The S-box -/

/-- The bits of `b` rotated left by `n`. -/
def rotl (b n : UInt8) : UInt8 := (b <<< n) ||| (b >>> (8 - n))

/-- The affine map of the S-box. -/
def affine (c : UInt8) : UInt8 :=
  c ^^^ rotl c 1 ^^^ rotl c 2 ^^^ rotl c 3 ^^^ rotl c 4 ^^^ 0x63

def invAffine (c : UInt8) : UInt8 := rotl c 1 ^^^ rotl c 3 ^^^ rotl c 6 ^^^ 0x05

/-- The S-box: the inverse in the field, and an affine map of its bits. -/
def subByte (b : UInt8) : UInt8 := affine (UInt8.ofNat (gfInv b.toNat))

/-- The inverse S-box. -/
def invSubByte (b : UInt8) : UInt8 := UInt8.ofNat (gfInv (invAffine b).toNat)

example : subByte 0x53 = 0xed := by decide +kernel

theorem invAffine_affine (c : UInt8) : invAffine (affine c) = c :=
  forall_byte (P := fun c => invAffine (affine c) = c) (by decide +kernel) c

theorem invSubByte_subByte (b : UInt8) : invSubByte (subByte b) = b := by
  obtain ⟨hlt, hinv⟩ := gfInv_gfInv b.toNat b.toNat_lt
  rw [invSubByte, subByte, invAffine_affine, UInt8.toNat_ofNat_of_lt' hlt, hinv,
    UInt8.ofNat_toNat]

/-! ### The columns -/

/-- The product of a byte with `x`. -/
def xtime (b : UInt8) : UInt8 := UInt8.ofNat (double b.toNat)

theorem xtime_eq (b : UInt8) :
    xtime b = (b <<< 1) ^^^ (if b &&& 0x80 = 0 then 0 else 0x1b) :=
  forall_byte (P := fun b => xtime b = (b <<< 1) ^^^ (if b &&& 0x80 = 0 then 0 else 0x1b))
    (by decide +kernel) b

theorem xor_cancel_left (a b : UInt8) : a ^^^ (a ^^^ b) = b := by
  rw [← UInt8.xor_assoc, UInt8.xor_self, UInt8.zero_xor]

theorem xor_left_comm (a b c : UInt8) : a ^^^ (b ^^^ c) = b ^^^ (a ^^^ c) := by
  rw [← UInt8.xor_assoc, UInt8.xor_comm a, UInt8.xor_assoc]

/-- The product with `x` respects sums. -/
theorem xtime_xor (a b : UInt8) : xtime (a ^^^ b) = xtime a ^^^ xtime b := by
  have hhigh : ∀ c : UInt8, c &&& 0x80 = 0 ∨ c &&& 0x80 = 0x80 := forall_byte (by decide +kernel)
  have hsum : (a ^^^ b) &&& 0x80 = (a &&& 0x80) ^^^ (b &&& 0x80) := by
    apply UInt8.toBitVec_inj.mp
    ext i
    simp [Bool.and_xor_distrib_right]
  -- the high bits of the two decide how many of the reductions remain
  simp only [xtime_eq, hsum, UInt8.shiftLeft_xor]
  rcases hhigh a with ha | ha <;> rcases hhigh b with hb | hb <;>
    simp [ha, hb, UInt8.xor_assoc, UInt8.xor_comm, xor_left_comm]

section Column

variable (a : Fin 4 → UInt8)

/-- A column of four bytes times the matrix with the rows `2 3 1 1`, `1 2 3 1`, `1 1 2 3` and
`3 1 1 2`. -/
def mixColumn : Fin 4 → UInt8 := fun r =>
  xtime (a r) ^^^ (xtime (a (r + 1)) ^^^ a (r + 1)) ^^^ a (r + 2) ^^^ a (r + 3)

example : (List.finRange 4).map (mixColumn fun r => [0xdb, 0x13, 0x53, 0x45].getD r 0) =
    [0x8e, 0x4d, 0xa1, 0xbc] := by decide +kernel

/-- The square of the matrix has the coefficients 5 and 4, each once in a row. -/
theorem mixColumn_mixColumn (r : Fin 4) :
    mixColumn (mixColumn a) r = a r ^^^ xtime (xtime (a r)) ^^^ xtime (xtime (a (r + 2))) := by
  have h1 : ∀ r : Fin 4, r + 1 + 1 = r + 2 := by decide
  have h2 : ∀ r : Fin 4, r + 1 + 2 = r + 3 := by decide
  have h3 : ∀ r : Fin 4, r + 1 + 3 = r := by decide
  have h4 : ∀ r : Fin 4, r + 2 + 1 = r + 3 := by decide
  have h5 : ∀ r : Fin 4, r + 2 + 2 = r := by decide
  have h6 : ∀ r : Fin 4, r + 2 + 3 = r + 1 := by decide
  have h7 : ∀ r : Fin 4, r + 3 + 1 = r := by decide
  have h8 : ∀ r : Fin 4, r + 3 + 2 = r + 1 := by decide
  have h9 : ∀ r : Fin 4, r + 3 + 3 = r + 2 := by decide
  simp only [mixColumn, xtime_xor, h1, h2, h3, h4, h5, h6, h7, h8, h9]
  generalize a r = w
  generalize a (r + 1) = x
  generalize a (r + 2) = y
  generalize a (r + 3) = z
  simp only [UInt8.xor_comm, xor_left_comm, xor_cancel_left]

/-- The matrix has order 4. -/
theorem mixColumn_iterate_four : mixColumn (mixColumn (mixColumn (mixColumn a))) = a := by
  funext r
  have hback : r + 2 + 2 = r := by
    revert r
    decide
  rw [mixColumn_mixColumn, mixColumn_mixColumn, mixColumn_mixColumn, hback]
  simp only [xtime_xor, UInt8.xor_assoc, UInt8.xor_comm, xor_left_comm, xor_cancel_left,
    UInt8.xor_self, UInt8.xor_zero]

end Column

theorem mixColumn_injective : Injective mixColumn :=
  LeftInverse.injective (g := fun a => mixColumn (mixColumn (mixColumn a))) mixColumn_iterate_four

/-! ### The round -/

/-- The sixteen bytes of a state, by column and row. -/
abbrev State := Fin 4 → Fin 4 → UInt8

/-- The byte at `i` of a state that is stored column by column. -/
def State.byte (s : State) (i : ℕ) : UInt8 := s (Fin.ofNat 4 (i / 4)) (Fin.ofNat 4 i)

/-- `ShiftRows`: the row `r` moves by `r` columns. -/
def shiftRows (s : State) : State := fun c r => s (c + r) r

def subBytes (s : State) : State := fun c r => subByte (s c r)

def mixColumns (s : State) : State := fun c => mixColumn (s c)

/-- The round before its key is added. -/
def keylessRound (s : State) : State := mixColumns (subBytes (shiftRows s))

theorem shiftRows_injective : Injective shiftRows := by
  intro s s' h
  funext c r
  have hcr := congrFun (congrFun h (c - r)) r
  rwa [shiftRows, shiftRows, sub_add_cancel] at hcr

theorem subBytes_injective : Injective subBytes := by
  intro s s' h
  funext c r
  exact LeftInverse.injective invSubByte_subByte (congrFun (congrFun h c) r)

theorem mixColumns_injective : Injective mixColumns := by
  intro s s' h
  funext c
  exact mixColumn_injective (congrFun h c)

theorem keylessRound_injective : Injective keylessRound :=
  mixColumns_injective.comp (subBytes_injective.comp shiftRows_injective)

end AesRound
