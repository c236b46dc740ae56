import DirtyPages.Basic
import DirtyPages.Lib.ReversibleWalk
import DirtyPages.Lib.XorShift
import Mathlib.Data.UInt
import Mathlib.Tactic.Ring

/-!
# The random-sampling hash

Section 6 of `dirtPages.c`: `random_sample_hash`, `delta_hash` and the two loop macros they share.
A page is its 1024 words, `random_nums` a table of 1024 word positions.  A run of a loop carries
the running hash together with the table indices it has read, in the order of the reads.

The strengths are nonnegative `int`s in the source.  Here they are natural numbers: the up loop
visits `from, …, to - 1` and the down loop `from - 1, …, to`, both empty when the bounds cross.

The theory reads a hash of strength `s` as the state reached after climbing `s` positions of a track
of reversible steps, so that `delta_hash` travels along the track.
-/

namespace DirtyPages

open ReversibleWalk

/-- The content of a page: `PAGE_SIZE / sizeof(u32)` words. -/
abbrev Page := Fin hashStrengthFull → UInt32

/-- `random_nums`: `HASH_STRENGTH_FULL` entries, each the position of a word of a page. -/
abbrev RandomNums := Fin hashStrengthFull → Fin hashStrengthFull

/-- `shiftl` -/
def shiftl : UInt32 := 8

/-- `shiftr` -/
def shiftr : UInt32 := 12

/-- The running hash of a loop and the indices of `random_nums` it has used. -/
@[ext] structure HashRun where
  hash : UInt32
  visited : List ℕ
  deriving DecidableEq, Repr

/-- The mixing step of `HASH_FROM_TO`. -/
def mix (word hash : UInt32) : UInt32 :=
  let hash := hash + word
  let hash := hash + (hash <<< shiftl)
  hash ^^^ (hash >>> shiftr)

/-- The un-mixing step of `HASH_FROM_DOWN_TO`. -/
def unmix (word hash : UInt32) : UInt32 :=
  let hash := hash ^^^ (hash >>> shiftr)
  let hash := hash ^^^ (hash >>> (shiftr * 2))
  let hash := hash - (hash <<< shiftl)
  let hash := hash + (hash <<< (shiftl * 2))
  hash - word

section Loops

variable (randomNums : RandomNums) (key : Page)

/-- The word that the table index `index` selects.  Reads stay below `HASH_STRENGTH_FULL`, which is
what `visited` is there to show. -/
def sampledWord (index : ℕ) : UInt32 := key (randomNums (Fin.ofNat hashStrengthFull index))

/-- `HASH_FROM_TO(from, to)` -/
def hashFromTo (from' to' : ℕ) (run : HashRun) : HashRun :=
  (List.range' from' (to' - from')).foldl
    (fun run index => ⟨mix (sampledWord randomNums key index) run.hash, run.visited ++ [index]⟩) run

/-- `HASH_FROM_DOWN_TO(from, to)` -/
def hashFromDownTo (from' to' : ℕ) (run : HashRun) : HashRun :=
  (List.range' to' (from' - to')).reverse.foldl
    (fun run index => ⟨unmix (sampledWord randomNums key index) run.hash, run.visited ++ [index]⟩)
    run

/-- `random_sample_hash` -/
def randomSampleHash (hashStrength : ℕ) : HashRun :=
  let loop := if hashStrength > hashStrengthFull then hashStrengthFull else hashStrength
  let run := hashFromTo randomNums key 0 loop ⟨0xdeadbeef, []⟩
  if hashStrength > hashStrengthFull then
    let loop := hashStrength - hashStrengthFull
    hashFromTo randomNums key 0 loop run
  else
    run

/-- `delta_hash` -/
def deltaHash (from' to' : ℕ) (hash : UInt32) : HashRun :=
  if to' > from' then
    if from' ≥ hashStrengthFull then
      hashFromTo randomNums key (from' - hashStrengthFull) (to' - hashStrengthFull) ⟨hash, []⟩
    else if to' ≤ hashStrengthFull then
      hashFromTo randomNums key from' to' ⟨hash, []⟩
    else
      let run := hashFromTo randomNums key from' hashStrengthFull ⟨hash, []⟩
      hashFromTo randomNums key 0 (to' - hashStrengthFull) run
  else
    if from' ≤ hashStrengthFull then
      hashFromDownTo randomNums key from' to' ⟨hash, []⟩
    else if to' ≥ hashStrengthFull then
      hashFromDownTo randomNums key (from' - hashStrengthFull) (to' - hashStrengthFull) ⟨hash, []⟩
    else
      let run := hashFromDownTo randomNums key (from' - hashStrengthFull) 0 ⟨hash, []⟩
      hashFromDownTo randomNums key hashStrengthFull to' run

end Loops

/-! ### The mixing step is a permutation of the words -/

open scoped UInt32.CommRing in
theorem shiftLeft_eight (h : UInt32) : h <<< shiftl = h * 256 := by
  apply UInt32.toBitVec_inj.mp
  rw [UInt32.toBitVec_mul]
  exact BitVec.shiftLeft_eq_mul_twoPow h.toBitVec 8

theorem shiftLeft_sixteen (h : UInt32) : h <<< (shiftl * 2) = h * 65536 := by
  apply UInt32.toBitVec_inj.mp
  rw [UInt32.toBitVec_mul]
  exact BitVec.shiftLeft_eq_mul_twoPow h.toBitVec 16

theorem toBitVec_xor_shiftr (h : UInt32) :
    (h ^^^ (h >>> shiftr)).toBitVec = XorShift.fold 12 h.toBitVec := rfl

theorem toBitVec_xor_shiftr_two (h : UInt32) :
    (h ^^^ (h >>> (shiftr * 2))).toBitVec = XorShift.fold (12 + 12) h.toBitVec := rfl

/-- `hash ^= hash >> 12` is undone by `hash ^= hash >> 12; hash ^= hash >> 24`. -/
theorem unxor_xor (h : UInt32) :
    let x := h ^^^ (h >>> shiftr)
    let y := x ^^^ (x >>> shiftr)
    y ^^^ (y >>> (shiftr * 2)) = h := by
  intro x y
  apply UInt32.toBitVec_inj.mp
  rw [toBitVec_xor_shiftr_two, toBitVec_xor_shiftr, toBitVec_xor_shiftr]
  exact XorShift.unfold_fold (by decide) h.toBitVec

theorem xor_unxor (h : UInt32) :
    let x := h ^^^ (h >>> shiftr)
    let y := x ^^^ (x >>> (shiftr * 2))
    y ^^^ (y >>> shiftr) = h := by
  intro x y
  apply UInt32.toBitVec_inj.mp
  rw [toBitVec_xor_shiftr, toBitVec_xor_shiftr_two, toBitVec_xor_shiftr]
  exact XorShift.fold_unfold (by decide) h.toBitVec

open scoped UInt32.CommRing in
/-- The multiplier 257 and the product of the two corrections are inverse modulo `2 ^ 32`. -/
theorem mul_257_corrections : (257 * ((1 - 256) * (1 + 65536)) : UInt32) = 1 := by decide

open scoped UInt32.CommRing in
/-- `hash += hash << 8` is undone by `hash -= hash << 8; hash += hash << 16`. -/
theorem unscale_scale (h : UInt32) :
    let x := h + (h <<< shiftl)
    let y := x - (x <<< shiftl)
    y + (y <<< (shiftl * 2)) = h := by
  simp only [shiftLeft_eight, shiftLeft_sixteen]
  calc h + h * 256 - (h + h * 256) * 256 + (h + h * 256 - (h + h * 256) * 256) * 65536
      = h * (257 * ((1 - 256) * (1 + 65536))) := by ring
    _ = h := by rw [mul_257_corrections, mul_one]

open scoped UInt32.CommRing in
theorem scale_unscale (h : UInt32) :
    let x := h - (h <<< shiftl)
    let y := x + (x <<< (shiftl * 2))
    y + (y <<< shiftl) = h := by
  simp only [shiftLeft_eight, shiftLeft_sixteen]
  calc h - h * 256 + (h - h * 256) * 65536 + (h - h * 256 + (h - h * 256) * 65536) * 256
      = h * (257 * ((1 - 256) * (1 + 65536))) := by ring
    _ = h := by rw [mul_257_corrections, mul_one]

theorem unmix_mix (word hash : UInt32) : unmix word (mix word hash) = hash := by
  simp only [mix, unmix, unxor_xor, unscale_scale, UInt32.add_sub_cancel]

theorem mix_unmix (word hash : UInt32) : mix word (unmix word hash) = hash := by
  simp only [mix, unmix, UInt32.sub_add_cancel, scale_unscale, xor_unxor]

/-- Mixing in one word, as a permutation of the running hash. -/
def mixPerm (word : UInt32) : Equiv.Perm UInt32 where
  toFun := mix word
  invFun := unmix word
  left_inv := unmix_mix word
  right_inv := mix_unmix word

end DirtyPages
