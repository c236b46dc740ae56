import DirtyPages.FastHash
import DirtyPages.Lib.RepString
import DirtyPages.PageHash

/-!
# Comparing memory word by word

Section 1 of `dirtPages.c` and the helpers of Sections 8 and 10 over it.  The x86 builds compare
words with repeated string instructions, the generic build scans with an `int` index.  The two
`memcmp`s set the flags before the repetition, so that a count of zero compares equal; the two
`is_full_zero`s do not, and find whatever flags there are.

On the generic build with longs of eight bytes the index wraps to a negative number after `2 ^ 31`
words.  As a `size_t` this is above every length, so the scan ends and never sees what follows.
-/

namespace DirtyPages

open RepString

/-! ### Section 1: the helpers -/

/-- The common text of the two `memcmp`s, for words of `w` bytes.  `res` is 0 at the label, or what
the two instructions before it leave. -/
def memcmpx86 (w : ℕ) (mem : Memory) (s1 s2 n : ℕ) : ℤ :=
  let num := n / w
  let flags := repeCmps w mem s1 s2 num (testSelf num)
  if flags.zf then
    0
  else
    ((sbbSelf (8 * w) flags ||| 1).setWidth 32).toInt

/-- `memcmpx86_32` -/
def memcmpx86_32 : Memory → ℕ → ℕ → ℕ → ℤ := memcmpx86 4

/-- `memcmpx86_64` -/
def memcmpx86_64 : Memory → ℕ → ℕ → ℕ → ℤ := memcmpx86 8

/-- The common text of the two `is_full_zero`s of the x86 builds; `found` are the flags before. -/
def isFullZeroX86 (w : ℕ) (found : Flags) (mem : Memory) (s1 len : ℕ) : ℤ :=
  let len := len / w
  (sete (repeScas w mem 0 s1 len found)).toNat

/-- `is_full_zero` with `CONFIG_X86_32` -/
def isFullZeroX86_32 : Flags → Memory → ℕ → ℕ → ℤ := isFullZeroX86 4

/-- `is_full_zero` with `CONFIG_X86_64` -/
def isFullZeroX86_64 : Flags → Memory → ℕ → ℕ → ℤ := isFullZeroX86 8

/-- The loop of the generic `is_full_zero`: the comparison takes the `int` as a `size_t`, and the
increment wraps around. -/
def scanLongs (w : ℕ) (mem : Memory) (src len : ℕ) : ℕ → ℤ → Except Fault ℤ
  | 0, _ => .error .outOfFuel
  | fuel + 1, i =>
    if (i % 2 ^ (8 * w)).toNat < len then
      if wordAt w mem (src + w * i).toNat ≠ 0 then .ok 0
      else scanLongs w mem src len fuel ((i + 1).bmod (2 ^ 32))
    else
      .ok 1

/-- The sizes of an `unsigned long`. -/
inductive LongSize
  | four
  | eight
  deriving DecidableEq, Repr

/-- `sizeof(unsigned long)` -/
def LongSize.bytes : LongSize → ℕ
  | .four => 4
  | .eight => 8

theorem LongSize.bytes_eq (long : LongSize) : long.bytes = 4 ∨ long.bytes = 8 := by
  cases long with
  | four => exact Or.inl rfl
  | eight => exact Or.inr rfl

theorem LongSize.bytes_dvd (long : LongSize) : long.bytes ∣ 8 := by
  cases long <;> decide

/-- `is_full_zero` without `CONFIG_X86` -/
def isFullZeroGeneric (long : LongSize) (mem : Memory) (s1 len : ℕ) : Except Fault ℤ :=
  let len := len / long.bytes
  scanLongs long.bytes mem s1 len (len + 1) 0

/-- The `memcmp` of the generic build: the difference of the first bytes that differ. -/
def memcmpGeneric (mem : Memory) (s1 s2 n : ℕ) : ℤ :=
  match (List.range n).find? fun i => mem (s1 + i) ≠ mem (s2 + i) with
  | some i => (mem (s1 + i)).toNat - (mem (s2 + i)).toNat
  | none => 0

/-! ### The helpers for pages -/

/-- The three builds. -/
inductive Build
  | x86_32
  | x86_64
  | generic (long : LongSize)
  deriving DecidableEq, Repr

/-- The number of bits of an `unsigned long`. -/
def Build.longBits : Build → ℕ
  | .x86_32 => 32
  | .x86_64 => 64
  | .generic long => 8 * long.bytes

theorem Build.longBits_ge (build : Build) : 32 ≤ build.longBits := by
  cases build with
  | x86_32 => decide
  | x86_64 => decide
  | generic long => cases long <;> decide

/-- `memcmp`, as the build defines it -/
def Build.memcmp (build : Build) (mem : Memory) (s1 s2 n : ℕ) : ℤ :=
  match build with
  | .x86_32 => memcmpx86_32 mem s1 s2 n
  | .x86_64 => memcmpx86_64 mem s1 s2 n
  | .generic _ => memcmpGeneric mem s1 s2 n

/-- `is_full_zero`, as the build defines it -/
def Build.isFullZero (build : Build) (found : Flags) (mem : Memory) (s1 len : ℕ) :
    Except Fault ℤ :=
  match build with
  | .x86_32 => .ok (isFullZeroX86_32 found mem s1 len)
  | .x86_64 => .ok (isFullZeroX86_64 found mem s1 len)
  | .generic long => isFullZeroGeneric long mem s1 len

/-- `pages_identical_with_cost`; the call charges nothing. -/
def pagesIdenticalWithCost (build : Build) (mem : Memory) (page1 page2 : ℕ) : Bool :=
  build.memcmp mem page1 page2 pageSize = 0

/-- `is_page_full_zero` -/
def isPageFullZero (build : Build) (found : Flags) (mem : Memory) (page : ℕ) : Except Fault ℤ :=
  build.isFullZero found mem page pageSize

/-! ### The x86 builds -/

/-- The `n` bytes from `p` on are zero. -/
def ZeroBytes (mem : Memory) (p n : ℕ) : Prop := ∀ i < n, mem (p + i) = 0

section

variable {w n : ℕ} {mem : Memory} {s1 s2 p : ℕ}

theorem zeroWords_iff (hw : 0 < w) (hn : w ∣ n) :
    (∀ j < n / w, wordAt w mem (p + w * j) = 0) ↔ ZeroBytes mem p n := by
  have hwords : (∀ j < n / w, wordAt w mem (p + w * j) = wordAt w (fun _ => 0) (p + w * j)) ↔
      ∀ i < n, mem (p + i) = 0 := forall_words_iff hw hn
  simp only [wordAt_zero] at hwords
  exact hwords

/-- The last instruction sets the lowest bit of the result. -/
theorem sbb_or_one_ne_zero (hw : 0 < w) (flags : Flags) :
    ((sbbSelf (8 * w) flags ||| 1).setWidth 32).toInt ≠ 0 := by
  intro hzero
  have hvec : (sbbSelf (8 * w) flags ||| 1).setWidth 32 = 0#32 := by
    apply BitVec.toInt_inj.mp
    rw [hzero, BitVec.toInt_zero]
  have hbit := congrArg (fun v => v.getLsbD 0) hvec
  simp only [BitVec.getLsbD_setWidth, BitVec.getLsbD_or] at hbit
  simp [hw] at hbit

theorem memcmpx86_eq_zero (hw : 0 < w) (hn : w ∣ n) :
    memcmpx86 w mem s1 s2 n = 0 ↔ SameBytes mem s1 mem s2 n := by
  have hflags : (repeCmps w mem s1 s2 (n / w) (testSelf (n / w))).zf = true ↔
      SameBytes mem s1 mem s2 n := by
    rcases Nat.eq_zero_or_pos (n / w) with hnum | hnum
    · -- no comparison runs, and the flags are those of the test
      have hzero : n = 0 := by
        rw [← Nat.div_mul_cancel hn, hnum, Nat.zero_mul]
      rw [hnum, hzero]
      exact iff_of_true rfl fun i hi => absurd hi (Nat.not_lt_zero i)
    · rw [repeCmps_zf_of_pos hnum]
      exact forall_words_iff hw hn
  rw [memcmpx86, ← hflags]
  by_cases hzf : (repeCmps w mem s1 s2 (n / w) (testSelf (n / w))).zf = true
  · exact iff_of_true (if_pos hzf) hzf
  · refine iff_of_false ?_ hzf
    simp only [if_neg hzf]
    exact sbb_or_one_ne_zero hw _

/-- With at least one word to compare the flags found do not matter. -/
theorem isFullZeroX86_ne_zero (hw : 0 < w) (hn : w ∣ n) (hpos : 0 < n) (found : Flags) :
    isFullZeroX86 w found mem s1 n ≠ 0 ↔ ZeroBytes mem s1 n := by
  have hnum : 0 < n / w := Nat.div_pos (Nat.le_of_dvd hpos hn) hw
  have hflags : (repeScas w mem 0 s1 (n / w) found).zf = true ↔ ZeroBytes mem s1 n := by
    rw [repeScas_zf_of_pos hnum, ← zeroWords_iff hw hn]
    exact forall_congr' fun j => imp_congr_right fun _ => eq_comm
  rw [isFullZeroX86, ← hflags, sete]
  cases (repeScas w mem 0 s1 (n / w) found).zf with
  | false => decide
  | true => decide

/-! ### The generic build -/

/-- The `int` that has counted to `k`, as a `size_t`, is below the length until its wrap-around. -/
theorem index_lt_iff {len k : ℕ} (hw : w = 4 ∨ w = 8) (hlen : w * len < 2 ^ (8 * w))
    (hk : k ≤ len) (hint : k ≤ 2 ^ 31) :
    ((k : ℤ).bmod (2 ^ 32) % 2 ^ (8 * w)).toNat < len ↔ k < 2 ^ 31 ∧ k < len := by
  rcases hw with rfl | rfl
  · rw [show 8 * 4 = 32 from rfl] at hlen ⊢
    rw [Int.bmod_def]
    split_ifs <;> omega
  · rw [show 8 * 8 = 64 from rfl] at hlen ⊢
    rw [Int.bmod_def]
    split_ifs <;> omega

/-- The scan from the word `k` on: it stops at the first nonzero word, at the length, or where the
index wraps around. -/
theorem scanLongs_eq {len : ℕ} (mem : Memory) (s1 : ℕ) (hw : w = 4 ∨ w = 8)
    (hlen : w * len < 2 ^ (8 * w)) (m k fuel : ℕ) (hm : m + k = min len (2 ^ 31)) (hfuel : m < fuel) :
    ∃ r, scanLongs w mem s1 len fuel ((k : ℤ).bmod (2 ^ 32)) = .ok r ∧
      (r ≠ 0 ↔ ∀ j < m, wordAt w mem (s1 + w * (k + j)) = 0) := by
  induction m generalizing k fuel with
  | zero =>
    obtain ⟨fuel, rfl⟩ := Nat.exists_eq_succ_of_ne_zero (Nat.ne_of_gt hfuel)
    have hend : ¬((k : ℤ).bmod (2 ^ 32) % 2 ^ (8 * w)).toNat < len := by
      rw [index_lt_iff hw hlen (by omega) (by omega)]
      omega
    rw [scanLongs, if_neg hend]
    exact ⟨1, rfl, iff_of_true (by decide) fun j hj => absurd hj (Nat.not_lt_zero j)⟩
  | succ m ih =>
    obtain ⟨fuel, rfl⟩ := Nat.exists_eq_succ_of_ne_zero (Nat.ne_of_gt (Nat.zero_lt_of_lt hfuel))
    have hmore : ((k : ℤ).bmod (2 ^ 32) % 2 ^ (8 * w)).toNat < len := by
      rw [index_lt_iff hw hlen (by omega) (by omega)]
      omega
    have hindex : (k : ℤ).bmod (2 ^ 32) = k := by
      rw [Int.bmod_def]
      split_ifs <;> omega
    have hnext : ((k : ℤ) + 1).bmod (2 ^ 32) = ((k + 1 : ℕ) : ℤ).bmod (2 ^ 32) := rfl
    have haddr : ((s1 : ℤ) + w * (k : ℤ)).toNat = s1 + w * (k + 0) := by
      rw [Nat.add_zero]
      exact_mod_cast Int.toNat_natCast (s1 + w * k)
    rw [scanLongs, if_pos hmore, hindex, hnext, haddr]
    by_cases hword : wordAt w mem (s1 + w * (k + 0)) = 0
    · obtain ⟨r, hr, hiff⟩ := ih (k + 1) fuel (by omega) (by omega)
      refine ⟨r, by rw [if_neg (not_not_intro hword), hr], hiff.trans ?_⟩
      constructor
      · intro h j hj
        cases j with
        | zero => exact hword
        | succ j =>
          have hj' := h j (by omega)
          rwa [Nat.add_assoc, Nat.add_comm 1 j] at hj'
      · intro h j hj
        have hj' := h (j + 1) (by omega)
        rwa [Nat.add_comm j 1, ← Nat.add_assoc] at hj'
    · rw [if_pos hword]
      exact ⟨0, rfl, iff_of_false (by decide) fun h => hword (h 0 (Nat.succ_pos m))⟩

/-- The generic helper returns, and has looked at the first `2 ^ 31` words only. -/
theorem isFullZeroGeneric_eq (long : LongSize) (mem : Memory) (s1 : ℕ) (hn : long.bytes ∣ n)
    (hsize : n < 2 ^ (8 * long.bytes)) :
    ∃ r, isFullZeroGeneric long mem s1 n = .ok r ∧
      (r ≠ 0 ↔ ZeroBytes mem s1 (min n (long.bytes * 2 ^ 31))) := by
  have hw : long.bytes = 4 ∨ long.bytes = 8 := long.bytes_eq
  rw [isFullZeroGeneric]
  generalize long.bytes = w at hn hsize hw ⊢
  have hpos : 0 < w := by omega
  obtain ⟨k, rfl⟩ := hn
  have hcut : min (w * k) (w * 2 ^ 31) = w * min k (2 ^ 31) := Nat.mul_min_mul_left ..
  obtain ⟨r, hr, hiff⟩ := scanLongs_eq mem s1 hw hsize (min k (2 ^ 31)) 0 (k + 1)
    (by omega) (by omega)
  have hwords : (∀ j < w * min k (2 ^ 31) / w, wordAt w mem (s1 + w * j) = 0) ↔
      ZeroBytes mem s1 (w * min k (2 ^ 31)) := zeroWords_iff hpos (Nat.dvd_mul_right w _)
  rw [Nat.mul_div_cancel_left _ hpos] at hwords
  rw [Nat.mul_div_cancel_left k hpos, hcut, ← hwords]
  simp only [Nat.zero_add] at hiff
  exact ⟨r, hr, hiff⟩

end

/-! ### The helpers against the bytes -/

/-- The helpers agree with the bytes on the buffers of `n` bytes at `s1` and `s2`.  On the builds for
32 bits a length is below `2 ^ 32`. -/
structure HelpersAgree (mem : Memory) (s1 s2 n : ℕ) (long : LongSize) (found : Flags) : Prop where
  memcmp64 : memcmpx86_64 mem s1 s2 n = 0 ↔ SameBytes mem s1 mem s2 n
  memcmp32 : n < 2 ^ 32 → (memcmpx86_32 mem s1 s2 n = 0 ↔ SameBytes mem s1 mem s2 n)
  fullZero64 : 0 < n → (isFullZeroX86_64 found mem s1 n ≠ 0 ↔ ZeroBytes mem s1 n)
  fullZero32 : 0 < n → n < 2 ^ 32 → (isFullZeroX86_32 found mem s1 n ≠ 0 ↔ ZeroBytes mem s1 n)
  fullZeroGeneric : 0 < n → n < 2 ^ (8 * long.bytes) →
    ∃ r, isFullZeroGeneric long mem s1 n = .ok r ∧ (r ≠ 0 ↔ ZeroBytes mem s1 n)

/-- The scan sees every byte that it must: longs have four bytes, or there are at most `2 ^ 34`
bytes, or they are all zero, or one of the first `2 ^ 34` is not. -/
def ScanSees (mem : Memory) (s1 n : ℕ) (long : LongSize) : Prop :=
  long = .four ∨ n ≤ 2 ^ 34 ∨ ZeroBytes mem s1 n ∨ ¬ZeroBytes mem s1 (2 ^ 34)

section

variable {n : ℕ} {mem : Memory} {s1 s2 : ℕ}

theorem ZeroBytes.le {n' : ℕ} (h : ZeroBytes mem s1 n) (hle : n' ≤ n) : ZeroBytes mem s1 n' :=
  fun i hi => h i (Nat.lt_of_lt_of_le hi hle)

/-- The first `2 ^ 31` words stand for the whole buffer exactly when the scan sees what it must. -/
theorem zeroBytes_min_iff (long : LongSize) (hsize : n < 2 ^ (8 * long.bytes)) :
    (ZeroBytes mem s1 (min n (long.bytes * 2 ^ 31)) ↔ ZeroBytes mem s1 n) ↔
      ScanSees mem s1 n long := by
  cases long with
  | four =>
    have hsize' : n < 2 ^ 32 := hsize
    have hmin : min n (LongSize.four.bytes * 2 ^ 31) = n := by
      rw [LongSize.bytes]
      omega
    rw [hmin]
    exact iff_of_true Iff.rfl (Or.inl rfl)
  | eight =>
    by_cases hshort : n ≤ 2 ^ 34
    · have hmin : min n (LongSize.eight.bytes * 2 ^ 31) = n := by
        rw [LongSize.bytes]
        omega
      rw [hmin]
      exact iff_of_true Iff.rfl (Or.inr (Or.inl hshort))
    · have hmin : min n (LongSize.eight.bytes * 2 ^ 31) = 2 ^ 34 := by
        rw [LongSize.bytes]
        omega
      have hle : ZeroBytes mem s1 n → ZeroBytes mem s1 (2 ^ 34) := fun h => h.le (by omega)
      rw [hmin, ScanSees]
      constructor
      · intro h
        by_cases hzero : ZeroBytes mem s1 (2 ^ 34)
        · exact Or.inr (Or.inr (Or.inl (h.mp hzero)))
        · exact Or.inr (Or.inr (Or.inr hzero))
      · rintro (h | h | h | h)
        · exact absurd h (by decide)
        · exact absurd h hshort
        · exact iff_of_true (hle h) h
        · exact iff_of_false h fun hzero => h (hle hzero)

/-- The clause about the generic build, for every length. -/
theorem fullZeroGeneric_iff (long : LongSize) (hn : 8 ∣ n) (hsize : n < 2 ^ 64) :
    (0 < n → n < 2 ^ (8 * long.bytes) →
      ∃ r, isFullZeroGeneric long mem s1 n = .ok r ∧ (r ≠ 0 ↔ ZeroBytes mem s1 n)) ↔
    ScanSees mem s1 n long := by
  rcases Nat.eq_zero_or_pos n with rfl | hpos
  · exact iff_of_true (fun h => absurd h (Nat.lt_irrefl 0)) (Or.inr (Or.inl (Nat.zero_le _)))
  · by_cases hfits : n < 2 ^ (8 * long.bytes)
    · have hlong : long.bytes ∣ n := long.bytes_dvd.trans hn
      obtain ⟨r, hr, hmin⟩ := isFullZeroGeneric_eq long mem s1 hlong hfits
      rw [← zeroBytes_min_iff long hfits, ← hmin]
      constructor
      · intro h
        obtain ⟨r', hr', hiff⟩ := h hpos hfits
        rwa [Except.ok.inj (hr.symm.trans hr')]
      · intro hiff _ _
        exact ⟨r, hr, hiff⟩
    · -- a `size_t` of eight bytes holds every length
      cases long with
      | four => exact iff_of_true (fun _ h => absurd h hfits) (Or.inl rfl)
      | eight => exact absurd hsize hfits

end

/-! ### The tests on pages -/

section

variable {mem : Memory} {p q : ℕ}

/-- The bytes that are subtracted differ. -/
theorem memcmpGeneric_eq_zero {n : ℕ} : memcmpGeneric mem p q n = 0 ↔ SameBytes mem p mem q n := by
  rw [memcmpGeneric]
  cases hfind : (List.range n).find? fun i => mem (p + i) ≠ mem (q + i) with
  | none =>
    refine iff_of_true rfl fun i hi => ?_
    have hsame := List.find?_eq_none.mp hfind i (List.mem_range.mpr hi)
    simpa using hsame
  | some i =>
    have hi : i < n := List.mem_range.mp (List.mem_of_find?_eq_some hfind)
    have hdiff : mem (p + i) ≠ mem (q + i) := by simpa using List.find?_some hfind
    refine iff_of_false ?_ fun hsame => hdiff (hsame i hi)
    intro hzero
    have hnat : (mem (p + i)).toNat = (mem (q + i)).toNat := by
      simp only at hzero
      omega
    exact hdiff (UInt8.toNat_inj.mp hnat)

/-- The tests on pages do not depend on the build. -/
theorem pageTests_eq (build : Build) (found : Flags) :
    (pagesIdenticalWithCost build mem p q = true ↔ SameBytes mem p mem q pageSize) ∧
    ∃ r, isPageFullZero build found mem p = .ok r ∧ (r ≠ 0 ↔ ZeroBytes mem p pageSize) := by
  rw [pagesIdenticalWithCost, isPageFullZero, decide_eq_true_iff]
  have hpos : 0 < pageSize := by decide
  have h4 : 4 ∣ pageSize := by decide
  have h8 : 8 ∣ pageSize := by decide
  cases build with
  | x86_32 =>
    simp only [Build.memcmp, Build.isFullZero, memcmpx86_32, isFullZeroX86_32]
    exact ⟨memcmpx86_eq_zero (by decide) h4,
      _, rfl, isFullZeroX86_ne_zero (by decide) h4 hpos found⟩
  | x86_64 =>
    simp only [Build.memcmp, Build.isFullZero, memcmpx86_64, isFullZeroX86_64]
    exact ⟨memcmpx86_eq_zero (by decide) h8,
      _, rfl, isFullZeroX86_ne_zero (by decide) h8 hpos found⟩
  | generic long =>
    have hlong : long.bytes ∣ pageSize := long.bytes_dvd.trans h8
    have hfits : pageSize < 2 ^ (8 * long.bytes) := by cases long <;> decide
    have hcut : min pageSize (long.bytes * 2 ^ 31) = pageSize := by cases long <;> decide
    have hscan := isFullZeroGeneric_eq long mem p hlong hfits
    rw [hcut] at hscan
    simp only [Build.memcmp, Build.isFullZero]
    exact ⟨memcmpGeneric_eq_zero, hscan⟩

/-- The page at `p`, as the words that `page_hash` reads. -/
def pageAt (mem : Memory) (p : ℕ) : Page := fun i => UInt32.ofNat (wordAt 4 mem (p + 4 * i))

theorem pageAt_eq_iff : pageAt mem p = pageAt mem q ↔ SameBytes mem p mem q pageSize := by
  rw [SameBytes, ← forall_words_iff (w := 4) (by decide) (by decide), funext_iff, Fin.forall_iff]
  have hfit : ∀ k, (UInt32.ofNat (wordAt 4 mem k)).toNat = wordAt 4 mem k := by
    intro k
    rw [UInt32.toNat_ofNat']
    exact Nat.mod_eq_of_lt (wordAt_lt 4 mem k)
  refine forall_congr' fun j => forall_congr' fun _ => ?_
  rw [pageAt, pageAt, ← UInt32.toNat_inj, hfit, hfit]

/-- On the bytes of two pages `memcmp_pages_with_cost` is the comparison of their words. -/
theorem memcmpPagesWithCost_pageAt (build : Build) (memcmpCost : UInt64) (c : Counters) :
    memcmpPagesWithCost memcmpCost (pageAt mem p) (pageAt mem q) false c =
      .ok (!pagesIdenticalWithCost build mem p q, c) := by
  have hsame : pagesIdenticalWithCost build mem p q = decide (pageAt mem p = pageAt mem q) := by
    rw [Bool.eq_iff_iff, decide_eq_true_iff, pageAt_eq_iff]
    exact (pageTests_eq build ⟨false, false⟩).1
  rw [hsame, ← decide_not]
  rfl

end

/-- For every buffer whose length is a multiple of 8 the helpers of all builds agree with the bytes
exactly when the generic scan sees what it must.  For every page they do, so that both tests on pages
have the same result in all builds. -/
theorem helpersAgree_iff (mem : Memory) (s1 s2 n : ℕ) (long : LongSize) (found : Flags)
    (hn : 8 ∣ n) (hsize : n < 2 ^ 64) :
    (HelpersAgree mem s1 s2 n long found ↔ ScanSees mem s1 n long) ∧
    ∀ (build : Build) (p q : ℕ),
      (pagesIdenticalWithCost build mem p q = true ↔ SameBytes mem p mem q pageSize) ∧
      ∃ r, isPageFullZero build found mem p = .ok r ∧ (r ≠ 0 ↔ ZeroBytes mem p pageSize) := by
  have h4 : 4 ∣ n := Nat.dvd_trans (by decide) hn
  refine ⟨?_, fun build p q => pageTests_eq build found⟩
  rw [← fullZeroGeneric_iff long hn hsize]
  constructor
  · exact fun h => h.fullZeroGeneric
  · intro hgeneric
    constructor
    case memcmp64 => exact memcmpx86_eq_zero (by decide) hn
    case memcmp32 => exact fun _ => memcmpx86_eq_zero (by decide) h4
    case fullZero64 => exact fun hpos => isFullZeroX86_ne_zero (by decide) hn hpos found
    case fullZero32 => exact fun hpos _ => isFullZeroX86_ne_zero (by decide) h4 hpos found
    case fullZeroGeneric => exact hgeneric

/-- On the two pages of a memory that counts its bytes, as one of them finds itself. -/
theorem helpersAgree_iff_page :
    8 ∣ pageSize ∧ pageSize < 2 ^ 64 ∧
      HelpersAgree (fun i => UInt8.ofNat i) 0 pageSize pageSize .eight ⟨false, true⟩ :=
  ⟨by decide, by decide,
    ((helpersAgree_iff (fun i => UInt8.ofNat i) 0 pageSize pageSize .eight ⟨false, true⟩ (by decide)
      (by decide)).1).mpr (Or.inr (Or.inl (by decide)))⟩

/-- Zero bytes up to the first that the `int` cannot count. -/
def nonzeroPastInt : Memory := fun i => if i = 2 ^ 34 then 1 else 0

/-- The generic build takes this buffer for zeros. -/
theorem isFullZeroGeneric_nonzeroPastInt :
    8 ∣ 2 ^ 34 + 8 ∧ ¬ZeroBytes nonzeroPastInt 0 (2 ^ 34 + 8) ∧
      (∃ r, isFullZeroGeneric .eight nonzeroPastInt 0 (2 ^ 34 + 8) = .ok r ∧ r ≠ 0) ∧
      ¬HelpersAgree nonzeroPastInt 0 0 (2 ^ 34 + 8) .eight ⟨false, false⟩ := by
  have hbyte : ¬ZeroBytes nonzeroPastInt 0 (2 ^ 34 + 8) := fun h =>
    absurd (h (2 ^ 34) (by decide)) (by decide)
  have hzeros : ZeroBytes nonzeroPastInt 0 (min (2 ^ 34 + 8) (LongSize.eight.bytes * 2 ^ 31)) := by
    intro i hi
    rw [LongSize.bytes] at hi
    exact if_neg (by omega)
  obtain ⟨r, hr, hiff⟩ := isFullZeroGeneric_eq .eight nonzeroPastInt 0
    (show 8 ∣ 2 ^ 34 + 8 by decide) (by decide)
  have hnonzero : r ≠ 0 := hiff.mpr hzeros
  refine ⟨by decide, hbyte, ⟨r, hr, hnonzero⟩, fun hagree => hbyte ?_⟩
  obtain ⟨r', hr', hiff'⟩ := hagree.fullZeroGeneric (by decide) (by decide)
  obtain rfl : r = r' := Except.ok.inj (hr.symm.trans hr')
  exact hiff'.mp hnonzero

end DirtyPages
