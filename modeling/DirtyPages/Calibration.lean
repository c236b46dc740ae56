import DirtyPages.MemCompare
import DirtyPages.RandomNums

/-!
# Measuring the cost of a comparison

`cal_positive_negative_costs` of Section 14.  It fills two pages that differ in their last byte, so
that a comparison has to read them whole, hashes one of them until 100 ticks have passed, compares
the two as often, and stores the relative cost in `memcmp_cost`.  The readings of `jiffies` are an
input: the function ends as soon as the clock has moved on, divides by at least 100, gives back both
pages on every path, and charges nothing to the counters.

The clock, the costs and the number of loops are `unsigned long`s, with 32 or 64 bits according to
the build: the clock wraps there, and so does the product that is divided.
-/

namespace DirtyPages

open Outcome

/-! ### The pages and the clock -/

/-- What the function shares with the rest of the kernel, with `unsigned long`s of `w` bits; `pages`
are the allocated pages. -/
structure Kernel (w : ℕ) where
  mem : Memory
  pages : List ℕ
  memcmpCost : BitVec w
  counters : Counters

section

variable {w : ℕ}

/-- `__free_page` -/
def freePage (p : ℕ) (k : Kernel w) : Except Fault (Kernel w) :=
  if p ∈ k.pages then .ok { k with pages := k.pages.erase p } else .error .useAfterFree

theorem freePage_head (p : ℕ) (mem : Memory) (pages : List ℕ) (cost : BitVec w) (c : Counters) :
    freePage p ⟨mem, p :: pages, cost, c⟩ = .ok ⟨mem, pages, cost, c⟩ := by
  rw [freePage, if_pos List.mem_cons_self, List.erase_cons_head]

theorem freePage_second {p q : ℕ} (hne : q ≠ p) (mem : Memory) (pages : List ℕ) (cost : BitVec w)
    (c : Counters) :
    freePage p ⟨mem, q :: p :: pages, cost, c⟩ = .ok ⟨mem, q :: pages, cost, c⟩ := by
  rw [freePage, if_pos (List.mem_cons_of_mem q List.mem_cons_self),
    List.erase_cons_tail (by simpa using hne), List.erase_cons_head]

/-- The division of two `unsigned long`s. -/
def divLong (dividend divisor : BitVec w) : Except Fault (BitVec w) :=
  if divisor = 0 then .error .divideByZero else .ok (dividend / divisor)

end

/-- `memset(addr, c, n)` -/
def memset (mem : Memory) (addr : ℕ) (c : UInt8) (n : ℕ) : Memory := fun q =>
  if addr ≤ q ∧ q < addr + n then c else mem q

/-- `memcpy(dst, src, n)` -/
def memcpy (mem : Memory) (dst src n : ℕ) : Memory := fun q =>
  if dst ≤ q ∧ q < dst + n then mem (src + (q - dst)) else mem q

/-- The two pages are filled alike, and the last byte of the second one is complemented. -/
def fillPages (mem : Memory) (addr1 addr2 : ℕ) (prandomU32 : UInt32) : Memory :=
  let mem := memset mem addr1 prandomU32.toUInt8 pageSize
  let mem := memcpy mem addr2 addr1 pageSize
  Function.update mem (addr2 + (pageSize - 1)) (~~~(mem (addr2 + (pageSize - 1))))

section

variable (randomNums : RandomNums)

/-- `for (i = 0; i < 100; i++) hash = page_hash(p1, HASH_STRENGTH_FULL, 0);` -/
def hashHundredTimes (page : Page) (hash : Option UInt32) (c : Counters) :
    Except Fault (Option UInt32 × Counters) :=
  (List.range 100).foldlM
    (fun r _ => do
      let (hash, c) ← pageHash randomNums page strengthFull false r.2
      return (some hash, c)) (hash, c)

/-- `while (jiffies - time_start < 100)`; `tick` is the number of the next reading of the clock. -/
def hashUntil {w : ℕ} (jiffies : ℕ → BitVec w) (page : Page) (timeStart : BitVec w) :
    ℕ → ℕ → BitVec w → Option UInt32 → Counters →
      Except Fault (ℕ × BitVec w × Option UInt32 × Counters)
  | 0, _, _, _, _ => .error .outOfFuel
  | fuel + 1, tick, loopnum, hash, c =>
    if jiffies tick - timeStart < 100 then do
      let (hash, c) ← hashHundredTimes randomNums page hash c
      hashUntil jiffies page timeStart fuel (tick + 1) (loopnum + 100) hash c
    else
      .ok (tick + 1, loopnum, hash, c)

/-- `for (i = 0; i < loopnum; i++) ret = pages_identical_with_cost(p1, p2);` -/
def compareTimes (build : Build) (mem : Memory) (p1 p2 loopnum : ℕ) : Option Bool :=
  (List.range loopnum).foldl (fun _ _ => some (pagesIdenticalWithCost build mem p1 p2)) none

/-- What `pr_info` prints; `hash` and `ret` have no value when the loops did not run. -/
structure CostInfo (w : ℕ) where
  memcmpCost : BitVec w
  hash : Option UInt32
  ret : Option Bool
  deriving DecidableEq, Repr

/-- `cal_positive_negative_costs`, given what the two calls of `alloc_page` return, one output of
`prandom_u32`, and the successive readings of the clock. -/
def calPositiveNegativeCosts (build : Build) (jiffies : ℕ → BitVec build.longBits) (fuel : ℕ)
    (alloc1 alloc2 : Option ℕ) (prandomU32 : UInt32) (k : Kernel build.longBits) :
    Except Fault (ℤ × Option (CostInfo build.longBits) × Kernel build.longBits) :=
  match alloc1 with
  | none => .ok (-enomem, none, k)
  | some p1 =>
    let k := { k with pages := p1 :: k.pages }
    match alloc2 with
    | none => do
      let k ← freePage p1 k
      return (-enomem, none, k)
    | some p2 => do
      let k := { k with pages := p2 :: k.pages, mem := fillPages k.mem p1 p2 prandomU32 }
      let timeStart := jiffies 0
      let (tick, loopnum, hash, counters) ←
        hashUntil randomNums jiffies (pageAt k.mem p1) timeStart fuel 1 0 none k.counters
      let hashCost := jiffies tick - timeStart
      let timeStart := jiffies (tick + 1)
      let ret := compareTimes build k.mem p1 p2 loopnum.toNat
      let memcmpCost := BitVec.ofNat _ hashStrengthFull * (jiffies (tick + 2) - timeStart)
      let memcmpCost ← divLong memcmpCost hashCost
      let k ← freePage p1 { k with memcmpCost := memcmpCost, counters := counters }
      let k ← freePage p2 k
      return (0, some ⟨memcmpCost, hash, ret⟩, k)

end

/-! ### The two pages -/

section Pages

variable {mem : Memory} {addr1 addr2 : ℕ} {prandomU32 : UInt32}

/-- Two pages that do not overlap. -/
def ApartPages (p q : ℕ) : Prop := p + pageSize ≤ q ∨ q + pageSize ≤ p

/-- Two pages that a comparison has to read whole to find a difference. -/
def DifferInLastByte (mem : Memory) (p q : ℕ) : Prop :=
  SameBytes mem p mem q (pageSize - 1) ∧ mem (p + (pageSize - 1)) ≠ mem (q + (pageSize - 1))

theorem fillPages_first (hapart : ApartPages addr1 addr2) {i : ℕ} (hi : i < pageSize) :
    fillPages mem addr1 addr2 prandomU32 (addr1 + i) = prandomU32.toUInt8 := by
  rw [ApartPages] at hapart
  rw [fillPages, Function.update_of_ne (by omega), memcpy, if_neg (by omega), memset,
    if_pos (by omega)]

theorem fillPages_second {i : ℕ} (hi : i < pageSize - 1) :
    fillPages mem addr1 addr2 prandomU32 (addr2 + i) = prandomU32.toUInt8 := by
  rw [fillPages, Function.update_of_ne (by omega), memcpy, if_pos (by omega), memset,
    if_pos (by omega)]

theorem fillPages_last :
    fillPages mem addr1 addr2 prandomU32 (addr2 + (pageSize - 1)) = ~~~prandomU32.toUInt8 := by
  have hpage : 0 < pageSize := by decide
  rw [fillPages, Function.update_self, memcpy, if_pos (by omega), memset, if_pos (by omega)]

theorem fillPages_outside {q : ℕ} (h1 : q < addr1 ∨ addr1 + pageSize ≤ q)
    (h2 : q < addr2 ∨ addr2 + pageSize ≤ q) :
    fillPages mem addr1 addr2 prandomU32 q = mem q := by
  have hpage : 0 < pageSize := by decide
  rw [fillPages, Function.update_of_ne (by omega), memcpy, if_neg (by omega), memset,
    if_neg (by omega)]

theorem complement_ne (b : UInt8) : ~~~b ≠ b := by
  intro h
  have hbits := congrArg UInt8.toBitVec h
  have hbit := congrArg (fun v : BitVec 8 => v.getLsbD 0) hbits
  simp at hbit

theorem fillPages_differInLastByte (hapart : ApartPages addr1 addr2) :
    DifferInLastByte (fillPages mem addr1 addr2 prandomU32) addr1 addr2 := by
  constructor
  · intro i hi
    rw [fillPages_first hapart (by omega), fillPages_second hi]
  · rw [fillPages_first hapart (by decide), fillPages_last]
    exact (complement_ne _).symm

/-- No build finds the two pages identical. -/
theorem fillPages_differ (build : Build) (hapart : ApartPages addr1 addr2) :
    pagesIdenticalWithCost build (fillPages mem addr1 addr2 prandomU32) addr1 addr2 = false := by
  rw [← Bool.not_eq_true, (pageTests_eq build ⟨false, false⟩).1]
  intro hsame
  exact (fillPages_differInLastByte hapart).2 (hsame (pageSize - 1) (by decide))

end Pages

/-! ### The loops -/

theorem hashHundredTimes_eq (randomNums : RandomNums) (page : Page) (hash : Option UInt32)
    (c : Counters) :
    hashHundredTimes randomNums page hash c =
      .ok (some (randomSampleHash randomNums page hashStrengthFull).hash, c) := by
  have hstep : ∀ i ∈ List.range 100, ∀ r : Option UInt32 × Counters,
      (do
        let (hash, c) ← pageHash randomNums page strengthFull false r.2
        return (some hash, c) : Except Fault (Option UInt32 × Counters)) =
        .ok (some (randomSampleHash randomNums page hashStrengthFull).hash, r.2) := by
    intro i _ r
    rw [pageHash_silent, toNat_strengthFull]
    rfl
  rw [hashHundredTimes, foldlM_eq_ok _ _ hstep]
  simp only [List.range_succ, List.foldl_append]
  rfl

theorem compareTimes_succ (build : Build) (mem : Memory) (p1 p2 n : ℕ) :
    compareTimes build mem p1 p2 (n + 1) = some (pagesIdenticalWithCost build mem p1 p2) := by
  rw [compareTimes, List.range_succ, List.foldl_append]
  rfl

/-- The comparisons of the two pages, when there are any. -/
theorem compareTimes_eq (build : Build) {mem : Memory} {p1 p2 : ℕ} {prandomU32 : UInt32}
    (hapart : ApartPages p1 p2) (loopnum : ℕ) :
    compareTimes build (fillPages mem p1 p2 prandomU32) p1 p2 loopnum =
      if loopnum = 0 then none else some false := by
  cases loopnum with
  | zero => rfl
  | succ n => rw [if_neg (Nat.succ_ne_zero n), compareTimes_succ, fillPages_differ build hapart]

/-- The readings of a clock of `w` bits that does not go back.  The first reading starts the
measurement, it takes `rounds` rounds until 100 ticks have passed, and then the clock is not yet
around. -/
structure Ticking {w : ℕ} (jiffies : ℕ → BitVec w) (time : ℕ → ℕ) (rounds : ℕ) : Prop where
  reads : ∀ n, jiffies n = BitVec.ofNat w (time n)
  mono : Monotone time
  before : time rounds < time 0 + 100
  after : time 0 + 100 ≤ time (rounds + 1)
  span : time (rounds + 2) < time 0 + 2 ^ w

section Ticking

variable {w : ℕ} {jiffies : ℕ → BitVec w} {time : ℕ → ℕ} {rounds : ℕ}

theorem ofNat_sub_ofNat {m n : ℕ} (hmn : m ≤ n) :
    BitVec.ofNat w n - BitVec.ofNat w m = BitVec.ofNat w (n - m) := by
  conv_lhs => rw [← Nat.sub_add_cancel hmn, BitVec.ofNat_add, BitVec.add_sub_cancel]

/-- A number of the source as an `unsigned long` of at least 32 bits. -/
theorem toNat_long (hw : 32 ≤ w) {n : ℕ} (hn : n < 2 ^ 32) : (BitVec.ofNat w n).toNat = n :=
  Nat.mod_eq_of_lt (Nat.lt_of_lt_of_le hn (Nat.pow_le_pow_right Nat.two_pos hw))

/-- The difference of two readings is the time between them, modulo the width of the clock. -/
theorem Ticking.elapsed_mod (h : Ticking jiffies time rounds) {m n : ℕ} (hmn : m ≤ n) :
    (jiffies n - jiffies m).toNat = (time n - time m) % 2 ^ w := by
  rw [h.reads, h.reads, ofNat_sub_ofNat (h.mono hmn), BitVec.toNat_ofNat]

/-- Since the start it is the time itself, also when the clock has wrapped. -/
theorem Ticking.elapsed (h : Ticking jiffies time rounds) {n : ℕ} (hn : n ≤ rounds + 2) :
    (jiffies n - jiffies 0).toNat = time n - time 0 := by
  have hstart : time 0 ≤ time n := h.mono (Nat.zero_le n)
  have hend : time n ≤ time (rounds + 2) := h.mono hn
  have hspan := h.span
  rw [h.elapsed_mod (Nat.zero_le n)]
  exact Nat.mod_eq_of_lt (by omega)

theorem Ticking.goes_on (h : Ticking jiffies time rounds) (hw : 32 ≤ w) {tick : ℕ}
    (ht : tick ≤ rounds) : jiffies tick - jiffies 0 < 100 := by
  have hle : time tick ≤ time rounds := h.mono ht
  have hbefore := h.before
  rw [BitVec.lt_def, h.elapsed (by omega)]
  show _ < (BitVec.ofNat w 100).toNat
  rw [toNat_long hw (by decide)]
  omega

theorem Ticking.stops (h : Ticking jiffies time rounds) (hw : 32 ≤ w) :
    ¬jiffies (rounds + 1) - jiffies 0 < 100 := by
  have hafter := h.after
  rw [BitVec.lt_def, h.elapsed (by omega)]
  show ¬_ < (BitVec.ofNat w 100).toNat
  rw [toNat_long hw (by decide)]
  omega

/-- From the test `tick` on, the loop does the rounds that are left. -/
theorem hashUntil_eq (h : Ticking jiffies time rounds) (hw : 32 ≤ w) (randomNums : RandomNums)
    (page : Page) (c : Counters) {fuel tick : ℕ} (ht : tick ≤ rounds + 1)
    (hfuel : rounds + 1 < tick + fuel) (loopnum : BitVec w) (hash : Option UInt32) :
    hashUntil randomNums jiffies page (jiffies 0) fuel tick loopnum hash c =
      .ok (rounds + 2, loopnum + BitVec.ofNat w ((rounds + 1 - tick) * 100),
        if tick = rounds + 1 then hash
        else some (randomSampleHash randomNums page hashStrengthFull).hash, c) := by
  induction fuel generalizing tick loopnum hash with
  | zero => omega
  | succ fuel ih =>
    rw [hashUntil]
    by_cases hend : tick = rounds + 1
    · rw [hend, if_neg (h.stops hw), if_pos rfl, Nat.sub_self, Nat.zero_mul]
      simp
    · rw [if_pos (h.goes_on hw (by omega)), hashHundredTimes_eq, if_neg hend]
      show hashUntil randomNums jiffies page (jiffies 0) fuel (tick + 1) (loopnum + 100) _ c = _
      rw [ih (by omega) (by omega)]
      have hcount : (rounds + 1 - tick) * 100 = 100 + (rounds + 1 - (tick + 1)) * 100 := by omega
      rw [hcount, BitVec.ofNat_add, ← BitVec.add_assoc, ite_self]
      rfl

/-- The quotient of the two measurements, whose product wraps at the width of a long. -/
theorem memcmpCost_eq (h : Ticking jiffies time rounds) (hw : 32 ≤ w) :
    100 ≤ time (rounds + 2) - time 0 ∧
    ∃ cost, divLong (BitVec.ofNat w hashStrengthFull *
        (jiffies (rounds + 4) - jiffies (rounds + 3))) (jiffies (rounds + 2) - jiffies 0) =
        .ok cost ∧
      cost.toNat = 1024 * (time (rounds + 4) - time (rounds + 3)) % 2 ^ w /
        (time (rounds + 2) - time 0) ∧ cost.toNat ≤ (2 ^ w - 1) / 100 := by
  have hlater : time (rounds + 1) ≤ time (rounds + 2) := h.mono (by omega)
  have hafter := h.after
  have hdivisor := h.elapsed (Nat.le_refl (rounds + 2))
  have hspent := h.elapsed_mod (Nat.le_succ (rounds + 3))
  have hlarge : 100 ≤ time (rounds + 2) - time 0 := by omega
  have hne : jiffies (rounds + 2) - jiffies 0 ≠ 0 := by
    intro hzero
    rw [hzero, BitVec.ofNat_eq_ofNat, BitVec.toNat_zero] at hdivisor
    omega
  have hvalue : (BitVec.ofNat w hashStrengthFull * (jiffies (rounds + 4) - jiffies (rounds + 3)) /
      (jiffies (rounds + 2) - jiffies 0)).toNat =
        1024 * (time (rounds + 4) - time (rounds + 3)) % 2 ^ w /
          (time (rounds + 2) - time 0) := by
    rw [BitVec.toNat_udiv, BitVec.toNat_mul, toNat_long hw (by decide), hspent, hdivisor,
      Nat.mul_mod_mod, hashStrengthFull_eq]
  refine ⟨hlarge, _, by rw [divLong, if_neg hne], hvalue, ?_⟩
  have hpos : 0 < 2 ^ w := Nat.two_pow_pos w
  have hwrap : 1024 * (time (rounds + 4) - time (rounds + 3)) % 2 ^ w < 2 ^ w := Nat.mod_lt _ hpos
  rw [hvalue]
  calc 1024 * (time (rounds + 4) - time (rounds + 3)) % 2 ^ w / (time (rounds + 2) - time 0)
      ≤ (2 ^ w - 1) / (time (rounds + 2) - time 0) := Nat.div_le_div_right (by omega)
    _ ≤ (2 ^ w - 1) / 100 := Nat.div_le_div_left hlarge (by decide)

end Ticking

/-! ### The main result -/

/-- What a measurement with the pages `p1` and `p2` leaves behind, and prints.  A hundred hashes and
comparisons are counted a round, in a long as well. -/
structure Measured {w : ℕ} (randomNums : RandomNums) (time : ℕ → ℕ) (rounds p1 p2 : ℕ)
    (k k' : Kernel w) (info : CostInfo w) : Prop where
  divisor : 100 ≤ time (rounds + 2) - time 0
  cost : k'.memcmpCost.toNat =
    1024 * (time (rounds + 4) - time (rounds + 3)) % 2 ^ w / (time (rounds + 2) - time 0)
  bounded : k'.memcmpCost.toNat ≤ (2 ^ w - 1) / 100
  printed : info = ⟨k'.memcmpCost,
    if rounds = 0 then none
    else some (randomSampleHash randomNums (pageAt k'.mem p1) hashStrengthFull).hash,
    if rounds * 100 % 2 ^ w = 0 then none else some false⟩
  pages_differ : DifferInLastByte k'.mem p1 p2
  outside : ∀ q, q < p1 ∨ p1 + pageSize ≤ q → q < p2 ∨ p2 + pageSize ≤ q → k'.mem q = k.mem q

/-- Whatever `alloc_page` returns, on a clock that does not go back the function ends and returns,
gives back every page it was given, and leaves the counters alone.  Without both pages it returns
`-ENOMEM` and changes nothing; with both it compares two pages that agree up to their last byte, on
every build with the result that they differ, divides by at least 100, and stores the quotient, all
in words of the width that the build gives an `unsigned long`. -/
theorem calPositiveNegativeCosts_measures (build : Build) (randomNums : RandomNums)
    {jiffies : ℕ → BitVec build.longBits} {time : ℕ → ℕ} {rounds : ℕ}
    (h : Ticking jiffies time rounds) {alloc1 alloc2 : Option ℕ}
    (hapart : ∀ p1 ∈ alloc1, ∀ p2 ∈ alloc2, ApartPages p1 p2) (prandomU32 : UInt32)
    (k : Kernel build.longBits) {fuel : ℕ} (hfuel : rounds < fuel) :
    ∃ r info k', calPositiveNegativeCosts randomNums build jiffies fuel alloc1 alloc2 prandomU32 k =
        .ok (r, info, k') ∧ k'.pages = k.pages ∧ k'.counters = k.counters ∧
      match alloc1, alloc2 with
      | some p1, some p2 =>
        r = 0 ∧ ∃ i, info = some i ∧ Measured randomNums time rounds p1 p2 k k' i
      | _, _ => r = -enomem ∧ info = none ∧ k'.mem = k.mem ∧ k'.memcmpCost = k.memcmpCost := by
  cases alloc1 with
  | none => exact ⟨_, _, k, rfl, rfl, rfl, rfl, rfl, rfl, rfl⟩
  | some p1 =>
    cases alloc2 with
    | none =>
      rw [calPositiveNegativeCosts, freePage, if_pos List.mem_cons_self]
      refine ⟨_, _, _, rfl, ?_, rfl, rfl, rfl, rfl, rfl⟩
      exact List.erase_cons_head p1 k.pages
    | some p2 =>
      have hpages : ApartPages p1 p2 := hapart p1 rfl p2 rfl
      have hne : p2 ≠ p1 := by
        intro heq
        rw [ApartPages, heq] at hpages
        have hpage : 0 < pageSize := by decide
        omega
      obtain ⟨hlarge, cost, hcost, hvalue, hbound⟩ := memcmpCost_eq h build.longBits_ge
      have hloop := hashUntil_eq h build.longBits_ge randomNums
        (pageAt (fillPages k.mem p1 p2 prandomU32) p1) k.counters
        (show 1 ≤ rounds + 1 by omega) (show rounds + 1 < 1 + fuel by omega) 0 none
      simp only [show 1 = rounds + 1 ↔ rounds = 0 by omega] at hloop
      have hret : compareTimes build (fillPages k.mem p1 p2 prandomU32) p1 p2
          (0 + BitVec.ofNat build.longBits ((rounds + 1 - 1) * 100)).toNat =
            if rounds * 100 % 2 ^ build.longBits = 0 then none else some false := by
        rw [BitVec.ofNat_eq_ofNat, BitVec.zero_add, BitVec.toNat_ofNat, Nat.add_sub_cancel]
        exact compareTimes_eq build hpages _
      refine ⟨0, some _, ⟨fillPages k.mem p1 p2 prandomU32, k.pages, cost, k.counters⟩, ?_, rfl,
        rfl, rfl, _, rfl, ⟨hlarge, hvalue, hbound, rfl, fillPages_differInLastByte hpages, ?_⟩⟩
      · rw [calPositiveNegativeCosts, hloop]
        show (divLong (BitVec.ofNat _ hashStrengthFull *
          (jiffies (rounds + 4) - jiffies (rounds + 3)))
          (jiffies (rounds + 2) - jiffies 0) >>= _) = _
        rw [hcost]
        show (freePage p1
          ⟨fillPages k.mem p1 p2 prandomU32, p2 :: p1 :: k.pages, cost, k.counters⟩ >>= _) = _
        rw [freePage_second hne]
        show (freePage p2 ⟨fillPages k.mem p1 p2 prandomU32, p2 :: k.pages, cost, k.counters⟩ >>=
          _) = _
        rw [freePage_head]
        show Except.ok (0, some (CostInfo.mk cost _ (compareTimes build
          (fillPages k.mem p1 p2 prandomU32) p1 p2
            (0 + BitVec.ofNat build.longBits ((rounds + 1 - 1) * 100)).toNat)), _) = _
        rw [hret]
      · exact fun q h1 h2 => fillPages_outside h1 h2

/-- A clock of 32 bits that moves on by 60 ticks between two readings, and wraps at the second. -/
theorem ticking_sixty : Ticking (fun n => BitVec.ofNat 32 (2 ^ 32 - 60 + 60 * n))
    (fun n => 2 ^ 32 - 60 + 60 * n) 1 where
  reads _ := rfl
  mono := fun _ _ h => Nat.add_le_add_left (Nat.mul_le_mul_left 60 h) _
  before := by decide
  after := by decide
  span := by decide

/-- Two pages side by side, on that clock. -/
theorem calPositiveNegativeCosts_measures_sixty :
    ∃ k', Prod.snd <$> Prod.snd <$> calPositiveNegativeCosts id .x86_32
        (fun n => BitVec.ofNat 32 (2 ^ 32 - 60 + 60 * n)) 2 (some 0) (some 4096) 0x12345678
        ⟨fun _ => 0, [8192], 0, initialCounters⟩ = .ok k' ∧
      k'.pages = [8192] ∧ k'.memcmpCost.toNat = 341 := by
  have hapart : ∀ p1 ∈ some 0, ∀ p2 ∈ some 4096, ApartPages p1 p2 := by
    rintro p1 ⟨⟩ p2 ⟨⟩
    exact Or.inl (by decide)
  obtain ⟨r, info, k', hrun, hpages, _, _, i, _, hmeasured⟩ :=
    calPositiveNegativeCosts_measures .x86_32 id ticking_sixty hapart 0x12345678
      ⟨fun _ => 0, [8192], 0, initialCounters⟩ (show 1 < 2 by decide)
  refine ⟨k', ?_, hpages, hmeasured.cost⟩
  rw [hrun]
  rfl

end DirtyPages
