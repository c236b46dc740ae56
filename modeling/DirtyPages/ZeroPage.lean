import DirtyPages.System

/-!
# The zero-page fast test

Section 10 of `dirtPages.c` and `init_zeropage_hash_table`.  The table has an entry for each
strength below `HASH_STRENGTH_MAX`, the adaptation reaches `HASH_STRENGTH_MAX` itself, and there the
test reads behind the table.
-/

namespace DirtyPages

open Outcome SearchTree

/-- A page of zero bytes. -/
def zeroPage : Page := fun _ => 0

section

variable (randomNums : RandomNums)

/-- The loop of `init_zeropage_hash_table`: `zero_hash_table[i] = page_hash(page, i, 0)`. -/
def fillZeroHashTable (c : Counters) : Except Fault (List UInt32) :=
  (List.range hashStrengthMax).mapM fun i =>
    Prod.fst <$> pageHash randomNums zeroPage (UInt64.ofNat i) false c

/-- `init_zeropage_hash_table`, given whether each of the two allocations succeeds; the table is
absent when it returns `-ENOMEM`. -/
def initZeropageHashTable (pageAllocated tableAllocated : Bool) (c : Counters) :
    Except Fault (Option (List UInt32)) :=
  if pageAllocated then
    if tableAllocated then some <$> fillZeroHashTable randomNums c else .ok none
  else
    .ok none

/-- `find_zero_page_hash` -/
def findZeroPageHash (zeroHashTable : List UInt32) (strength : ℕ) (hash : UInt32) :
    Except Fault Bool :=
  match zeroHashTable[strength]? with
  | some entry => .ok (entry = hash)
  | none => .error .outOfBounds

/-- `find_zero_page_hash(hash_strength, page_hash(page, hash_strength, 0))` -/
def zeroPageTest (zeroHashTable : List UInt32) (page : Page) (u : Uksm) : Except Fault Bool := do
  let (hash, _) ← pageHash randomNums page u.adaptation.hashStrength false u.counters
  findZeroPageHash zeroHashTable u.adaptation.hashStrength.toNat hash

end

variable {randomNums : RandomNums}

/-- The table that a successful init leaves. -/
theorem fillZeroHashTable_eq (c : Counters) :
    fillZeroHashTable randomNums c =
      .ok ((List.range hashStrengthMax).map fun i =>
        (randomSampleHash randomNums zeroPage i).hash) := by
  have hentry : ∀ i ∈ List.range hashStrengthMax,
      (Prod.fst <$> pageHash randomNums zeroPage (UInt64.ofNat i) false c : Except Fault UInt32) =
        .ok (randomSampleHash randomNums zeroPage i).hash := by
    intro i hi
    have hlt : i < 1034 := List.mem_range.mp hi
    have hsize : (UInt64.ofNat i).toNat = i := by
      rw [UInt64.toNat_ofNat']
      omega
    rw [pageHash_silent, hsize]
    rfl
  rw [fillZeroHashTable]
  generalize List.range hashStrengthMax = indices at hentry ⊢
  induction indices with
  | nil => rfl
  | cons i indices ih =>
    rw [List.mapM_cons, hentry i List.mem_cons_self,
      ih fun j hj => hentry j (List.mem_cons_of_mem i hj)]
    rfl

theorem initZeropageHashTable_table {pageAllocated tableAllocated : Bool} {c : Counters}
    {table : List UInt32}
    (h : initZeropageHashTable randomNums pageAllocated tableAllocated c = .ok (some table)) :
    table = (List.range hashStrengthMax).map fun i =>
      (randomSampleHash randomNums zeroPage i).hash := by
  rw [initZeropageHashTable, fillZeroHashTable_eq] at h
  split_ifs at h
  · exact (Option.some.inj (Except.ok.inj h)).symm
  · cases h
  · cases h

/-- A lookup in that table. -/
theorem findZeroPageHash_eq (s : ℕ) (hash : UInt32) :
    findZeroPageHash
        ((List.range hashStrengthMax).map fun i => (randomSampleHash randomNums zeroPage i).hash)
        s hash =
      if s < hashStrengthMax then .ok ((randomSampleHash randomNums zeroPage s).hash = hash)
      else .error .outOfBounds := by
  rw [findZeroPageHash, List.getElem?_map]
  by_cases hlt : s < hashStrengthMax
  · rw [List.getElem?_range hlt, if_pos hlt]
    rfl
  · have hnone : (List.range hashStrengthMax)[s]? = none := by
      rw [List.getElem?_eq_none_iff, List.length_range]
      omega
    rw [hnone, if_neg hlt]
    rfl

/-- The whole test, from a successful init. -/
theorem zeroPageTest_eq {pageAllocated tableAllocated : Bool} {c : Counters} {table : List UInt32}
    (hinit : initZeropageHashTable randomNums pageAllocated tableAllocated c = .ok (some table))
    (page : Page) (u : Uksm) :
    zeroPageTest randomNums table page u =
      if u.adaptation.hashStrength.toNat < hashStrengthMax then
        .ok ((randomSampleHash randomNums zeroPage u.adaptation.hashStrength.toNat).hash =
          (randomSampleHash randomNums page u.adaptation.hashStrength.toNat).hash)
      else
        .error .outOfBounds := by
  rw [← findZeroPageHash_eq, ← initZeropageHashTable_table hinit, zeroPageTest, pageHash_silent]
  rfl

/-- In a reachable state the test is in bounds and exact if and only if the strength is not
`HASH_STRENGTH_MAX`. -/
theorem zeroPageTest_exact (rb : Balancer ℕ) (randomNums : RandomNums)
    (pageAllocated tableAllocated : Bool) (c : Counters) (table : List UInt32)
    (hinit : initZeropageHashTable randomNums pageAllocated tableAllocated c = .ok (some table))
    (ops : List Op) (u : Uksm) (hrun : run rb randomNums ops = .ok u) (page : Page) :
    zeroPageTest randomNums table page u =
        .ok ((randomSampleHash randomNums page u.adaptation.hashStrength.toNat).hash =
          (randomSampleHash randomNums zeroPage u.adaptation.hashStrength.toNat).hash) ↔
      u.adaptation.hashStrength ≠ strengthMax := by
  have hrange := ((run_rangeInv ops).of_ok hrun).strength.2
  rw [zeroPageTest_eq hinit, ne_eq, ← UInt64.toNat_inj, toNat_strengthMax]
  generalize u.adaptation.hashStrength.toNat = s at hrange
  rw [hashStrengthMax_eq] at hrange ⊢
  by_cases hlt : s < 1034
  · rw [if_pos hlt]
    simp only [eq_comm, true_iff]
    omega
  · rw [if_neg hlt]
    simp only [reduceCtorEq, false_iff]
    omega

theorem zeroPageTest_exact_initial :
    zeroPageTest id
        ((List.range hashStrengthMax).map fun i => (randomSampleHash id zeroPage i).hash)
        (fun _ => 7) initialUksm =
      .ok ((randomSampleHash id (fun _ => 7) initialUksm.adaptation.hashStrength.toNat).hash =
        (randomSampleHash id zeroPage initialUksm.adaptation.hashStrength.toNat).hash) := by
  have hinit : initZeropageHashTable id true true initialCounters = .ok (some
      ((List.range hashStrengthMax).map fun i => (randomSampleHash id zeroPage i).hash)) := by
    rw [initZeropageHashTable, fillZeroHashTable_eq]
    rfl
  have hne : initialUksm.adaptation.hashStrength ≠ strengthMax := by decide +kernel
  exact (zeroPageTest_exact (Balancer.plain ℕ) id true true initialCounters _ hinit [] initialUksm
    rfl _).mpr hne

/-- One scan round in which a page was scanned and more was lost than gained. -/
def losingRound : List Op :=
  [.incUksmPagesScanned, .incRshashNeg 1,
    .rshashAdjust 1 (fun _ => zeroPage) fun _ => ⟨false, false, false⟩]

/-- After 37 such rounds the strength is `HASH_STRENGTH_MAX`, and the test reads behind the table.
-/
theorem zeroPageTest_outOfBounds :
    ∃ ops u table, run (Balancer.plain ℕ) id ops = .ok u ∧
      initZeropageHashTable id true true initialCounters = .ok (some table) ∧
      u.adaptation.hashStrength = strengthMax ∧
      zeroPageTest id table zeroPage u = .error .outOfBounds := by
  have hmax : (fun u => u.adaptation.hashStrength) <$>
      run (Balancer.plain ℕ) id (List.replicate 37 losingRound).flatten = .ok strengthMax := by
    decide +kernel
  have hinit : initZeropageHashTable id true true initialCounters = .ok (some
      ((List.range hashStrengthMax).map fun i => (randomSampleHash id zeroPage i).hash)) := by
    rw [initZeropageHashTable, fillZeroHashTable_eq]
    rfl
  cases hrun : run (Balancer.plain ℕ) id (List.replicate 37 losingRound).flatten with
  | error f =>
    rw [hrun] at hmax
    cases hmax
  | ok u =>
    rw [hrun] at hmax
    have hs : u.adaptation.hashStrength = strengthMax := Except.ok.inj hmax
    refine ⟨_, u, _, hrun, hinit, hs, ?_⟩
    rw [zeroPageTest_eq hinit, hs, toNat_strengthMax, if_neg (by decide)]

end DirtyPages
