import DirtyPages.FastHash
import DirtyPages.Basic
import DirtyPages.Lib.BucketLog
import DirtyPages.Lib.Outcome

/-!
# The chained hash table

The table of `fast_hash.h`.  An entry points to a block of its caller, who may change the block at
any time.  The abstract table is the history of the successful inserts, newest first, each with the
memory at the time; the buckets are a way to store that history.
-/

namespace DirtyPages

open Outcome BucketLog

/-! ### The table of the source -/

/-- `fh_entry`, with its address; `next` is the order in its chain. -/
structure FhEntry where
  address : ℕ
  hash : UInt64
  data : ℕ
  len : ℕ
  deriving DecidableEq, Repr

/-- `fh_table` -/
structure FhTable where
  buckets : ℕ → List FhEntry
  bucketCount : UInt64
  entryCount : UInt64

/-- `while (n < bucket_count) n <<= 1;` -/
def roundUp : ℕ → UInt64 → UInt64 → Except Fault UInt64
  | 0, _, _ => .error .outOfFuel
  | fuel + 1, n, bucketCount =>
    if n < bucketCount then roundUp fuel (n <<< 1) bucketCount else .ok n

/-- `init_hash_table`, given for which sizes `calloc` succeeds; there is no table when it returns
0. -/
def initHashTable (fuel : ℕ) (calloc : UInt64 → Bool) (bucketCount : UInt64) :
    Except Fault (Option FhTable) := do
  let n ← roundUp fuel 1 bucketCount
  if calloc n then
    return some ⟨fun _ => [], n, 0⟩
  else
    return none

/-- `t->buckets[idx]` -/
def FhTable.chain (t : FhTable) (idx : UInt64) : Except Fault (List FhEntry) :=
  if idx < t.bucketCount then .ok (t.buckets idx.toNat) else .error .outOfBounds

/-- `memcmp(p, q, len) == 0` -/
def memcmpEqual (mem : Memory) (p q len : ℕ) : Bool :=
  (List.range len).all fun i => mem (p + i) = mem (q + i)

section

variable (aesni : Option (M128i → M128i → M128i)) (mem : Memory)

/-- `hash_table_insert`, given the result of `malloc`. -/
def hashTableInsert (malloc : Option ℕ) (t : FhTable) (data len : ℕ) :
    Except Fault (Bool × FhTable) :=
  match malloc with
  | none => .ok (false, t)
  | some address => do
    let hash := fastHash aesni mem data len
    let idx := hash &&& (t.bucketCount - 1)
    let chain ← t.chain idx
    return (true, { t with
      buckets := Function.update t.buckets idx.toNat (⟨address, hash, data, len⟩ :: chain)
      entryCount := t.entryCount + 1 })

/-- `hash_table_lookup` -/
def hashTableLookup (t : FhTable) (data len : ℕ) : Except Fault (Option FhEntry) := do
  let h := fastHash aesni mem data len
  let idx := h &&& (t.bucketCount - 1)
  let chain ← t.chain idx
  return chain.find? fun e => e.hash = h && e.len = len && memcmpEqual mem e.data data len

end

/-! ### The history of a table -/

/-- A successful insert, with the memory when it was made. -/
structure Insertion where
  address : ℕ
  data : ℕ
  len : ℕ
  memory : Memory

/-- What a caller does: insert a block, or change a byte of the memory. -/
inductive TableOp
  | insert (malloc : Option ℕ) (data len : ℕ)
  | write (p : ℕ) (byte : UInt8)
  deriving DecidableEq, Repr

/-- The memory, the table and its history. -/
structure TableState where
  mem : Memory
  table : FhTable
  history : List Insertion

section

variable (aesni : Option (M128i → M128i → M128i))

/-- The entry that an insert makes. -/
def Insertion.entry (i : Insertion) : FhEntry :=
  ⟨i.address, fastHash aesni i.memory i.data i.len, i.data, i.len⟩

/-- The effect of an operation; an insert that succeeds is recorded. -/
def TableOp.run (s : TableState) : TableOp → Except Fault TableState
  | .insert malloc data len => do
    let (inserted, table) ← hashTableInsert aesni s.mem malloc s.table data len
    match inserted, malloc with
    | true, some address => return { s with
        table := table
        history := ⟨address, data, len, s.mem⟩ :: s.history }
    | _, _ => return { s with table := table }
  | .write p byte => .ok { s with mem := Function.update s.mem p byte }

/-- The most recent insert of a block that has the bytes of the query now and had the hash of the
query then. -/
def lookupHistory (s : TableState) (data len : ℕ) : Option FhEntry :=
  (s.history.map (Insertion.entry aesni)).find? fun e =>
    e.hash = fastHash aesni s.mem data len && e.len = len && memcmpEqual s.mem e.data data len

/-- The table stores the history. -/
structure TableInv (s : TableState) : Prop where
  positive : s.table.bucketCount ≠ 0
  stored : Holds (fun e : FhEntry => (e.hash &&& (s.table.bucketCount - 1)).toNat) s.table.buckets
    (s.history.map (Insertion.entry aesni))
  counted : s.table.entryCount = UInt64.ofNat s.history.length

end

variable {aesni : Option (M128i → M128i → M128i)} {s : TableState}

theorem memcmpEqual_iff {mem : Memory} {p q len : ℕ} :
    memcmpEqual mem p q len = true ↔ SameBytes mem p mem q len := by
  simp [memcmpEqual, SameBytes]

/-- A masked hash is an index of the table. -/
theorem and_pred_lt {n : UInt64} (hn : n ≠ 0) (hash : UInt64) : hash &&& (n - 1) < n := by
  have hpos : n.toNat ≠ 0 := fun h => hn (UInt64.toNat_inj.mp h)
  have hone : (1 : UInt64) ≤ n := by
    rw [UInt64.le_iff_toNat_le, UInt64.toNat_one]
    omega
  have hle : hash.toNat &&& (n - 1).toNat ≤ (n - 1).toNat := Nat.and_le_right
  rw [UInt64.toNat_sub_of_le _ _ hone, UInt64.toNat_one] at hle
  rw [UInt64.lt_iff_toNat_lt, UInt64.toNat_and, UInt64.toNat_sub_of_le _ _ hone, UInt64.toNat_one]
  omega

theorem FhTable.chain_masked {t : FhTable} (h : t.bucketCount ≠ 0) (hash : UInt64) :
    t.chain (hash &&& (t.bucketCount - 1)) =
      .ok (t.buckets (hash &&& (t.bucketCount - 1)).toNat) := by
  rw [FhTable.chain, if_pos (and_pred_lt h hash)]

/-- The rounding loop, where it ends, has not shifted its one bit out. -/
theorem roundUp_ne_zero {fuel : ℕ} {n bucketCount r : UInt64} (hn : n ≠ 0)
    (h : roundUp fuel n bucketCount = .ok r) : r ≠ 0 := by
  intro hr
  subst hr
  have hend : ∀ fuel m, roundUp fuel m bucketCount = .ok 0 → ¬(0 : UInt64) < bucketCount := by
    intro fuel
    induction fuel with
    | zero =>
      intro m h
      cases h
    | succ fuel ih =>
      intro m h
      rw [roundUp] at h
      split_ifs at h with hlt
      · exact ih _ h
      · cases h
        exact hlt
  cases fuel with
  | zero => cases h
  | succ fuel =>
    rw [roundUp] at h
    have hzero := hend (fuel + 1) n h
    split_ifs at h with hlt
    · rw [UInt64.lt_iff_toNat_lt] at hlt hzero
      rw [UInt64.toNat_zero] at hzero
      omega
    · exact hn (Except.ok.inj h)

/-- A new table stores the empty history. -/
theorem tableInv_init {fuel : ℕ} {calloc : UInt64 → Bool} {bucketCount : UInt64} {t : FhTable}
    (h : initHashTable fuel calloc bucketCount = .ok (some t)) (mem : Memory) :
    TableInv aesni ⟨mem, t, []⟩ := by
  obtain ⟨n, hn, ht⟩ := bind_eq_ok.mp h
  split_ifs at ht
  · cases ht
    exact ⟨roundUp_ne_zero (by decide) hn, holds_empty, rfl⟩
  · cases ht

/-- Every operation returns and keeps the invariant. -/
theorem TableOp.run_inv (op : TableOp) (h : TableInv aesni s) :
    Meets (fun _ => False) (TableInv aesni) (op.run aesni s) := by
  cases op with
  | write p byte => exact ⟨h.positive, h.stored, h.counted⟩
  | insert malloc data len =>
    cases malloc with
    | none => exact ⟨h.positive, h.stored, h.counted⟩
    | some address =>
      rw [TableOp.run, hashTableInsert]
      show Meets _ _ ((s.table.chain _ >>= _) >>= _)
      rw [FhTable.chain_masked h.positive]
      refine ⟨h.positive, h.stored.push ⟨address, fastHash aesni s.mem data len, data, len⟩, ?_⟩
      show s.table.entryCount + 1 = UInt64.ofNat (s.history.length + 1)
      rw [h.counted, UInt64.ofNat_add]
      rfl

/-- A lookup finds what the history says. -/
theorem hashTableLookup_eq (h : TableInv aesni s) (data len : ℕ) :
    hashTableLookup aesni s.mem s.table data len = .ok (lookupHistory aesni s data len) := by
  rw [hashTableLookup, FhTable.chain_masked h.positive]
  refine congrArg Except.ok (h.stored.find ?_)
  intro e he
  simp only [Bool.and_eq_true, decide_eq_true_eq] at he
  rw [he.1.1]

/-! ### Runs -/

/-- What a caller passed to a successful insert. -/
def TableOp.inserted : TableOp → Option (ℕ × ℕ × ℕ)
  | .insert (some address) data len => some (address, data, len)
  | _ => none

def Insertion.call (i : Insertion) : ℕ × ℕ × ℕ := (i.address, i.data, i.len)

/-- One operation adds to the history what it inserted. -/
theorem TableOp.run_history {op : TableOp} {s' : TableState} (h : op.run aesni s = .ok s') :
    s'.history.map Insertion.call = op.inserted.toList ++ s.history.map Insertion.call := by
  cases op with
  | write p byte =>
    cases h
    rfl
  | insert malloc data len =>
    cases malloc with
    | none =>
      cases h
      rfl
    | some address =>
      obtain ⟨p, hp, hs'⟩ := bind_eq_ok.mp h
      obtain ⟨chain, _, hchain⟩ := bind_eq_ok.mp hp
      cases hchain
      cases hs'
      rfl

theorem run_history {ops : List TableOp} {s' : TableState}
    (h : ops.foldlM (TableOp.run aesni) s = .ok s') :
    s'.history.map Insertion.call =
      (ops.filterMap TableOp.inserted).reverse ++ s.history.map Insertion.call := by
  induction ops generalizing s with
  | nil =>
    cases h
    rfl
  | cons op ops ih =>
    rw [List.foldlM_cons] at h
    obtain ⟨s₁, hop, hrest⟩ := bind_eq_ok.mp h
    rw [ih hrest, TableOp.run_history hop, List.filterMap_cons]
    cases op.inserted with
    | none => rfl
    | some call => simp

/-- After any operations on a new table a lookup returns the most recent insert whose block now has
the bytes of the query and had its hash when it was inserted; so it returns no block with other
bytes, and it does not miss a block that is unchanged since its insert. -/
theorem hashTable_refines_history (aesni : Option (M128i → M128i → M128i)) (fuel : ℕ)
    (calloc : UInt64 → Bool) (bucketCount : UInt64) (t : FhTable)
    (hinit : initHashTable fuel calloc bucketCount = .ok (some t)) (mem : Memory)
    (ops : List TableOp) :
    ∃ s, ops.foldlM (TableOp.run aesni) ⟨mem, t, []⟩ = .ok s ∧
      s.history.map Insertion.call = (ops.filterMap TableOp.inserted).reverse ∧
      s.table.entryCount = UInt64.ofNat s.history.length ∧
      ∀ data len, len = 128 ∨ len = 4096 →
        hashTableLookup aesni s.mem s.table data len = .ok (lookupHistory aesni s data len) ∧
        (∀ e, lookupHistory aesni s data len = some e →
          e.len = len ∧ SameBytes s.mem e.data s.mem data len) ∧
        ∀ i ∈ s.history, i.len = len → SameBytes i.memory i.data s.mem i.data len →
          SameBytes s.mem i.data s.mem data len → (lookupHistory aesni s data len).isSome := by
  have hstart : TableInv aesni ⟨mem, t, []⟩ := tableInv_init hinit mem
  obtain ⟨s, hrun, hinv⟩ :=
    (Meets.foldlM (fun s op hs => TableOp.run_inv op hs) ops _ hstart).exists_ok
  refine ⟨s, hrun, (run_history hrun).trans (List.append_nil _), hinv.counted, ?_⟩
  intro data len hlen
  refine ⟨hashTableLookup_eq hinv data len, ?_, ?_⟩
  · intro e he
    have hmatch := List.find?_some he
    simp only [Bool.and_eq_true, decide_eq_true_eq] at hmatch
    exact ⟨hmatch.1.2, memcmpEqual_iff.mp hmatch.2⟩
  · intro i hi hsize hunchanged hsame
    rw [lookupHistory, List.find?_isSome]
    refine ⟨i.entry aesni, List.mem_map_of_mem hi, ?_⟩
    have hbytes : SameBytes i.memory i.data s.mem data len := by
      intro j hj
      rw [hunchanged j hj, hsame j hj]
    have hhash : fastHash aesni i.memory i.data len = fastHash aesni s.mem data len :=
      fastHash_congr aesni hlen hbytes
    simp only [Insertion.entry, hsize, hhash, decide_true, Bool.true_and]
    exact memcmpEqual_iff.mpr hsame

theorem hashTable_refines_history_changed :
    ∃ t s, initHashTable 64 (fun _ => true) 3 = .ok (some t) ∧
      [TableOp.insert (some 0) 0 128, .insert none 64 128, .insert (some 1) 128 128,
        .write 130 7].foldlM (TableOp.run none) ⟨fun _ => 0, t, []⟩ = .ok s ∧
      s.table.entryCount = UInt64.ofNat s.history.length ∧
      hashTableLookup none s.mem s.table 256 128 = .ok (lookupHistory none s 256 128) := by
  refine ⟨⟨fun _ => [], 4, 0⟩, ?_⟩
  have hinit : initHashTable 64 (fun _ => true) 3 = .ok (some ⟨fun _ => [], 4, 0⟩) := rfl
  obtain ⟨s, hrun, _, hcount, hlookup⟩ := hashTable_refines_history none 64 (fun _ => true) 3 _
    hinit (fun _ => 0) [.insert (some 0) 0 128, .insert none 64 128, .insert (some 1) 128 128,
      .write 130 7]
  exact ⟨s, hinit, hrun, hcount, (hlookup 256 128 (Or.inl rfl)).1⟩

end DirtyPages
