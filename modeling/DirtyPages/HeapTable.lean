import DirtyPages.HashTable
import DirtyPages.BucketCount
import DirtyPages.Lib.HeapChain

/-!
# The hash table in the heap

The table of `fast_hash.h` with its pointers: the entries and the bucket arrays are objects of one
heap, which the tables of a program share with each other and with everything else it allocates.
The table of chains of `HashTable` is what the pointers stand for.  An access through a null pointer,
an access to an object that is gone and a second `free` are faults.
-/

namespace DirtyPages.Pointers

open Outcome HeapChain

/-! ### Objects, and what the program does with them -/

/-- `fh_entry` -/
structure FhEntry where
  hash : UInt64
  data : ℕ
  len : ℕ
  next : ℕ
  deriving DecidableEq, Repr

/-- What the heap holds: an entry, an array of `count` chains, or something of another kind. -/
inductive Object
  | entry (e : FhEntry)
  | buckets (count : UInt64) (chains : ℕ → ℕ)
  | other (o : ℕ)

/-- `fh_table` -/
structure FhTable where
  buckets : ℕ
  bucketCount : UInt64
  entryCount : UInt64
  deriving DecidableEq, Repr

/-- One call of `malloc` or `calloc`: the address of the new object, which no object had. -/
structure Allocator where
  pick : ℕ → Heap Object → Option ℕ
  fresh : ∀ bytes h p, pick bytes h = some p → p ≠ 0 ∧ h p = none

/-- `e->…` -/
def readEntry (h : Heap Object) (e : ℕ) : Except Fault FhEntry :=
  if e = 0 then .error .nullPointer
  else
    match h e with
    | some (.entry entry) => .ok entry
    | _ => .error .useAfterFree

/-- `t->buckets[idx]` -/
def readBucket (h : Heap Object) (buckets : ℕ) (idx : UInt64) : Except Fault ℕ :=
  if buckets = 0 then .error .nullPointer
  else
    match h buckets with
    | some (.buckets count chains) =>
      if idx < count then .ok (chains idx.toNat) else .error .outOfBounds
    | _ => .error .useAfterFree

/-- `t->buckets[idx] = e;` -/
def writeBucket (h : Heap Object) (buckets : ℕ) (idx : UInt64) (e : ℕ) :
    Except Fault (Heap Object) :=
  if buckets = 0 then .error .nullPointer
  else
    match h buckets with
    | some (.buckets count chains) =>
      if idx < count then
        .ok (Function.update h buckets
          (some (.buckets count (Function.update chains idx.toNat e))))
      else .error .outOfBounds
    | _ => .error .useAfterFree

/-- `free(p);` -/
def free (h : Heap Object) (p : ℕ) : Except Fault (Heap Object) :=
  if p = 0 then .ok h
  else
    match h p with
    | some _ => .ok (h.without [p])
    | none => .error .useAfterFree

/-! ### The functions of the source -/

/-- `sizeof(fh_entry)` -/
def sizeofFhEntry : ℕ := 32

/-- `sizeof(fh_entry *)` -/
def sizeofPointer : ℕ := 8

/-- `init_hash_table`; after a `calloc` that fails only `buckets` has changed. -/
def initHashTable (fuel : ℕ) (calloc : Allocator) (t : FhTable) (bucketCount : UInt64)
    (h : Heap Object) : Except Fault (Bool × FhTable × Heap Object) := do
  let n ← roundUp fuel 1 bucketCount
  match calloc.pick (n.toNat * sizeofPointer) h with
  | none => return (false, { t with buckets := 0 }, h)
  | some p => return (true, ⟨p, n, 0⟩, Function.update h p (some (.buckets n fun _ => 0)))

section

variable (aesni : Option (M128i → M128i → M128i)) (mem : Memory)

/-- `hash_table_insert` -/
def hashTableInsert (malloc : Allocator) (t : FhTable) (data len : ℕ) (h : Heap Object) :
    Except Fault (Bool × FhTable × Heap Object) :=
  match malloc.pick sizeofFhEntry h with
  | none => .ok (false, t, h)
  | some e => do
    let hash := fastHash aesni mem data len
    let idx := hash &&& (t.bucketCount - 1)
    let next ← readBucket h t.buckets idx
    let h := Function.update h e (some (.entry ⟨hash, data, len, next⟩))
    let h ← writeBucket h t.buckets idx e
    return (true, { t with entryCount := t.entryCount + 1 }, h)

/-- The loop of `hash_table_lookup` from the entry `e` on. -/
def lookupFrom (h : Heap Object) (hash : UInt64) (data len : ℕ) : ℕ → ℕ → Except Fault ℕ
  | 0, _ => .error .outOfFuel
  | fuel + 1, e =>
    if e = 0 then .ok 0
    else do
      let entry ← readEntry h e
      if entry.hash = hash && entry.len = len && memcmpEqual mem entry.data data len then
        return e
      else
        lookupFrom h hash data len fuel entry.next

/-- `hash_table_lookup` -/
def hashTableLookup (fuel : ℕ) (h : Heap Object) (t : FhTable) (data len : ℕ) :
    Except Fault ℕ := do
  let hash := fastHash aesni mem data len
  let idx := hash &&& (t.bucketCount - 1)
  let e ← readBucket h t.buckets idx
  lookupFrom mem h hash data len fuel e

end

/-- The inner loop of `free_hash_table` from the entry `e` on. -/
def freeFrom : ℕ → ℕ → Heap Object → Except Fault (Heap Object)
  | 0, _, _ => .error .outOfFuel
  | fuel + 1, e, h =>
    if e = 0 then .ok h
    else do
      let entry ← readEntry h e
      let h ← free h e
      freeFrom fuel entry.next h

/-- `free_hash_table` -/
def freeHashTable (fuel : ℕ) (t : FhTable) (h : Heap Object) :
    Except Fault (FhTable × Heap Object) := do
  let h ← (List.range t.bucketCount.toNat).foldlM
    (fun h i => do
      let e ← readBucket h t.buckets (UInt64.ofNat i)
      freeFrom fuel e h) h
  let h ← free h t.buckets
  return (⟨0, 0, 0⟩, h)

/-! ### The chains that the pointers stand for -/

/-- The object of an entry whose next pointer is `next`. -/
def entryCell (e : DirtyPages.FhEntry) (next : ℕ) : Object := .entry ⟨e.hash, e.data, e.len, next⟩

theorem entryCell_next {e e' : DirtyPages.FhEntry} {next next' : ℕ}
    (h : entryCell e next = entryCell e' next') : next = next' := by
  simp only [entryCell, Object.entry.injEq, FhEntry.mk.injEq] at h
  exact h.2.2.2

theorem entryCell_hash {e e' : DirtyPages.FhEntry} {next next' : ℕ}
    (h : entryCell e next = entryCell e' next') : e.hash = e'.hash := by
  simp only [entryCell, Object.entry.injEq, FhEntry.mk.injEq] at h
  exact h.1

/-- The entries of a chain. -/
abbrev Entries (h : Heap Object) (e : ℕ) (es : List DirtyPages.FhEntry) : Prop :=
  Chain DirtyPages.FhEntry.address entryCell h e es

/-- The table `u` of chains is what the table `t` of pointers stands for. -/
structure Represents (h : Heap Object) (t : FhTable) (u : DirtyPages.FhTable) : Prop where
  allocated : t.buckets ≠ 0
  bucketCount : t.bucketCount = u.bucketCount
  entryCount : t.entryCount = u.entryCount
  chains : ∃ heads, h t.buckets = some (.buckets t.bucketCount heads) ∧
    ∀ i < t.bucketCount.toNat, Entries h (heads i) (u.buckets i)

/-- The addresses of the entries of a table. -/
def addresses (u : DirtyPages.FhTable) : List ℕ :=
  (List.range u.bucketCount.toNat).flatMap fun i => (u.buckets i).map DirtyPages.FhEntry.address

variable {aesni : Option (M128i → M128i → M128i)} {mem : Memory} {h h' : Heap Object}
  {t : FhTable} {u : DirtyPages.FhTable} {es : List DirtyPages.FhEntry} {e data len fuel : ℕ}

theorem mem_addresses {p : ℕ} : p ∈ addresses u ↔
    ∃ i < u.bucketCount.toNat, ∃ e ∈ u.buckets i, e.address = p := by
  simp [addresses]

theorem readEntry_eq {c : DirtyPages.FhEntry} {next : ℕ} (hne : c.address ≠ 0)
    (hread : h c.address = some (entryCell c next)) :
    readEntry h c.address = .ok ⟨c.hash, c.data, c.len, next⟩ := by
  rw [readEntry, if_neg hne, hread]
  rfl

theorem readBucket_eq {b : ℕ} {count idx : UInt64} {heads : ℕ → ℕ} (hb : b ≠ 0)
    (hread : h b = some (.buckets count heads)) :
    readBucket h b idx = if idx < count then .ok (heads idx.toNat) else .error .outOfBounds := by
  rw [readBucket, if_neg hb, hread]

theorem free_eq {p : ℕ} (hp : p ≠ 0) (hread : h p ≠ none) : free h p = .ok (h.without [p]) := by
  rw [free, if_neg hp]
  cases hobject : h p with
  | none => exact absurd hobject hread
  | some o => rfl

/-- The loop of a lookup finds in the chain what `find?` does. -/
theorem lookupFrom_eq {hash : UInt64} (hc : Entries h e es) (hfuel : es.length < fuel) :
    lookupFrom mem h hash data len fuel e =
      .ok (((es.find? fun e => e.hash = hash && e.len = len && memcmpEqual mem e.data data len).map
        DirtyPages.FhEntry.address).getD 0) := by
  induction hc generalizing fuel with
  | nil =>
    cases fuel with
    | zero => cases hfuel
    | succ fuel => rfl
  | @cons c cs next hne hread _ ih =>
    cases fuel with
    | zero => cases hfuel
    | succ fuel =>
      rw [lookupFrom, if_neg hne, readEntry_eq hne hread, List.find?_cons]
      show (if _ then _ else _ : Except Fault ℕ) = _
      cases (c.hash = hash && c.len = len && memcmpEqual mem c.data data len : Bool) with
      | true => rfl
      | false => exact ih (Nat.lt_of_succ_lt_succ hfuel)

/-- A lookup returns the address of the entry that the chains give. -/
theorem hashTableLookup_simulates (hr : Represents h t u)
    (hfuel : ∀ i, (u.buckets i).length < fuel) (data len : ℕ) :
    hashTableLookup aesni mem fuel h t data len =
      (fun found => (found.map DirtyPages.FhEntry.address).getD 0) <$>
        DirtyPages.hashTableLookup aesni mem u data len := by
  obtain ⟨heads, hread, hchains⟩ := hr.chains
  rw [hashTableLookup, DirtyPages.hashTableLookup, readBucket_eq hr.allocated hread,
    DirtyPages.FhTable.chain, ← hr.bucketCount]
  split_ifs with hidx
  · exact lookupFrom_eq (hchains _ (UInt64.lt_iff_toNat_lt.mp hidx)) (hfuel _)
  · rfl

/-- Each entry of a chain is in the heap. -/
theorem Represents.read (hr : Represents h t u) {i : ℕ} (hi : i < u.bucketCount.toNat)
    {c : DirtyPages.FhEntry} (hc : c ∈ u.buckets i) :
    ∃ next, h c.address = some (entryCell c next) := by
  obtain ⟨heads, _, hchains⟩ := hr.chains
  exact (hchains i (hr.bucketCount ▸ hi)).read hc

/-- What a table stands for depends on its own objects. -/
theorem Represents.frame (hr : Represents h t u) (hb : h' t.buckets = h t.buckets)
    (hsame : ∀ p ∈ addresses u, h' p = h p) : Represents h' t u := by
  obtain ⟨heads, hread, hchains⟩ := hr.chains
  refine ⟨hr.allocated, hr.bucketCount, hr.entryCount, heads, hb.trans hread, ?_⟩
  intro i hi
  refine (hchains i hi).frame ?_
  intro c hc
  exact hsame _ (mem_addresses.mpr ⟨i, hr.bucketCount ▸ hi, c, hc, rfl⟩)

/-! ### An insert -/

/-- An array is not on a chain. -/
theorem address_ne_buckets {b : ℕ} {count : UInt64} {heads : ℕ → ℕ} (hc : Entries h e es)
    (hread : h b = some (.buckets count heads)) : ∀ c ∈ es, c.address ≠ b := by
  intro c hmem heq
  obtain ⟨next, hentry⟩ := hc.read hmem
  rw [heq, hread] at hentry
  cases hentry

theorem entries_update_buckets {b : ℕ} {count : UInt64} {heads : ℕ → ℕ} (hc : Entries h e es)
    (hread : h b = some (.buckets count heads)) (o : Option Object) :
    Entries (Function.update h b o) e es :=
  hc.frame fun c hmem => Function.update_of_ne (address_ne_buckets hc hread c hmem) _ _

variable (aesni mem) in
/-- An insert changes the pointers as it changes the chains that they stand for: it uses the new
object and the array of the table, and nothing else. -/
theorem hashTableInsert_simulates (hr : Represents h t u) (hpos : u.bucketCount ≠ 0)
    {malloc : Allocator} {p : ℕ} (hp : malloc.pick sizeofFhEntry h = some p) (data len : ℕ) :
    ∃ t' h' u', hashTableInsert aesni mem malloc t data len h = .ok (true, t', h') ∧
      DirtyPages.hashTableInsert aesni mem (some p) u data len = .ok (true, u') ∧
      Represents h' t' u' ∧ t'.buckets = t.buckets ∧ h' p ≠ none ∧ h' t.buckets ≠ none ∧
      ∀ q, q ≠ p → q ≠ t.buckets → h' q = h q := by
  obtain ⟨hne, hfree⟩ := malloc.fresh _ _ _ hp
  obtain ⟨heads, hread, hchains⟩ := hr.chains
  have hidx : fastHash aesni mem data len &&& (t.bucketCount - 1) < t.bucketCount := by
    rw [hr.bucketCount]
    exact and_pred_lt hpos _
  have hbp : t.buckets ≠ p := by
    intro heq
    rw [heq, hfree] at hread
    cases hread
  let entry : DirtyPages.FhEntry := ⟨p, fastHash aesni mem data len, data, len⟩
  let idx := fastHash aesni mem data len &&& (t.bucketCount - 1)
  let h₁ := Function.update h p (some (entryCell entry (heads idx.toNat)))
  let h₂ := Function.update h₁ t.buckets
    (some (.buckets t.bucketCount (Function.update heads idx.toNat p)))
  have hread₁ : h₁ t.buckets = some (.buckets t.bucketCount heads) :=
    (Function.update_of_ne hbp _ _).trans hread
  have hfirst : readBucket h t.buckets idx = .ok (heads idx.toNat) := by
    rw [readBucket_eq hr.allocated hread, if_pos hidx]
  have hwrite : writeBucket h₁ t.buckets idx p = .ok h₂ := by
    rw [writeBucket, if_neg hr.allocated, hread₁]
    exact if_pos hidx
  have hchain : u.chain (fastHash aesni mem data len &&& (u.bucketCount - 1)) =
      .ok (u.buckets idx.toNat) := by
    rw [DirtyPages.FhTable.chain, ← hr.bucketCount]
    exact if_pos hidx
  refine ⟨{ t with entryCount := t.entryCount + 1 }, h₂,
    ⟨Function.update u.buckets idx.toNat (entry :: u.buckets idx.toNat), u.bucketCount,
      u.entryCount + 1⟩, ?_, ?_, ?_, rfl, ?_, ?_, ?_⟩
  · rw [hashTableInsert, hp]
    show (readBucket h t.buckets idx >>= _) = _
    rw [hfirst]
    show (writeBucket h₁ t.buckets idx p >>= _) = _
    rw [hwrite]
    rfl
  · rw [DirtyPages.hashTableInsert]
    show (u.chain (fastHash aesni mem data len &&& (u.bucketCount - 1)) >>= _) = _
    rw [hchain, ← hr.bucketCount]
    rfl
  · refine ⟨hr.allocated, hr.bucketCount, congrArg (· + 1) hr.entryCount, _,
      Function.update_self _ _ _, ?_⟩
    intro i hi
    refine entries_update_buckets ?_ hread₁ _
    show Entries h₁ (Function.update heads idx.toNat p i)
      (Function.update u.buckets idx.toNat (entry :: u.buckets idx.toNat) i)
    by_cases heq : i = idx.toNat
    · subst heq
      rw [Function.update_self, Function.update_self]
      exact Chain.push (c := entry) (hchains _ hi) hne hfree
    · rw [Function.update_of_ne heq, Function.update_of_ne heq]
      exact (hchains i hi).update_unused hfree _
  · show Function.update h₁ _ _ p ≠ none
    rw [Function.update_of_ne hbp.symm]
    simp [h₁]
  · simp [h₂]
  · intro q hqp hqb
    exact (Function.update_of_ne hqb _ _).trans (Function.update_of_ne hqp _ _)

/-- Through the null pointer of a closed table only an insert without memory returns. -/
theorem hashTableInsert_closed (hclosed : t.buckets = 0) {malloc : Allocator} {p : ℕ}
    (hp : malloc.pick sizeofFhEntry h = some p) (data len : ℕ) :
    hashTableInsert aesni mem malloc t data len h = .error .nullPointer := by
  rw [hashTableInsert, hp]
  show (readBucket h t.buckets _ >>= _) = _
  rw [readBucket, if_pos hclosed]
  rfl

/-! ### The end of a table -/

/-- The loop frees the entries of its chain, each once. -/
theorem freeFrom_eq (hc : Entries h e es) (hfuel : es.length < fuel) :
    freeFrom fuel e h = .ok (h.without (es.map DirtyPages.FhEntry.address)) := by
  induction es generalizing h e fuel with
  | nil =>
    cases fuel with
    | zero => cases hfuel
    | succ fuel =>
      cases hc
      rw [List.map_nil, Heap.without_nil]
      rfl
  | cons c cs ih =>
    cases fuel with
    | zero => cases hfuel
    | succ fuel =>
      have hnodup := hc.nodup fun _ _ _ _ => entryCell_next
      rw [List.map_cons, List.nodup_cons] at hnodup
      cases hc with
      | @cons _ _ next hne hread hrest =>
        have hrest' : Entries (h.without [c.address]) next cs := by
          apply hrest.frame
          intro d hd
          apply Heap.without_of_not_mem
          intro hmem
          rw [List.mem_singleton] at hmem
          exact hnodup.1 (hmem ▸ List.mem_map_of_mem hd)
        rw [freeFrom, if_neg hne, readEntry_eq hne hread]
        show (free h c.address >>= _) = _
        rw [free_eq hne (by simp [hread])]
        show freeFrom fuel next _ = _
        rw [ih hrest' (Nat.lt_of_succ_lt_succ hfuel)]
        exact congrArg Except.ok Heap.without_cons.symm

/-- The entries of a chain are in the chain of their index only. -/
def Indexed (u : DirtyPages.FhTable) : Prop :=
  ∀ i, ∀ e ∈ u.buckets i, (e.hash &&& (u.bucketCount - 1)).toNat = i

/-- Two chains of a table have no address in common. -/
theorem chains_disjoint (hindex : Indexed u) {i j e' : ℕ} (hij : i ≠ j)
    (hc : Entries h e (u.buckets i)) (hc' : Entries h e' (u.buckets j)) :
    ∀ c ∈ u.buckets i, ∀ d ∈ u.buckets j, c.address ≠ d.address := by
  intro c hc₁ d hd₁ heq
  obtain ⟨next, hread⟩ := hc.read hc₁
  obtain ⟨next', hread'⟩ := hc'.read hd₁
  rw [heq, hread'] at hread
  have hhash : d.hash = c.hash := entryCell_hash (Option.some.inj hread)
  apply hij
  rw [← hindex i c hc₁, ← hindex j d hd₁, hhash]

/-- The outer loop frees the entries of the chains that it has passed. -/
theorem freeChains_eq (hr : Represents h t u) (hindex : Indexed u)
    (hfuel : ∀ i, (u.buckets i).length < fuel) {n : ℕ} (hn : n ≤ t.bucketCount.toNat) :
    (List.range n).foldlM (fun h i => do
      let e ← readBucket h t.buckets (UInt64.ofNat i)
      freeFrom fuel e h) h =
      .ok (h.without ((List.range n).flatMap fun i =>
        (u.buckets i).map DirtyPages.FhEntry.address)) := by
  obtain ⟨heads, hread, hchains⟩ := hr.chains
  induction n with
  | zero =>
    rw [List.range_zero, List.flatMap_nil, Heap.without_nil]
    rfl
  | succ n ih =>
    rw [List.range_succ, List.foldlM_append, ih (by omega), List.flatMap_append,
      Heap.without_append, List.flatMap_singleton]
    generalize hfreed : (List.range n).flatMap (fun i =>
      (u.buckets i).map DirtyPages.FhEntry.address) = freed
    -- what was freed is not in the chain of index n, and it is not the array
    have hpassed : ∀ p ∈ freed, ∃ i < n, ∃ c ∈ u.buckets i, c.address = p := by
      intro p hp
      simpa [← hfreed] using hp
    have hb : t.buckets ∉ freed := by
      intro hp
      obtain ⟨i, hi, c, hc, haddr⟩ := hpassed _ hp
      exact address_ne_buckets (hchains i (by omega)) hread c hc haddr
    have hchain : Entries (h.without freed) (heads n) (u.buckets n) := by
      apply (hchains n (by omega)).frame
      intro c hc
      apply Heap.without_of_not_mem
      intro hp
      obtain ⟨i, hi, d, hd, haddr⟩ := hpassed _ hp
      exact chains_disjoint hindex (by omega) (hchains i (by omega)) (hchains n (by omega)) d hd c
        hc haddr
    have hnth : (UInt64.ofNat n).toNat = n :=
      UInt64.toNat_ofNat_of_lt' (Nat.lt_trans hn t.bucketCount.toNat_lt)
    have hidx : UInt64.ofNat n < t.bucketCount := by
      rw [UInt64.lt_iff_toNat_lt, hnth]
      exact hn
    show (readBucket (h.without freed) t.buckets (UInt64.ofNat n) >>= fun e =>
      freeFrom fuel e (h.without freed)) >>= _ = _
    rw [readBucket_eq hr.allocated ((Heap.without_of_not_mem hb).trans hread), if_pos hidx, hnth]
    show freeFrom fuel (heads n) (h.without freed) >>= _ = _
    rw [freeFrom_eq hchain (hfuel n)]
    rfl

/-- All the objects of a table: its entries and its array. -/
def owned (b : ℕ) (u : DirtyPages.FhTable) : List ℕ := addresses u ++ [b]

/-- `free_hash_table` frees every entry and the array, each once, and nothing else. -/
theorem freeHashTable_eq (hr : Represents h t u) (hindex : Indexed u)
    (hfuel : ∀ i, (u.buckets i).length < fuel) :
    freeHashTable fuel t h = .ok (⟨0, 0, 0⟩, h.without (owned t.buckets u)) := by
  obtain ⟨heads, hread, hchains⟩ := hr.chains
  have hb : t.buckets ∉ addresses u := by
    intro hp
    obtain ⟨i, hi, c, hc, haddr⟩ := mem_addresses.mp hp
    exact address_ne_buckets (hchains i (hr.bucketCount ▸ hi)) hread c hc haddr
  have hloop := freeChains_eq hr hindex hfuel le_rfl
  rw [hr.bucketCount] at hloop
  rw [freeHashTable, hr.bucketCount, hloop]
  show (free (h.without (addresses u)) t.buckets >>= _) = _
  rw [free_eq hr.allocated (by rw [Heap.without_of_not_mem hb, hread]; simp), owned,
    Heap.without_append]
  rfl

/-- A table whose array is gone can be freed again when it has been reset, and not otherwise. -/
theorem freeHashTable_closed (hclosed : t.buckets = 0) (fuel : ℕ) (h : Heap Object) :
    freeHashTable fuel t h =
      if t.bucketCount = 0 then .ok (⟨0, 0, 0⟩, h) else .error .nullPointer := by
  rw [freeHashTable]
  split_ifs with hzero
  · rw [hzero, hclosed]
    rfl
  · have hpos : t.bucketCount.toNat ≠ 0 := fun heq => hzero (UInt64.toNat_inj.mp heq)
    obtain ⟨n, hn⟩ := Nat.exists_eq_succ_of_ne_zero hpos
    rw [hn, List.range_succ_eq_map, List.foldlM_cons]
    show (((readBucket h t.buckets 0 >>= _) >>= _) >>= _) = _
    rw [readBucket, if_pos hclosed]
    rfl

end DirtyPages.Pointers
