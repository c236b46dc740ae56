import DirtyPages.HeapTable

/-!
# Programs with hash tables in one heap

A program sets up tables, inserts, changes the memory that its entries point to and frees tables, in
any order, and the heap reuses what was freed.  Each object of the heap belongs to one table, to
somebody else, or to nobody any more because its table was set up again without being freed.  No
call disturbs the tables that it is not about.
-/

namespace DirtyPages.Pointers

open Outcome HeapChain

/-! ### Programs -/

/-- The state of a program.  `history` and `leaked` are not in the program: the inserts into each
table since it was set up, newest first, and the objects of tables set up again. -/
structure Program where
  mem : Memory
  heap : Heap Object
  tables : ℕ → FhTable
  history : ℕ → List Insertion
  leaked : List ℕ

/-- No table is set up. -/
def Program.start (mem : Memory) (heap : Heap Object) : Program :=
  ⟨mem, heap, fun _ => ⟨0, 0, 0⟩, fun _ => [], []⟩

/-- The objects of a table. -/
def Program.objects (s : Program) (i : ℕ) : List ℕ :=
  if (s.tables i).buckets = 0 then []
  else (s.tables i).buckets :: (s.history i).map Insertion.address

/-- What a program does. -/
inductive Call
  | init (i : ℕ) (bucketCount : UInt64) (calloc : Allocator)
  | insert (i : ℕ) (malloc : Allocator) (data len : ℕ)
  | free (i : ℕ)
  | write (p : ℕ) (byte : UInt8)

/-- The inserts of a table after one more, where `malloc` succeeds. -/
def Program.record (s : Program) (i : ℕ) (malloc : Allocator) (data len : ℕ) : List Insertion :=
  match malloc.pick sizeofFhEntry s.heap with
  | none => s.history i
  | some p => ⟨p, data, len, s.mem⟩ :: s.history i

section

variable (aesni : Option (M128i → M128i → M128i)) (fuel : ℕ)

/-- The effect of a call. -/
def Call.run (s : Program) : Call → Except Fault Program
  | .init i bucketCount calloc => do
    let (_, t, heap) ← initHashTable fuel calloc (s.tables i) bucketCount s.heap
    return { s with
      heap := heap
      tables := Function.update s.tables i t
      history := Function.update s.history i []
      leaked := s.objects i ++ s.leaked }
  | .insert i malloc data len => do
    let (_, t, heap) ← hashTableInsert aesni s.mem malloc (s.tables i) data len s.heap
    return { s with
      heap := heap
      tables := Function.update s.tables i t
      history := Function.update s.history i (s.record i malloc data len) }
  | .free i => do
    let (t, heap) ← freeHashTable fuel (s.tables i) s.heap
    return { s with
      heap := heap
      tables := Function.update s.tables i t
      history := Function.update s.history i [] }
  | .write p byte => .ok { s with mem := Function.update s.mem p byte }

end

/-- The calls that return: a request is at most `2 ^ 63` buckets, an entry goes into a table that is
set up, and a table is freed that is set up or reset. -/
def Call.Proper (s : Program) : Call → Prop
  | .init _ bucketCount _ => bucketCount.toNat ≤ 2 ^ 63
  | .insert i malloc _ _ =>
    malloc.pick sizeofFhEntry s.heap = none ∨ (s.tables i).buckets ≠ 0
  | .free i => (s.tables i).buckets ≠ 0 ∨ (s.tables i).bucketCount = 0
  | .write _ _ => True

/-- The calls that leak nothing: a table that is set up is freed before it is set up again. -/
def Call.Tidy (s : Program) : Call → Prop
  | .init i _ _ => (s.tables i).buckets = 0
  | _ => True

/-! ### The owners of the objects -/

/-- Who an object belongs to. -/
inductive Owner
  | nobody
  | others
  | leaked
  | table (i : ℕ)
  deriving DecidableEq

/-- The objects of the table `i` get another owner. -/
def reassign (owner : ℕ → Owner) (i : ℕ) (o : Owner) : ℕ → Owner :=
  fun p => if owner p = .table i then o else owner p

/-- Each object in use has one owner, what others own is as it was, and the objects of each table
store its history. -/
structure HeapInv (aesni : Option (M128i → M128i → M128i)) (others : Heap Object)
    (owner : ℕ → Owner) (s : Program) : Prop where
  used : ∀ p, s.heap p = none ↔ owner p = .nobody
  foreign : ∀ p, owner p = .others ↔ others p ≠ none
  kept : ∀ p, owner p = .others → s.heap p = others p
  leaks : ∀ p, owner p = .leaked ↔ p ∈ s.leaked
  owns : ∀ i p, owner p = .table i ↔ p ∈ s.objects i
  distinct : ∀ i, (s.objects i).Nodup
  stored : ∀ i, (s.tables i).buckets ≠ 0 → ∃ u, Represents s.heap (s.tables i) u ∧
    TableInv aesni ⟨s.mem, u, s.history i⟩

variable {aesni : Option (M128i → M128i → M128i)} {others : Heap Object} {owner : ℕ → Owner}
  {s : Program} {mem : Memory} {u : DirtyPages.FhTable} {history : List Insertion} {i fuel : ℕ}

theorem indexed_of_tableInv (h : TableInv aesni ⟨mem, u, history⟩) : Indexed u := by
  intro i e he
  rw [h.stored i] at he
  simpa using (List.mem_filter.mp he).2

/-- Each insert of the history is in a chain. -/
theorem mem_chain (h : TableInv aesni ⟨mem, u, history⟩) {e : DirtyPages.FhEntry}
    (he : e ∈ history.map (Insertion.entry aesni)) :
    ∃ i < u.bucketCount.toNat, e ∈ u.buckets i := by
  refine ⟨(e.hash &&& (u.bucketCount - 1)).toNat,
    UInt64.lt_iff_toNat_lt.mp (and_pred_lt h.positive _), ?_⟩
  rw [h.stored]
  exact List.mem_filter.mpr ⟨he, by simp⟩

/-- The entries in the chains are the inserts of the history. -/
theorem mem_addresses_iff (h : TableInv aesni ⟨mem, u, history⟩) {p : ℕ} :
    p ∈ addresses u ↔ p ∈ history.map Insertion.address := by
  rw [mem_addresses, List.mem_map]
  constructor
  · intro hp
    obtain ⟨i, _, e, he, haddr⟩ := hp
    rw [h.stored i] at he
    obtain ⟨insertion, hmem, rfl⟩ := List.mem_map.mp (List.mem_filter.mp he).1
    exact ⟨insertion, hmem, haddr⟩
  · intro hp
    obtain ⟨insertion, hmem, haddr⟩ := hp
    obtain ⟨i, hi, he⟩ := mem_chain h (List.mem_map_of_mem hmem)
    exact ⟨i, hi, _, he, haddr⟩

theorem chain_length_le (h : TableInv aesni ⟨mem, u, history⟩) (i : ℕ) :
    (u.buckets i).length ≤ history.length := by
  rw [h.stored i]
  exact (List.length_filter_le _ _).trans (List.length_map _).le

theorem objects_of_open (hopen : (s.tables i).buckets ≠ 0) :
    s.objects i = (s.tables i).buckets :: (s.history i).map Insertion.address := if_neg hopen

theorem objects_of_closed (hclosed : (s.tables i).buckets = 0) : s.objects i = [] := if_pos hclosed

/-- Nothing is set up. -/
theorem heapInv_start (mem : Memory) (others : Heap Object) :
    HeapInv aesni others (fun p => if others p = none then .nobody else .others)
      (Program.start mem others) := by
  refine ⟨?_, ?_, ?_, ?_, ?_, fun _ => List.nodup_nil, fun i hopen => absurd rfl hopen⟩
  · intro p
    show others p = none ↔ _
    split_ifs with h <;> simp [h]
  · intro p
    split_ifs with h <;> simp [h]
  · intro p _
    rfl
  · intro p
    split_ifs <;> simp [Program.start]
  · intro i p
    rw [objects_of_closed rfl]
    split_ifs <;> simp

section Step

variable (h : HeapInv aesni others owner s)

include h

/-- What a table stands for depends on the objects that it owns. -/
theorem HeapInv.frame {heap : Heap Object} (hopen : (s.tables i).buckets ≠ 0)
    (hsame : ∀ p, owner p = .table i → heap p = s.heap p) :
    ∃ u, Represents heap (s.tables i) u ∧ TableInv aesni ⟨s.mem, u, s.history i⟩ := by
  obtain ⟨u, hr, hu⟩ := h.stored i hopen
  have hmem : ∀ p ∈ (s.tables i).buckets :: (s.history i).map Insertion.address,
      heap p = s.heap p := by
    intro p hp
    exact hsame p ((h.owns i p).mpr (objects_of_open hopen ▸ hp))
  refine ⟨u, hr.frame (hmem _ List.mem_cons_self) ?_, hu⟩
  intro p hp
  exact hmem p (List.mem_cons_of_mem _ ((mem_addresses_iff hu).mp hp))

/-- A table that is no longer set up gives its objects away. -/
theorem HeapInv.close {t : FhTable} (ht : t.buckets = 0) {heap : Heap Object} {leaked : List ℕ}
    {o : Owner} (ho : o ≠ .others) (ho' : ∀ j, o ≠ .table j)
    (hother : ∀ p, owner p ≠ .table i → heap p = s.heap p)
    (hown : ∀ p, owner p = .table i → (heap p = none ↔ o = .nobody))
    (hleaked : ∀ p, reassign owner i o p = .leaked ↔ p ∈ leaked) :
    HeapInv aesni others (reassign owner i o) ⟨s.mem, heap, Function.update s.tables i t,
      Function.update s.history i [], leaked⟩ := by
  have hobjects : ∀ j ≠ i, Program.objects ⟨s.mem, heap, Function.update s.tables i t,
      Function.update s.history i [], leaked⟩ j = s.objects j := by
    intro j hj
    simp only [Program.objects, Function.update_of_ne hj]
  have hnone : Program.objects ⟨s.mem, heap, Function.update s.tables i t,
      Function.update s.history i [], leaked⟩ i = [] :=
    objects_of_closed (by simpa using ht)
  refine ⟨?_, ?_, ?_, hleaked, ?_, ?_, ?_⟩
  · intro p
    show heap p = none ↔ reassign owner i o p = .nobody
    rw [reassign]
    split_ifs with hp
    · exact hown p hp
    · rw [hother p hp, h.used p]
  · intro p
    rw [← h.foreign p, reassign]
    split_ifs with hp
    · simp [hp, ho]
    · rfl
  · intro p
    rw [reassign]
    split_ifs with hp
    · intro hothers
      exact absurd hothers ho
    · intro hothers
      exact (hother p hp).trans (h.kept p hothers)
  · intro j p
    rw [reassign]
    by_cases hj : j = i
    · subst hj
      rw [hnone]
      split_ifs with hp
      · simp [ho']
      · simp [hp]
    · rw [hobjects j hj, ← h.owns j p]
      split_ifs with hp
      · simp [hp, ho', Ne.symm hj]
      · rfl
  · intro j
    by_cases hj : j = i
    · rw [hj, hnone]
      exact List.nodup_nil
    · rw [hobjects j hj]
      exact h.distinct j
  · intro j hopen
    by_cases hj : j = i
    · subst hj
      simp [ht] at hopen
    · simp only [Function.update_of_ne hj] at hopen ⊢
      apply h.frame hopen
      intro p hp
      exact hother p (by simp [hp, hj])

/-- The objects of another table stay. -/
theorem HeapInv.frame_update {p j : ℕ} {t : FhTable} {inserts : List Insertion}
    {heap : Heap Object} (hfree : s.heap p = none) (hj : j ≠ i)
    (hsame : ∀ q, q ≠ p → owner q ≠ .table i → heap q = s.heap q)
    (hopen : (Function.update s.tables i t j).buckets ≠ 0) :
    ∃ u, Represents heap (Function.update s.tables i t j) u ∧
      TableInv aesni ⟨s.mem, u, Function.update s.history i inserts j⟩ := by
  rw [Function.update_of_ne hj] at hopen ⊢
  rw [Function.update_of_ne hj]
  apply h.frame hopen
  intro q hq
  apply hsame
  · intro heq
    rw [heq, (h.used p).mp hfree] at hq
    cases hq
  · simp [hq, hj]

/-- A new object goes to the table `i`, which otherwise changes only objects of its own. -/
theorem HeapInv.grow {p : ℕ} {t : FhTable} {inserts : List Insertion} {heap : Heap Object}
    (hfree : s.heap p = none) (hnew : heap p ≠ none)
    (hsame : ∀ q, q ≠ p → owner q ≠ .table i → heap q = s.heap q)
    (hown : ∀ q, owner q = .table i → heap q ≠ none) (ht : t.buckets ≠ 0)
    (hobjects : (t.buckets :: inserts.map Insertion.address).Perm (p :: s.objects i))
    (hstored : ∃ u, Represents heap t u ∧ TableInv aesni ⟨s.mem, u, inserts⟩) :
    HeapInv aesni others (Function.update owner p (.table i)) ⟨s.mem, heap,
      Function.update s.tables i t, Function.update s.history i inserts, s.leaked⟩ := by
  have hnobody : owner p = .nobody := (h.used p).mp hfree
  have hother : ∀ j ≠ i, Program.objects ⟨s.mem, heap, Function.update s.tables i t,
      Function.update s.history i inserts, s.leaked⟩ j = s.objects j := by
    intro j hj
    simp only [Program.objects, Function.update_of_ne hj]
  have hself : Program.objects ⟨s.mem, heap, Function.update s.tables i t,
      Function.update s.history i inserts, s.leaked⟩ i =
        t.buckets :: inserts.map Insertion.address := by
    simp [Program.objects, ht]
  refine ⟨?_, ?_, ?_, ?_, ?_, ?_, ?_⟩
  · intro q
    show heap q = none ↔ _
    by_cases hq : q = p
    · subst hq
      simp [hnew]
    · rw [Function.update_of_ne hq, ← h.used q]
      by_cases htable : owner q = .table i
      · have hused : s.heap q ≠ none := by
          intro hnone
          rw [h.used q, htable] at hnone
          cases hnone
        simp [hown q htable, hused]
      · rw [hsame q hq htable]
  · intro q
    rw [← h.foreign q]
    by_cases hq : q = p
    · subst hq
      simp [hnobody]
    · rw [Function.update_of_ne hq]
  · intro q hothers
    by_cases hq : q = p
    · subst hq
      simp at hothers
    · rw [Function.update_of_ne hq] at hothers
      exact (hsame q hq (by simp [hothers])).trans (h.kept q hothers)
  · intro q
    rw [← h.leaks q]
    by_cases hq : q = p
    · subst hq
      simp [hnobody]
    · rw [Function.update_of_ne hq]
  · intro j q
    by_cases hj : j = i
    · subst hj
      rw [hself, hobjects.mem_iff, List.mem_cons, ← h.owns j q]
      by_cases hq : q = p
      · simp [hq]
      · simp [hq]
    · rw [hother j hj, ← h.owns j q]
      by_cases hq : q = p
      · subst hq
        simp [hnobody, Ne.symm hj]
      · rw [Function.update_of_ne hq]
  · intro j
    by_cases hj : j = i
    · subst hj
      rw [hself, hobjects.nodup_iff, List.nodup_cons, ← h.owns j p, hnobody]
      exact ⟨Owner.noConfusion, h.distinct j⟩
    · rw [hother j hj]
      exact h.distinct j
  · intro j hopen
    by_cases hj : j = i
    · subst hj
      simpa using hstored
    · exact h.frame_update hfree hj hsame hopen

end Step

/-! ### The calls -/

/-- A new array. -/
theorem represents_new {p : ℕ} {n : UInt64} (hne : p ≠ 0) (heap : Heap Object) :
    Represents (Function.update heap p (some (.buckets n fun _ => 0))) ⟨p, n, 0⟩
      ⟨fun _ => [], n, 0⟩ :=
  ⟨hne, rfl, rfl, _, Function.update_self _ _ _, fun _ _ => .nil⟩

/-- `init_hash_table`; a table that was set up leaks. -/
theorem run_init_inv (h : HeapInv aesni others owner s) (hfuel : 64 ≤ fuel) (i : ℕ)
    (bucketCount : UInt64) (calloc : Allocator) :
    Meets (fun f => f = .outOfFuel ∧ ¬bucketCount.toNat ≤ 2 ^ 63)
      (fun s' => bucketCount.toNat ≤ 2 ^ 63 ∧ (∃ owner', HeapInv aesni others owner' s') ∧
        s'.history = Function.update s.history i [])
      (Call.run aesni fuel s (.init i bucketCount calloc)) := by
  rw [Call.run, initHashTable, show (1 : UInt64) = doubled 0 from rfl]
  by_cases hle : bucketCount.toNat ≤ 2 ^ 63
  · have hclog : Nat.clog 2 bucketCount.toNat ≤ 63 := Nat.clog_le_of_le_pow hle
    have hround := roundUp_doubled hle (k := 0) (Nat.zero_le _)
      (show Nat.clog 2 bucketCount.toNat < 0 + fuel by omega)
    generalize hn : doubled (Nat.clog 2 bucketCount.toNat) = n at hround
    have hpos : n ≠ 0 := roundUp_ne_zero (show doubled 0 ≠ 0 by decide) hround
    rw [hround]
    have hclose : HeapInv aesni others (reassign owner i .leaked) ⟨s.mem, s.heap,
        Function.update s.tables i { s.tables i with buckets := 0 },
        Function.update s.history i [], s.objects i ++ s.leaked⟩ := by
      refine h.close rfl (by simp) (by simp) (fun _ _ => rfl) ?_ ?_
      · intro p hp
        rw [h.used p, hp]
        simp
      · intro p
        rw [reassign, List.mem_append, ← h.owns i p, ← h.leaks p]
        split_ifs with hp <;> simp [hp]
    show Meets _ _ ((match calloc.pick (n.toNat * sizeofPointer) s.heap with
      | none => _
      | some p => _) >>= _)
    cases hpick : calloc.pick (n.toNat * sizeofPointer) s.heap with
    | none => exact ⟨hle, ⟨_, hclose⟩, rfl⟩
    | some p =>
      obtain ⟨hne, hfree⟩ := calloc.fresh _ _ _ hpick
      refine ⟨hle, ⟨Function.update (reassign owner i .leaked) p (.table i), ?_⟩, rfl⟩
      have hnone : ∀ q, reassign owner i .leaked q ≠ .table i := by
        intro q
        rw [reassign]
        split_ifs with hq
        · exact Owner.noConfusion
        · exact hq
      have hstored : ∃ u, Represents (Function.update s.heap p (some (.buckets n fun _ => 0)))
          ⟨p, n, 0⟩ u ∧ TableInv aesni ⟨s.mem, u, []⟩ :=
        ⟨_, represents_new hne s.heap, hpos, BucketLog.holds_empty, rfl⟩
      have hgrow := hclose.grow hfree (by simp) (fun q hq _ => Function.update_of_ne hq _ _)
        (fun q hq => absurd hq (hnone q)) hne
        (by rw [objects_of_closed (by simp)]; exact List.Perm.refl _) hstored
      simpa using hgrow
  · rw [roundUp_endless (by omega)]
    exact ⟨rfl, hle⟩

/-- `hash_table_insert` -/
theorem run_insert_inv (h : HeapInv aesni others owner s) (i : ℕ) (malloc : Allocator)
    (data len : ℕ) :
    Meets (fun f => f = .nullPointer ∧ ¬(Call.insert i malloc data len).Proper s)
      (fun s' => (Call.insert i malloc data len).Proper s ∧
        (∃ owner', HeapInv aesni others owner' s') ∧
        s'.history = Function.update s.history i (s.record i malloc data len))
      (Call.run aesni fuel s (.insert i malloc data len)) := by
  rw [Call.run]
  cases hpick : malloc.pick sizeofFhEntry s.heap with
  | none =>
    have hrecord : s.record i malloc data len = s.history i := by
      rw [Program.record, hpick]
    rw [hashTableInsert, hpick]
    refine ⟨Or.inl hpick, ⟨owner, ?_⟩, rfl⟩
    rw [hrecord, Function.update_eq_self, Function.update_eq_self]
    exact h
  | some p =>
    by_cases hclosed : (s.tables i).buckets = 0
    · rw [hashTableInsert_closed hclosed hpick]
      refine ⟨rfl, ?_⟩
      intro hproper
      cases hproper with
      | inl hnone => simp [hpick] at hnone
      | inr hopen => exact hopen hclosed
    · have hrecord : s.record i malloc data len = ⟨p, data, len, s.mem⟩ :: s.history i := by
        rw [Program.record, hpick]
      obtain ⟨u, hr, hu⟩ := h.stored i hclosed
      obtain ⟨t', heap', u', hrun, hchains, hr', hb, hnew, hbnew, hsame⟩ :=
        hashTableInsert_simulates aesni s.mem hr hu.positive hpick data len
      have hu' := TableOp.run_inv (.insert (some p) data len) hu
      rw [TableOp.run, hchains] at hu'
      rw [hrun]
      refine ⟨Or.inr hclosed, ⟨Function.update owner p (.table i), ?_⟩, rfl⟩
      rw [hrecord]
      have hbucket : owner (s.tables i).buckets = .table i := by
        rw [h.owns i, objects_of_open hclosed]
        exact List.mem_cons_self
      refine h.grow (malloc.fresh _ _ _ hpick).2 hnew ?_ ?_ hr'.allocated ?_ ⟨u', hr', hu'⟩
      · intro q hqp howner
        exact hsame q hqp fun heq => howner (heq ▸ hbucket)
      · intro q howner
        by_cases hqp : q = p
        · exact hqp ▸ hnew
        · by_cases hqb : q = (s.tables i).buckets
          · exact hqb ▸ hbnew
          · rw [hsame q hqp hqb]
            intro hnone
            rw [h.used q, howner] at hnone
            cases hnone
      · rw [objects_of_open hclosed, hb]
        exact List.Perm.swap _ _ _

/-- `free_hash_table` -/
theorem run_free_inv (h : HeapInv aesni others owner s) (i : ℕ)
    (hfuel : (s.history i).length < fuel) :
    Meets (fun f => f = .nullPointer ∧ ¬(Call.free i).Proper s)
      (fun s' => (Call.free i).Proper s ∧ (∃ owner', HeapInv aesni others owner' s') ∧
        s'.history = Function.update s.history i [])
      (Call.run aesni fuel s (.free i)) := by
  rw [Call.run]
  have hleaked : ∀ p, reassign owner i .nobody p = .leaked ↔ p ∈ s.leaked := by
    intro p
    rw [← h.leaks p, reassign]
    split_ifs with hp <;> simp [hp]
  by_cases hclosed : (s.tables i).buckets = 0
  · rw [freeHashTable_closed hclosed]
    split_ifs with hzero
    · refine ⟨Or.inr hzero, ⟨reassign owner i .nobody, ?_⟩, rfl⟩
      refine h.close rfl (by simp) (by simp) (fun _ _ => rfl) ?_ hleaked
      intro p hp
      rw [h.owns i, objects_of_closed hclosed] at hp
      cases hp
    · exact ⟨rfl, fun hproper => hproper.elim (fun hopen => hopen hclosed) hzero⟩
  · obtain ⟨u, hr, hu⟩ := h.stored i hclosed
    rw [freeHashTable_eq hr (indexed_of_tableInv hu)
      fun j => Nat.lt_of_le_of_lt (chain_length_le hu j) hfuel]
    have hmem : ∀ p, p ∈ owned (s.tables i).buckets u ↔ owner p = .table i := by
      intro p
      rw [h.owns i, objects_of_open hclosed, owned, List.mem_append, List.mem_singleton,
        mem_addresses_iff hu, List.mem_cons]
      exact Or.comm
    refine ⟨Or.inl hclosed, ⟨reassign owner i .nobody, ?_⟩, rfl⟩
    refine h.close rfl (by simp) (by simp) ?_ ?_ hleaked
    · intro p hp
      exact Heap.without_of_not_mem fun hin => hp ((hmem p).mp hin)
    · intro p hp
      simp [Heap.without_of_mem ((hmem p).mpr hp)]

/-- A byte of the blocks that the entries point to. -/
theorem HeapInv.write (h : HeapInv aesni others owner s) (mem : Memory) :
    HeapInv aesni others owner { s with mem := mem } := by
  refine ⟨h.used, h.foreign, h.kept, h.leaks, h.owns, h.distinct, ?_⟩
  intro i hopen
  obtain ⟨u, hr, hu⟩ := h.stored i hopen
  exact ⟨u, hr, hu.positive, hu.stored, hu.counted⟩

/-- No history grows by more than one insert. -/
theorem update_length_le {history : ℕ → List Insertion} {inserts : List Insertion} {k : ℕ}
    (h : inserts.length ≤ (history i).length + 1) (hk : ∀ j, (history j).length < k) :
    ∀ j, (Function.update history i inserts j).length < k + 1 := by
  intro j
  have hj := hk j
  by_cases heq : j = i
  · subst heq
    rw [Function.update_self]
    omega
  · rw [Function.update_of_ne heq]
    omega

/-- A call that is proper returns and keeps the invariant, and another one stops. -/
theorem Call.run_inv (h : HeapInv aesni others owner s) (hfuel : 64 ≤ fuel) {k : ℕ}
    (hk : ∀ j, (s.history j).length < k) (hle : k ≤ fuel) (call : Call) :
    Meets (fun f => (f = .nullPointer ∨ f = .outOfFuel) ∧ ¬call.Proper s)
      (fun s' => call.Proper s ∧ (∃ owner', HeapInv aesni others owner' s') ∧
        ∀ j, (s'.history j).length < k + 1)
      (call.run aesni fuel s) := by
  cases call with
  | init i bucketCount calloc =>
    refine (run_init_inv h hfuel i bucketCount calloc).mono ?_ ?_
    · intro f hf
      exact ⟨Or.inr hf.1, hf.2⟩
    · intro s' hs'
      refine ⟨hs'.1, hs'.2.1, ?_⟩
      rw [hs'.2.2]
      exact update_length_le (Nat.zero_le _) hk
  | insert i malloc data len =>
    refine (run_insert_inv h i malloc data len).mono ?_ ?_
    · intro f hf
      exact ⟨Or.inl hf.1, hf.2⟩
    · intro s' hs'
      refine ⟨hs'.1, hs'.2.1, ?_⟩
      rw [hs'.2.2]
      refine update_length_le ?_ hk
      rw [Program.record]
      split
      · exact Nat.le_succ _
      · exact le_rfl
  | free i =>
    refine (run_free_inv h i (Nat.lt_of_lt_of_le (hk i) hle)).mono ?_ ?_
    · intro f hf
      exact ⟨Or.inl hf.1, hf.2⟩
    · intro s' hs'
      refine ⟨hs'.1, hs'.2.1, ?_⟩
      rw [hs'.2.2]
      exact update_length_le (Nat.zero_le _) hk
  | write p byte =>
    exact ⟨True.intro, ⟨owner, h.write _⟩, fun j => Nat.lt_succ_of_lt (hk j)⟩

/-! ### Runs -/

/-- A run returns when its calls are proper, and keeps the invariant. -/
theorem runs_inv (hfuel : 64 ≤ fuel) (calls : List Call) {k : ℕ}
    (h : HeapInv aesni others owner s) (hk : ∀ j, (s.history j).length < k)
    (hle : k + calls.length ≤ fuel + 1) :
    Meets (fun f => (f = .nullPointer ∨ f = .outOfFuel) ∧
        ¬Along (Call.run aesni fuel) (fun s call => call.Proper s) s calls)
      (fun s' => Along (Call.run aesni fuel) (fun s call => call.Proper s) s calls ∧
        (∃ owner', HeapInv aesni others owner' s') ∧
        ∀ j, (s'.history j).length < k + calls.length)
      (calls.foldlM (Call.run aesni fuel) s) := by
  induction calls generalizing owner s k with
  | nil => exact ⟨True.intro, ⟨owner, h⟩, hk⟩
  | cons call calls ih =>
    rw [List.length_cons] at hle
    rw [List.foldlM_cons]
    have hcall := call.run_inv h hfuel hk (by omega)
    cases hrun : call.run aesni fuel s with
    | error f =>
      rw [hrun] at hcall
      exact ⟨hcall.1, fun hproper => hcall.2 hproper.1⟩
    | ok s₁ =>
      rw [hrun] at hcall
      obtain ⟨hproper, ⟨owner₁, h₁⟩, hk₁⟩ := hcall
      have halong : Along (Call.run aesni fuel) (fun s call => call.Proper s) s (call :: calls) ↔
          Along (Call.run aesni fuel) (fun s call => call.Proper s) s₁ calls := by
        constructor
        · intro hall
          exact hall.2 s₁ hrun
        · intro hall
          refine ⟨hproper, fun s₂ hs₂ => ?_⟩
          rw [hrun] at hs₂
          exact Except.ok.inj hs₂ ▸ hall
      rw [halong, List.length_cons, show k + (calls.length + 1) = k + 1 + calls.length by omega]
      exact ih h₁ hk₁ (by omega)

/-- The runs of a program that starts without tables. -/
theorem starts_inv (aesni : Option (M128i → M128i → M128i)) (mem : Memory) (others : Heap Object)
    (calls : List Call) (hfuel : calls.length + 64 ≤ fuel) :
    Meets (fun f => (f = .nullPointer ∨ f = .outOfFuel) ∧
        ¬Along (Call.run aesni fuel) (fun s call => call.Proper s) (.start mem others) calls)
      (fun s => Along (Call.run aesni fuel) (fun s call => call.Proper s) (.start mem others)
          calls ∧
        (∃ owner, HeapInv aesni others owner s) ∧ ∀ i, (s.history i).length < fuel)
      (calls.foldlM (Call.run aesni fuel) (.start mem others)) := by
  have hstart : ∀ i, ((Program.start mem others).history i).length < 1 := fun _ => Nat.one_pos
  refine (runs_inv (by omega) calls (heapInv_start mem others) hstart (by omega)).imp ?_
  intro s hs
  obtain ⟨hproper, hinv, hlength⟩ := hs
  refine ⟨hproper, hinv, fun i => ?_⟩
  have hlt := hlength i
  omega

/-- Nothing leaks when no table is set up twice. -/
theorem leaked_of_tidy {s' : Program} (calls : List Call) (hnone : s.leaked = [])
    (htidy : Along (Call.run aesni fuel) (fun s call => call.Tidy s) s calls)
    (hrun : calls.foldlM (Call.run aesni fuel) s = .ok s') : s'.leaked = [] := by
  induction calls generalizing s with
  | nil =>
    cases hrun
    exact hnone
  | cons call calls ih =>
    rw [List.foldlM_cons] at hrun
    obtain ⟨s₁, hcall, hrest⟩ := bind_eq_ok.mp hrun
    refine ih ?_ (htidy.2 s₁ hcall) hrest
    cases call with
    | init i bucketCount calloc =>
      obtain ⟨r, _, hr⟩ := bind_eq_ok.mp hcall
      cases hr
      show s.objects i ++ s.leaked = []
      rw [objects_of_closed htidy.1, hnone]
      rfl
    | insert i malloc data len =>
      obtain ⟨r, _, hr⟩ := bind_eq_ok.mp hcall
      cases hr
      exact hnone
    | free i =>
      obtain ⟨r, _, hr⟩ := bind_eq_ok.mp hcall
      cases hr
      exact hnone
    | write p byte =>
      cases hcall
      exact hnone

/-- A program returns exactly when its calls are proper, however its tables share the heap and
whatever addresses are used again; no call reads or frees what is gone.  Then a lookup in a table
that is set up returns the entry that the history of that table alone gives. -/
theorem heapTables_lookup (aesni : Option (M128i → M128i → M128i)) (fuel : ℕ) (mem : Memory)
    (others : Heap Object) (calls : List Call) (hfuel : calls.length + 64 ≤ fuel) :
    Meets
      (fun f => (f = .nullPointer ∨ f = .outOfFuel) ∧
        ¬Along (Call.run aesni fuel) (fun s call => call.Proper s) (.start mem others) calls)
      (fun s => Along (Call.run aesni fuel) (fun s call => call.Proper s) (.start mem others) calls ∧
        ∀ i, (s.tables i).buckets ≠ 0 → ∃ u, Represents s.heap (s.tables i) u ∧
          ∀ data len,
            hashTableLookup aesni s.mem fuel s.heap (s.tables i) data len =
              .ok (((lookupHistory aesni ⟨s.mem, u, s.history i⟩ data len).map
                DirtyPages.FhEntry.address).getD 0) ∧
            ∀ e, lookupHistory aesni ⟨s.mem, u, s.history i⟩ data len = some e →
              ∃ next, s.heap e.address = some (entryCell e next))
      (calls.foldlM (Call.run aesni fuel) (.start mem others)) := by
  refine (starts_inv aesni mem others calls hfuel).imp ?_
  intro s hs
  obtain ⟨hproper, ⟨owner, h⟩, hlength⟩ := hs
  refine ⟨hproper, ?_⟩
  intro i hopen
  obtain ⟨u, hr, hu⟩ := h.stored i hopen
  refine ⟨u, hr, ?_⟩
  intro data len
  have hchain : ∀ j, (u.buckets j).length < fuel :=
    fun j => Nat.lt_of_le_of_lt (chain_length_le hu j) (hlength i)
  constructor
  · rw [hashTableLookup_simulates hr hchain, hashTableLookup_eq hu]
    rfl
  · intro e he
    obtain ⟨j, hj, hmem⟩ := mem_chain hu (List.mem_of_find?_eq_some he)
    exact hr.read hj hmem

/-- The address `p`, when it is free. -/
def Allocator.at (p : ℕ) : Allocator where
  pick _ h := if p = 0 || (h p).isSome then none else some p
  fresh bytes h q hpick := by
    split_ifs at hpick with hused
    cases hpick
    simpa using hused

/-- Two tables, of which the second one reuses the memory of the first. -/
def twoTables : List Call :=
  [.init 0 3 (.at 8), .insert 0 (.at 16) 0 128, .init 1 1 (.at 24), .free 0,
    .insert 1 (.at 16) 128 128]

theorem heapTables_lookup_twoTables :
    ∃ s, twoTables.foldlM (Call.run none 100) (.start (fun _ => 0) fun _ => none) = .ok s ∧
      ∃ u, hashTableLookup none s.mem 100 s.heap (s.tables 1) 256 128 =
        .ok (((lookupHistory none ⟨s.mem, u, s.history 1⟩ 256 128).map
          DirtyPages.FhEntry.address).getD 0) := by
  have hreturns : (match twoTables.foldlM (Call.run none 100)
      (.start (fun _ => 0) fun _ => none) with
    | .ok s => decide ((s.tables 1).buckets = 24)
    | .error _ => false) = true := by
    decide +kernel
  have hmeets := heapTables_lookup none 100 (fun _ => 0) (fun _ => none) twoTables (by decide)
  cases hrun : twoTables.foldlM (Call.run none 100) (.start (fun _ => 0) fun _ => none) with
  | error f =>
    rw [hrun] at hreturns
    cases hreturns
  | ok s =>
    rw [hrun] at hreturns hmeets
    have hopen : (s.tables 1).buckets ≠ 0 := by
      rw [of_decide_eq_true hreturns]
      decide
    obtain ⟨u, _, hlookup⟩ := hmeets.2 1 hopen
    exact ⟨s, rfl, u, (hlookup 256 128).1⟩

/-! ### The ledger -/

section Ledger

variable (h : HeapInv aesni others owner s)

include h

theorem HeapInv.in_use_iff {p : ℕ} :
    s.heap p ≠ none ↔ others p ≠ none ∨ p ∈ s.leaked ∨ ∃ i, p ∈ s.objects i := by
  rw [Ne, h.used p, ← h.foreign p, ← h.leaks p]
  simp only [← h.owns]
  cases owner p <;> simp

theorem HeapInv.foreign_kept {p : ℕ} (hp : others p ≠ none) : s.heap p = others p :=
  h.kept p ((h.foreign p).mpr hp)

/-- The objects of a table are its own. -/
theorem HeapInv.own {p : ℕ} (hp : p ∈ s.objects i) :
    others p = none ∧ p ∉ s.leaked ∧ ∀ j ≠ i, p ∉ s.objects j := by
  have hown : owner p = .table i := (h.owns i p).mpr hp
  refine ⟨?_, ?_, ?_⟩
  · by_contra hothers
    rw [← Ne, ← h.foreign p, hown] at hothers
    cases hothers
  · rw [← h.leaks p, hown]
    exact Owner.noConfusion
  · intro j hj
    rw [← h.owns j p, hown]
    exact fun heq => hj (Owner.table.inj heq).symm

/-- Without tables and without leaks the heap is the heap of the others. -/
theorem HeapInv.heap_eq (hleaked : s.leaked = []) (hclosed : ∀ i, (s.tables i).buckets = 0) :
    s.heap = others := by
  funext p
  by_cases hp : others p = none
  · by_contra hne
    have huse : s.heap p ≠ none := hp ▸ hne
    rw [h.in_use_iff, hleaked] at huse
    obtain hothers | hleak | ⟨i, hi⟩ := huse
    · exact hothers hp
    · cases hleak
    · rw [objects_of_closed (hclosed i)] at hi
      cases hi
  · exact h.foreign_kept hp

end Ledger

/-- The ledger of the heap: what is in use belongs to somebody else, to one table or to a table that
was set up again; what belongs to others is as it was; and a program that frees its tables before it
sets them up again, and at the end, leaves the heap as it found it. -/
theorem heapTables_ledger (aesni : Option (M128i → M128i → M128i)) (fuel : ℕ) (mem : Memory)
    (others : Heap Object) (calls : List Call) (hfuel : calls.length + 64 ≤ fuel) :
    Meets (fun f => f = .nullPointer ∨ f = .outOfFuel)
      (fun s =>
        (∀ p, s.heap p ≠ none ↔ others p ≠ none ∨ p ∈ s.leaked ∨ ∃ i, p ∈ s.objects i) ∧
        (∀ p, others p ≠ none → s.heap p = others p) ∧
        (∀ i, (s.objects i).Nodup ∧ ∀ p ∈ s.objects i,
          others p = none ∧ p ∉ s.leaked ∧ ∀ j ≠ i, p ∉ s.objects j) ∧
        (Along (Call.run aesni fuel) (fun s call => call.Tidy s) (.start mem others) calls →
          (∀ i, (s.tables i).buckets = 0) → s.heap = others))
      (calls.foldlM (Call.run aesni fuel) (.start mem others)) := by
  cases hrun : calls.foldlM (Call.run aesni fuel) (.start mem others) with
  | error f =>
    exact ((starts_inv aesni mem others calls hfuel).of_error hrun).1
  | ok s =>
    obtain ⟨_, ⟨owner, h⟩, _⟩ := (starts_inv aesni mem others calls hfuel).of_ok hrun
    refine ⟨fun p => h.in_use_iff, fun p hp => h.foreign_kept hp, ?_, ?_⟩
    · intro i
      exact ⟨h.distinct i, fun p hp => h.own hp⟩
    · intro htidy hclosed
      exact h.heap_eq (leaked_of_tidy calls rfl htidy hrun) hclosed

/-- The memory of one table serves the other one, and in the end everything is given back. -/
theorem heapTables_ledger_freed :
    ∃ s, (twoTables ++ [Call.free 1]).foldlM (Call.run none 100) (.start (fun _ => 0) fun _ => none) =
        .ok s ∧
      ∀ p, s.heap p ≠ none ↔ p ∈ s.leaked ∨ ∃ i, p ∈ s.objects i := by
  have hreturns : (match (twoTables ++ [Call.free 1]).foldlM (Call.run none 100)
      (.start (fun _ => 0) fun _ => none) with
    | .ok s => (s.heap 8).isNone
    | .error _ => false) = true := by
    decide +kernel
  have hmeets := heapTables_ledger none 100 (fun _ => 0) (fun _ => none) (twoTables ++ [Call.free 1])
    (by decide)
  cases hrun : (twoTables ++ [Call.free 1]).foldlM (Call.run none 100)
      (.start (fun _ => 0) fun _ => none) with
  | error f =>
    rw [hrun] at hreturns
    cases hreturns
  | ok s =>
    rw [hrun] at hmeets
    refine ⟨s, rfl, ?_⟩
    intro p
    simpa using hmeets.1 p

end DirtyPages.Pointers
