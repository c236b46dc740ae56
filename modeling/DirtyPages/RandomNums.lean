import DirtyPages.Adapt
import DirtyPages.Lib.Shuffle
import Mathlib.Data.Fintype.EquivFin
import Mathlib.Data.List.GetD
import Mathlib.Data.Set.Function

/-!
# The table of sampled positions

`init_random_sampling` fills `random_nums` with the identity and shuffles it in place: at each index
one output of `prandom_u32`, reduced to the number of entries left, says with which of these the
entry is exchanged.  The two loops are modelled for a table of any length; the entries are words of
32 bits in the source, where the length is `HASH_STRENGTH_FULL` and all positions fit.

On a table that starts with `before` the loop is the shuffle of what comes after `before`.
-/

namespace DirtyPages

open Outcome Shuffle

/-! ### The two loops -/

/-- The entry `random_nums[i]`. -/
def readEntry (table : List ℕ) (i : ℕ) : Except Fault ℕ :=
  match table[i]? with
  | some v => .ok v
  | none => .error .outOfBounds

/-- `random_nums[i] = v` -/
def writeEntry (table : List ℕ) (i v : ℕ) : Except Fault (List ℕ) :=
  if i < table.length then .ok (table.set i v) else .error .outOfBounds

/-- `prandom_u32() % rand_range` -/
def reduceDraw (n i : ℕ) (output : UInt32) : Except Fault ℕ :=
  let randRange := n - i
  if randRange = 0 then .error .divideByZero else .ok (output.toNat % randRange)

/-- The exchange at `i`, once the draw is reduced. -/
def swapDrawn (table : List ℕ) (i draw : ℕ) : Except Fault (List ℕ) := do
  let swapIndex := i + draw
  let tmp ← readEntry table i
  let other ← readEntry table swapIndex
  let table ← writeEntry table i other
  writeEntry table swapIndex tmp

/-- The first loop: the identity. -/
def fillIdentity (n : ℕ) (table : List ℕ) : Except Fault (List ℕ) :=
  (List.range n).foldlM (fun table i => writeEntry table i i) table

/-- The second loop; `prandomU32 i` is what the call in iteration `i` returns. -/
def shuffleTable (n : ℕ) (prandomU32 : ℕ → UInt32) (table : List ℕ) : Except Fault (List ℕ) :=
  (List.range n).foldlM
    (fun table i => do
      let draw ← reduceDraw n i (prandomU32 i)
      swapDrawn table i draw) table

/-- Both loops on a fresh table. -/
def initRandomNums (n : ℕ) (prandomU32 : ℕ → UInt32) (table : List ℕ) : Except Fault (List ℕ) := do
  let table ← fillIdentity n table
  shuffleTable n prandomU32 table

/-- A fresh allocation of `n` entries with some content. -/
def freshTable (n : ℕ) (content : ℕ → ℕ) : List ℕ := (List.range n).map content

/-- `ENOMEM` -/
def enomem : ℤ := 12

/-- `init_random_sampling`.  `kmalloc` is the content of the new table, where there is memory for it,
and `costs` is what `cal_positive_negative_costs` returns. -/
def initRandomSampling (kmalloc : Option (ℕ → ℕ)) (prandomU32 : ℕ → UInt32) (costs : ℤ)
    (a : Adaptation) : Except Fault (ℤ × Option (List ℕ) × Adaptation) :=
  match kmalloc with
  | none => .ok (-enomem, none, a)
  | some content => do
    let table ← initRandomNums hashStrengthFull prandomU32 (freshTable hashStrengthFull content)
    return (costs, some table, { a with
      rshashState := { a.rshashState with state := .new, belowCount := 0, lookupWindowIndex := 0 } })

/-! ### The loops in terms of the draws -/

/-- The second loop as a function of the reduced draws. -/
def shuffleDraws (draws : List ℕ) (table : List ℕ) : Except Fault (List ℕ) :=
  draws.zipIdx.foldlM (fun table p => swapDrawn table p.2 p.1) table

/-- Both loops on a fresh table, as a function of the reduced draws. -/
def shuffledBy (n : ℕ) (content : ℕ → ℕ) (draws : List ℕ) : Except Fault (List ℕ) := do
  let table ← fillIdentity n (freshTable n content)
  shuffleDraws draws table

/-- The reduced draws of a run. -/
def reducedDraws (n : ℕ) (prandomU32 : ℕ → UInt32) : List ℕ :=
  (List.range n).map fun i => (prandomU32 i).toNat % (n - i)

theorem reducedDraws_valid (n : ℕ) (prandomU32 : ℕ → UInt32) :
    ValidDraws n (reducedDraws n prandomU32) := by
  rw [validDraws_iff, reducedDraws]
  refine ⟨by rw [List.length_map, List.length_range], fun i r h => ?_⟩
  rw [List.getElem?_map, Option.map_eq_some_iff] at h
  obtain ⟨j, hj, rfl⟩ := h
  obtain ⟨hlt, rfl⟩ := List.getElem?_eq_some_iff.mp hj
  rw [List.length_range] at hlt
  rw [List.getElem_range]
  exact Nat.mod_lt _ (by omega)

theorem reduceDraw_of_lt {n i : ℕ} (h : i < n) (output : UInt32) :
    reduceDraw n i output = .ok (output.toNat % (n - i)) := by
  rw [reduceDraw]
  exact if_neg (by omega)

/-- No reduction divides by zero, so the loop only depends on the reduced draws. -/
theorem shuffleTable_eq (n : ℕ) (prandomU32 : ℕ → UInt32) (table : List ℕ) :
    shuffleTable n prandomU32 table = shuffleDraws (reducedDraws n prandomU32) table := by
  have hfrom : ∀ m k table, k + m = n →
      (List.range' k m).foldlM
          (fun table i => do
            let draw ← reduceDraw n i (prandomU32 i)
            swapDrawn table i draw) table =
        (((List.range' k m).map fun i => (prandomU32 i).toNat % (n - i)).zipIdx k).foldlM
          (fun table p => swapDrawn table p.2 p.1) table := by
    intro m
    induction m with
    | zero => exact fun k table _ => rfl
    | succ m ih =>
      intro k table hk
      rw [List.range'_succ, List.map_cons, List.zipIdx_cons, List.foldlM_cons, List.foldlM_cons,
        reduceDraw_of_lt (by omega)]
      refine bind_congr fun table' => ?_
      exact ih (k + 1) table' (by omega)
  rw [shuffleTable, shuffleDraws, reducedDraws, List.range_eq_range']
  exact hfrom n 0 table (by omega)

theorem initRandomNums_eq (n : ℕ) (content : ℕ → ℕ) (prandomU32 : ℕ → UInt32) :
    initRandomNums n prandomU32 (freshTable n content) =
      shuffledBy n content (reducedDraws n prandomU32) := by
  rw [initRandomNums, shuffledBy]
  exact bind_congr fun table => shuffleTable_eq n prandomU32 table

/-! ### The loops compute the shuffle -/

theorem readEntry_append (before l : List ℕ) {r v : ℕ} (h : l[r]? = some v) :
    readEntry (before ++ l) (before.length + r) = .ok v := by
  rw [readEntry, List.getElem?_append_right (by omega), Nat.add_sub_cancel_left, h]

theorem writeEntry_append (before l : List ℕ) {r : ℕ} (h : r < l.length) (v : ℕ) :
    writeEntry (before ++ l) (before.length + r) v = .ok (before ++ l.set r v) := by
  rw [writeEntry, if_pos (by rw [List.length_append]; omega), List.set_append_right _ _ (by omega),
    Nat.add_sub_cancel_left]

/-- One exchange past an arbitrary prefix. -/
theorem swapDrawn_append (before xs : List ℕ) {x r : ℕ} (hr : r ≤ xs.length) :
    swapDrawn (before ++ x :: xs) before.length r =
      .ok (before ++ (exchange x xs r).1 :: (exchange x xs r).2) := by
  have htmp : readEntry (before ++ x :: xs) (before.length + 0) = .ok x :=
    readEntry_append before _ rfl
  have hother : readEntry (before ++ x :: xs) (before.length + r) = .ok (exchange x xs r).1 :=
    readEntry_append before _ (exchange_fst hr)
  have hfront : writeEntry (before ++ x :: xs) (before.length + 0) (exchange x xs r).1 =
      .ok (before ++ (exchange x xs r).1 :: xs) :=
    writeEntry_append before _ (Nat.succ_pos _) _
  have hback : writeEntry (before ++ (exchange x xs r).1 :: xs) (before.length + r) x =
      .ok (before ++ (exchange x xs r).1 :: (exchange x xs r).2) := by
    rw [writeEntry_append before _ (Nat.lt_succ_iff.mpr hr), exchange_eq_set]
  rw [Nat.add_zero] at htmp hfront
  rw [swapDrawn, htmp, hother]
  show writeEntry _ _ _ >>= _ = _
  rw [hfront]
  exact hback

/-- The loop from the end of `before` on is the shuffle of the rest. -/
theorem shuffleDraws_append (draws before l : List ℕ) (h : ValidDraws l.length draws) :
    (draws.zipIdx before.length).foldlM (fun table p => swapDrawn table p.2 p.1) (before ++ l) =
      .ok (before ++ shuffle draws l) := by
  induction draws generalizing before l with
  | nil =>
    cases l with
    | nil => rfl
    | cons x xs => exact h.elim
  | cons r rs ih =>
    cases l with
    | nil => exact absurd h (List.cons_ne_nil r rs)
    | cons x xs =>
      have hrest : ValidDraws (exchange x xs r).2.length rs := by
        rw [exchange_length]
        exact h.2
      have hih := ih (before ++ [(exchange x xs r).1]) (exchange x xs r).2 hrest
      rw [List.length_append, List.length_singleton, List.append_assoc, List.append_assoc] at hih
      rw [List.zipIdx_cons, List.foldlM_cons, swapDrawn_append before xs h.1]
      exact hih

/-- The first loop forgets the content of the allocation. -/
theorem fillIdentity_fresh (n : ℕ) (content : ℕ → ℕ) :
    fillIdentity n (freshTable n content) = .ok (List.range n) := by
  have hfrom : ∀ m k rest, rest.length = m →
      (List.range' k m).foldlM (fun table i => writeEntry table i i) (List.range k ++ rest) =
        .ok (List.range (k + m)) := by
    intro m
    induction m with
    | zero =>
      intro k rest hrest
      rw [List.length_eq_zero_iff.mp hrest, List.append_nil]
      rfl
    | succ m ih =>
      intro k rest hrest
      obtain ⟨y, rest', rfl⟩ := List.exists_cons_of_length_eq_add_one hrest
      have hwrite := writeEntry_append (List.range k) (y :: rest') (Nat.succ_pos _) k
      rw [List.length_range, Nat.add_zero, List.set_cons_zero] at hwrite
      have hnext := ih (k + 1) rest' (Nat.succ.inj hrest)
      rw [List.range_succ, List.append_assoc] at hnext
      rw [List.range'_succ, List.foldlM_cons, hwrite, Nat.add_comm m 1, ← Nat.add_assoc]
      exact hnext
  have hlen : (freshTable n content).length = n := by
    rw [freshTable, List.length_map, List.length_range]
  have hall := hfrom n 0 (freshTable n content) hlen
  rw [Nat.zero_add, ← List.range_eq_range'] at hall
  exact hall

theorem shuffledBy_eq (n : ℕ) (content : ℕ → ℕ) {draws : List ℕ} (h : ValidDraws n draws) :
    shuffledBy n content draws = .ok (shuffle draws (List.range n)) := by
  have hvalid : ValidDraws (List.range n).length draws := by
    rw [List.length_range]
    exact h
  rw [shuffledBy, fillIdentity_fresh]
  exact shuffleDraws_append draws [] (List.range n) hvalid

/-! ### The main result -/

/-- The draw vectors for a table of `n` entries: the draw for index `i` is below `n - i`. -/
def drawVectors (n : ℕ) : Set (List ℕ) :=
  {draws | draws.length = n ∧ ∀ i r, draws[i]? = some r → r < n - i}

theorem mem_drawVectors {n : ℕ} {draws : List ℕ} : draws ∈ drawVectors n ↔ ValidDraws n draws :=
  validDraws_iff.symm

/-- The valid draws, for the list that the first loop leaves. -/
theorem validDraws_range {n : ℕ} {draws : List ℕ} (h : draws ∈ drawVectors n) :
    ValidDraws (List.range n).length draws := by
  rw [List.length_range]
  exact mem_drawVectors.mp h

/-- The two loops of `init_random_sampling`, for every length of the table: whatever `prandom_u32`
returns, they stay inside the table, divide by no zero and do what the reduced draws say; and the
draw vectors correspond one to one to the permutations of `0, …, n - 1`. -/
theorem initRandomNums_shuffles (n : ℕ) (content : ℕ → ℕ) :
    (∀ prandomU32 : ℕ → UInt32,
      reducedDraws n prandomU32 ∈ drawVectors n ∧
      initRandomNums n prandomU32 (freshTable n content) =
        shuffledBy n content (reducedDraws n prandomU32)) ∧
    Set.BijOn (shuffledBy n content) (drawVectors n)
      {x | ∃ table : List ℕ, x = .ok table ∧ table.Perm (List.range n)} := by
  refine ⟨fun prandomU32 => ⟨mem_drawVectors.mpr (reducedDraws_valid n prandomU32),
    initRandomNums_eq n content prandomU32⟩, ?_, ?_, ?_⟩
  · intro draws hdraws
    exact ⟨_, shuffledBy_eq n content (mem_drawVectors.mp hdraws),
      shuffle_perm (validDraws_range hdraws)⟩
  · intro draws hdraws draws' hdraws' heq
    rw [shuffledBy_eq n content (mem_drawVectors.mp hdraws),
      shuffledBy_eq n content (mem_drawVectors.mp hdraws')] at heq
    have hperm : (shuffle draws' (List.range n)).Perm (List.range n) :=
      shuffle_perm (validDraws_range hdraws')
    exact (shuffle_existsUnique List.nodup_range hperm).unique
      ⟨validDraws_range hdraws, Except.ok.inj heq⟩ ⟨validDraws_range hdraws', rfl⟩
  · rintro x ⟨table, rfl, hperm⟩
    obtain ⟨draws, ⟨hvalid, hshuffle⟩, _⟩ := shuffle_existsUnique List.nodup_range hperm
    rw [List.length_range] at hvalid
    exact ⟨draws, mem_drawVectors.mpr hvalid, by rw [shuffledBy_eq n content hvalid, hshuffle]⟩

/-! ### The table that the hashes use -/

/-- The loops return a permutation, for every sequence of outputs. -/
theorem initRandomNums_perm (n : ℕ) (content : ℕ → ℕ) (prandomU32 : ℕ → UInt32) :
    ∃ table : List ℕ, initRandomNums n prandomU32 (freshTable n content) = .ok table ∧
      table.Perm (List.range n) := by
  have hvalid : ValidDraws n (reducedDraws n prandomU32) := reducedDraws_valid n prandomU32
  exact ⟨shuffle (reducedDraws n prandomU32) (List.range n),
    (initRandomNums_eq n content prandomU32).trans (shuffledBy_eq n content hvalid),
    shuffle_perm (validDraws_range (mem_drawVectors.mpr hvalid))⟩

/-- A table of positions as the hashes read it. -/
def tableEntries (table : List ℕ) : RandomNums := fun i =>
  Fin.ofNat hashStrengthFull (table.getD i 0)

/-- A permutation of the positions samples every word of a page once. -/
theorem tableEntries_bijective {table : List ℕ} (h : table.Perm (List.range hashStrengthFull)) :
    Function.Bijective (tableEntries table) := by
  have hlen : table.length = hashStrengthFull := by rw [h.length_eq, List.length_range]
  have hvalue : ∀ i : Fin hashStrengthFull, (tableEntries table i : ℕ) = table.getD i 0 := by
    intro i
    have hi : (i : ℕ) < table.length := hlen.symm ▸ i.isLt
    have hmem : table.getD i 0 ∈ table := by
      rw [List.getD_eq_getElem _ _ hi]
      exact List.getElem_mem hi
    exact Nat.mod_eq_of_lt (List.mem_range.mp (h.subset hmem))
  refine Finite.injective_iff_bijective.mp fun i j hij => ?_
  have hij' := congrArg Fin.val hij
  rw [hvalue, hvalue, List.getD_eq_getElem _ _ (hlen.symm ▸ i.isLt),
    List.getD_eq_getElem _ _ (hlen.symm ▸ j.isLt)] at hij'
  exact Fin.ext ((h.nodup_iff.mpr List.nodup_range).getElem_inj_iff.mp hij')

/-- `init_random_sampling` fails without memory and changes nothing, or it leaves a table that
samples every word of a page once and an adaptation that starts anew. -/
theorem initRandomSampling_returns (kmalloc : Option (ℕ → ℕ)) (prandomU32 : ℕ → UInt32) (costs : ℤ)
    (a : Adaptation) :
    initRandomSampling kmalloc prandomU32 costs a = .ok (-enomem, none, a) ∨
    ∃ table a', initRandomSampling kmalloc prandomU32 costs a = .ok (costs, some table, a') ∧
      Function.Bijective (tableEntries table) ∧ a'.rshashState.state = .new ∧
      a'.hashStrength = a.hashStrength := by
  cases kmalloc with
  | none => exact Or.inl rfl
  | some content =>
    obtain ⟨table, htable, hperm⟩ := initRandomNums_perm hashStrengthFull content prandomU32
    refine Or.inr ⟨table, { a with rshashState := { a.rshashState with
      state := .new, belowCount := 0, lookupWindowIndex := 0 } }, ?_,
      tableEntries_bijective hperm, rfl, rfl⟩
    rw [initRandomSampling, htable]
    rfl

end DirtyPages
