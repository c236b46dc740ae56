import DirtyPages.StableTree

/-!
# Whether the work of a hash is charged once

What `check_collision`, `rmap_item_hash_max` and `stable_node_hash_max` add to `rshash_neg`, against
the number of page positions that the call hashes.  The two functions that fill a cache charge what
they hash.  `check_collision` does when it hashes at the current strength; when it extends a hash to
the full strength it charges the extension itself, and `page_hash_max` charges it again.
-/

namespace DirtyPages

open Outcome

variable {randomNums : RandomNums} {page : Page} {s memcmpCost : UInt64} {c : Counters}

/-! ### The positions that a call hashes -/

section Positions

variable (randomNums page s)

/-- The positions that `page_hash_max` hashes. -/
def extensionPositions (hash : UInt32) : ℕ :=
  (deltaHash randomNums page s.toNat hashStrengthMax hash).visited.length

/-- The positions that `page_hash` hashes. -/
def samplePositions : ℕ := (randomSampleHash randomNums page s.toNat).visited.length

end Positions

theorem extensionPositions_eq (hs : s.toNat ≤ hashStrengthMax) (hash : UInt32) :
    extensionPositions randomNums page s hash = hashStrengthMax - s.toNat := by
  rw [extensionPositions, deltaHash_visited_length, Nat.sub_eq_zero_of_le hs, Nat.add_zero]

theorem samplePositions_eq : samplePositions randomNums page s = s.toNat :=
  randomSampleHash_visited_length randomNums page s.toNat

/-! ### The functions that fill a cache -/

theorem rmapItemHashMax_charge (item : RmapItem) (hash : UInt32) (hs : s.toNat ≤ hashStrengthMax)
    (hfits : c.rshashNeg.toNat + hashStrengthMax < 2 ^ 64) :
    ∃ v item' c', rmapItemHashMax randomNums s page item hash c = .ok (v, item', c') ∧
      c'.rshashNeg.toNat = c.rshashNeg.toNat +
        (if item.hashMax = 0 then extensionPositions randomNums page s hash else 0) := by
  rw [rmapItemHashMax]
  by_cases hzero : item.hashMax = 0
  · obtain ⟨v, c', hrun, hneg⟩ :=
      pageHashMax_charge page hash hs hfits
    rw [if_pos hzero, if_pos hzero, extensionPositions_eq hs]
    exact ⟨_, _, c', bind_eq_ok.mpr ⟨_, hrun, rfl⟩, hneg⟩
  · rw [if_neg hzero, if_neg hzero]
    exact ⟨_, _, c, rfl, rfl⟩

theorem stableNodeHashMax_charge {n : ℕ} {node : StableNode} {t : StableTree}
    (hnode : t.stableNode n = some node) (hash : UInt32) (log : List Event)
    (hs : s.toNat ≤ hashStrengthMax) (hfits : c.rshashNeg.toNat + hashStrengthMax < 2 ^ 64) :
    ∃ r, stableNodeHashMax randomNums s n page hash ⟨t, c, log⟩ = .ok r ∧
      r.counters.rshashNeg.toNat = c.rshashNeg.toNat +
        (if node.hashMax = 0 then extensionPositions randomNums page s hash else 0) := by
  have hget : getStableNode n t = .ok node := by
    rw [getStableNode, hnode]
  rw [stableNodeHashMax, hget]
  show ∃ r, (if node.hashMax = 0 then _ else _) = _ ∧ _
  by_cases hzero : node.hashMax = 0
  · obtain ⟨v, c', hrun, hneg⟩ :=
      pageHashMax_charge page hash hs hfits
    rw [if_pos hzero, if_pos hzero, extensionPositions_eq hs]
    exact ⟨_, bind_eq_ok.mpr ⟨_, hrun, rfl⟩, hneg⟩
  · rw [if_neg hzero, if_neg hzero]
    exact ⟨_, rfl, rfl⟩

/-! ### The main result -/

/-- Each of the three calls adds to `rshash_neg` the positions that it hashes, and `check_collision`
the cost of a comparison. -/
structure ChargedOnce (randomNums : RandomNums) (s memcmpCost : UInt64) (page : Page)
    (item : RmapItem) (hash : UInt32) (c : Counters) : Prop where
  check : ∃ err c', checkCollision randomNums s memcmpCost page item hash c = .ok (err, c') ∧
    c'.rshashNeg.toNat = c.rshashNeg.toNat + memcmpCost.toNat +
      (if item.hashMax ≠ 0 then extensionPositions randomNums page s hash
      else samplePositions randomNums page s)
  rmapItem : ∃ v item' c', rmapItemHashMax randomNums s page item hash c = .ok (v, item', c') ∧
    c'.rshashNeg.toNat = c.rshashNeg.toNat +
      (if item.hashMax = 0 then extensionPositions randomNums page s hash else 0)
  stableNode : ∀ n node t log, t.stableNode n = some node →
    ∃ r, stableNodeHashMax randomNums s n page hash ⟨t, c, log⟩ = .ok r ∧
      r.counters.rshashNeg.toNat = c.rshashNeg.toNat +
        (if node.hashMax = 0 then extensionPositions randomNums page s hash else 0)

/-- Away from the overflow of `rshash_neg` the work of the three calls is charged once exactly when
the item has no cached hash or the strength is already the full one.  The extension of a hash is
`HASH_STRENGTH_MAX - hash_strength` positions, a hash at the current strength `hash_strength`. -/
theorem work_charged_once (randomNums : RandomNums) (s memcmpCost : UInt64) (page : Page)
    (item : RmapItem) (hash : UInt32) (c : Counters) (hs : s.toNat ≤ hashStrengthMax)
    (hfits : c.rshashNeg.toNat + memcmpCost.toNat + 2 * hashStrengthMax < 2 ^ 64) :
    (ChargedOnce randomNums s memcmpCost page item hash c ↔
      item.hashMax = 0 ∨ s = strengthMax) ∧
    extensionPositions randomNums page s hash = hashStrengthMax - s.toNat ∧
    samplePositions randomNums page s = s.toNat := by
  have hext : extensionPositions randomNums page s hash = hashStrengthMax - s.toNat :=
    extensionPositions_eq hs hash
  refine ⟨?_, hext, samplePositions_eq⟩
  obtain ⟨err, c', hrun, hneg⟩ :=
    checkCollision_charge page item hash hs hfits
  constructor
  · intro h
    by_cases hzero : item.hashMax = 0
    · exact Or.inl hzero
    · right
      obtain ⟨err', c'', hrun', hneg'⟩ := h.check
      rw [hrun] at hrun'
      cases hrun'
      rw [if_pos hzero] at hneg hneg'
      rw [hext] at hneg'
      apply UInt64.toNat_inj.mp
      rw [toNat_strengthMax]
      rw [hashStrengthMax_eq] at hs hneg hneg'
      omega
  · intro h
    refine ⟨⟨err, c', hrun, ?_⟩, rmapItemHashMax_charge item hash hs (by omega),
      fun n node t log hnode => stableNodeHashMax_charge hnode hash log hs (by omega)⟩
    rw [hneg, hext, samplePositions_eq]
    by_cases hzero : item.hashMax = 0
    · rw [if_neg (not_not_intro hzero), if_neg (not_not_intro hzero)]
    · have hfull : s.toNat = hashStrengthMax := by
        rw [h.resolve_left hzero, toNat_strengthMax, hashStrengthMax_eq]
      rw [if_pos hzero, if_pos hzero, hfull, Nat.sub_self]

/-- An item without a cached hash, at the strength 64. -/
theorem work_charged_once_uncached : ChargedOnce id 64 100 (fun _ => 0) ⟨0⟩ 7 initialCounters :=
  (work_charged_once id 64 100 (fun _ => 0) ⟨0⟩ 7 initialCounters (by decide) (by decide)).1.mpr
    (Or.inl rfl)

/-- With a cached hash at the strength 64 the 970 positions of the extension are charged twice. -/
theorem work_charged_twice :
    (∃ err c', checkCollision id 64 100 (fun _ => 0) ⟨1⟩ 7 initialCounters = .ok (err, c') ∧
      c'.rshashNeg.toNat = 100 + 970 + 970) ∧
    extensionPositions id (fun _ => 0) 64 7 = 970 ∧
    ¬ChargedOnce id 64 100 (fun _ => 0) ⟨1⟩ 7 initialCounters := by
  have hext : extensionPositions id (fun _ => 0) 64 7 = 970 := extensionPositions_eq (by decide) 7
  have hcharge : ∃ err c', checkCollision id 64 100 (fun _ => 0) ⟨1⟩ 7 initialCounters =
      .ok (err, c') ∧ c'.rshashNeg.toNat = 100 + 970 + 970 :=
    checkCollision_charge (fun _ => 0) ⟨1⟩ 7 (by decide) (by decide)
  refine ⟨hcharge, hext, ?_⟩
  intro h
  obtain ⟨err, c', hrun, hneg⟩ := hcharge
  obtain ⟨err', c'', hrun', hneg'⟩ := h.check
  rw [hrun] at hrun'
  cases hrun'
  rw [if_pos (by decide), hext, hneg] at hneg'
  exact absurd hneg' (by decide)

end DirtyPages
