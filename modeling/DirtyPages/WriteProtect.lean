import Mathlib.Data.Int.Notation
import Mathlib.Data.Nat.Notation
import Mathlib.Logic.Function.Iterate
import Mathlib.Tactic.Common

/-!
# Write-protecting a page under concurrent writes

`write_protect_page` of Section 11, one access to the page table or to the page a step, between
writes of the owning process.  A write of the hardware sets the dirty bit; it is let through by the
present PTE, or by a translation that a pending flush has not yet removed.  Clearing the PTE flushes
the translations.  Nothing but these writes comes between the steps, so that a flush is pending
during the whole call or not at all.

The invariant says for each place in the function what the PTE is in terms of the initial one and
the writes so far.  A write during the tests can only come through an unflushed translation, and the
last of the tests catches that.
-/

namespace DirtyPages

/-- `-EFAULT` -/
def efault : ℤ := -14

namespace WriteProtect

/-- The bits of a PTE that the function looks at. -/
structure Pte where
  write : Bool
  dirty : Bool
  protnone : Bool
  savedwrite : Bool
  deriving DecidableEq, Repr

/-- `pte_wrprotect` -/
def Pte.wrprotect (p : Pte) : Pte := { p with write := false }

/-- `pte_mkclean` -/
def Pte.mkclean (p : Pte) : Pte := { p with dirty := false }

/-- `pte_clear_savedwrite` -/
def Pte.clearSavedwrite (p : Pte) : Pte := { p with savedwrite := false }

/-- What the hardware does to the PTE when it writes to the page. -/
def Pte.markDirty (p : Pte) : Pte := { p with dirty := true }

/-- The PTE after a number of writes. -/
def Pte.afterWrites (writes : ℕ) (p : Pte) : Pte :=
  { p with dirty := p.dirty || decide (0 < writes) }

/-- The PTE lets the hardware write. -/
def Pte.present (p : Pte) : Bool := p.write && !p.protnone

/-- The PTE allows writes: at once by its write bit, or by its saved write bit when it is accessible
again. -/
def Pte.allowsWrite (p : Pte) : Bool := if p.protnone then p.savedwrite else p.write

/-- What the function finds outside the PTE. -/
structure Setting where
  addressFound : Bool
  transCompound : Bool
  walkFinds : Bool
  pteMapped : Bool
  wantsOldPte : Bool
  flushPending : Bool
  swapCache : Bool
  mapcount : Int32
  count : Int32
  deriving DecidableEq, Repr

/-- The places of `write_protect_page`. -/
inductive Point
  | addressInVma
  | transCompound
  | mappedWalk
  | pteMapped
  | saveOldPte
  | testWrite
  | testDirty
  | testProtnone
  | testSavedwrite
  | testFlushPending
  | readSwapped
  | clear
  | testCount
  | restore
  | transferDirty
  | install
  | readOrig
  | walkDone (err : ℤ)
  | notifierEnd (err : ℤ)
  | returned (err : ℤ)
  | bug
  deriving DecidableEq, Repr

/-- The PTE, which is `none` while it is cleared, whether some translation of the page that allows
writes is not flushed yet, the flag of the page, the variables of the function, and the number of
writes that the process has made. -/
structure State where
  point : Point
  pte : Option Pte
  unflushed : Bool
  pageDirty : Bool
  swapped : Int32
  entry : Pte
  oldPte : Option Pte
  origPte : Option Pte
  writes : ℕ
  deriving DecidableEq, Repr

/-- The page as the call finds it. -/
def State.start (g : Setting) (p : Pte) (pageDirty : Bool) : State where
  point := .addressInVma
  pte := some p
  unflushed := g.flushPending
  pageDirty := pageDirty
  swapped := 0
  entry := ⟨false, false, false, false⟩
  oldPte := none
  origPte := none
  writes := 0

def State.goto (point : Point) (s : State) : State := { s with point := point }

/-- A bit of `*pvmw.pte`; a cleared PTE has none. -/
def State.reads (bit : Pte → Bool) (s : State) : Bool := s.pte.any bit

/-- One step of `write_protect_page`. -/
def State.advance (g : Setting) (s : State) : State :=
  match s.point with
  | .addressInVma => s.goto (if g.addressFound then .transCompound else .returned efault)
  | .transCompound => s.goto (if g.transCompound then .bug else .mappedWalk)
  | .mappedWalk => s.goto (if g.walkFinds then .pteMapped else .notifierEnd efault)
  | .pteMapped => s.goto (if g.pteMapped then .saveOldPte else .walkDone efault)
  | .saveOldPte =>
    { s with
      oldPte := if g.wantsOldPte then s.pte else s.oldPte
      point := .testWrite }
  | .testWrite => s.goto (if s.reads Pte.write then .readSwapped else .testDirty)
  | .testDirty => s.goto (if s.reads Pte.dirty then .readSwapped else .testProtnone)
  | .testProtnone => s.goto (if s.reads Pte.protnone then .testSavedwrite else .testFlushPending)
  | .testSavedwrite => s.goto (if s.reads Pte.savedwrite then .readSwapped else .testFlushPending)
  | .testFlushPending => s.goto (if g.flushPending then .readSwapped else .readOrig)
  | .readSwapped => { s with swapped := if g.swapCache then 1 else 0, point := .clear }
  | .clear =>
    -- `ptep_clear_flush_notify`
    { s with
      entry := s.pte.getD ⟨false, false, false, false⟩
      pte := none
      unflushed := false
      point := .testCount }
  | .testCount =>
    s.goto (if g.mapcount + 1 + s.swapped ≠ g.count then .restore else .transferDirty)
  | .restore => { s with pte := some s.entry, point := .walkDone efault }
  | .transferDirty =>
    { s with pageDirty := if s.entry.dirty then true else s.pageDirty, point := .install }
  | .install =>
    let entry :=
      if s.entry.protnone then
        s.entry.clearSavedwrite.mkclean
      else
        s.entry.wrprotect.mkclean
    { s with entry := entry, pte := some entry, point := .readOrig }
  | .readOrig => { s with origPte := s.pte, point := .walkDone 0 }
  | .walkDone err => s.goto (.notifierEnd err)
  | .notifierEnd err => s.goto (.returned err)
  | .returned _ => s
  | .bug => s

/-- The process can write to the page without a fault. -/
def State.canWrite (s : State) : Bool := s.reads Pte.present || s.unflushed

/-- A write of the process; it waits for the fault handler where it cannot be made at once. -/
def State.hardwareWrite (s : State) : State :=
  if s.canWrite then { s with pte := s.pte.map Pte.markDirty, writes := s.writes + 1 } else s

/-- What can happen next. -/
inductive Action
  | advance
  | hardwareWrite
  deriving DecidableEq, Repr

def State.step (g : Setting) (s : State) : Action → State
  | .advance => s.advance g
  | .hardwareWrite => s.hardwareWrite

/-- Steps of the function and writes of the process in any order. -/
def State.run (g : Setting) (s : State) (actions : List Action) : State :=
  actions.foldl (State.step g) s

/-! ### The invariant -/

/-- The PTE and the translations are as without the call. -/
structure Untouched (g : Setting) (p : Pte) (s : State) : Prop where
  pte : s.pte = some (p.afterWrites s.writes)
  unflushed : s.unflushed = g.flushPending

/-- The tests so far found the PTE not writable, and clean unless a flush is pending. -/
structure Tested (g : Setting) (p : Pte) (s : State) : Prop extends Untouched g p s where
  write : p.write = false
  dirty : g.flushPending = false → (p.afterWrites s.writes).dirty = false

/-- The PTE is cleared, and `entry` holds it. -/
structure Cleared (p : Pte) (s : State) : Prop where
  pte : s.pte = none
  unflushed : s.unflushed = false
  entry : s.entry = p.afterWrites s.writes

/-- The PTE is clean and allows no write, no translation does, and a dirty bit has reached the page. -/
structure Protected (p : Pte) (s : State) : Prop where
  pte : ∃ q, s.pte = some q ∧ q.dirty = false ∧ q.allowsWrite = false
  unflushed : s.unflushed = false
  pageDirty : (p.afterWrites s.writes).dirty = true → s.pageDirty = true

/-- What the function returns with. -/
def Outcome (p : Pte) (err : ℤ) (s : State) : Prop :=
  if err = 0 then
    Protected p s ∧ s.origPte = s.pte
  else
    err = efault ∧ s.pte = some (p.afterWrites s.writes)

/-- What holds at each place. -/
def State.Inv (g : Setting) (p : Pte) (s : State) : Prop :=
  match s.point with
  | .addressInVma | .transCompound | .mappedWalk | .pteMapped | .saveOldPte | .testWrite
  | .readSwapped | .clear | .bug => Untouched g p s
  | .testDirty => Untouched g p s ∧ p.write = false
  | .testProtnone => Tested g p s
  | .testSavedwrite => Tested g p s ∧ p.protnone = true
  | .testFlushPending => Tested g p s ∧ p.allowsWrite = false
  | .testCount | .restore | .transferDirty => Cleared p s
  | .install => Cleared p s ∧ (s.entry.dirty = true → s.pageDirty = true)
  | .readOrig => Protected p s
  | .walkDone err | .notifierEnd err | .returned err => Outcome p err s

section Invariant

variable {g : Setting} {p : Pte} {s : State}

/-! ### A write of the process -/

theorem Pte.markDirty_afterWrites (p : Pte) (writes : ℕ) :
    (p.afterWrites writes).markDirty = p.afterWrites (writes + 1) := by
  simp [Pte.afterWrites, Pte.markDirty]

theorem Pte.present_of_allowsWrite {q : Pte} (h : q.allowsWrite = false) : q.present = false := by
  rw [Pte.allowsWrite] at h
  rw [Pte.present]
  cases hp : q.protnone with
  | false => simpa [hp] using h
  | true => simp

theorem hardwareWrite_of_not {s : State} (h : s.canWrite = false) : s.hardwareWrite = s := by
  rw [State.hardwareWrite, h]
  rfl

/-- A write to the PTE as without the call. -/
theorem hardwareWrite_pte (h : s.pte = some (p.afterWrites s.writes)) :
    s.hardwareWrite.pte = some (p.afterWrites s.hardwareWrite.writes) := by
  rw [State.hardwareWrite]
  split_ifs
  · simp only [h, Option.map_some, Pte.markDirty_afterWrites]
  · exact h

/-- A write touches nothing but the PTE. -/
theorem hardwareWrite_frame (s : State) :
    s.hardwareWrite.point = s.point ∧ s.hardwareWrite.unflushed = s.unflushed := by
  rw [State.hardwareWrite]
  split_ifs
  · exact ⟨rfl, rfl⟩
  · exact ⟨rfl, rfl⟩

theorem Untouched.hardwareWrite (h : Untouched g p s) : Untouched g p s.hardwareWrite where
  pte := hardwareWrite_pte h.pte
  unflushed := (hardwareWrite_frame s).2.trans h.unflushed

/-- A write during the tests comes through an unflushed translation. -/
theorem Tested.canWrite (h : Tested g p s) : s.canWrite = g.flushPending := by
  rw [State.canWrite, State.reads, h.pte, h.unflushed]
  simp [Pte.present, Pte.afterWrites, h.write]

theorem Tested.hardwareWrite (h : Tested g p s) : Tested g p s.hardwareWrite where
  toUntouched := h.toUntouched.hardwareWrite
  write := h.write
  dirty := by
    intro hflush
    rw [hardwareWrite_of_not (h.canWrite.trans hflush)]
    exact h.dirty hflush

theorem Cleared.canWrite (h : Cleared p s) : s.canWrite = false := by
  rw [State.canWrite, State.reads, h.pte, h.unflushed]
  rfl

theorem Protected.canWrite (h : Protected p s) : s.canWrite = false := by
  obtain ⟨q, hq, _, hallows⟩ := h.pte
  rw [State.canWrite, State.reads, hq, h.unflushed, Option.any_some,
    Pte.present_of_allowsWrite hallows]
  rfl

theorem Outcome.hardwareWrite {err : ℤ} (h : Outcome p err s) : Outcome p err s.hardwareWrite := by
  rw [Outcome] at h ⊢
  split_ifs at h ⊢ with herr
  · rwa [hardwareWrite_of_not h.1.canWrite]
  · exact ⟨h.1, hardwareWrite_pte h.2⟩

theorem State.Inv.hardwareWrite (h : s.Inv g p) : s.hardwareWrite.Inv g p := by
  rw [State.Inv] at h ⊢
  rw [(hardwareWrite_frame s).1]
  cases hpoint : s.point with
  | addressInVma | transCompound | mappedWalk | pteMapped | saveOldPte | testWrite | readSwapped
  | clear | bug =>
    rw [hpoint] at h
    exact Untouched.hardwareWrite h
  | testDirty =>
    rw [hpoint] at h
    exact ⟨h.1.hardwareWrite, h.2⟩
  | testProtnone =>
    rw [hpoint] at h
    exact Tested.hardwareWrite h
  | testSavedwrite | testFlushPending =>
    rw [hpoint] at h
    exact ⟨h.1.hardwareWrite, h.2⟩
  | testCount | restore | transferDirty =>
    rw [hpoint] at h
    rwa [hardwareWrite_of_not (Cleared.canWrite h)]
  | install =>
    rw [hpoint] at h
    rwa [hardwareWrite_of_not h.1.canWrite]
  | readOrig =>
    rw [hpoint] at h
    rwa [hardwareWrite_of_not (Protected.canWrite h)]
  | walkDone err | notifierEnd err | returned err =>
    rw [hpoint] at h
    exact Outcome.hardwareWrite h

/-! ### A step of the function -/

theorem Untouched.reads (h : Untouched g p s) (bit : Pte → Bool) :
    s.reads bit = bit (p.afterWrites s.writes) := by
  rw [State.reads, h.pte, Option.any_some]

theorem Untouched.goto (h : Untouched g p s) (point : Point) : Untouched g p (s.goto point) :=
  ⟨h.pte, h.unflushed⟩

theorem Tested.goto (h : Tested g p s) (point : Point) : Tested g p (s.goto point) :=
  ⟨h.toUntouched.goto point, h.write, h.dirty⟩

theorem Cleared.goto (h : Cleared p s) (point : Point) : Cleared p (s.goto point) :=
  ⟨h.pte, h.unflushed, h.entry⟩

theorem Protected.goto (h : Protected p s) (point : Point) : Protected p (s.goto point) :=
  ⟨h.pte, h.unflushed, h.pageDirty⟩

theorem Outcome.goto {err : ℤ} (h : Outcome p err s) (point : Point) :
    Outcome p err (s.goto point) := by
  rw [Outcome] at h ⊢
  split_ifs at h ⊢
  · exact ⟨h.1.goto point, h.2⟩
  · exact h

theorem Untouched.fault (h : Untouched g p s) (point : Point) :
    Outcome p efault (s.goto point) := by
  rw [Outcome, if_neg (by decide)]
  exact ⟨rfl, h.pte⟩

/-- A branch, to one of two places. -/
theorem inv_goto_ite {c : Prop} [Decidable c] {yes no : Point}
    (hyes : c → (s.goto yes).Inv g p) (hno : ¬c → (s.goto no).Inv g p) :
    (s.goto (if c then yes else no)).Inv g p := by
  split_ifs with hc
  · exact hyes hc
  · exact hno hc

/-- Past the last test nothing can write. -/
theorem Tested.protected (h : Tested g p s) (hallows : p.allowsWrite = false)
    (hflush : g.flushPending = false) : Protected p (s.goto .readOrig) where
  pte := ⟨_, h.pte, h.dirty hflush, hallows⟩
  unflushed := h.unflushed.trans hflush
  pageDirty hdirty := absurd ((h.dirty hflush).symm.trans hdirty) Bool.false_ne_true

theorem State.Inv.advance (h : s.Inv g p) : (s.advance g).Inv g p := by
  rw [State.Inv] at h
  rw [State.advance]
  cases hpoint : s.point with
  | addressInVma =>
    rw [hpoint] at h
    exact inv_goto_ite (fun _ => Untouched.goto h _) fun _ => Untouched.fault h _
  | transCompound =>
    rw [hpoint] at h
    exact inv_goto_ite (fun _ => Untouched.goto h _) fun _ => Untouched.goto h _
  | mappedWalk =>
    rw [hpoint] at h
    exact inv_goto_ite (fun _ => Untouched.goto h _) fun _ => Untouched.fault h _
  | pteMapped =>
    rw [hpoint] at h
    exact inv_goto_ite (fun _ => Untouched.goto h _) fun _ => Untouched.fault h _
  | saveOldPte =>
    rw [hpoint] at h
    exact ⟨h.pte, h.unflushed⟩
  | testWrite =>
    rw [hpoint] at h
    refine inv_goto_ite (fun _ => Untouched.goto h _) fun hwrite => ?_
    rw [Untouched.reads h, Bool.not_eq_true] at hwrite
    exact ⟨Untouched.goto h _, hwrite⟩
  | testDirty =>
    rw [hpoint] at h
    refine inv_goto_ite (fun _ => h.1.goto _) fun hdirty => ?_
    rw [h.1.reads, Bool.not_eq_true] at hdirty
    exact ⟨h.1.goto _, h.2, fun _ => hdirty⟩
  | testProtnone =>
    rw [hpoint] at h
    refine inv_goto_ite (fun hprotnone => ?_) fun hprotnone => ?_
    · rw [h.toUntouched.reads] at hprotnone
      exact ⟨Tested.goto h _, hprotnone⟩
    · rw [h.toUntouched.reads, Bool.not_eq_true] at hprotnone
      exact ⟨Tested.goto h _, (if_neg (Bool.not_eq_true _ ▸ hprotnone)).trans h.write⟩
  | testSavedwrite =>
    rw [hpoint] at h
    refine inv_goto_ite (fun _ => h.1.toUntouched.goto _) fun hsaved => ?_
    rw [h.1.toUntouched.reads, Bool.not_eq_true] at hsaved
    exact ⟨h.1.goto _, (if_pos h.2).trans hsaved⟩
  | testFlushPending =>
    rw [hpoint] at h
    refine inv_goto_ite (fun _ => h.1.toUntouched.goto _) fun hflush => ?_
    exact h.1.protected h.2 (Bool.not_eq_true _ ▸ hflush)
  | readSwapped =>
    rw [hpoint] at h
    exact ⟨h.pte, h.unflushed⟩
  | clear =>
    rw [hpoint] at h
    exact ⟨rfl, rfl, congrArg (Option.getD · _) h.pte⟩
  | testCount =>
    rw [hpoint] at h
    exact inv_goto_ite (fun _ => Cleared.goto h _) fun _ => Cleared.goto h _
  | restore =>
    rw [hpoint] at h
    exact ⟨rfl, congrArg some h.entry⟩
  | transferDirty =>
    rw [hpoint] at h
    refine ⟨⟨h.pte, h.unflushed, h.entry⟩, fun hdirty => ?_⟩
    exact if_pos hdirty
  | install =>
    rw [hpoint] at h
    refine ⟨⟨_, rfl, ?_, ?_⟩, h.1.unflushed, fun hdirty => h.2 ?_⟩
    · split_ifs
      · rfl
      · rfl
    · split_ifs with hprotnone
      · exact if_pos hprotnone
      · exact if_neg hprotnone
    · rwa [h.1.entry]
  | readOrig =>
    rw [hpoint] at h
    exact ⟨⟨h.pte, h.unflushed, h.pageDirty⟩, rfl⟩
  | walkDone err =>
    rw [hpoint] at h
    exact Outcome.goto h _
  | notifierEnd err =>
    rw [hpoint] at h
    exact Outcome.goto h _
  | returned err | bug =>
    rw [State.Inv, hpoint]
    rwa [hpoint] at h

theorem inv_start (g : Setting) (p : Pte) (pageDirty : Bool) :
    (State.start g p pageDirty).Inv g p := by
  have hdirty : (p.dirty || decide (0 < 0)) = p.dirty := Bool.or_false _
  refine ⟨congrArg some ?_, rfl⟩
  rw [Pte.afterWrites, State.start, hdirty]

theorem State.Inv.run (h : s.Inv g p) (actions : List Action) : (s.run g actions).Inv g p := by
  induction actions generalizing s with
  | nil => exact h
  | cons action actions ih =>
    cases action with
    | advance => exact ih h.advance
    | hardwareWrite => exact ih h.hardwareWrite

end Invariant

/-! ### The function returns -/

/-- The steps that are left at most. -/
def Point.rank : Point → ℕ
  | .addressInVma => 18
  | .transCompound => 17
  | .mappedWalk => 16
  | .pteMapped => 15
  | .saveOldPte => 14
  | .testWrite => 13
  | .testDirty => 12
  | .testProtnone => 11
  | .testSavedwrite => 10
  | .testFlushPending => 9
  | .readSwapped => 8
  | .clear => 7
  | .testCount => 6
  | .restore | .transferDirty => 5
  | .install => 4
  | .readOrig => 3
  | .walkDone _ => 2
  | .notifierEnd _ => 1
  | .returned _ | .bug => 0

theorem rank_advance (g : Setting) (s : State) :
    (s.advance g).point.rank ≤ s.point.rank - 1 := by
  rw [State.advance]
  cases hpoint : s.point with
  | addressInVma | transCompound | mappedWalk | pteMapped | testWrite | testDirty | testProtnone
  | testSavedwrite | testFlushPending | testCount =>
    simp only [State.goto]
    split_ifs <;> simp [Point.rank]
  | saveOldPte | readSwapped | clear | restore | transferDirty | install | readOrig | walkDone _
  | notifierEnd _ => simp [State.goto, Point.rank]
  | returned _ | bug =>
    rw [hpoint]
    exact Nat.zero_le _

/-- Writes of the process do not move the function. -/
theorem rank_run (g : Setting) (s : State) (actions : List Action) :
    (s.run g actions).point.rank ≤ s.point.rank - actions.count .advance := by
  induction actions generalizing s with
  | nil => exact Nat.le_refl _
  | cons action actions ih =>
    have hrest := ih (s.step g action)
    show ((s.step g action).run g actions).point.rank ≤ _
    cases action with
    | advance =>
      have hone : (s.step g .advance).point.rank ≤ s.point.rank - 1 := rank_advance g s
      rw [List.count_cons_self]
      omega
    | hardwareWrite =>
      have hpoint : (s.step g .hardwareWrite).point = s.point := (hardwareWrite_frame s).1
      rw [hpoint] at hrest
      rwa [List.count_cons_of_ne (by decide)]

/-- After enough steps of the function it has returned, or stopped at its `BUG_ON`. -/
theorem finished_of_count (g : Setting) (s : State) (actions : List Action)
    (h : s.point.rank ≤ actions.count .advance) :
    (s.run g actions).point = .bug ∨ ∃ err, (s.run g actions).point = .returned err := by
  have hrank : (s.run g actions).point.rank = 0 := by
    have hrun := rank_run g s actions
    omega
  cases hpoint : (s.run g actions).point with
  | bug => exact Or.inl rfl
  | returned err => exact Or.inr ⟨err, rfl⟩
  | _ =>
    rw [hpoint] at hrank
    exact absurd hrank (by simp [Point.rank])

/-- The initial PTE after as many writes and nothing else. -/
theorem Pte.afterWrites_eq_iterate (p : Pte) (writes : ℕ) :
    p.afterWrites writes = Pte.markDirty^[writes] p := by
  induction writes with
  | zero =>
    rw [Pte.afterWrites, Function.iterate_zero_apply]
    simp
  | succ writes ih => rw [Function.iterate_succ_apply', ← ih, Pte.markDirty_afterWrites]

/-- The PTE is write-protected and clean, is the one handed out, and no write was lost. -/
structure Succeeded (p : Pte) (s : State) : Prop where
  installed : ∃ q, s.pte = some q ∧ s.origPte = some q ∧ q.dirty = false ∧ q.allowsWrite = false
  canWrite : s.canWrite = false
  pageDirty : p.dirty = true ∨ 0 < s.writes → s.pageDirty = true

theorem Outcome.succeeded {p : Pte} {s : State} (h : Outcome p 0 s) : Succeeded p s := by
  rw [Outcome, if_pos rfl] at h
  obtain ⟨hprotected, horig⟩ := h
  obtain ⟨q, hq, hdirty, hallows⟩ := hprotected.pte
  constructor
  case installed => exact ⟨q, hq, horig.trans hq, hdirty, hallows⟩
  case canWrite => exact hprotected.canWrite
  case pageDirty =>
    intro hever
    refine hprotected.pageDirty ?_
    rw [Pte.afterWrites, Bool.or_eq_true, decide_eq_true_iff]
    exact hever

theorem Outcome.fault {p : Pte} {err : ℤ} {s : State} (h : Outcome p err s) (herr : err ≠ 0) :
    err = efault ∧ s.pte = some (Pte.markDirty^[s.writes] p) := by
  rw [Outcome, if_neg herr] at h
  rwa [← Pte.afterWrites_eq_iterate]

end WriteProtect

open WriteProtect in
/-- From every PTE, whatever the function finds and however the writes of the process fall between its
steps: it returns 0 or `-EFAULT` or stops at its `BUG_ON`, and has after 18 steps.  With 0 the PTE is
the one handed out, clean and write-protected, and the page is dirty if its PTE ever was; with
`-EFAULT` the PTE is what the writes made of the initial one. -/
theorem writeProtectPage_loses_no_write (g : Setting) (p : Pte) (pageDirty : Bool)
    (actions : List Action) :
    let s := (State.start g p pageDirty).run g actions
    (s.point = .returned 0 → Succeeded p s) ∧
    (s.point = .returned efault → s.pte = some (Pte.markDirty^[s.writes] p)) ∧
    (∀ err, s.point = .returned err → err = 0 ∨ err = efault) ∧
    (18 ≤ actions.count .advance → s.point = .bug ∨ ∃ err, s.point = .returned err) := by
  intro s
  have hinv : s.Inv g p := (inv_start g p pageDirty).run actions
  have houtcome : ∀ err, s.point = .returned err → Outcome p err s := by
    intro err herr
    rwa [State.Inv, herr] at hinv
  refine ⟨fun h => (houtcome 0 h).succeeded, fun h => ((houtcome efault h).fault (by decide)).2, ?_,
    finished_of_count g (State.start g p pageDirty) actions⟩
  intro err herr
  by_cases hzero : err = 0
  · exact Or.inl hzero
  · exact Or.inr ((houtcome err herr).fault hzero).1

open WriteProtect in
/-- A read-only PTE, written through an unflushed translation after it was found clean. -/
theorem writeProtectPage_loses_no_write_pending :
    let g : Setting := ⟨true, false, true, true, false, true, false, 1, 2⟩
    let s := (State.start g ⟨false, false, false, false⟩ false).run g
      (List.replicate 7 .advance ++ .hardwareWrite :: List.replicate 11 .advance)
    s.point = .returned 0 ∧ s.writes = 1 ∧ Succeeded ⟨false, false, false, false⟩ s :=
  ⟨by decide, by decide, (writeProtectPage_loses_no_write _ _ _ _).1 (by decide)⟩

end DirtyPages
