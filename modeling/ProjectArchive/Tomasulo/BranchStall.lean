/-
ProjectArchive/Tomasulo/BranchStall.lean

A mispredicted branch stalls `dispatch_instr` until it is completed.

`branch_started` is set in the middle of the loop that fills the rows, and
cleared when `update_state` completes a mispredicted branch.  While such a
branch is in a row, the head of the dispatch queue is the instruction after it
(`Halted`): so there is only one, nothing younger has been dispatched, and the
flag is set because of it.
-/
import ProjectArchive.Tomasulo.Progress

namespace ProjectArchive.Tomasulo

open Sweep

variable {conf : ProcConf} {prog : List TraceInst} {s s' : Proc conf} {qsort : Qsort conf}
  {i j : Fin conf.scheduleQueueSize}

/-- The row holds a mispredicted branch that `update_state` has not completed. -/
structure Unresolved (s : Proc conf) (i : Fin conf.scheduleQueueSize) : Prop where
  occupied : (s.scheduleQueue i).occupied = true
  uncompleted : ¬s.Completed (s.tag i)
  br : (s.scheduleQueue i).opcode = .br
  mispredicted : (s.scheduleQueue i).instr.mispredicted = true

/-- Nothing after a mispredicted branch has left the dispatch queue. -/
def Halted (s : Proc conf) : Prop :=
  ∀ i, Unresolved s i → s.branchStarted = true ∧ s.dispatchQueueHead = s.tag i + 1

theorem Unresolved.eq (hs : Books prog s) (h : Halted s) (hi : Unresolved s i)
    (hj : Unresolved s j) : i = j := by
  have hhead := (h i hi).2
  rw [(h j hj).2] at hhead
  exact hs.eq_of_tag hi.occupied hj.occupied (Nat.succ.inj hhead).symm

/-! ### The stages -/

theorem SameBooks.unresolved (h : SameBooks s s') (hi : Unresolved s' i) : Unresolved s i where
  occupied := (h.rows i).occupied.symm.trans hi.occupied
  uncompleted := by
    have hnot := hi.uncompleted
    rwa [h.completed, h.tag] at hnot
  br := (h.rows i).opcode.symm.trans hi.br
  mispredicted := (h.rows i).mispredicted.symm.trans hi.mispredicted

theorem SameBooks.halted (h : SameBooks s s') (hs : Halted s) : Halted s' := by
  intro i hi
  rw [h.branchStarted, h.dispatchQueueHead, h.tag]
  exact hs i (h.unresolved hi)

/-- A mispredicted branch is completed, which is then the only one, or another row. -/
theorem Halted.completeRow (h : Halted s) (hs : Books prog s)
    (hocc : (s.scheduleQueue i).occupied = true) (hnew : ¬s.Completed (s.tag i)) :
    Halted (s.completeRow i) := by
  intro k hk
  have hrow := (completeRow_row s i k).1
  have hnot := hk.uncompleted
  rw [completeRow_completed, completeRow_tag, not_or] at hnot
  have hbefore : Unresolved s k := ⟨hrow.occupied.symm.trans hk.occupied, hnot.1,
    hrow.opcode.symm.trans hk.br, hrow.mispredicted.symm.trans hk.mispredicted⟩
  obtain ⟨hstarted, hhead⟩ := h k hbefore
  have hother : ¬((s.scheduleQueue i).opcode = .br ∧
      (s.scheduleQueue i).instr.mispredicted = true) := by
    rintro ⟨hbr, hpred⟩
    obtain rfl := hbefore.eq hs h ⟨hocc, hnew, hbr, hpred⟩
    exact hnot.2 rfl
  rw [completeRow_tag]
  obtain ⟨branchTable, ghr, e⟩ := s.completeRow_eq i
  rw [e]
  exact ⟨(if_neg hother).trans hstarted, hhead⟩

theorem Halted.beginCycle (h : Halted s) (hs : Ledger prog .updateState s) :
    Halted s.beginCycle := by
  have hpass : Updating prog conf.scheduleQueueSize s.beginCycle ∧ Halted s.beginCycle := by
    refine sweep_induction (fun m a => Updating prog m a ∧ Halted a)
      ⟨hs.updating {} rfl rfl, SameBooks.halted {} h⟩ ?_
    rintro m a ⟨ha, hhalted⟩
    refine ⟨ha.updateRow, ?_⟩
    unfold Proc.updateRow
    split
    · rename_i hfin
      have hocc := ((finished_eq_true a m).mp hfin).1
      refine hhalted.completeRow ha.books hocc ?_
      intro hc
      exact Nat.lt_irrefl _ ((ha.done m hocc).mp hc).1
    · exact hhalted
  exact hpass.2

/-- In the loop of `dispatch_instr`: as long as it goes on, no branch stalls it. -/
structure Dispatching (prog : List TraceInst) (s : Proc conf) : Prop where
  books : Books prog s
  halted : Halted s
  free : s.dispatching = true → ∀ i, ¬Unresolved s i

theorem Dispatching.stop (h : Dispatching prog s) :
    Dispatching prog { s with dispatching := false } := by
  have hsame : SameBooks s { s with dispatching := false } := {}
  refine ⟨hsame.books h.books, hsame.halted h.halted, ?_⟩
  intro htrue
  cases htrue

/-- Skipping NOPs moves the head, but there is no branch to stay behind. -/
theorem Dispatching.skip (h : Dispatching prog s) (hdisp : s.dispatching = true) {k : ℕ}
    (hnops : s.NopsAhead k) : Dispatching prog (s.skip k) where
  books := h.books.skip hnops
  halted := fun i hi => absurd ⟨hi.occupied, hi.uncompleted, hi.br, hi.mispredicted⟩ (h.free hdisp i)
  free := fun _ i hi => h.free hdisp i ⟨hi.occupied, hi.uncompleted, hi.br, hi.mispredicted⟩

/-- The only branch that can stall now is the one in the new row, and then the loop is left. -/
theorem Dispatching.placeRow (h : Dispatching prog s) (hdisp : s.dispatching = true) {inst : Inst}
    (hfree : (s.scheduleQueue i).occupied = false)
    (hget : s.dispatchQueue[s.dispatchQueueHead]? = some inst) (hop : inst.opcode ≠ .nop) :
    Dispatching prog (s.placeRow i inst) := by
  have hnew : ∀ k, Unresolved (s.placeRow i inst) k →
      k = i ∧ inst.opcode = .br ∧ inst.mispredicted = true := by
    intro k hk
    rcases eq_or_ne k i with rfl | hki
    · have hbr := hk.br
      have hpred := hk.mispredicted
      rw [s.placeRow_self] at hbr hpred
      exact ⟨rfl, hbr, hpred⟩
    · have hrow := s.placeRow_of_ne inst hki
      have hnot := hk.uncompleted
      rw [placeRow_completed, placeRow_tag_of_ne inst hki] at hnot
      exact absurd ⟨hrow ▸ hk.occupied, hnot, hrow ▸ hk.br, hrow ▸ hk.mispredicted⟩
        (h.free hdisp k)
  refine ⟨h.books.placeRow hfree hget hop, ?_, ?_⟩
  · intro k hk
    obtain ⟨rfl, hbranch⟩ := hnew k hk
    rw [placeRow_tag h.books.queueOk hget, Proc.placeRow_head]
    refine ⟨?_, rfl⟩
    rw [s.placeRow_eq]
    exact if_pos hbranch
  · intro hdisp' k hk
    obtain ⟨-, hbranch⟩ := hnew k hk
    rw [s.placeRow_eq] at hdisp'
    have hfalse : (if inst.opcode = .br ∧ inst.mispredicted = true then false else s.dispatching) =
        true := hdisp'
    rw [if_pos hbranch] at hfalse
    cases hfalse

theorem Dispatching.dispatchRow (h : Dispatching prog s) (i : Fin conf.scheduleQueueSize) :
    Dispatching prog (s.dispatchRow i) := by
  have hcases := s.dispatchRow_cases i h.books.queueOk.size
  generalize s.dispatchRow i = s' at hcases ⊢
  cases hcases with
  | stopped => exact h
  | empty => exact h.stop
  | full => exact h
  | ends k hdisp _ _ hnops _ => exact (h.skip hdisp hnops).stop
  | places k inst hdisp hfree hnops hget hop =>
      exact (h.skip hdisp hnops).placeRow hdisp hfree hget hop

theorem Halted.dispatchInstr (h : Halted s) (hs : Books prog s) : Halted s.dispatchInstr := by
  unfold Proc.dispatchInstr
  dsimp only
  split
  · exact fun i hi => h i ⟨hi.occupied, hi.uncompleted, hi.br, hi.mispredicted⟩
  · rename_i hstarted
    have hnone : ∀ i, ¬Unresolved s i := fun i hi => hstarted (h i hi).1
    have hfree : ∀ i, ¬Unresolved { s.markDispatch with dispatching := true } i :=
      fun i hi => hnone i ⟨hi.occupied, hi.uncompleted, hi.br, hi.mispredicted⟩
    have hsame : SameBooks s.markDispatch { s.markDispatch with dispatching := true } := {}
    have hpass : Dispatching prog (sweep Proc.dispatchRow { s.markDispatch with dispatching := true }) :=
      sweep_preserves (P := Dispatching prog)
        ⟨hsame.books hs.markDispatch, fun i hi => absurd hi (hfree i), fun _ => hfree⟩
        fun i a ha => ha.dispatchRow i
    exact hpass.halted

theorem Halted.fetchStage (h : Halted s) (hfetch : s.fetchStage = .ok s') : Halted s' :=
  Proc.fetchStage_induction (P := Halted)
    (fun _ _ _ ha _ _ i hi => ha i ⟨hi.occupied, hi.uncompleted, hi.br, hi.mispredicted⟩)
    (fun _ _ ha i hi => ha i ⟨hi.occupied, hi.uncompleted, hi.br, hi.mispredicted⟩) h hfetch

theorem Halted.endCycle (h : Halted s) (hs : Books prog s) : Halted (s.endCycle qsort) := by
  obtain ⟨cumulativeSize, e⟩ := endCycle_eq qsort hs
  obtain ⟨σ, hσ⟩ := endCycle_reorders qsort hs
  intro k hk
  obtain ⟨hocc, hnot, hrow⟩ := hσ.stayed hk.occupied
  obtain ⟨hstarted, hhead⟩ := h (σ k) ⟨hocc, hnot, hrow ▸ hk.br, hrow ▸ hk.mispredicted⟩
  rw [hσ.tag hk.occupied, e]
  exact ⟨hstarted, hhead⟩

theorem Reached.halted {trace : List TraceInst} {stage : Stage}
    (h : Reached conf qsort trace stage s) : Halted s := by
  refine h.invariant_of (Ledger trace) (fun _ => Halted) Reached.ledger ?_ ?_
  · intro i hi
    cases hi.occupied
  · intro stage s s' hs hhalted hrun
    cases stage with
    | updateState =>
        obtain rfl := Except.ok.inj hrun
        exact hhalted.beginCycle hs
    | executeInstr =>
        obtain rfl := Except.ok.inj hrun
        exact (executeInstr_same s).1.halted hhalted
    | scheduleInstr =>
        obtain rfl := Except.ok.inj hrun
        exact (scheduleInstr_same s).1.halted hhalted
    | dispatchInstr =>
        obtain rfl := Except.ok.inj hrun
        exact hhalted.dispatchInstr hs.books
    | fetchInstr => exact hhalted.fetchStage hrun
    | updateState2 =>
        obtain rfl := Except.ok.inj hrun
        exact hhalted.endCycle hs.books

/-! ### The stall -/

/-- The stall in a state of a run. -/
structure Stalled (s : Proc conf) : Prop where
  started_iff : s.branchStarted = true ↔ ∃ i, Unresolved s i
  unique : ∀ i j, Unresolved s i → Unresolved s j → i = j
  youngest : ∀ i, Unresolved s i → ∀ j, (s.scheduleQueue j).occupied = true → s.tag j ≤ s.tag i
  /-- No younger instruction has been dispatched: all are still in the dispatch queue. -/
  held : ∀ i, Unresolved s i → s.dispatchQueueHead = s.tag i + 1

/-- **A mispredicted branch stalls `dispatch_instr`** from the cycle in which it is
dispatched to the cycle in which it is completed. -/
theorem branch_stalls {trace : List TraceInst} {stage : Stage}
    (h : Reached conf qsort trace stage s) : Stalled s where
  started_iff := by
    constructor
    · intro hstarted
      obtain ⟨i, hocc, hnot, hbr, hpred⟩ := h.stalls hstarted
      exact ⟨i, hocc, hnot, hbr, hpred⟩
    · rintro ⟨i, hi⟩
      exact (h.halted i hi).1
  unique := fun _ _ hi hj => hi.eq h.ledger.books h.halted hj
  youngest := by
    intro i hi j hj
    have hlt := (h.ledger.books.rowsOk.row j hj).lt
    rw [(h.halted i hi).2] at hlt
    exact Nat.le_of_lt_succ hlt
  held := fun i hi => (h.halted i hi).2

/-- A taken branch, which is predicted not to be taken, and an addition. -/
def takenBranch : List TraceInst :=
  [⟨0, .br, none, fun _ => none, 0, true⟩, ⟨4, .add, none, fun _ => none, 0, false⟩]

/-- In the second cycle the branch is dispatched, and the addition is not. -/
theorem branch_stalls_taken : ∃ s : Proc smallConf, s.branchStarted = true ∧ Stalled s := by
  have h₁ : Reached smallConf (keepOrder smallConf) takenBranch .updateState _ :=
    Reached.cycle .setup rfl rfl
  have h₂ := h₁.cycle rfl rfl
  exact ⟨_, rfl, branch_stalls h₂⟩

end ProjectArchive.Tomasulo
