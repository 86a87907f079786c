/-
ProjectArchive/Tomasulo/Steps.lean

The steps that the stages are made of.

A stage is a sequence of steps, each of which completes, executes, looks at,
fills or frees rows, or moves an instruction in the queues.  An invariant that
is the same before every stage is proved for the steps, with the books at hand:
`Reached.step_invariant` is the rule.
-/
import ProjectArchive.Tomasulo.Ledger

namespace ProjectArchive.Tomasulo

open Sweep

variable {conf : ProcConf} {prog : List TraceInst} {s s' : Proc conf} {qsort : Qsort conf}

/-- One step of a stage. -/
inductive Step (qsort : Qsort conf) (s : Proc conf) : Proc conf → Prop
  /-- Locals, `continue_fetch` and statistics that the pipeline does not read. -/
  | locals {s' : Proc conf} (h : s' = { s with
      finishedFuIdx := s'.finishedFuIdx, scheMulUnit := s'.scheMulUnit
      dispatching := s'.dispatching, continueFetch := s'.continueFetch
      stats := { s.stats with cycleCount := s'.stats.cycleCount } }) : Step qsort s s'
  | completes (i : Fin conf.scheduleQueueSize) (hfin : s.finished i = true)
      (hnew : ¬ s.Completed (s.tag i)) : Step qsort s (s.completeRow i)
  | executes (i : Fin conf.scheduleQueueSize) (hocc : (s.scheduleQueue i).occupied = true)
      (hfired : (s.scheduleQueue i).fired = true) : Step qsort s (s.executeRow i)
  | schedules (i : Fin conf.scheduleQueueSize) : Step qsort s (s.scheduleRow i)
  | marks : Step qsort s s.markDispatch
  | skips (k : ℕ) (hnops : s.NopsAhead k) : Step qsort s (s.skip k)
  | places (i : Fin conf.scheduleQueueSize) (inst : Inst)
      (hfree : (s.scheduleQueue i).occupied = false)
      (hget : s.dispatchQueue[s.dispatchQueueHead]? = some inst) (hop : inst.opcode ≠ .nop) :
      Step qsort s (s.placeRow i inst)
  | fetches (inst : TraceInst) (trace : List TraceInst) (htrace : s.trace = inst :: trace)
      (hlt : s.dispatchQueueTail < dqDataStructureSize) : Step qsort s (s.fetchOne inst trace)
  | releases : Step qsort s (s.endCycle qsort)

/-- Steps, from states whose books are right. -/
def Steps (prog : List TraceInst) (qsort : Qsort conf) : Proc conf → Proc conf → Prop :=
  Relation.ReflTransGen fun a b => Books prog a ∧ Step qsort a b

theorem Steps.next {a b : Proc conf} (h : Steps prog qsort s a) (ha : Books prog a)
    (hstep : Step qsort a b) : Steps prog qsort s b :=
  h.tail ⟨ha, hstep⟩

theorem Steps.one {a b : Proc conf} (ha : Books prog a) (hstep : Step qsort a b) :
    Steps prog qsort a b :=
  Relation.ReflTransGen.single ⟨ha, hstep⟩

theorem Ledger.steps_beginCycle (h : Ledger prog .updateState s) :
    Steps prog qsort s s.beginCycle := by
  have hpass : Updating prog conf.scheduleQueueSize s.beginCycle ∧
      Steps prog qsort s s.beginCycle := by
    refine sweep_induction (fun m a => Updating prog m a ∧ Steps prog qsort s a)
      ⟨h.updating {} rfl rfl, .one h.books (.locals rfl)⟩ ?_
    rintro m a ⟨ha, hsteps⟩
    refine ⟨ha.updateRow, ?_⟩
    unfold Proc.updateRow
    split
    · rename_i hfin
      refine hsteps.next ha.books (.completes m hfin ?_)
      intro hc
      exact Nat.lt_irrefl _ ((ha.done m ((finished_eq_true a m).mp hfin).1).mp hc).1
    · exact hsteps
  exact hpass.2

theorem Books.steps_executeInstr (h : Books prog s) : Steps prog qsort s s.executeInstr := by
  have hpass : SameBooks s s.executeInstr ∧ Steps prog qsort s s.executeInstr := by
    refine sweep_preserves (P := fun a => SameBooks s a ∧ Steps prog qsort s a)
      ⟨SameBooks.refl s, .refl⟩ ?_
    rintro i a ⟨ha, hsteps⟩
    refine ⟨ha.trans (executeRow_same i a).1, ?_⟩
    exact a.executeRow_preserves (P := Steps prog qsort s) i hsteps fun hocc hfired =>
      hsteps.next (ha.books h) (.executes i hocc hfired)
  exact hpass.2

theorem Books.steps_scheduleInstr (h : Books prog s) : Steps prog qsort s s.scheduleInstr := by
  have hlocal : SameBooks s { s with scheMulUnit := 1 } := {}
  have hpass : SameBooks s s.scheduleInstr ∧ Steps prog qsort s s.scheduleInstr := by
    refine sweep_preserves (P := fun a => SameBooks s a ∧ Steps prog qsort s a)
      ⟨hlocal, .one h (.locals rfl)⟩ ?_
    rintro i a ⟨ha, hsteps⟩
    exact ⟨ha.trans (scheduleRow_same i a).1, hsteps.next (ha.books h) (.schedules i)⟩
  exact hpass.2

theorem Books.steps_dispatchInstr (h : Books prog s) : Steps prog qsort s s.dispatchInstr := by
  refine (dispatchInstr_induction (P := fun a => Books prog a ∧ Steps prog qsort s a)
    ?_ ?_ ?_ h ⟨h.markDispatch, .one h .marks⟩).2.2
  · rintro a b ⟨ha, hsteps⟩
    have hlocal : SameBooks a { a with dispatching := b } := {}
    exact ⟨hlocal.books ha, hsteps.next ha (.locals rfl)⟩
  · rintro a k ha ⟨-, hsteps⟩ hnops
    exact ⟨ha.skip hnops, hsteps.next ha (.skips k hnops)⟩
  · rintro a i inst ha ⟨-, hsteps⟩ hfree hget hop
    exact ⟨ha.placeRow hfree hget hop, hsteps.next ha (.places i inst hfree hget hop)⟩

theorem Books.steps_fetchStage (h : Books prog s) (hfetch : s.fetchStage = .ok s') :
    Steps prog qsort s s' := by
  refine (Proc.fetchStage_induction (P := fun a => Books prog a ∧ Steps prog qsort s a)
    ?_ ?_ ⟨h, .refl⟩ hfetch).2
  · rintro a inst trace ⟨ha, hsteps⟩ htrace hlt
    exact ⟨ha.fetchOne htrace hlt, hsteps.next ha (.fetches inst trace htrace hlt)⟩
  · rintro a more ⟨ha, hsteps⟩
    exact ⟨ha.continueFetch more, hsteps.next ha (.locals rfl)⟩

/-- A stage is a sequence of steps. -/
theorem Ledger.steps {stage : Stage} (h : Ledger prog stage s)
    (hrun : stage.run qsort s = .ok s') : Steps prog qsort s s' := by
  cases stage with
  | updateState =>
      obtain rfl := Except.ok.inj hrun
      exact h.steps_beginCycle
  | executeInstr =>
      obtain rfl := Except.ok.inj hrun
      exact h.books.steps_executeInstr
  | scheduleInstr =>
      obtain rfl := Except.ok.inj hrun
      exact h.books.steps_scheduleInstr
  | dispatchInstr =>
      obtain rfl := Except.ok.inj hrun
      exact h.books.steps_dispatchInstr
  | fetchInstr => exact h.books.steps_fetchStage hrun
  | updateState2 =>
      obtain rfl := Except.ok.inj hrun
      exact .one h.books .releases

/-- What holds at the start and is preserved by every step holds before every
stage of a run. -/
theorem Reached.step_invariant {trace : List TraceInst} {P : Proc conf → Prop}
    (hsetup : P (setupProc conf trace))
    (hstep : ∀ s s', Books trace s → P s → Step qsort s s' → P s')
    {stage : Stage} (h : Reached conf qsort trace stage s) : P s := by
  refine h.invariant_of (Ledger trace) (fun _ => P) Reached.ledger hsetup ?_
  intro stage s s' hs hP hrun
  have hsteps := hs.steps hrun
  clear hrun
  induction hsteps with
  | refl => exact hP
  | tail _ hlast ih => exact hstep _ _ hlast.1 ih hlast.2

end ProjectArchive.Tomasulo
