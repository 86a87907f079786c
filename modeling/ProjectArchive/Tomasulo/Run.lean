/-
ProjectArchive/Tomasulo/Run.lean

`run_proc`: the stages in the order in which a cycle runs them, the loop over
the cycles, and the states that a run reaches.

`Reached conf qsort trace stage s` says that the pipeline is in the state `s`
and is about to run `stage`; so it covers the states between the stages as well
as those between the cycles.  An invariant may differ from stage to stage:
`Reached.invariant` is the rule for it.
-/
import ProjectArchive.Library.Exec
import ProjectArchive.Library.Loop
import ProjectArchive.Tomasulo.Stages

namespace ProjectArchive.Tomasulo

open Sweep Loop

variable {conf : ProcConf}

/-! ### The stages of a cycle -/

/-- The stages, in the order of a cycle. -/
inductive Stage
  | updateState | executeInstr | scheduleInstr | dispatchInstr | fetchInstr | updateState2
  deriving DecidableEq, Repr

/-- The stage after a stage; after the last one comes the next cycle. -/
def Stage.next : Stage → Stage
  | .updateState => .executeInstr
  | .executeInstr => .scheduleInstr
  | .scheduleInstr => .dispatchInstr
  | .dispatchInstr => .fetchInstr
  | .fetchInstr => .updateState2
  | .updateState2 => .updateState

namespace Proc

/-- The head of the loop, up to `update_state`. -/
def beginCycle (s : Proc conf) : Proc conf :=
  updateState { s with stats := { s.stats with cycleCount := s.stats.cycleCount + 1 } }

/-- `if (continue_fetch) continue_fetch = fetch_instr(p_stats) != 0;` -/
def fetchStage (s : Proc conf) : Except Fault (Proc conf) :=
  if s.continueFetch then do
    let (more, s) ← s.fetchInstr
    .ok { s with continueFetch := more }
  else .ok s

/-- The end of the loop, from `update_state_2` on. -/
def endCycle (qsort : Qsort conf) (s : Proc conf) : Proc conf :=
  let s := s.updateState2 qsort
  { s with
    cycle := s.cycle + 1
    dispatchQueueCumulativeSize := s.dispatchQueueCumulativeSize + s.dispatchQueueSize
    continueBool := !(decide (s.instCntSq = 0) &&
      decide (s.dispatchQueueHead = s.dispatchQueueTail)) || s.continueFetch }

/-- The body of the loop of `run_proc`. -/
def cycleBody (qsort : Qsort conf) (s : Proc conf) : Except Fault (Proc conf) := do
  let s := s.beginCycle
  let s := s.executeInstr
  let s := s.scheduleInstr
  let s := s.dispatchInstr
  let s ← s.fetchStage
  .ok (s.endCycle qsort)

end Proc

def Stage.run (qsort : Qsort conf) (s : Proc conf) : Stage → Except Fault (Proc conf)
  | .updateState => .ok s.beginCycle
  | .executeInstr => .ok s.executeInstr
  | .scheduleInstr => .ok s.scheduleInstr
  | .dispatchInstr => .ok s.dispatchInstr
  | .fetchInstr => s.fetchStage
  | .updateState2 => .ok (s.endCycle qsort)

/-! ### `run_proc` -/

/-- `run_proc` on a trace, for at most `fuel` cycles. -/
def runProc (conf : ProcConf) (qsort : Qsort conf) (trace : List TraceInst) (fuel : ℕ) :
    Except Fault (Option (Proc conf)) := do
  let s ← whileLoop Proc.continueBool (Proc.cycleBody qsort) fuel (setupProc conf trace)
  .ok (s.map fun s => { s with stats := { s.stats with cycleCount := s.stats.cycleCount - 1 } })

/-! ### Reachable states -/

/-- The state `s` is reached, and `stage` is next. -/
inductive Reached (conf : ProcConf) (qsort : Qsort conf) (trace : List TraceInst) :
    Stage → Proc conf → Prop
  | setup : Reached conf qsort trace .updateState (setupProc conf trace)
  | step {stage : Stage} {s s' : Proc conf} (h : Reached conf qsort trace stage s)
      (hcontinue : stage = .updateState → s.continueBool = true)
      (hrun : stage.run qsort s = .ok s') : Reached conf qsort trace stage.next s'

variable {qsort : Qsort conf} {trace : List TraceInst} {s s' : Proc conf}

/-- The rule for an invariant that differs from stage to stage. -/
theorem Reached.invariant {Inv : Stage → Proc conf → Prop}
    (hsetup : Inv .updateState (setupProc conf trace))
    (hstep : ∀ stage s s', Inv stage s → stage.run qsort s = .ok s' → Inv stage.next s')
    {stage : Stage} (h : Reached conf qsort trace stage s) : Inv stage s := by
  induction h with
  | setup => exact hsetup
  | step _ _ hrun ih => exact hstep _ _ _ ih hrun

/-- The rule for an invariant that rests on another one. -/
theorem Reached.invariant_of (Base Inv : Stage → Proc conf → Prop)
    (hbase : ∀ {stage s}, Reached conf qsort trace stage s → Base stage s)
    (hsetup : Inv .updateState (setupProc conf trace))
    (hstep : ∀ stage s s', Base stage s → Inv stage s → stage.run qsort s = .ok s' →
      Inv stage.next s')
    {stage : Stage} (h : Reached conf qsort trace stage s) : Inv stage s := by
  induction h with
  | setup => exact hsetup
  | step hreach _ hrun ih => exact hstep _ _ _ (hbase hreach) ih hrun

/-- The body of the loop runs the stages. -/
theorem cycleBody_eq_ok (h : s.cycleBody qsort = .ok s') :
    ∃ s₅, s.beginCycle.executeInstr.scheduleInstr.dispatchInstr.fetchStage = .ok s₅ ∧
      s₅.endCycle qsort = s' := by
  have hbind : (s.beginCycle.executeInstr.scheduleInstr.dispatchInstr.fetchStage >>=
      fun s₅ => Except.ok (s₅.endCycle qsort)) = .ok s' := h
  obtain ⟨s₅, hfetch, hend⟩ := Exec.bind_eq_ok hbind
  exact ⟨s₅, hfetch, Except.ok.inj hend⟩

/-- The states inside a cycle are reachable. -/
theorem Reached.executed (h : Reached conf qsort trace .updateState s)
    (hcontinue : s.continueBool = true) :
    Reached conf qsort trace .scheduleInstr s.beginCycle.executeInstr := by
  have hbegun : Reached conf qsort trace .executeInstr s.beginCycle :=
    h.step (fun _ => hcontinue) rfl
  exact hbegun.step (by simp) rfl

theorem Reached.scheduled (h : Reached conf qsort trace .updateState s)
    (hcontinue : s.continueBool = true) :
    Reached conf qsort trace .dispatchInstr s.beginCycle.executeInstr.scheduleInstr :=
  (h.executed hcontinue).step (by simp) rfl

theorem Reached.dispatched (h : Reached conf qsort trace .updateState s)
    (hcontinue : s.continueBool = true) :
    Reached conf qsort trace .fetchInstr
      s.beginCycle.executeInstr.scheduleInstr.dispatchInstr :=
  (h.scheduled hcontinue).step (by simp) rfl

theorem Reached.fetched (h : Reached conf qsort trace .updateState s)
    (hcontinue : s.continueBool = true)
    (hfetch : s.beginCycle.executeInstr.scheduleInstr.dispatchInstr.fetchStage = .ok s') :
    Reached conf qsort trace .updateState2 s' :=
  (h.dispatched hcontinue).step (by simp) hfetch

/-- A cycle of `run_proc` takes a reachable state to a reachable state. -/
theorem Reached.cycle (h : Reached conf qsort trace .updateState s)
    (hcontinue : s.continueBool = true) (hbody : s.cycleBody qsort = .ok s') :
    Reached conf qsort trace .updateState s' := by
  obtain ⟨s₅, hfetch, rfl⟩ := cycleBody_eq_ok hbody
  exact (h.fetched hcontinue hfetch).step (by simp) rfl

/-- The states between the cycles of `run_proc` are reachable. -/
theorem Reached.of_iterates
    (h : Iterates Proc.continueBool (Proc.cycleBody qsort) (setupProc conf trace) s) :
    Reached conf qsort trace .updateState s := by
  induction h with
  | refl => exact Reached.setup
  | tail _ hround ih => exact ih.cycle hround.1 hround.2

/-! ### A small processor -/

/-- One unit of every kind, with one reservation station each. -/
def smallConf : ProcConf where
  f := 2
  k0 := 1
  k1 := 1
  k2 := 1
  r := 1
  g := 1
  c := 6
  f_pos := by decide
  k0_pos := by decide
  k1_pos := by decide
  k2_pos := by decide
  r_pos := by decide
  f_lt := by decide
  rows_lt := by decide
  g_lt := by decide
  blocks_lt := by decide

/-- A sort that leaves the rows where they are. -/
def keepOrder (conf : ProcConf) : Qsort conf where
  run _ rows := rows
  perm _ _ := ⟨Equiv.refl _, rfl⟩

end ProjectArchive.Tomasulo
