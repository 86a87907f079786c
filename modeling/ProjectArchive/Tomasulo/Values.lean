/-
ProjectArchive/Tomasulo/Values.lean

What the pipeline computes.

`procsim.c` times a trace and carries no values.  Here every instruction gets a
meaning, and the values move where the books of the pipeline say they do: a row
that is filled takes the registers that are ready, a source and an entry of the
register file take the result that makes them ready, and the cache is read and
written when a row accesses it.  `runData` runs the pipeline with its values;
the books do not depend on the values.

`Semantics.execute` is the meaning of the program, one instruction after the
other.
-/
import ProjectArchive.Tomasulo.MemoryOrder
import ProjectArchive.Tomasulo.Termination

namespace ProjectArchive.Tomasulo

open Sweep Loop ProgramOrder

variable {conf : ProcConf} {V : Type*}

/-! ### The program, one instruction after the other -/

/-- The meaning of the instructions.  The result depends on the operands and on
what a load has read; both are `none` where there is nothing to read. -/
structure Semantics (V : Type*) where
  result : TraceInst → (Fin 2 → Option V) → Option V → V
  stored : TraceInst → (Fin 2 → Option V) → V

/-- The contents of the registers and of the memory. -/
structure Store (V : Type*) where
  regs : Reg → V
  mem : BitVec 64 → V

/-- What the instruction reads from the registers. -/
def Store.operands (m : Store V) (inst : TraceInst) (k : Fin 2) : Option V :=
  (inst.srcReg k).map m.regs

/-- What the instruction reads from memory. -/
def Store.loaded (m : Store V) (inst : TraceInst) : Option V :=
  if inst.opcode = .load then some (m.mem inst.ldStAddr) else none

namespace Semantics

variable (sem : Semantics V)

/-- What the instruction leaves in its register. -/
def value (m : Store V) (inst : TraceInst) : V := sem.result inst (m.operands inst) (m.loaded inst)

/-- One instruction. -/
def step (m : Store V) (inst : TraceInst) : Store V where
  regs := fun r =>
    if inst.opcode ≠ .nop ∧ inst.destReg = some r then sem.value m inst else m.regs r
  mem := fun addr =>
    if inst.opcode = .store ∧ inst.ldStAddr = addr then sem.stored inst (m.operands inst)
    else m.mem addr

/-- The program. -/
def execute (prog : List TraceInst) (m : Store V) : Store V := prog.foldl sem.step m

/-- What the instruction `t` finds. -/
def before (prog : List TraceInst) (m : Store V) (t : ℕ) : Store V := sem.execute (prog.take t) m

end Semantics

/-! ### The values in the pipeline -/

/-- The values that the pipeline holds.  The rows are sorted in every cycle, so
what belongs to a row is kept under the number of its instruction. -/
structure Data (V : Type*) where
  regs : Reg → V
  operand : ℕ → Fin 2 → Option V
  loaded : ℕ → Option V
  mem : BitVec 64 → V

/-- The values at the start. -/
def setupData (m : Store V) : Data V := ⟨m.regs, fun _ _ => none, fun _ => none, m.mem⟩

instance (done : Row) (operand : Operand) : Decidable (done.produces operand) :=
  inferInstanceAs (Decidable (_ ∧ _ ∧ _))

/-- The broadcast of `done` makes the operand ready. -/
def Row.wakes (done : Row) (operand : Operand) : Bool :=
  !operand.ready && decide (done.produces operand)

/-- An entry of the register file, as an operand. -/
def Rf.operand (entry : Rf) (r : Reg) : Operand := ⟨some r, entry.ready, entry.tag⟩

namespace Data

variable (sem : Semantics V) (d : Data V)

/-- The result of the instruction in the row. -/
def result (row : Row) : V :=
  sem.result row.instr.toTraceInst (d.operand row.instr.sequentialTag)
    (d.loaded row.instr.sequentialTag)

/-- `update_state` completes the row `i`. -/
def complete (s : Proc conf) (i : Fin conf.scheduleQueueSize) : Data V :=
  let done := s.scheduleQueue i
  { d with
    regs := fun r =>
      if done.wakes ((s.registerFile r).operand r) then d.result sem done else d.regs r
    operand := fun t k =>
      if ∃ j, (s.scheduleQueue j).occupied = true ∧ s.tag j = t ∧
          done.wakes ((s.scheduleQueue j).src k) = true then some (d.result sem done)
      else d.operand t k }

/-- The row accesses the cache. -/
def access (row : Row) : Data V :=
  let inst := row.instr
  { d with
    loaded :=
      if row.opcode = .load then
        Function.update d.loaded inst.sequentialTag (some (d.mem inst.ldStAddr))
      else d.loaded
    mem :=
      if row.opcode = .store then
        Function.update d.mem inst.ldStAddr
          (sem.stored inst.toTraceInst (d.operand inst.sequentialTag))
      else d.mem }

/-- The row has been filled. -/
def fill (row : Row) : Data V :=
  { d with
    operand := Function.update d.operand row.instr.sequentialTag fun k =>
      if (row.src k).ready then (row.src k).reg.map d.regs else none }

/-- A round of `update_state`. -/
def updateRow (i : Fin conf.scheduleQueueSize) (s : Proc conf) (d : Data V) : Data V :=
  if s.finished i then d.complete sem s i else d

/-- A round of `execute_instr`. -/
def executeRow (i : Fin conf.scheduleQueueSize) (s : Proc conf) (d : Data V) : Data V :=
  let row := s.scheduleQueue i
  if row.occupied && row.fired && row.remainingTime == 11 then d.access sem row else d

/-- A round of `dispatch_instr`. -/
def dispatchRow (i : Fin conf.scheduleQueueSize) (s : Proc conf) (d : Data V) : Data V :=
  let row := (s.dispatchRow i).scheduleQueue i
  if !(s.scheduleQueue i).occupied && row.occupied then d.fill row else d

end Data

/-! ### The pipeline with its values -/

/-- The pipeline and its values. -/
abbrev Machine (conf : ProcConf) (V : Type*) := Proc conf × Data V

namespace Machine

variable (sem : Semantics V) (p : Machine conf V)

def beginCycle : Machine conf V :=
  let s := { p.1 with stats := { p.1.stats with cycleCount := p.1.stats.cycleCount + 1 } }
  sweep (beside Proc.updateRow (Data.updateRow sem)) ({ s with finishedFuIdx := 0 }, p.2)

def executeInstr : Machine conf V := sweep (beside Proc.executeRow (Data.executeRow sem)) p

def scheduleInstr : Machine conf V := (p.1.scheduleInstr, p.2)

def dispatchInstr : Machine conf V :=
  let s := p.1.markDispatch
  if s.branchStarted then (s, p.2)
  else sweep (beside Proc.dispatchRow Data.dispatchRow) ({ s with dispatching := true }, p.2)

def fetchStage : Except Fault (Machine conf V) := p.1.fetchStage.map fun s => (s, p.2)

def endCycle (qsort : Qsort conf) : Machine conf V := (p.1.endCycle qsort, p.2)

/-- The body of the loop of `run_proc`. -/
def cycleBody (qsort : Qsort conf) : Except Fault (Machine conf V) := do
  let p := beginCycle sem p
  let p := executeInstr sem p
  let p := scheduleInstr p
  let p := dispatchInstr p
  let p ← fetchStage p
  .ok (endCycle p qsort)

end Machine

/-- `run_proc` with the values, for at most `fuel` cycles. -/
def runData (sem : Semantics V) (conf : ProcConf) (qsort : Qsort conf) (prog : List TraceInst)
    (m : Store V) (fuel : ℕ) : Except Fault (Option (Machine conf V)) := do
  let p ← whileLoop (fun p => p.1.continueBool) (fun p => Machine.cycleBody sem p qsort) fuel
    (setupProc conf prog, setupData m)
  .ok (p.map fun p =>
    ({ p.1 with stats := { p.1.stats with cycleCount := p.1.stats.cycleCount - 1 } }, p.2))

/-- A stage. -/
def Stage.carry (sem : Semantics V) (qsort : Qsort conf) (p : Machine conf V) :
    Stage → Except Fault (Machine conf V)
  | .updateState => .ok (Machine.beginCycle sem p)
  | .executeInstr => .ok (Machine.executeInstr sem p)
  | .scheduleInstr => .ok (Machine.scheduleInstr p)
  | .dispatchInstr => .ok (Machine.dispatchInstr p)
  | .fetchInstr => Machine.fetchStage p
  | .updateState2 => .ok (Machine.endCycle p qsort)

/-- The pipeline and its values are in the state `p`, and `stage` is next. -/
inductive Carried (sem : Semantics V) (conf : ProcConf) (qsort : Qsort conf)
    (prog : List TraceInst) (m : Store V) : Stage → Machine conf V → Prop
  | setup : Carried sem conf qsort prog m .updateState (setupProc conf prog, setupData m)
  | step {stage : Stage} {p p' : Machine conf V} (h : Carried sem conf qsort prog m stage p)
      (hcontinue : stage = .updateState → p.1.continueBool = true)
      (hrun : stage.carry sem qsort p = .ok p') : Carried sem conf qsort prog m stage.next p'

/-! ### The books do not depend on the values -/

section Books

variable (sem : Semantics V) (p : Machine conf V)

theorem beginCycle_fst : (Machine.beginCycle sem p).1 = p.1.beginCycle := sweep_beside_fst _

theorem executeInstr_fst : (Machine.executeInstr sem p).1 = p.1.executeInstr := sweep_beside_fst _

theorem dispatchInstr_fst : (Machine.dispatchInstr p).1 = p.1.dispatchInstr := by
  unfold Machine.dispatchInstr Proc.dispatchInstr
  dsimp only
  split
  · rfl
  · exact sweep_beside_fst _

theorem fetchStage_eq_ok {p p' : Machine conf V} (h : Machine.fetchStage p = .ok p') :
    ∃ s, p.1.fetchStage = .ok s ∧ (s, p.2) = p' := by
  unfold Machine.fetchStage at h
  rcases e : p.1.fetchStage with f | s
  · rw [e] at h
    cases h
  · rw [e] at h
    exact ⟨s, rfl, Except.ok.inj h⟩

theorem Stage.carry_fst (qsort : Qsort conf) (stage : Stage) {p' : Machine conf V}
    (h : stage.carry sem qsort p = .ok p') : stage.run qsort p.1 = .ok p'.1 := by
  cases stage with
  | updateState =>
      obtain rfl := Except.ok.inj h
      exact congrArg Except.ok (beginCycle_fst sem p).symm
  | executeInstr =>
      obtain rfl := Except.ok.inj h
      exact congrArg Except.ok (executeInstr_fst sem p).symm
  | scheduleInstr =>
      obtain rfl := Except.ok.inj h
      rfl
  | dispatchInstr =>
      obtain rfl := Except.ok.inj h
      exact congrArg Except.ok (dispatchInstr_fst p).symm
  | fetchInstr =>
      obtain ⟨s, hfetch, rfl⟩ := fetchStage_eq_ok h
      exact hfetch
  | updateState2 =>
      obtain rfl := Except.ok.inj h
      rfl

theorem cycleBody_fst (qsort : Qsort conf) :
    (Machine.cycleBody sem p qsort).map Prod.fst = p.1.cycleBody qsort := by
  have hdispatched : (Machine.dispatchInstr (Machine.scheduleInstr
      (Machine.executeInstr sem (Machine.beginCycle sem p)))).1 =
      p.1.beginCycle.executeInstr.scheduleInstr.dispatchInstr := by
    rw [dispatchInstr_fst]
    show Proc.dispatchInstr (Proc.scheduleInstr _) = _
    rw [executeInstr_fst, beginCycle_fst]
  unfold Machine.cycleBody Proc.cycleBody Machine.fetchStage
  dsimp only
  rw [hdispatched]
  rcases p.1.beginCycle.executeInstr.scheduleInstr.dispatchInstr.fetchStage with e | s
  · rfl
  · rfl

end Books

section Runs

variable {sem : Semantics V} {qsort : Qsort conf} {prog : List TraceInst} {m : Store V}

/-- The states of the pipeline are those that it reaches without values. -/
theorem Carried.reached {stage : Stage} {p : Machine conf V}
    (h : Carried sem conf qsort prog m stage p) : Reached conf qsort prog stage p.1 := by
  induction h with
  | setup => exact .setup
  | step _ hcontinue hrun ih => exact ih.step hcontinue (Stage.carry_fst sem _ qsort _ hrun)

/-- A cycle runs the stages. -/
theorem Carried.cycle {p p' : Machine conf V} (h : Carried sem conf qsort prog m .updateState p)
    (hcontinue : p.1.continueBool = true) (hbody : Machine.cycleBody sem p qsort = .ok p') :
    Carried sem conf qsort prog m .updateState p' := by
  obtain ⟨p₅, hfetch, hend⟩ : ∃ p₅, Machine.fetchStage (Machine.dispatchInstr
      (Machine.scheduleInstr (Machine.executeInstr sem (Machine.beginCycle sem p)))) = .ok p₅ ∧
      Except.ok (ε := Fault) (Machine.endCycle p₅ qsort) = .ok p' := Exec.bind_eq_ok hbody
  obtain rfl := Except.ok.inj hend
  have hbegun : Carried sem conf qsort prog m .executeInstr _ := h.step (fun _ => hcontinue) rfl
  have hexecuted : Carried sem conf qsort prog m .scheduleInstr _ := hbegun.step (by simp) rfl
  have hscheduled : Carried sem conf qsort prog m .dispatchInstr _ := hexecuted.step (by simp) rfl
  have hdispatched : Carried sem conf qsort prog m .fetchInstr _ := hscheduled.step (by simp) rfl
  have hfetched : Carried sem conf qsort prog m .updateState2 p₅ := hdispatched.step (by simp) hfetch
  exact hfetched.step (by simp) rfl

theorem Carried.of_iterates {p : Machine conf V}
    (h : Iterates (fun p : Machine conf V => p.1.continueBool)
      (fun p => Machine.cycleBody sem p qsort) (setupProc conf prog, setupData m) p) :
    Carried sem conf qsort prog m .updateState p := by
  induction h with
  | refl => exact .setup
  | tail _ hround ih => exact ih.cycle hround.1 hround.2

/-- A run without values is a run with values. -/
theorem exists_machine {fuel : ℕ} {s : Proc conf}
    (h : whileLoop Proc.continueBool (Proc.cycleBody qsort) fuel (setupProc conf prog) =
      .ok (some s)) (sem : Semantics V) (m : Store V) :
    ∃ d, whileLoop (fun p : Machine conf V => p.1.continueBool)
      (fun p => Machine.cycleBody sem p qsort) fuel (setupProc conf prog, setupData m) =
        .ok (some (s, d)) := by
  have hmap := whileLoop_map (fun p : Machine conf V => p.1.continueBool)
    (fun p => Machine.cycleBody sem p qsort) Prod.fst (fun _ => rfl)
    (fun p => cycleBody_fst sem p qsort) fuel (setupProc conf prog, setupData m)
  rw [h] at hmap
  generalize whileLoop (fun p : Machine conf V => p.1.continueBool)
    (fun p => Machine.cycleBody sem p qsort) fuel (setupProc conf prog, setupData m) = r at hmap ⊢
  rcases r with f | p
  · cases hmap
  · obtain ⟨p, rfl, rfl⟩ := Option.map_eq_some_iff.mp (Except.ok.inj hmap)
    exact ⟨p.2, rfl⟩

end Runs

/-! ### What the program computes -/

section Sequential

variable {sem : Semantics V} {prog : List TraceInst} {m : Store V} {t : ℕ} {inst : TraceInst}

theorem before_succ (hget : prog[t]? = some inst) :
    sem.before prog m (t + 1) = sem.step (sem.before prog m t) inst := by
  unfold Semantics.before Semantics.execute
  rw [List.take_add_one, hget, Option.toList_some, List.foldl_append]
  rfl

theorem before_of_length_le (hle : prog.length ≤ t) : sem.before prog m t = sem.execute prog m := by
  unfold Semantics.before
  rw [List.take_of_length_le hle]

/-- The instruction `t` stores to the address. -/
def StoresTo (prog : List TraceInst) (t : ℕ) (addr : BitVec 64) : Prop :=
  ∃ inst, prog[t]? = some inst ∧ inst.opcode = .store ∧ inst.ldStAddr = addr

theorem before_succ_regs {r : Reg} (h : ¬ Writes prog t r) :
    (sem.before prog m (t + 1)).regs r = (sem.before prog m t).regs r := by
  rcases hget : prog[t]? with - | inst
  · have hle : prog.length ≤ t := List.getElem?_eq_none_iff.mp hget
    rw [before_of_length_le hle, before_of_length_le (Nat.le_succ_of_le hle)]
  · rw [before_succ hget]
    exact if_neg fun hw => h ⟨inst, hget, hw⟩

theorem before_succ_mem {addr : BitVec 64} (h : ¬ StoresTo prog t addr) :
    (sem.before prog m (t + 1)).mem addr = (sem.before prog m t).mem addr := by
  rcases hget : prog[t]? with - | inst
  · have hle : prog.length ≤ t := List.getElem?_eq_none_iff.mp hget
    rw [before_of_length_le hle, before_of_length_le (Nat.le_succ_of_le hle)]
  · rw [before_succ hget]
    exact if_neg fun hw => h ⟨inst, hget, hw⟩

/-- A register holds the result of its producer. -/
theorem before_regs_of_producer {r : Reg} {p : ℕ} (hp : Producer prog r t p)
    (hget : prog[p]? = some inst) :
    (sem.before prog m t).regs r = sem.value (sem.before prog m p) inst := by
  rw [hp.value (fun j => (sem.before prog m j).regs) fun k hk => before_succ_regs hk]
  obtain ⟨inst', hget', hop, hdest⟩ := hp.wrote
  obtain rfl := Option.some.inj (hget.symm.trans hget')
  show (sem.before prog m (p + 1)).regs r = _
  rw [before_succ hget]
  exact if_pos ⟨hop, hdest⟩

end Sequential

end ProjectArchive.Tomasulo
