/-
ProjectArchive/Tomasulo/Stages.lean

The stages of the pipeline, each with the body of its loop as a function of its
own: `update_state`, `execute_instr`, `schedule_instr`, `dispatch_instr`,
`fetch_instr` and `update_state_2`.

`fetch_instr` writes past the end of `dispatch_queue` once
`dq_data_structure_size` instructions have been fetched and another one is
read; that is the only failure.  `qsort` is a parameter, which may permute the
rows in any way and differently in every cycle.
-/
import ProjectArchive.Library.Sweep
import ProjectArchive.Tomasulo.Data
import Mathlib.Data.List.FinRange

namespace ProjectArchive.Tomasulo

open Sweep

variable {conf : ProcConf}

/-- Why there is no next state. -/
inductive Fault
  | dispatchQueueOverflow
  deriving DecidableEq, Repr

/-! ### `update_state` -/

/-- The tag broadcast, as far as it concerns one source of a row. -/
def Operand.wake (destReg : Reg) (destRegTag : ℕ) (operand : Operand) : Operand :=
  if operand.tag = destRegTag ∧ operand.reg = some destReg then { operand with ready := true }
  else operand

def Row.wake (destReg : Reg) (destRegTag : ℕ) (row : Row) : Row :=
  if row.occupied then { row with src := fun k => (row.src k).wake destReg destRegTag } else row

/-- A row that is completed in the cycle `cycle`. -/
def Row.completed (row : Row) (cycle : ℕ) : Row :=
  { row with instr := { row.instr with update := cycle }, lsConflictEnd := false }

/-- The row of `result` for an instruction. -/
def Inst.resultRow (inst : Inst) : ResultRow :=
  ⟨inst.sequentialTag, inst.fetch, inst.dispatch, inst.schedule, inst.execute, inst.update⟩

namespace Proc

/-- `btb_idx`. -/
def btbIdx (s : Proc conf) (instAddr : BitVec 64) : ℕ :=
  (instAddr.toNat / 4 % 2 ^ conf.g) ^^^ (s.ghr.toNat % 2 ^ conf.g)

/-- The counter of a branch, after the branch. -/
def counter (s : Proc conf) (inst : Inst) : ℤ :=
  let count := s.branchTable (s.btbIdx inst.instAddr) + (if inst.brTaken then 1 else -1)
  let count := if count > 3 then 3 else count
  if count < 0 then 0 else count

/-- A completed branch ends the stall and trains the predictor. -/
def resolveBranch (s : Proc conf) (inst : Inst) : Proc conf :=
  { s with
    branchStarted := if inst.mispredicted then false else s.branchStarted
    branchTable := Function.update s.branchTable (s.btbIdx inst.instAddr) (s.counter inst)
    ghr := s.ghr <<< 1 ||| (if inst.brTaken then 1 else 0) }

/-- The result reaches the rows that wait for it and the register file. -/
def broadcast (s : Proc conf) (destReg : Reg) (destRegTag : ℕ) : Proc conf :=
  { s with
    scheduleQueue := fun i => (s.scheduleQueue i).wake destReg destRegTag
    registerFile :=
      if (s.registerFile destReg).tag = destRegTag then
        Function.update s.registerFile destReg { s.registerFile destReg with ready := true }
      else s.registerFile }

/-- The row `i`, which is now `row`, has finished. -/
def finishRow (s : Proc conf) (i : Fin conf.scheduleQueueSize) (row : Row) : Proc conf :=
  { s.setRow i row with
    finishedFu := Function.update s.finishedFu s.finishedFuIdx (some i)
    finishedFuIdx := s.finishedFuIdx + 1
    stats := { s.stats with instructionsRetired := s.stats.instructionsRetired + 1 } }

def resolve (s : Proc conf) (row : Row) : Proc conf :=
  if row.opcode = .br then s.resolveBranch row.instr else s

def record (s : Proc conf) (row : Row) : Proc conf :=
  { s with result := s.result ++ [row.instr.resultRow] }.note (.completed row.instr.sequentialTag)

def deliver (s : Proc conf) (row : Row) : Proc conf :=
  match row.destReg with
  | none => s
  | some destReg => s.broadcast destReg row.destRegTag

/-- A row that has finished is completed. -/
def completeRow (s : Proc conf) (i : Fin conf.scheduleQueueSize) : Proc conf :=
  let row := (s.scheduleQueue i).completed s.cycle
  (((s.finishRow i row).resolve row).record row).deliver row

/-- The row has finished. -/
def finished (s : Proc conf) (i : Fin conf.scheduleQueueSize) : Bool :=
  let row := s.scheduleQueue i
  row.occupied && row.fired && row.remainingTime == 0

def updateRow (i : Fin conf.scheduleQueueSize) (s : Proc conf) : Proc conf :=
  if s.finished i then s.completeRow i else s

def updateState (s : Proc conf) : Proc conf := sweep updateRow { s with finishedFuIdx := 0 }

end Proc

/-! ### `execute_instr` -/

/-- A row that is executed, for the first time or again. -/
def Row.executing (row : Row) (cycle : ℕ) : Row :=
  if row.instr.executeFirst then
    { row with instr := { row.instr with execute := cycle, executeFirst := false } }
  else row

namespace Proc

/-- `cache_access`, for a write if `w`; the result says whether it was a hit. -/
def cacheAccess (s : Proc conf) (addr : BitVec 64) (w : Bool) : Bool × Proc conf :=
  let tagValue := addr.toNat / 2 ^ conf.c
  let indexValue := conf.indexValue addr
  let block := s.l1Cache indexValue
  if block.tag = tagValue ∧ block.valid then
    (true, { s with
      l1Cache := Function.update s.l1Cache indexValue { block with dirty := w || block.dirty } })
  else
    (false, { s with
      l1Cache := Function.update s.l1Cache indexValue ⟨true, tagValue, w⟩
      stats := { s.stats with cacheMisses := s.stats.cacheMisses + 1 } })

/-- A row that was fired for the cache accesses it when it is executed first. -/
def accessRow (s : Proc conf) (row : Row) : Row × Proc conf :=
  if row.remainingTime = 11 then
    let (hit, s) := s.cacheAccess row.instr.ldStAddr (row.opcode ≠ .load)
    ({ row with remainingTime := if hit then 1 else 10 },
      s.note (.accessed row.instr.sequentialTag))
  else (row, s)

/-- The unit of a row that has finished is free again; a multiplier is pipelined. -/
def releaseUnit (s : Proc conf) (row : Row) : Proc conf :=
  match row.opcode with
  | .add | .br => { s with addUnit := s.addUnit + 1 }
  | .load | .store =>
      { s with
        lsUnit := s.lsUnit + 1
        lsFunctionalUnit := Function.update s.lsFunctionalUnit row.fu
          { s.lsFunctionalUnit row.fu with busy := false } }
  | .mul | .nop => s

def executeRow (i : Fin conf.scheduleQueueSize) (s : Proc conf) : Proc conf :=
  if (s.scheduleQueue i).occupied && (s.scheduleQueue i).fired then
    let (row, s) := s.accessRow ((s.scheduleQueue i).executing s.cycle)
    let row := { row with remainingTime := row.remainingTime - 1 }
    let s := s.setRow i row
    if row.remainingTime = 0 then s.releaseUnit row else s
  else s

def executeInstr (s : Proc conf) : Proc conf := sweep executeRow s

end Proc

/-! ### `schedule_instr` -/

/-- A row that is looked at, for the first time or again.  The condition
`opcode == 4 || 5` of the source is always true, so `ls_conflict_end` is set for
every opcode. -/
def Row.scheduling (row : Row) (cycle : ℕ) : Row :=
  { row with
    instr :=
      if row.instr.scheduleFirst then
        { row.instr with schedule := cycle, scheduleFirst := false }
      else row.instr
    lsConflictEnd := true }

/-- What a busy unit leaves to a load or store. -/
def fuAllows (conf : ProcConf) (unit : Fu) (row : Row) : Bool :=
  let addrValue := row.instr.ldStAddr
  (if row.opcode = .store then unit.addr != addrValue
    else !(unit.addr == addrValue && unit.load != some row.opcode)) &&
  unit.index != conf.indexValue addrValue

/-- A row that a load or store has to wait for. -/
def conflicts (other row : Row) : Bool :=
  other.occupied && other.instr.ldStAddr == row.instr.ldStAddr && other.lsConflictEnd &&
  decide (other.instr.sequentialTag < row.instr.sequentialTag) &&
  (row.opcode == .load && other.opcode == .store || row.opcode == .store)

namespace Proc

/-- `cache_opeable`. -/
def cacheOpeable (s : Proc conf) (row : Row) : Bool :=
  (List.range conf.k2).all (fun u =>
    !(s.lsFunctionalUnit u).busy || fuAllows conf (s.lsFunctionalUnit u) row) &&
  (List.finRange conf.scheduleQueueSize).all fun i => !conflicts (s.scheduleQueue i) row

/-- `fired = 1`. -/
def fireRow (s : Proc conf) (i : Fin conf.scheduleQueueSize) (row : Row) : Proc conf :=
  (s.setRow i { row with fired := true }).note (.fired row.instr.sequentialTag)

/-- A load or store takes a unit and the first entry that is not busy. -/
def issueRow (s : Proc conf) (i : Fin conf.scheduleQueueSize) (row : Row) : Proc conf :=
  let row := { row with remainingTime := 11 }
  let s := { s.setRow i row with lsUnit := s.lsUnit - 1 }
  match (List.range conf.k2).find? fun u => !(s.lsFunctionalUnit u).busy with
  | none => s
  | some u =>
      let addrValue := row.instr.ldStAddr
      let unit : Fu := ⟨true, some row.opcode, conf.indexValue addrValue, addrValue⟩
      let s := { s with lsFunctionalUnit := Function.update s.lsFunctionalUnit u unit }
      s.fireRow i { row with fu := u, lsConflictEnd := true }

/-- Fire a row if a unit is free for it. -/
def tryFire (s : Proc conf) (i : Fin conf.scheduleQueueSize) (row : Row) : Proc conf :=
  match row.opcode with
  | .add | .br =>
      if 0 < s.addUnit then
        { s.fireRow i { row with remainingTime := 1 } with addUnit := s.addUnit - 1 }
      else s
  | .mul =>
      if 0 < s.scheMulUnit then
        { s.fireRow i { row with remainingTime := 3 } with scheMulUnit := s.scheMulUnit - 1 }
      else s
  | .load | .store => if 0 < s.lsUnit && s.cacheOpeable row then s.issueRow i row else s
  | .nop => s

def scheduleRow (i : Fin conf.scheduleQueueSize) (s : Proc conf) : Proc conf :=
  if (s.scheduleQueue i).occupied && !(s.scheduleQueue i).fired then
    let row := (s.scheduleQueue i).scheduling s.cycle
    let s := s.setRow i row
    if (row.src 0).ready && (row.src 1).ready then s.tryFire i row else s
  else s

def scheduleInstr (s : Proc conf) : Proc conf := sweep scheduleRow { s with scheMulUnit := 1 }

end Proc

/-! ### `dispatch_instr` -/

def Inst.marked (cycle : ℕ) (inst : Inst) : Inst :=
  if inst.dispatchFirst then { inst with dispatchFirst := false, dispatch := cycle } else inst

namespace Proc

/-- The instructions fetched since the last call are dispatched from now on. -/
def markDispatch (s : Proc conf) : Proc conf :=
  { s with
    dispatchQueue := s.dispatchQueue.take s.tempIterator ++
      (s.dispatchQueue.drop s.tempIterator).map (Inst.marked s.cycle)
    tempIterator := max s.tempIterator s.dispatchQueueTail }

/-- Skip the NOPs at the head of the queue; `none` when the queue ends there. -/
def skipNops : List Inst → Proc conf → Option Inst × Proc conf
  | newInstruction :: queue, s =>
      if newInstruction.opcode = .nop then
        let s := { s with
          dispatchQueueHead := s.dispatchQueueHead + 1
          dispatchQueueSize := s.dispatchQueueSize - 1 }
        if s.dispatchQueueSize = 0 then (none, s) else skipNops queue s
      else (some newInstruction, s)
  | [], s => (none, s)

end Proc

/-- A source of a row that is filled; the tag stays when there is nothing to wait for. -/
def Operand.fill (registerFile : Reg → Rf) (operand : Operand) (srcReg : Option Reg) : Operand :=
  match srcReg with
  | none => { operand with reg := none, ready := true }
  | some r =>
      if (registerFile r).ready then { operand with reg := some r, ready := true }
      else ⟨some r, false, (registerFile r).tag⟩

/-- A row that is filled; `fired`, `fu`, `remaining_time` and `ls_conflict_end` stay. -/
def Row.fill (row : Row) (registerFile : Reg → Rf) (instrTag : ℕ) (inst : Inst) : Row :=
  { row with
    opcode := inst.opcode
    destReg := inst.destReg
    destRegTag := instrTag
    src := fun k => (row.src k).fill registerFile (inst.srcReg k)
    occupied := true
    instr := inst }

/-- The register that an instruction writes waits for it. -/
def rename (registerFile : Reg → Rf) (destReg : Option Reg) (destRegTag : ℕ) : Reg → Rf :=
  match destReg with
  | none => registerFile
  | some r => Function.update registerFile r ⟨destRegTag, false⟩

namespace Proc

/-- The instruction at the head of the queue moves to a row. -/
def placeRow (s : Proc conf) (i : Fin conf.scheduleQueueSize) (inst : Inst) : Proc conf :=
  let row := (s.scheduleQueue i).fill s.registerFile s.instrTag inst
  let s := { s.setRow i row with
    dispatchQueueHead := s.dispatchQueueHead + 1
    dispatchQueueSize := s.dispatchQueueSize - 1
    instCntSq := s.instCntSq + 1
    instrTag := s.instrTag + 1
    registerFile := rename s.registerFile row.destReg row.destRegTag }
  if inst.opcode = .br ∧ inst.mispredicted then
    { s with branchStarted := true, dispatching := false }
  else s

def dispatchRow (i : Fin conf.scheduleQueueSize) (s : Proc conf) : Proc conf :=
  if !s.dispatching then s
  else if s.dispatchQueueHead = s.dispatchQueueTail then { s with dispatching := false }
  else if (s.scheduleQueue i).occupied then s
  else
    match skipNops (s.dispatchQueue.drop s.dispatchQueueHead) s with
    | (none, s) => { s with dispatching := false }
    | (some inst, s) => s.placeRow i inst

def dispatchInstr (s : Proc conf) : Proc conf :=
  let s := s.markDispatch
  if s.branchStarted then s else sweep dispatchRow { s with dispatching := true }

/-! ### `fetch_instr` -/

/-- `predicted_br`, which is set for branches only. -/
def predictedBr (s : Proc conf) (inst : TraceInst) : Bool :=
  decide (inst.opcode = .br) && decide (s.branchTable (s.btbIdx inst.instAddr) - 2 > -1)

/-- An instruction as it enters the dispatch queue. -/
def fetched (s : Proc conf) (inst : TraceInst) : Inst :=
  { inst with
    predictedBr := s.predictedBr inst
    sequentialTag := s.resultTag
    fetch := s.cycle
    dispatch := 0
    schedule := 0
    execute := 0
    update := 0
    dispatchFirst := true
    scheduleFirst := true
    executeFirst := true }

/-- The instruction that has been read is put at the tail of the queue. -/
def fetchOne (s : Proc conf) (inst : TraceInst) (trace : List TraceInst) : Proc conf :=
  let size := s.dispatchQueueSize + 1
  let st := s.stats
  { s with
    trace := trace
    dispatchQueue := s.dispatchQueue ++ [s.fetched inst]
    dispatchQueueSize := size
    resultTag := s.resultTag + 1
    stats := { st with
      loadInstructions := st.loadInstructions + if inst.opcode = .load then 1 else 0
      storeInstructions := st.storeInstructions + if inst.opcode = .store then 1 else 0
      branchInstructions := st.branchInstructions + if inst.opcode = .br then 1 else 0
      correctlyPredicted := st.correctlyPredicted +
        if inst.opcode = .br ∧ inst.brTaken = s.predictedBr inst then 1 else 0
      maxDispQueueSize := max st.maxDispQueueSize size.toNat } }

/-- The loop of `fetch_instr` with the iterations that are left; the result is
what `fetch_instr` returns. -/
def fetchLoop : ℕ → Proc conf → Except Fault (Bool × Proc conf)
  | 0, s => .ok (true, s)
  | iterations + 1, s =>
      match s.trace with
      | [] => .ok (false, s)
      | inst :: trace =>
          if s.dispatchQueueTail < dqDataStructureSize then
            fetchLoop iterations (s.fetchOne inst trace)
          else .error .dispatchQueueOverflow

def fetchInstr (s : Proc conf) : Except Fault (Bool × Proc conf) := fetchLoop conf.f s

end Proc

/-! ### `update_state_2` -/

/-- `compare_sq`: 64-bit arithmetic, the result of which is returned as an `int`. -/
def compareSq (a b : Row) : ℤ :=
  Int.bmod (a.instr.sequentialTag * b.occupied.toNat - b.instr.sequentialTag * a.occupied.toNat)
    (2 ^ 32)

/-- A sort of the schedule queue: the call that is made in a given cycle
permutes the rows. -/
structure Qsort (conf : ProcConf) where
  run : ℕ → (Fin conf.scheduleQueueSize → Row) → Fin conf.scheduleQueueSize → Row
  perm : ∀ cycle rows, ∃ σ : Equiv.Perm (Fin conf.scheduleQueueSize), run cycle rows = rows ∘ σ

/-- A row that is free again. -/
def Row.free (row : Row) : Row := { row with occupied := false, fired := false }

namespace Proc

def freeRow (sqIter : Fin conf.scheduleQueueSize) (s : Proc conf) : Proc conf :=
  match s.finishedFu sqIter with
  | none => s
  | some i =>
      { s.setRow i (s.scheduleQueue i).free with
        instCntSq := s.instCntSq - 1
        finishedFu := Function.update s.finishedFu sqIter none }

def updateState2 (qsort : Qsort conf) (s : Proc conf) : Proc conf :=
  let s := sweep freeRow s
  { s with scheduleQueue := qsort.run s.cycle s.scheduleQueue }

end Proc

end ProjectArchive.Tomasulo
