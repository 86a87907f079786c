/-
ProjectArchive/Tomasulo/Data.lean

The data of the out-of-order pipeline: the configuration, the instructions, the
rows of the schedule queue, the functional units, and the variables of
`procsim.c` gathered in one record.

A register number is `none` where the source has `-1`.  The slots of
`dispatch_queue` below `dispatch_queue_tail` are a list, so the tail is its
length.  What `malloc` leaves unset is zero here.  The locals of a stage that
outlive one round of its loop are kept in the record too.  `history` is not in
the source; it records in which order instructions are fired, access the cache,
and are completed.
-/
import Mathlib.Algebra.Group.Nat.Defs
import Mathlib.Data.Fintype.Basic
import Mathlib.Logic.Function.Basic

namespace ProjectArchive.Tomasulo

/-! ### Configuration -/

/-- `proc_conf_t`, with at least one unit of every kind, one reservation station
for each, and one instruction fetched in a cycle.  `setup_proc` keeps what it
computes from the numbers in `int`s, and shifts an `int` by `g` and by the
logarithm of the number of blocks; each of these fits. -/
structure ProcConf where
  f : ℕ
  k0 : ℕ
  k1 : ℕ
  k2 : ℕ
  r : ℕ
  g : ℕ
  c : ℕ
  f_pos : 0 < f
  k0_pos : 0 < k0
  k1_pos : 0 < k1
  k2_pos : 0 < k2
  r_pos : 0 < r
  f_lt : f < 2 ^ 31
  /-- `schedule_queue_size` is an `int`. -/
  rows_lt : (k0 + k1 + k2) * r < 2 ^ 31
  g_lt : 2 ^ g < 2 ^ 31
  /-- `1 << (cache_size - block_size)`. -/
  blocks_lt : 2 ^ (c - 6) < 2 ^ 31

/-- `schedule_queue_size`. -/
def ProcConf.scheduleQueueSize (conf : ProcConf) : ℕ := (conf.k0 + conf.k1 + conf.k2) * conf.r

theorem ProcConf.scheduleQueueSize_pos (conf : ProcConf) : 0 < conf.scheduleQueueSize :=
  Nat.mul_pos (Nat.add_pos_left (Nat.add_pos_left conf.k0_pos _) _) conf.r_pos

/-- `dq_data_structure_size`. -/
def dqDataStructureSize : ℕ := 2000000

/-- `block_size`. -/
def blockSize : ℕ := 6

/-- The index of an address in the cache. -/
def ProcConf.indexValue (conf : ProcConf) (addr : BitVec 64) : ℕ :=
  addr.toNat / 2 ^ blockSize % 2 ^ (conf.c - blockSize)

/-! ### Instructions -/

/-- `opcode_t`. -/
inductive Opcode
  | nop | add | mul | load | store | br
  deriving DecidableEq, Repr

/-- `OP_ADD` and `OP_BR`, which the first kind of unit executes. -/
def Opcode.usesAdder : Opcode → Bool
  | .add | .br => true
  | _ => false

/-- `OP_LOAD` and `OP_STORE`. -/
def Opcode.isLoadStore : Opcode → Bool
  | .load | .store => true
  | _ => false

/-- A load or store does not use an adder. -/
theorem Opcode.isLoadStore_of_usesAdder {opcode : Opcode} (h : opcode.usesAdder = true) :
    opcode.isLoadStore = false := by
  cases opcode <;> first | rfl | cases h

/-- Every instruction that is carried out needs a unit of one of the three kinds. -/
theorem Opcode.kind_cases {opcode : Opcode} (h : opcode ≠ .nop) :
    opcode.usesAdder = true ∨ opcode = .mul ∨ opcode.isLoadStore = true := by
  cases opcode with
  | nop => exact absurd rfl h
  | add => exact .inl rfl
  | br => exact .inl rfl
  | mul => exact .inr (.inl rfl)
  | load => exact .inr (.inr rfl)
  | store => exact .inr (.inr rfl)

abbrev Reg := Fin 32

/-- The fields of `inst_t` that `read_instruction` fills in. -/
structure TraceInst where
  instAddr : BitVec 64
  opcode : Opcode
  destReg : Option Reg
  srcReg : Fin 2 → Option Reg
  ldStAddr : BitVec 64
  brTaken : Bool
  deriving DecidableEq

/-- `inst_t`, with the fields that the pipeline keeps its books in. -/
structure Inst extends TraceInst where
  predictedBr : Bool
  sequentialTag : ℕ
  fetch : ℕ
  dispatch : ℕ
  schedule : ℕ
  execute : ℕ
  update : ℕ
  dispatchFirst : Bool
  scheduleFirst : Bool
  executeFirst : Bool
  deriving DecidableEq

/-- The branch was predicted wrongly. -/
def Inst.mispredicted (inst : Inst) : Bool := inst.brTaken != inst.predictedBr

/-! ### The schedule queue -/

/-- `src_reg[i]`, `src_reg_ready[i]` and `src_reg_tag[i]`. -/
structure Operand where
  reg : Option Reg
  ready : Bool
  tag : ℕ
  deriving DecidableEq

/-- `sq`. -/
structure Row where
  opcode : Opcode
  destReg : Option Reg
  destRegTag : ℕ
  src : Fin 2 → Operand
  occupied : Bool
  instr : Inst
  fired : Bool
  fu : ℕ
  remainingTime : ℤ
  lsConflictEnd : Bool
  deriving DecidableEq

/-- `rf`. -/
structure Rf where
  tag : ℕ
  ready : Bool
  deriving DecidableEq

/-- `fu`; `load` is `none` before the unit is used. -/
structure Fu where
  busy : Bool
  load : Option Opcode
  index : ℕ
  addr : BitVec 64
  deriving DecidableEq

/-- `cache_block`. -/
structure CacheBlock where
  valid : Bool
  tag : ℕ
  dirty : Bool
  deriving DecidableEq

/-- `result_t`. -/
structure ResultRow where
  tag : ℕ
  fetch : ℕ
  dispatch : ℕ
  schedule : ℕ
  execute : ℕ
  update : ℕ
  deriving DecidableEq

/-- `proc_stats_t`, without the averages. -/
structure ProcStats where
  instructionsRetired : ℕ
  branchInstructions : ℕ
  correctlyPredicted : ℕ
  loadInstructions : ℕ
  storeInstructions : ℕ
  cacheMisses : ℕ
  maxDispQueueSize : ℕ
  cycleCount : ℕ
  deriving DecidableEq

/-- What is recorded in the history, with the `sequential_tag` of the instruction. -/
inductive Mark
  | fired (tag : ℕ)
  | accessed (tag : ℕ)
  | completed (tag : ℕ)
  deriving DecidableEq, Repr

/-! ### The processor -/

/-- The variables of `procsim.c`. -/
structure Proc (conf : ProcConf) where
  /-- What `read_instruction` has not read yet. -/
  trace : List TraceInst
  l1Cache : ℕ → CacheBlock
  dispatchQueue : List Inst
  dispatchQueueHead : ℕ
  dispatchQueueSize : ℤ
  scheduleQueue : Fin conf.scheduleQueueSize → Row
  instCntSq : ℕ
  branchTable : ℕ → ℤ
  registerFile : Reg → Rf
  lsFunctionalUnit : ℕ → Fu
  result : List ResultRow
  ghr : BitVec 64
  dispatchQueueCumulativeSize : ℤ
  instrTag : ℕ
  resultTag : ℕ
  addUnit : ℕ
  lsUnit : ℕ
  branchStarted : Bool
  finishedFu : ℕ → Option (Fin conf.scheduleQueueSize)
  tempIterator : ℕ
  cycle : ℕ
  stats : ProcStats
  continueBool : Bool
  continueFetch : Bool
  /-- `finished_fu_idx` of `update_state`. -/
  finishedFuIdx : ℕ
  /-- `sche_mul_unit` of `schedule_instr`. -/
  scheMulUnit : ℕ
  /-- The loop of `dispatch_instr` has not been left. -/
  dispatching : Bool
  history : List Mark

variable {conf : ProcConf}

namespace Proc

/-- `dispatch_queue_tail`. -/
def dispatchQueueTail (s : Proc conf) : ℕ := s.dispatchQueue.length

/-- `schedule_queue[i] = row`. -/
def setRow (s : Proc conf) (i : Fin conf.scheduleQueueSize) (row : Row) : Proc conf :=
  { s with scheduleQueue := Function.update s.scheduleQueue i row }

def note (s : Proc conf) (mark : Mark) : Proc conf := { s with history := s.history ++ [mark] }

end Proc

/-! ### `setup_proc` -/

/-- The rows at the start, each with a placeholder for its instruction. -/
def emptyRow : Row where
  opcode := .nop
  destReg := none
  destRegTag := 0
  src := fun _ => ⟨none, false, 0⟩
  occupied := false
  instr :=
    { instAddr := 0, opcode := .nop, destReg := none, srcReg := fun _ => none, ldStAddr := 0
      brTaken := false, predictedBr := false, sequentialTag := 0, fetch := 0, dispatch := 0
      schedule := 0, execute := 0, update := 0, dispatchFirst := false, scheduleFirst := false
      executeFirst := false }
  fired := false
  fu := 0
  remainingTime := 0
  lsConflictEnd := false

/-- `setup_proc`, together with the initial values of the globals and of the
locals of `run_proc`. -/
def setupProc (conf : ProcConf) (trace : List TraceInst) : Proc conf where
  trace := trace
  l1Cache := fun _ => ⟨false, 0, false⟩
  dispatchQueue := []
  dispatchQueueHead := 0
  dispatchQueueSize := 0
  scheduleQueue := fun _ => emptyRow
  instCntSq := 0
  branchTable := fun _ => 1
  registerFile := fun _ => ⟨0, true⟩
  lsFunctionalUnit := fun _ => ⟨false, none, 0, 0⟩
  result := []
  ghr := 0
  dispatchQueueCumulativeSize := 0
  instrTag := 0
  resultTag := 0
  addUnit := conf.k0
  lsUnit := conf.k2
  branchStarted := false
  finishedFu := fun _ => none
  tempIterator := 0
  cycle := 0
  stats := ⟨0, 0, 0, 0, 0, 0, 0, 0⟩
  continueBool := true
  continueFetch := true
  finishedFuIdx := 0
  scheMulUnit := 0
  dispatching := false
  history := []

end ProjectArchive.Tomasulo
