/-
ProjectArchive/Tomasulo/Books.lean

Where the instructions are.

The trace is a program whose instructions are numbered from zero; the number is
the `sequential_tag`.  The dispatch queue holds a prefix of the program in
order; every instruction before its head that is no NOP has been completed or
is in exactly one row, or both between `update_state` and `update_state_2`.
`Books` says this, and that the counters and `finished_fu` agree with it;
`Phase` says which rows are completed before each stage.
-/
import ProjectArchive.Library.ProgramOrder
import ProjectArchive.Tomasulo.Rounds

namespace ProjectArchive.Tomasulo

open Sweep

variable {conf : ProcConf} {prog : List TraceInst} {s s' : Proc conf}

/-! ### The program -/

/-- The instruction `k` is no NOP. -/
def Issues (prog : List TraceInst) (k : ℕ) : Prop :=
  ∃ inst, prog[k]? = some inst ∧ inst.opcode ≠ .nop

instance : DecidablePred (Issues prog) := fun k =>
  match e : prog[k]? with
  | none => isFalse (by simp [Issues, e])
  | some inst => decidable_of_iff (inst.opcode ≠ .nop) (by simp [Issues, e])

/-- The instruction `k` writes the register `r`. -/
def Writes (prog : List TraceInst) (k : ℕ) (r : Reg) : Prop :=
  ∃ inst, prog[k]? = some inst ∧ inst.opcode ≠ .nop ∧ inst.destReg = some r

theorem Writes.issues {k : ℕ} {r : Reg} (h : Writes prog k r) : Issues prog k := by
  obtain ⟨inst, hget, hop, -⟩ := h
  exact ⟨inst, hget, hop⟩

/-! ### Rows -/

/-- The row holds an instruction of the program that lies before `head`. -/
structure RowOk (prog : List TraceInst) (head : ℕ) (row : Row) : Prop where
  lt : row.instr.sequentialTag < head
  get : prog[row.instr.sequentialTag]? = some row.instr.toTraceInst
  op : row.opcode = row.instr.opcode
  issued : row.instr.opcode ≠ .nop
  dest : row.destReg = row.instr.destReg
  src : ∀ k, (row.src k).reg = row.instr.srcReg k

theorem RowOk.issues {head : ℕ} {row : Row} (h : RowOk prog head row) :
    Issues prog row.instr.sequentialTag :=
  ⟨row.instr.toTraceInst, h.get, h.issued⟩

/-- Two versions of a row that hold the same instruction. -/
structure Row.Same (row row' : Row) : Prop where
  occupied : row'.occupied = row.occupied
  opcode : row'.opcode = row.opcode
  destReg : row'.destReg = row.destReg
  destRegTag : row'.destRegTag = row.destRegTag
  srcReg : ∀ k, (row'.src k).reg = (row.src k).reg
  inst : row'.instr.toTraceInst = row.instr.toTraceInst
  predictedBr : row'.instr.predictedBr = row.instr.predictedBr
  tag : row'.instr.sequentialTag = row.instr.sequentialTag

theorem Row.Same.refl (row : Row) : row.Same row :=
  ⟨rfl, rfl, rfl, rfl, fun _ => rfl, rfl, rfl, rfl⟩

theorem Row.Same.trans {a b c : Row} (h : a.Same b) (h' : b.Same c) : a.Same c :=
  ⟨h'.occupied.trans h.occupied, h'.opcode.trans h.opcode, h'.destReg.trans h.destReg,
    h'.destRegTag.trans h.destRegTag, fun k => (h'.srcReg k).trans (h.srcReg k),
    h'.inst.trans h.inst, h'.predictedBr.trans h.predictedBr, h'.tag.trans h.tag⟩

theorem RowOk.same {head : ℕ} {row row' : Row} (h : RowOk prog head row) (hsame : row.Same row') :
    RowOk prog head row' where
  lt := by rw [hsame.tag]; exact h.lt
  get := by rw [hsame.tag, hsame.inst]; exact h.get
  op := by rw [hsame.opcode, hsame.inst]; exact h.op
  issued := by rw [hsame.inst]; exact h.issued
  dest := by rw [hsame.destReg, hsame.inst]; exact h.dest
  src := fun k => by rw [hsame.srcReg, hsame.inst]; exact h.src k

namespace Proc

/-- `update_state` has completed the instruction `t`. -/
def Completed (s : Proc conf) (t : ℕ) : Prop := t ∈ s.result.map ResultRow.tag

instance (s : Proc conf) (t : ℕ) : Decidable (s.Completed t) := List.instDecidableMemOfLawfulBEq _ _

/-- The instruction in the row `i`. -/
def tag (s : Proc conf) (i : Fin conf.scheduleQueueSize) : ℕ :=
  (s.scheduleQueue i).instr.sequentialTag

theorem completed_congr (h : s'.result = s.result) (t : ℕ) : s'.Completed t ↔ s.Completed t := by
  show t ∈ s'.result.map ResultRow.tag ↔ _
  rw [h]
  rfl

theorem tag_congr {i j : Fin conf.scheduleQueueSize}
    (h : s'.scheduleQueue i = s.scheduleQueue j) : s'.tag i = s.tag j := by
  show (s'.scheduleQueue i).instr.sequentialTag = _
  rw [h]
  rfl

end Proc

/-! ### The invariant -/

/-- The dispatch queue is a prefix of the program. -/
structure QueueOk (prog : List TraceInst) (s : Proc conf) : Prop where
  queue : s.dispatchQueue.map Inst.toTraceInst ++ s.trace = prog
  tags : ∀ (k : ℕ) (inst : Inst), s.dispatchQueue[k]? = some inst → inst.sequentialTag = k
  resultTag : s.resultTag = s.dispatchQueueTail
  tail_le : s.dispatchQueueTail ≤ dqDataStructureSize
  size : s.SizeOk

/-- The instructions before the head are completed or in a row. -/
structure RowsOk (prog : List TraceInst) (s : Proc conf) : Prop where
  row : ∀ i, (s.scheduleQueue i).occupied = true →
    RowOk prog s.dispatchQueueHead (s.scheduleQueue i)
  idle : ∀ i, (s.scheduleQueue i).occupied = false → (s.scheduleQueue i).fired = false
  distinct : ∀ i j, (s.scheduleQueue i).occupied = true → (s.scheduleQueue j).occupied = true →
    s.tag i = s.tag j → i = j
  dispatched : ∀ t < s.dispatchQueueHead, Issues prog t →
    s.Completed t ∨ ∃ i, (s.scheduleQueue i).occupied = true ∧ s.tag i = t
  completed : ∀ t, s.Completed t → t < s.dispatchQueueHead ∧ Issues prog t
  nodup : (s.result.map ResultRow.tag).Nodup
  instCntSq : s.instCntSq = count Row.occupied s.scheduleQueue

/-- `finished_fu` lists the rows that are completed and not yet free. -/
structure Listed (s : Proc conf) : Prop where
  lt : ∀ m i, s.finishedFu m = some i → m < conf.scheduleQueueSize
  inj : ∀ m m' i, s.finishedFu m = some i → s.finishedFu m' = some i → m = m'
  mem : ∀ i, (∃ m, s.finishedFu m = some i) ↔
    (s.scheduleQueue i).occupied = true ∧ s.Completed (s.tag i)

structure Books (prog : List TraceInst) (s : Proc conf) : Prop where
  queueOk : QueueOk prog s
  rowsOk : RowsOk prog s
  listed : Listed s

theorem QueueOk.get (h : QueueOk prog s) {k : ℕ} {inst : Inst}
    (hget : s.dispatchQueue[k]? = some inst) : prog[k]? = some inst.toTraceInst := by
  have hlt : k < s.dispatchQueue.length := (List.getElem?_eq_some_iff.mp hget).1
  rw [← h.queue, List.getElem?_append_left (by simpa using hlt), List.getElem?_map, hget]
  rfl

/-- What has been read and what has not. -/
theorem Books.tail_add (h : Books prog s) :
    s.dispatchQueueTail + s.trace.length = prog.length := by
  have hqueue := congrArg List.length h.queueOk.queue
  rw [List.length_append, List.length_map] at hqueue
  exact hqueue

theorem books_setup (trace : List TraceInst) : Books trace (setupProc conf trace) where
  queueOk :=
    { queue := rfl
      tags := by simp [setupProc]
      resultTag := rfl
      tail_le := Nat.zero_le _
      size := ⟨Nat.le_refl 0, rfl⟩ }
  rowsOk :=
    { row := by simp [setupProc, emptyRow]
      idle := by simp [setupProc, emptyRow]
      distinct := by simp [setupProc, emptyRow]
      dispatched := by simp [setupProc]
      completed := by simp [setupProc, Proc.Completed]
      nodup := List.nodup_nil
      instCntSq := (count_eq_zero_iff.mpr fun _ => rfl).symm }
  listed :=
    { lt := by simp [setupProc]
      inj := by simp [setupProc]
      mem := by simp [setupProc, emptyRow] }

/-! ### States with the same books -/

/-- The stages between `update_state` and `dispatch_instr` leave the books alone. -/
structure SameBooks (s s' : Proc conf) : Prop where
  rows : ∀ i, (s.scheduleQueue i).Same (s'.scheduleQueue i) := by exact fun _ => Row.Same.refl _
  src : ∀ i, (s'.scheduleQueue i).src = (s.scheduleQueue i).src := by exact fun _ => rfl
  idle : ∀ i, (s.scheduleQueue i).occupied = false →
    (s'.scheduleQueue i).fired = (s.scheduleQueue i).fired := by exact fun _ _ => rfl
  trace : s'.trace = s.trace := by rfl
  dispatchQueue : s'.dispatchQueue = s.dispatchQueue := by rfl
  dispatchQueueHead : s'.dispatchQueueHead = s.dispatchQueueHead := by rfl
  dispatchQueueSize : s'.dispatchQueueSize = s.dispatchQueueSize := by rfl
  instCntSq : s'.instCntSq = s.instCntSq := by rfl
  registerFile : s'.registerFile = s.registerFile := by rfl
  result : s'.result = s.result := by rfl
  instrTag : s'.instrTag = s.instrTag := by rfl
  resultTag : s'.resultTag = s.resultTag := by rfl
  branchStarted : s'.branchStarted = s.branchStarted := by rfl
  finishedFu : s'.finishedFu = s.finishedFu := by rfl
  tempIterator : s'.tempIterator = s.tempIterator := by rfl
  cycle : s'.cycle = s.cycle := by rfl
  retired : s'.stats.instructionsRetired = s.stats.instructionsRetired := by rfl
  continueFetch : s'.continueFetch = s.continueFetch := by rfl

theorem SameBooks.refl (s : Proc conf) : SameBooks s s := {}

theorem SameBooks.trans {a b c : Proc conf} (h : SameBooks a b) (h' : SameBooks b c) :
    SameBooks a c where
  rows i := (h.rows i).trans (h'.rows i)
  src i := (h'.src i).trans (h.src i)
  idle i hi := (h'.idle i ((h.rows i).occupied.trans hi)).trans (h.idle i hi)
  trace := h'.trace.trans h.trace
  dispatchQueue := h'.dispatchQueue.trans h.dispatchQueue
  dispatchQueueHead := h'.dispatchQueueHead.trans h.dispatchQueueHead
  dispatchQueueSize := h'.dispatchQueueSize.trans h.dispatchQueueSize
  instCntSq := h'.instCntSq.trans h.instCntSq
  registerFile := h'.registerFile.trans h.registerFile
  result := h'.result.trans h.result
  instrTag := h'.instrTag.trans h.instrTag
  resultTag := h'.resultTag.trans h.resultTag
  branchStarted := h'.branchStarted.trans h.branchStarted
  finishedFu := h'.finishedFu.trans h.finishedFu
  tempIterator := h'.tempIterator.trans h.tempIterator
  cycle := h'.cycle.trans h.cycle
  retired := h'.retired.trans h.retired
  continueFetch := h'.continueFetch.trans h.continueFetch

theorem SameBooks.completed (h : SameBooks s s') (t : ℕ) : s'.Completed t ↔ s.Completed t :=
  Proc.completed_congr h.result t

theorem SameBooks.tag (h : SameBooks s s') (i : Fin conf.scheduleQueueSize) :
    s'.tag i = s.tag i := (h.rows i).tag

theorem SameBooks.books (h : SameBooks s s') (hs : Books prog s) : Books prog s' where
  queueOk :=
    { queue := by rw [h.dispatchQueue, h.trace]; exact hs.queueOk.queue
      tags := by rw [h.dispatchQueue]; exact hs.queueOk.tags
      resultTag := by
        unfold Proc.dispatchQueueTail
        rw [h.resultTag, h.dispatchQueue]
        exact hs.queueOk.resultTag
      tail_le := by
        unfold Proc.dispatchQueueTail
        rw [h.dispatchQueue]
        exact hs.queueOk.tail_le
      size := by
        unfold Proc.SizeOk Proc.dispatchQueueTail
        rw [h.dispatchQueue, h.dispatchQueueHead, h.dispatchQueueSize]
        exact hs.queueOk.size }
  rowsOk :=
    { row := by
        intro i hi
        rw [h.dispatchQueueHead]
        exact (hs.rowsOk.row i ((h.rows i).occupied ▸ hi)).same (h.rows i)
      idle := by
        intro i hi
        rw [(h.rows i).occupied] at hi
        rw [h.idle i hi]
        exact hs.rowsOk.idle i hi
      distinct := by
        intro i j hi hj hij
        rw [(h.rows i).occupied] at hi
        rw [(h.rows j).occupied] at hj
        rw [h.tag, h.tag] at hij
        exact hs.rowsOk.distinct i j hi hj hij
      dispatched := by
        intro t ht hissues
        rw [h.dispatchQueueHead] at ht
        rw [h.completed]
        refine (hs.rowsOk.dispatched t ht hissues).imp_right ?_
        rintro ⟨i, hi, htag⟩
        exact ⟨i, (h.rows i).occupied.trans hi, (h.tag i).trans htag⟩
      completed := by
        intro t ht
        rw [h.dispatchQueueHead]
        exact hs.rowsOk.completed t ((h.completed t).mp ht)
      nodup := by rw [h.result]; exact hs.rowsOk.nodup
      instCntSq := by
        rw [h.instCntSq, hs.rowsOk.instCntSq]
        exact count_congr fun i => (h.rows i).occupied.symm }
  listed :=
    { lt := by rw [h.finishedFu]; exact hs.listed.lt
      inj := by rw [h.finishedFu]; exact hs.listed.inj
      mem := by
        intro i
        rw [h.finishedFu, h.completed, h.tag, (h.rows i).occupied]
        exact hs.listed.mem i }

end ProjectArchive.Tomasulo
