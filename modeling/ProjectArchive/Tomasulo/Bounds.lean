/-
ProjectArchive/Tomasulo/Bounds.lean

The elements of its arrays that the pipeline uses.

For every loop body there is the list of the elements which it reads or writes,
each with the number of elements that its array has at that time.  All are in
bounds, except that `fetch_instr` does not look whether `dispatch_queue` has
another slot: the queue is never made longer, and the instructions that have
left it keep their slots.
-/
import ProjectArchive.Tomasulo.Termination

namespace ProjectArchive.Tomasulo

open Sweep Loop

variable {conf : ProcConf} {prog : List TraceInst} {s s' : Proc conf} {qsort : Qsort conf}

/-! ### Elements -/

/-- The arrays that `setup_proc` allocates, and `register_file`. -/
inductive Buffer
  | l1Cache | branchTable | dispatchQueue | result | finishedFu | scheduleQueue | registerFile
  | lsFunctionalUnit
  deriving DecidableEq, Repr

/-- An element of an array that has `size` elements; it is `touched` if it is read
or written, and not only its address is taken. -/
structure Use where
  buffer : Buffer
  index : ℕ
  size : ℕ
  touched : Bool := true
  deriving DecidableEq

def Use.InBounds (use : Use) : Prop := use.index < use.size

section Elements

variable (conf)

def cacheUse (addr : BitVec 64) : Use :=
  ⟨.l1Cache, conf.indexValue addr, 2 ^ (conf.c - blockSize), true⟩

def slotUse (k : ℕ) : Use := ⟨.dispatchQueue, k, dqDataStructureSize, true⟩

def finishedUse (k : ℕ) : Use := ⟨.finishedFu, k, conf.scheduleQueueSize, true⟩

variable {conf} in
def rowUse (i : Fin conf.scheduleQueueSize) : Use :=
  ⟨.scheduleQueue, i, conf.scheduleQueueSize, true⟩

/-- All rows, one after the other. -/
def rowUses : List Use := (List.finRange conf.scheduleQueueSize).map rowUse

/-- A register, if there is one. -/
def registerUses : Option Reg → List Use
  | none => []
  | some r => [⟨.registerFile, r, 32, true⟩]

def unitUse (u : ℕ) : Use := ⟨.lsFunctionalUnit, u, conf.k2, true⟩

end Elements

def Proc.counterUse (s : Proc conf) (instAddr : BitVec 64) : Use :=
  ⟨.branchTable, s.btbIdx instAddr, 2 ^ conf.g, true⟩

/-- `result_length`, when `resultIdx` rows have been written. -/
def resultLength : ℕ → ℕ
  | 0 => 2000000
  | resultIdx + 1 =>
      if resultIdx < resultLength resultIdx then resultLength resultIdx
      else resultLength resultIdx * 2

/-- A row is written at the end of `result`, which is copied to an array twice as
long when it is full. -/
def resultUses (resultIdx : ℕ) : List Use :=
  if resultIdx < resultLength resultIdx then [⟨.result, resultIdx, resultLength resultIdx, true⟩]
  else
    (List.range (resultLength resultIdx)).flatMap (fun resultIter =>
      [⟨.result, resultIter, resultLength resultIdx * 2, true⟩,
        ⟨.result, resultIter, resultLength resultIdx, true⟩]) ++
      [⟨.result, resultIdx, resultLength resultIdx * 2, true⟩]

/-- What a loop looks at that is left at the first element with `stop`. -/
def lookedAt {α : Type*} (stop : α → Bool) : List α → List α
  | [] => []
  | x :: xs => if stop x then [x] else x :: lookedAt stop xs

/-! ### The elements that the stages use -/

/-- The loops of `setup_proc`. -/
def setupUses (conf : ProcConf) : List Use :=
  (List.range (2 ^ (conf.c - blockSize))).map (⟨.l1Cache, ·, 2 ^ (conf.c - blockSize), true⟩) ++
    (List.range (2 ^ conf.g)).map (⟨.branchTable, ·, 2 ^ conf.g, true⟩) ++
    (List.finRange conf.scheduleQueueSize).flatMap (fun i : Fin conf.scheduleQueueSize =>
      [finishedUse conf i, rowUse i]) ++
    (List.finRange 32).flatMap (fun r => registerUses (some r)) ++
    (List.range conf.k2).map (unitUse conf)

namespace Proc

/-- A row that has finished is completed. -/
def completeUses (i : Fin conf.scheduleQueueSize) (s : Proc conf) : List Use :=
  let row := s.scheduleQueue i
  finishedUse conf s.finishedFuIdx ::
    (if row.opcode = .br then [s.counterUse row.instr.instAddr] else []) ++
    resultUses s.result.length ++
    match row.destReg with
    | none => []
    | some destReg => rowUses conf ++ registerUses (some destReg)

def updateUses (i : Fin conf.scheduleQueueSize) (s : Proc conf) : List Use :=
  rowUse i :: if s.finished i then s.completeUses i else []

def executeUses (i : Fin conf.scheduleQueueSize) (s : Proc conf) : List Use :=
  let row := s.scheduleQueue i
  rowUse i ::
    if row.occupied && row.fired then
      (if row.remainingTime = 11 then [cacheUse conf row.instr.ldStAddr] else []) ++
        if (s.accessRow (row.executing s.cycle)).1.remainingTime - 1 = 0 ∧
          row.opcode.isLoadStore = true then [unitUse conf row.fu] else []
    else []

/-- The loops over the units and the rows that decide `cache_opeable`, and the one
that looks for a unit. -/
def issueUses (s : Proc conf) (row : Row) : List Use :=
  (List.range conf.k2).map (unitUse conf) ++
    (lookedAt (fun k => conflicts (s.scheduleQueue k) row)
      (List.finRange conf.scheduleQueueSize)).map rowUse ++
    if 0 < s.lsUnit && s.cacheOpeable row then
      (lookedAt (fun u => !(s.lsFunctionalUnit u).busy) (List.range conf.k2)).map (unitUse conf)
    else []

def scheduleUses (i : Fin conf.scheduleQueueSize) (s : Proc conf) : List Use :=
  let row := (s.scheduleQueue i).scheduling s.cycle
  rowUse i ::
    if (s.scheduleQueue i).occupied && !(s.scheduleQueue i).fired &&
      ((List.finRange 2).all fun k => (row.src k).ready) && row.opcode.isLoadStore then
      (s.setRow i row).issueUses row
    else []

/-- The instructions that are dispatched from now on. -/
def markUses (s : Proc conf) : List Use :=
  (List.range' s.tempIterator (s.dispatchQueueTail - s.tempIterator)).map slotUse

/-- After a NOP the next instruction is read, unless the queue ends there. -/
def skipUses : List Inst → Proc conf → List Use
  | newInstruction :: queue, s =>
      if newInstruction.opcode = .nop then
        let s := { s with
          dispatchQueueHead := s.dispatchQueueHead + 1
          dispatchQueueSize := s.dispatchQueueSize - 1 }
        if s.dispatchQueueSize = 0 then [] else slotUse s.dispatchQueueHead :: skipUses queue s
      else []
  | [], _ => []

def dispatchUses (i : Fin conf.scheduleQueueSize) (s : Proc conf) : List Use :=
  if !s.dispatching || s.dispatchQueueHead = s.dispatchQueueTail then []
  else if (s.scheduleQueue i).occupied then [rowUse i]
  else
    -- a row that is filled looks up its sources, and renames its destination
    let queue := s.dispatchQueue.drop s.dispatchQueueHead
    rowUse i :: slotUse s.dispatchQueueHead :: skipUses queue s ++
      match (skipNops queue s).1 with
      | none => []
      | some inst =>
          ((List.finRange 2).flatMap fun k => registerUses (inst.srcReg k)) ++
            registerUses inst.destReg

/-- The address of the slot is passed to `read_instruction`, which leaves the slot
alone at the end of the trace. -/
def fetchUses : ℕ → Proc conf → List Use
  | 0, _ => []
  | iterations + 1, s =>
      match s.trace with
      | [] => [{ slotUse s.dispatchQueueTail with touched := false }]
      | inst :: trace =>
          -- behind the array it is not known how the program goes on
          slotUse s.dispatchQueueTail ::
            if s.dispatchQueueTail < dqDataStructureSize then
              (if inst.opcode = .br then [s.counterUse inst.instAddr] else []) ++
                fetchUses iterations (s.fetchOne inst trace)
            else []

def freeUses (sqIter : Fin conf.scheduleQueueSize) (s : Proc conf) : List Use :=
  finishedUse conf sqIter ::
    match s.finishedFu sqIter with
    | none => []
    | some i => [rowUse i]

end Proc

/-- The elements that a stage uses. -/
def Stage.uses (s : Proc conf) : Stage → List Use
  | .updateState => sweepLog Proc.updateRow Proc.updateUses
      { s with stats := { s.stats with cycleCount := s.stats.cycleCount + 1 }, finishedFuIdx := 0 }
  | .executeInstr => sweepLog Proc.executeRow Proc.executeUses s
  | .scheduleInstr => sweepLog Proc.scheduleRow Proc.scheduleUses { s with scheMulUnit := 1 }
  | .dispatchInstr => s.markUses ++
      if s.markDispatch.branchStarted then []
      else sweepLog Proc.dispatchRow Proc.dispatchUses { s.markDispatch with dispatching := true }
  | .fetchInstr => if s.continueFetch then s.fetchUses conf.f else []
  | .updateState2 => sweepLog Proc.freeRow Proc.freeUses s ++ rowUses conf

/-- The elements that a run uses. -/
inductive Uses (conf : ProcConf) (qsort : Qsort conf) (trace : List TraceInst) : Use → Prop
  | setup {use : Use} (h : use ∈ setupUses conf) : Uses conf qsort trace use
  | stage {stage : Stage} {s : Proc conf} {use : Use} (h : Reached conf qsort trace stage s)
      (hcontinue : stage = .updateState → s.continueBool = true) (huse : use ∈ stage.uses s) :
      Uses conf qsort trace use

/-! ### What is in bounds -/

theorem cacheUse_inBounds (conf : ProcConf) (addr : BitVec 64) : (cacheUse conf addr).InBounds :=
  Nat.mod_lt _ (Nat.two_pow_pos _)

theorem rowUse_inBounds (i : Fin conf.scheduleQueueSize) : (rowUse i).InBounds := i.isLt

theorem rowUses_inBounds : ∀ use ∈ rowUses conf, use.InBounds := by
  intro use huse
  obtain ⟨i, -, rfl⟩ := List.mem_map.mp huse
  exact rowUse_inBounds i

theorem registerUses_inBounds (r : Option Reg) : ∀ use ∈ registerUses r, use.InBounds := by
  intro use huse
  cases r with
  | none => cases huse
  | some r =>
      obtain rfl := List.mem_singleton.mp huse
      exact r.isLt

theorem unitUses_inBounds : ∀ use ∈ (List.range conf.k2).map (unitUse conf), use.InBounds := by
  intro use huse
  obtain ⟨u, hu, rfl⟩ := List.mem_map.mp huse
  exact List.mem_range.mp hu

/-- Both operands of the exclusive or have `g` bits. -/
theorem counterUse_inBounds (s : Proc conf) (instAddr : BitVec 64) :
    (s.counterUse instAddr).InBounds :=
  Nat.xor_lt_two_pow (Nat.mod_lt _ (Nat.two_pow_pos _)) (Nat.mod_lt _ (Nat.two_pow_pos _))

theorem resultLength_pos (n : ℕ) : 0 < resultLength n := by
  induction n with
  | zero => decide
  | succ n ih =>
      unfold resultLength
      split
      · exact ih
      · exact Nat.mul_pos ih (by decide)

/-- `result` is never longer than its array. -/
theorem le_resultLength (n : ℕ) : n ≤ resultLength n := by
  induction n with
  | zero => exact Nat.zero_le _
  | succ n ih =>
      have hpos := resultLength_pos n
      unfold resultLength
      split
      · assumption
      · omega

theorem resultUses_inBounds (n : ℕ) : ∀ use ∈ resultUses n, use.InBounds := by
  have hle := le_resultLength n
  have hpos := resultLength_pos n
  intro use huse
  unfold resultUses at huse
  split at huse
  · rename_i hlt
    obtain rfl := List.mem_singleton.mp huse
    exact hlt
  · rcases List.mem_append.mp huse with hcopy | hlast
    · obtain ⟨k, hk, huse⟩ := List.mem_flatMap.mp hcopy
      have hlt := List.mem_range.mp hk
      rcases List.mem_cons.mp huse with rfl | huse
      · show k < resultLength n * 2
        omega
      · obtain rfl := List.mem_singleton.mp huse
        exact hlt
    · obtain rfl := List.mem_singleton.mp hlast
      show n < resultLength n * 2
      omega

theorem mem_of_mem_lookedAt {α : Type*} {stop : α → Bool} {x : α} {xs : List α}
    (h : x ∈ lookedAt stop xs) : x ∈ xs := by
  induction xs with
  | nil => cases h
  | cons y xs ih =>
      unfold lookedAt at h
      split at h
      · exact List.mem_singleton.mp h ▸ List.mem_cons_self
      · rcases List.mem_cons.mp h with rfl | hrest
        · exact List.mem_cons_self
        · exact List.mem_cons_of_mem _ (ih hrest)

theorem setupUses_inBounds : ∀ use ∈ setupUses conf, use.InBounds := by
  intro use huse
  unfold setupUses at huse
  simp only [List.mem_append] at huse
  rcases huse with (((hcache | hcounter) | hrow) | hregister) | hunit
  · obtain ⟨k, hk, rfl⟩ := List.mem_map.mp hcache
    exact List.mem_range.mp hk
  · obtain ⟨k, hk, rfl⟩ := List.mem_map.mp hcounter
    exact List.mem_range.mp hk
  · obtain ⟨i, -, huse⟩ := List.mem_flatMap.mp hrow
    rcases List.mem_cons.mp huse with rfl | huse
    · exact i.isLt
    · obtain rfl := List.mem_singleton.mp huse
      exact rowUse_inBounds i
  · obtain ⟨r, -, huse⟩ := List.mem_flatMap.mp hregister
    exact registerUses_inBounds _ use huse
  · exact unitUses_inBounds use hunit

/-! ### The stages -/

theorem completeUses_inBounds (i : Fin conf.scheduleQueueSize)
    (hidx : s.finishedFuIdx < conf.scheduleQueueSize) :
    ∀ use ∈ s.completeUses i, use.InBounds := by
  intro use huse
  unfold Proc.completeUses at huse
  dsimp only at huse
  simp only [List.mem_cons, List.mem_append] at huse
  rcases huse with ((rfl | hcounter) | hresult) | hdest
  · exact hidx
  · split at hcounter
    · obtain rfl := List.mem_singleton.mp hcounter
      exact counterUse_inBounds s _
    · cases hcounter
  · exact resultUses_inBounds _ use hresult
  · split at hdest
    · cases hdest
    · rcases List.mem_append.mp hdest with hrow | hregister
      · exact rowUses_inBounds use hrow
      · exact registerUses_inBounds _ use hregister

/-- `update_state` finishes at most one row in a round. -/
theorem Ledger.updateState_inBounds (h : Ledger prog .updateState s) :
    ∀ use ∈ Stage.uses s .updateState, use.InBounds := by
  refine forall_sweepLog (Updating prog) (h.updating {} rfl rfl) (fun m a ha => ha.updateRow) ?_
  intro i a ha use huse
  unfold Proc.updateUses at huse
  rcases List.mem_cons.mp huse with rfl | huse
  · exact rowUse_inBounds i
  · split at huse
    · exact completeUses_inBounds i (ha.idx.trans_lt i.isLt) use huse
    · cases huse

/-- A row that is in flight uses one of the units. -/
theorem UnitsOk.executeUses_inBounds (h : UnitsOk s) (i : Fin conf.scheduleQueueSize) :
    ∀ use ∈ s.executeUses i, use.InBounds := by
  intro use huse
  unfold Proc.executeUses at huse
  dsimp only at huse
  rcases List.mem_cons.mp huse with rfl | huse
  · exact rowUse_inBounds i
  · split at huse
    · rename_i hguard
      obtain ⟨hocc, hfired⟩ := Bool.and_eq_true_iff.mp hguard
      rcases List.mem_append.mp huse with hcache | hunit
      · split at hcache
        · obtain rfl := List.mem_singleton.mp hcache
          exact cacheUse_inBounds conf _
        · cases hcache
      · split at hunit
        · rename_i hdone
          obtain rfl := List.mem_singleton.mp hunit
          obtain ⟨t, history, l1Cache, cacheMisses, e, ht, -⟩ :=
            s.accessRow_eq ((s.scheduleQueue i).executing s.cycle)
          rw [e] at hdone
          -- the row had time left before the round, so it still holds its unit
          have hpos : 0 < (s.scheduleQueue i).remainingTime := by
            have ht0 : t + 1 - 1 = 0 := hdone.1
            rcases ht with ⟨-, hlast, -⟩ | ⟨h11, -, -⟩
            · rw [Row.executing_remainingTime] at hlast
              omega
            · rw [Row.executing_remainingTime] at h11
              omega
          exact (h.held i (Row.inFlight_eq_true.mpr ⟨hocc, hfired, hpos, hdone.2⟩)).1
        · cases hunit
    · cases huse

theorem UnitsOk.executeInstr_inBounds (h : UnitsOk s) :
    ∀ use ∈ Stage.uses s .executeInstr, use.InBounds := by
  refine forall_sweepLog (fun _ a => UnitsOk a) h ?_ fun i a ha => ha.executeUses_inBounds i
  intro i a ha
  exact a.executeRow_preserves i ha fun hocc hfired => ha.executeRow hocc hfired

theorem issueUses_inBounds (row : Row) : ∀ use ∈ s.issueUses row, use.InBounds := by
  intro use huse
  unfold Proc.issueUses at huse
  simp only [List.mem_append] at huse
  rcases huse with (hunit | hrow) | hfree
  · exact unitUses_inBounds use hunit
  · obtain ⟨i, -, rfl⟩ := List.mem_map.mp hrow
    exact rowUse_inBounds i
  · split at hfree
    · obtain ⟨u, hu, rfl⟩ := List.mem_map.mp hfree
      exact List.mem_range.mp (mem_of_mem_lookedAt hu)
    · cases hfree

theorem scheduleInstr_inBounds (s : Proc conf) :
    ∀ use ∈ Stage.uses s .scheduleInstr, use.InBounds := by
  refine forall_sweepLog (fun _ _ => True) trivial (fun _ _ _ => trivial) ?_
  intro i a _ use huse
  unfold Proc.scheduleUses at huse
  rcases List.mem_cons.mp huse with rfl | huse
  · exact rowUse_inBounds i
  · split at huse
    · exact issueUses_inBounds _ use huse
    · cases huse

/-- The size of the queue says where it ends. -/
theorem skipUses_inBounds {queue : List Inst}
    (hqueue : queue = s.dispatchQueue.drop s.dispatchQueueHead) (hsize : s.SizeOk)
    (htail : s.dispatchQueueTail ≤ dqDataStructureSize) :
    ∀ use ∈ Proc.skipUses queue s, use.InBounds := by
  induction queue generalizing s with
  | nil =>
      intro use huse
      cases huse
  | cons inst queue ih =>
      have hlt : s.dispatchQueueHead < s.dispatchQueueTail := by
        refine Nat.lt_of_not_le ?_
        intro hle
        rw [List.drop_eq_nil_of_le hle] at hqueue
        cases hqueue
      have hsize' := hsize.skip_one hlt
      intro use huse
      unfold Proc.skipUses at huse
      split at huse
      · dsimp only at huse
        split at huse
        · cases huse
        · rename_i hne
          rcases List.mem_cons.mp huse with rfl | huse
          · -- the size is not zero, so the head is still before the tail
            have hsize₂ : s.dispatchQueueSize - 1 =
              (s.dispatchQueueTail : ℤ) - ((s.dispatchQueueHead + 1 : ℕ) : ℤ) := hsize'.2
            have hne' : s.dispatchQueueSize - 1 ≠ 0 := hne
            show s.dispatchQueueHead + 1 < dqDataStructureSize
            omega
          · exact ih (Proc.drop_skip_one hqueue) hsize' htail use huse
      · cases huse

theorem Books.dispatchUses_inBounds (h : Books prog s) (i : Fin conf.scheduleQueueSize) :
    ∀ use ∈ s.dispatchUses i, use.InBounds := by
  intro use huse
  unfold Proc.dispatchUses at huse
  split at huse
  · cases huse
  · rename_i hguard
    have hne : s.dispatchQueueHead ≠ s.dispatchQueueTail := by
      intro heq
      exact hguard (by simp [heq])
    split at huse
    · obtain rfl := List.mem_singleton.mp huse
      exact rowUse_inBounds i
    · dsimp only at huse
      simp only [List.mem_append, List.mem_cons] at huse
      rcases huse with (rfl | rfl | hskip) | hregister
      · exact rowUse_inBounds i
      · have hle := h.queueOk.size.1
        have htail := h.queueOk.tail_le
        show s.dispatchQueueHead < dqDataStructureSize
        omega
      · exact skipUses_inBounds rfl h.queueOk.size h.queueOk.tail_le use hskip
      · split at hregister
        · cases hregister
        · rcases List.mem_append.mp hregister with hsrc | hdest
          · obtain ⟨k, -, hsrc⟩ := List.mem_flatMap.mp hsrc
            exact registerUses_inBounds _ use hsrc
          · exact registerUses_inBounds _ use hdest

theorem Books.dispatchInstr_inBounds (h : Books prog s) :
    ∀ use ∈ Stage.uses s .dispatchInstr, use.InBounds := by
  intro use huse
  rcases List.mem_append.mp huse with hmark | hpass
  · obtain ⟨k, hk, rfl⟩ := List.mem_map.mp hmark
    have hk' := List.mem_range'_1.mp hk
    have htail := h.queueOk.tail_le
    show k < dqDataStructureSize
    omega
  · split at hpass
    · cases hpass
    · have hsame : SameBooks s.markDispatch { s.markDispatch with dispatching := true } := {}
      refine forall_sweepLog (fun _ a => Books prog a) (hsame.books h.markDispatch) ?_
        (fun i a ha => ha.dispatchUses_inBounds i) use hpass
      intro i a ha
      exact (dispatchRow_induction (P := fun _ => True) (fun _ _ _ => trivial)
        (fun _ _ _ _ _ => trivial) (fun _ _ _ _ _ _ _ _ => trivial) i ha trivial).1

theorem updateState2_inBounds (s : Proc conf) :
    ∀ use ∈ Stage.uses s .updateState2, use.InBounds := by
  intro use huse
  rcases List.mem_append.mp huse with hfree | hsort
  · refine forall_sweepLog (fun _ _ => True) trivial (fun _ _ _ => trivial) ?_ use hfree
    intro i a _ use huse
    rcases List.mem_cons.mp huse with rfl | huse
    · exact i.isLt
    · split at huse
      · cases huse
      · obtain rfl := List.mem_singleton.mp huse
        exact rowUse_inBounds _
  · exact rowUses_inBounds use hsort

/-! ### Fetching -/

/-- The slot behind the last instruction of the trace, of which only the address is taken. -/
def endUse (prog : List TraceInst) : Use := { slotUse prog.length with touched := false }

theorem fetchUses_nil {iterations : ℕ} (htrace : s.trace = []) :
    s.fetchUses (iterations + 1) = [{ slotUse s.dispatchQueueTail with touched := false }] := by
  rw [Proc.fetchUses, htrace]

theorem fetchUses_cons {iterations : ℕ} {inst : TraceInst} {trace : List TraceInst}
    (htrace : s.trace = inst :: trace) :
    s.fetchUses (iterations + 1) = slotUse s.dispatchQueueTail ::
      if s.dispatchQueueTail < dqDataStructureSize then
        (if inst.opcode = .br then [s.counterUse inst.instAddr] else []) ++
          (s.fetchOne inst trace).fetchUses iterations
      else [] := by
  rw [Proc.fetchUses, htrace]

/-- Every instruction is written to its own slot. -/
theorem Books.fetchUses (h : Books prog s) (iterations : ℕ) : ∀ use ∈ s.fetchUses iterations,
    use.InBounds ∨ (∃ k < prog.length, use = slotUse k) ∨ use = endUse prog := by
  induction iterations generalizing s with
  | zero =>
      intro use huse
      cases huse
  | succ iterations ih =>
      have htail := h.tail_add
      intro use huse
      rcases htrace : s.trace with - | ⟨inst, trace⟩
      · rw [htrace, List.length_nil, Nat.add_zero] at htail
        rw [fetchUses_nil htrace] at huse
        obtain rfl := List.mem_singleton.mp huse
        right
        right
        unfold endUse
        rw [htail]
      · rw [htrace, List.length_cons] at htail
        rw [fetchUses_cons htrace] at huse
        rcases List.mem_cons.mp huse with rfl | huse
        · exact .inr (.inl ⟨s.dispatchQueueTail, by omega, rfl⟩)
        · split at huse
          · rename_i hlt
            rcases List.mem_append.mp huse with hcounter | hrest
            · split at hcounter
              · obtain rfl := List.mem_singleton.mp hcounter
                exact .inl (counterUse_inBounds s _)
              · cases hcounter
            · exact ih (h.fetchOne htrace hlt) use hrest
          · cases huse

/-- When the loop fails, it has written to a slot that does not exist. -/
theorem fetchLoop_error {iterations : ℕ} {fault : Fault}
    (h : Proc.fetchLoop iterations s = .error fault) :
    ∃ use ∈ s.fetchUses iterations, use.touched = true ∧ ¬ use.InBounds := by
  induction iterations generalizing s with
  | zero => cases h
  | succ iterations ih =>
      rcases htrace : s.trace with - | ⟨inst, trace⟩
      · rw [Proc.fetchLoop_nil htrace] at h
        cases h
      · rw [Proc.fetchLoop_cons htrace] at h
        rw [fetchUses_cons htrace]
        by_cases hlt : s.dispatchQueueTail < dqDataStructureSize
        · rw [if_pos hlt] at h ⊢
          obtain ⟨use, huse, hout⟩ := ih h
          exact ⟨use, List.mem_cons_of_mem _ (List.mem_append_right _ huse), hout⟩
        · exact ⟨_, List.mem_cons_self, rfl, hlt⟩

/-- When the loop finds the end of the trace, it has taken the address behind it. -/
theorem Books.fetchLoop_end (h : Books prog s) {iterations : ℕ}
    (hloop : Proc.fetchLoop iterations s = .ok (false, s')) :
    endUse prog ∈ s.fetchUses iterations := by
  induction iterations generalizing s with
  | zero => cases hloop
  | succ iterations ih =>
      rcases htrace : s.trace with - | ⟨inst, trace⟩
      · have htail := h.tail_add
        rw [htrace, List.length_nil, Nat.add_zero] at htail
        rw [fetchUses_nil htrace, htail]
        exact List.mem_singleton_self _
      · rw [Proc.fetchLoop_cons htrace] at hloop
        rw [fetchUses_cons htrace]
        by_cases hlt : s.dispatchQueueTail < dqDataStructureSize
        · rw [if_pos hlt] at hloop ⊢
          exact List.mem_cons_of_mem _
            (List.mem_append_right _ (ih (h.fetchOne htrace hlt) hloop))
        · rw [if_neg hlt] at hloop
          cases hloop

/-! ### Runs -/

/-- What a run uses is in bounds, or is the slot of an instruction or the end of these slots. -/
theorem Uses.cases {trace : List TraceInst} {use : Use} (h : Uses conf qsort trace use) :
    use.InBounds ∨ (∃ k < trace.length, use = slotUse k) ∨ use = endUse trace := by
  cases h with
  | setup huse => exact .inl (setupUses_inBounds use huse)
  | @stage stage s _ hreach _ huse =>
      cases stage with
      | updateState => exact .inl (hreach.ledger.updateState_inBounds use huse)
      | executeInstr => exact .inl (hreach.unitsOk.executeInstr_inBounds use huse)
      | scheduleInstr => exact .inl (scheduleInstr_inBounds s use huse)
      | dispatchInstr => exact .inl (hreach.ledger.books.dispatchInstr_inBounds use huse)
      | fetchInstr =>
          have huse' : use ∈ if s.continueFetch then s.fetchUses conf.f else [] := huse
          split at huse'
          · exact hreach.ledger.books.fetchUses conf.f use huse'
          · cases huse'
      | updateState2 => exact .inl (updateState2_inBounds s use huse)

/-- `continue_fetch` is cleared when the end of the trace has been found. -/
theorem Reached.endUse {trace : List TraceInst} {stage : Stage}
    (h : Reached conf qsort trace stage s) (hmore : s.continueFetch = false) :
    Uses conf qsort trace (endUse trace) := by
  induction h with
  | setup => cases hmore
  | @step stage s s' hreach _ hrun ih =>
      have hbooks := hreach.ledger.books
      cases stage with
      | updateState =>
          obtain rfl := Except.ok.inj hrun
          exact ih ((beginCycle_updated s).continueFetch ▸ hmore)
      | executeInstr =>
          obtain rfl := Except.ok.inj hrun
          exact ih ((executeInstr_same s).1.continueFetch ▸ hmore)
      | scheduleInstr =>
          obtain rfl := Except.ok.inj hrun
          exact ih ((scheduleInstr_same s).1.continueFetch ▸ hmore)
      | dispatchInstr =>
          obtain rfl := Except.ok.inj hrun
          exact ih (dispatchInstr_continueFetch hbooks ▸ hmore)
      | fetchInstr =>
          rcases hfetching : s.continueFetch with - | -
          · exact ih hfetching
          · have hfetch : s.fetchStage = .ok s' := hrun
            unfold Proc.fetchStage at hfetch
            rw [if_pos hfetching] at hfetch
            obtain ⟨⟨more, s₁⟩, hloop, hend⟩ := Exec.bind_eq_ok hfetch
            obtain rfl := Except.ok.inj hend
            obtain rfl : more = false := hmore
            refine .stage hreach (fun e => by cases e) ?_
            show _ ∈ if s.continueFetch then s.fetchUses conf.f else []
            rw [if_pos hfetching]
            exact hbooks.fetchLoop_end hloop
      | updateState2 =>
          obtain rfl := Except.ok.inj hrun
          obtain ⟨cumulativeSize, e⟩ := endCycle_eq qsort hbooks
          rw [e] at hmore
          exact ih hmore

/-- A run finds the end of its trace, unless it fails before. -/
theorem endUse_or_overflow (conf : ProcConf) (qsort : Qsort conf) (trace : List TraceInst) :
    (Uses conf qsort trace (endUse trace) ∧ trace.length ≤ dqDataStructureSize) ∨
      ∃ use, Uses conf qsort trace use ∧ use.touched = true ∧ ¬ use.InBounds := by
  by_cases hok : ∀ s, Reached conf qsort trace .fetchInstr s → ∃ s', s.fetchStage = .ok s'
  · left
    -- nothing is left to do, so `continue_fetch` has been cleared
    obtain ⟨s, -, hreach, hidle⟩ := run_ends hok
    have hmore : s.continueFetch = false :=
      Bool.eq_false_of_not_eq_true fun hmore => hidle (.inl hmore)
    have htail := hreach.ledger.books.tail_add
    rw [hreach.fetching.drained hmore, List.length_nil, Nat.add_zero] at htail
    exact ⟨hreach.endUse hmore, htail ▸ hreach.ledger.books.queueOk.tail_le⟩
  · right
    simp only [not_forall] at hok
    obtain ⟨s, hreach, hfail⟩ := hok
    unfold Proc.fetchStage at hfail
    split at hfail
    · rename_i hmore
      rcases hloop : Proc.fetchInstr s with fault | ⟨more, s'⟩
      · obtain ⟨use, huse, hout⟩ := fetchLoop_error hloop
        refine ⟨use, .stage hreach (fun e => by cases e) ?_, hout⟩
        show use ∈ if s.continueFetch then s.fetchUses conf.f else []
        rw [if_pos hmore]
        exact huse
      · rw [hloop] at hfail
        exact absurd ⟨_, rfl⟩ hfail
    · exact absurd ⟨_, rfl⟩ hfail

/-- A trace that is too long makes `fetch_instr` write behind `dispatch_queue`. -/
theorem exists_overflow (conf : ProcConf) (qsort : Qsort conf) {trace : List TraceInst}
    (hlen : dqDataStructureSize < trace.length) :
    ∃ use, Uses conf qsort trace use ∧ use.touched = true ∧ ¬ use.InBounds := by
  rcases endUse_or_overflow conf qsort trace with ⟨-, hle⟩ | hoverflow
  · exact absurd hle (Nat.not_le.mpr hlen)
  · exact hoverflow

/-- **Every element that a run reads or writes is in bounds** if and only if the trace fits
into `dispatch_queue`.  Every index that it uses is, the one included whose address is passed
to `read_instruction` at the end of the trace, if and only if a slot remains for that. -/
theorem uses_inBounds_iff (conf : ProcConf) (qsort : Qsort conf) (trace : List TraceInst) :
    ((∀ use, Uses conf qsort trace use → use.touched = true → use.InBounds) ↔
      trace.length ≤ dqDataStructureSize) ∧
    ((∀ use, Uses conf qsort trace use → use.InBounds) ↔ trace.length < dqDataStructureSize) := by
  constructor
  · constructor
    · intro h
      by_contra hlen
      obtain ⟨use, huse, htouched, hout⟩ := exists_overflow conf qsort (Nat.lt_of_not_le hlen)
      exact hout (h use huse htouched)
    · intro hlen use huse htouched
      rcases huse.cases with hin | ⟨k, hk, rfl⟩ | rfl
      · exact hin
      · exact hk.trans_le hlen
      · cases htouched
  · constructor
    · intro h
      rcases endUse_or_overflow conf qsort trace with ⟨huse, -⟩ | ⟨use, huse, -, hout⟩
      · exact h _ huse
      · exact absurd (h use huse) hout
    · intro hlen use huse
      rcases huse.cases with hin | ⟨k, hk, rfl⟩ | rfl
      · exact hin
      · exact hk.trans hlen
      · exact hlen

/-- NOPs, one more than `dispatch_queue` has slots. -/
theorem not_inBounds_nops : ¬∀ (conf : ProcConf) (qsort : Qsort conf) (trace : List TraceInst),
    6 ≤ conf.c → 1 ≤ conf.g →
      ∀ use, Uses conf qsort trace use → use.touched = true → use.InBounds := by
  intro h
  have hlen : dqDataStructureSize < (List.replicate (dqDataStructureSize + 1)
      (⟨0, .nop, none, fun _ => none, 0, false⟩ : TraceInst)).length := by
    rw [List.length_replicate]
    exact Nat.lt_succ_self _
  obtain ⟨use, huse, htouched, hout⟩ := exists_overflow smallConf (keepOrder smallConf) hlen
  exact hout (h _ _ _ (by decide) (by decide) use huse htouched)

end ProjectArchive.Tomasulo
