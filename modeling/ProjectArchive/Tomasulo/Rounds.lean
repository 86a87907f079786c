/-
ProjectArchive/Tomasulo/Rounds.lean

What one round of the loop of a stage does.

For every body there is one equation, or one case distinction, that shows the
state after the round as an update of the state before it; the invariants are
proved from these, and no later module unfolds a stage.
-/
import ProjectArchive.Tomasulo.Run

namespace ProjectArchive.Tomasulo

variable {conf : ProcConf}

/-! ### `update_state` -/

/-- A row after `done` has been completed. -/
def Row.wokenBy (row : Row) (done : Row) : Row :=
  match done.destReg with
  | none => row
  | some r => row.wake r done.destRegTag

/-- The register file after `done` has been completed. -/
def Row.writeBack (done : Row) (registerFile : Reg → Rf) : Reg → Rf :=
  match done.destReg with
  | none => registerFile
  | some r =>
      if (registerFile r).tag = done.destRegTag then
        Function.update registerFile r { registerFile r with ready := true }
      else registerFile

/-- What the broadcast of `done` makes ready. -/
def Row.produces (done : Row) (operand : Operand) : Prop :=
  operand.reg = done.destReg ∧ operand.reg ≠ none ∧ operand.tag = done.destRegTag

theorem Row.wokenBy_eq (row done : Row) : ∃ src, row.wokenBy done = { row with src := src } ∧
    ∀ k, (src k).reg = (row.src k).reg ∧ (src k).tag = (row.src k).tag ∧
      ((src k).ready = true ↔
        (row.src k).ready = true ∨ row.occupied = true ∧ done.produces (row.src k)) := by
  unfold Row.wokenBy
  rcases hdest : done.destReg with - | r
  · refine ⟨row.src, rfl, ?_⟩
    intro k
    simp only [Row.produces, hdest, true_and]
    refine ⟨Or.inl, ?_⟩
    rintro (h | ⟨-, hreg, hne, -⟩)
    · exact h
    · exact absurd hreg hne
  · show ∃ src, row.wake r done.destRegTag = _ ∧ _
    unfold Row.wake
    split
    · rename_i hocc
      refine ⟨_, rfl, ?_⟩
      intro k
      unfold Operand.wake
      split
      · rename_i hwake
        simp [Row.produces, hdest, hwake, hocc]
      · rename_i hwake
        simp only [Row.produces, hdest, hocc, true_and]
        refine ⟨Or.inl, ?_⟩
        rintro (h | ⟨hreg, -, htag⟩)
        · exact h
        · exact absurd ⟨htag, hreg⟩ hwake
    · rename_i hocc
      exact ⟨row.src, rfl, fun k => by simp [hocc]⟩

namespace Proc

variable (s : Proc conf) (i : Fin conf.scheduleQueueSize)

theorem resolve_eq (row : Row) : ∃ branchTable ghr,
    s.resolve row =
      { s with
        branchStarted :=
          if row.opcode = .br ∧ row.instr.mispredicted then false else s.branchStarted
        branchTable := branchTable
        ghr := ghr } := by
  unfold resolve
  split
  · rename_i hbr
    refine ⟨(s.resolveBranch row.instr).branchTable, (s.resolveBranch row.instr).ghr, ?_⟩
    simp only [hbr, true_and]
    rfl
  · rename_i hbr
    refine ⟨s.branchTable, s.ghr, ?_⟩
    simp only [hbr, false_and, if_false]

theorem deliver_eq (row : Row) :
    s.deliver row =
      { s with
        scheduleQueue := fun k => (s.scheduleQueue k).wokenBy row
        registerFile := row.writeBack s.registerFile } := by
  unfold deliver Row.wokenBy Row.writeBack
  rcases row.destReg with - | r
  · rfl
  · rfl

/-- One round of `update_state` that completes a row. -/
theorem completeRow_eq : ∃ branchTable ghr,
    s.completeRow i =
      { s with
        scheduleQueue := fun k =>
          (Function.update s.scheduleQueue i ((s.scheduleQueue i).completed s.cycle) k).wokenBy
            (s.scheduleQueue i)
        registerFile := (s.scheduleQueue i).writeBack s.registerFile
        finishedFu := Function.update s.finishedFu s.finishedFuIdx (some i)
        finishedFuIdx := s.finishedFuIdx + 1
        stats := { s.stats with instructionsRetired := s.stats.instructionsRetired + 1 }
        result := s.result ++ [((s.scheduleQueue i).completed s.cycle).instr.resultRow]
        history := s.history ++ [Mark.completed (s.scheduleQueue i).instr.sequentialTag]
        branchStarted :=
          if (s.scheduleQueue i).opcode = .br ∧ (s.scheduleQueue i).instr.mispredicted then false
          else s.branchStarted
        branchTable := branchTable
        ghr := ghr } := by
  obtain ⟨branchTable, ghr, e⟩ := resolve_eq
    (s.finishRow i ((s.scheduleQueue i).completed s.cycle)) ((s.scheduleQueue i).completed s.cycle)
  refine ⟨branchTable, ghr, ?_⟩
  unfold completeRow
  rw [deliver_eq, e]
  rfl

end Proc

/-! ### `execute_instr` -/

section Executing

variable (row : Row) (cycle : ℕ)

/-- Executing a row notes the cycle in its instruction, and changes nothing else. -/
theorem Row.executing_eq : ∃ execute executeFirst,
    row.executing cycle =
      { row with
        instr := { row.instr with execute := execute, executeFirst := executeFirst } } := by
  by_cases hfirst : row.instr.executeFirst = true
  · exact ⟨cycle, false, if_pos hfirst⟩
  · exact ⟨row.instr.execute, row.instr.executeFirst, if_neg hfirst⟩

@[simp] theorem Row.executing_opcode : (row.executing cycle).opcode = row.opcode := by
  obtain ⟨_, _, e⟩ := row.executing_eq cycle
  rw [e]

@[simp] theorem Row.executing_fu : (row.executing cycle).fu = row.fu := by
  obtain ⟨_, _, e⟩ := row.executing_eq cycle
  rw [e]

@[simp] theorem Row.executing_fired : (row.executing cycle).fired = row.fired := by
  obtain ⟨_, _, e⟩ := row.executing_eq cycle
  rw [e]

@[simp] theorem Row.executing_src : (row.executing cycle).src = row.src := by
  obtain ⟨_, _, e⟩ := row.executing_eq cycle
  rw [e]

@[simp] theorem Row.executing_lsConflictEnd :
    (row.executing cycle).lsConflictEnd = row.lsConflictEnd := by
  obtain ⟨_, _, e⟩ := row.executing_eq cycle
  rw [e]

@[simp] theorem Row.executing_remainingTime :
    (row.executing cycle).remainingTime = row.remainingTime := by
  obtain ⟨_, _, e⟩ := row.executing_eq cycle
  rw [e]

@[simp] theorem Row.executing_ldStAddr :
    (row.executing cycle).instr.ldStAddr = row.instr.ldStAddr := by
  obtain ⟨_, _, e⟩ := row.executing_eq cycle
  rw [e]

@[simp] theorem Row.executing_sequentialTag :
    (row.executing cycle).instr.sequentialTag = row.instr.sequentialTag := by
  obtain ⟨_, _, e⟩ := row.executing_eq cycle
  rw [e]

end Executing

section Marked

variable (cycle : ℕ) (inst : Inst)

@[simp] theorem Inst.marked_toTraceInst : (inst.marked cycle).toTraceInst = inst.toTraceInst := by
  unfold Inst.marked; split <;> rfl

@[simp] theorem Inst.marked_sequentialTag :
    (inst.marked cycle).sequentialTag = inst.sequentialTag := by
  unfold Inst.marked; split <;> rfl

end Marked

namespace Proc

variable (s : Proc conf) (i : Fin conf.scheduleQueueSize)

/-- The remaining time and the history after a row has been executed. -/
def Ticks (row : Row) (t : ℤ) (history : List Mark) : Prop :=
  row.remainingTime ≠ 11 ∧ t = row.remainingTime - 1 ∧ history = s.history ∨
    row.remainingTime = 11 ∧ (t = 0 ∨ t = 9) ∧
      history = s.history ++ [Mark.accessed row.instr.sequentialTag]

/-- The cache holds the block of an address. -/
def Holds (addr : BitVec 64) : Prop :=
  (s.l1Cache (conf.indexValue addr)).tag = addr.toNat / 2 ^ conf.c ∧
    (s.l1Cache (conf.indexValue addr)).valid = true

instance (addr : BitVec 64) : Decidable (s.Holds addr) := inferInstanceAs (Decidable (_ ∧ _))

/-- The remaining time, the cache and the misses after a row has been executed. -/
def Caches (row : Row) (t : ℤ) (l1Cache : ℕ → CacheBlock) (cacheMisses : ℕ) : Prop :=
  row.remainingTime ≠ 11 ∧ l1Cache = s.l1Cache ∧ cacheMisses = s.stats.cacheMisses ∨
    row.remainingTime = 11 ∧ (t = if s.Holds row.instr.ldStAddr then 0 else 9) ∧
      (∃ dirty, l1Cache = Function.update s.l1Cache (conf.indexValue row.instr.ldStAddr)
        ⟨true, row.instr.ldStAddr.toNat / 2 ^ conf.c, dirty⟩) ∧
      cacheMisses = s.stats.cacheMisses + if s.Holds row.instr.ldStAddr then 0 else 1

/-- Afterwards the cache holds the block that is accessed. -/
theorem cacheAccess_eq (addr : BitVec 64) (w : Bool) : ∃ dirty,
    s.cacheAccess addr w =
      (decide (s.Holds addr),
        { s with
          l1Cache := Function.update s.l1Cache (conf.indexValue addr)
            ⟨true, addr.toNat / 2 ^ conf.c, dirty⟩
          stats := { s.stats with
            cacheMisses := s.stats.cacheMisses + if s.Holds addr then 0 else 1 } }) := by
  by_cases hholds : s.Holds addr
  · refine ⟨w || (s.l1Cache (conf.indexValue addr)).dirty, ?_⟩
    have hblock : (⟨true, addr.toNat / 2 ^ conf.c, w || (s.l1Cache (conf.indexValue addr)).dirty⟩ :
        CacheBlock) = { s.l1Cache (conf.indexValue addr) with
          dirty := w || (s.l1Cache (conf.indexValue addr)).dirty } := by
      rw [← hholds.1, ← hholds.2]
    rw [hblock, decide_eq_true hholds, if_pos hholds]
    exact if_pos hholds
  · refine ⟨w, ?_⟩
    rw [decide_eq_false hholds, if_neg hholds]
    exact if_neg hholds

theorem accessRow_eq (row : Row) : ∃ t history l1Cache cacheMisses,
    s.accessRow row =
      ({ row with remainingTime := t + 1 },
        { s with
          l1Cache := l1Cache
          stats := { s.stats with cacheMisses := cacheMisses }
          history := history }) ∧
    s.Ticks row t history ∧ s.Caches row t l1Cache cacheMisses := by
  unfold accessRow
  split
  · rename_i h11
    obtain ⟨dirty, e⟩ := s.cacheAccess_eq row.instr.ldStAddr (row.opcode ≠ .load)
    rw [e]
    by_cases hholds : s.Holds row.instr.ldStAddr
    · rw [decide_eq_true hholds]
      refine ⟨0, _, _, _, rfl, .inr ⟨h11, .inl rfl, rfl⟩, .inr ⟨h11, ?_, ⟨dirty, rfl⟩, rfl⟩⟩
      rw [if_pos hholds]
    · rw [decide_eq_false hholds]
      refine ⟨9, _, _, _, rfl, .inr ⟨h11, .inr rfl, rfl⟩, .inr ⟨h11, ?_, ⟨dirty, rfl⟩, rfl⟩⟩
      rw [if_neg hholds]
  · rename_i h11
    refine ⟨row.remainingTime - 1, s.history, s.l1Cache, s.stats.cacheMisses, ?_,
      .inl ⟨h11, rfl, rfl⟩, .inl ⟨h11, rfl, rfl⟩⟩
    rw [Int.sub_add_cancel]

theorem releaseUnit_eq (row : Row) :
    s.releaseUnit row =
      { s with
        addUnit := s.addUnit + if row.opcode.usesAdder then 1 else 0
        lsUnit := s.lsUnit + if row.opcode.isLoadStore then 1 else 0
        lsFunctionalUnit :=
          if row.opcode.isLoadStore then
            Function.update s.lsFunctionalUnit row.fu
              { s.lsFunctionalUnit row.fu with busy := false }
          else s.lsFunctionalUnit } := by
  unfold releaseUnit
  rcases row.opcode with - | - | - | - | - | - <;> rfl

/-- A row that has not been fired is not executed. -/
theorem executeRow_eq_self
    (h : ¬ ((s.scheduleQueue i).occupied = true ∧ (s.scheduleQueue i).fired = true)) :
    s.executeRow i = s := by
  unfold executeRow
  rw [if_neg (by simpa using h)]

/-- The rule for what a row that is executed preserves. -/
theorem executeRow_preserves {P : Proc conf → Prop} (h0 : P s)
    (h : (s.scheduleQueue i).occupied = true → (s.scheduleQueue i).fired = true →
      P (s.executeRow i)) : P (s.executeRow i) := by
  by_cases hguard : (s.scheduleQueue i).occupied = true ∧ (s.scheduleQueue i).fired = true
  · exact h hguard.1 hguard.2
  · rw [s.executeRow_eq_self i hguard]
    exact h0

/-- One round of `execute_instr`. -/
theorem executeRow_eq (hocc : (s.scheduleQueue i).occupied = true)
    (hfired : (s.scheduleQueue i).fired = true) : ∃ t history l1Cache cacheMisses,
    s.executeRow i =
      { s with
        scheduleQueue := Function.update s.scheduleQueue i
          { (s.scheduleQueue i).executing s.cycle with remainingTime := t }
        l1Cache := l1Cache
        stats := { s.stats with cacheMisses := cacheMisses }
        history := history
        addUnit := s.addUnit + if t = 0 ∧ (s.scheduleQueue i).opcode.usesAdder then 1 else 0
        lsUnit := s.lsUnit + if t = 0 ∧ (s.scheduleQueue i).opcode.isLoadStore then 1 else 0
        lsFunctionalUnit :=
          if t = 0 ∧ (s.scheduleQueue i).opcode.isLoadStore then
            Function.update s.lsFunctionalUnit (s.scheduleQueue i).fu
              { s.lsFunctionalUnit (s.scheduleQueue i).fu with busy := false }
          else s.lsFunctionalUnit } ∧
    s.Ticks (s.scheduleQueue i) t history ∧
    s.Caches (s.scheduleQueue i) t l1Cache cacheMisses := by
  obtain ⟨t, history, l1Cache, cacheMisses, e, ht, hcache⟩ :=
    s.accessRow_eq ((s.scheduleQueue i).executing s.cycle)
  refine ⟨t, history, l1Cache, cacheMisses, ?_, by simpa [Ticks] using ht,
    by simpa [Caches] using hcache⟩
  have hguard : ((s.scheduleQueue i).occupied && (s.scheduleQueue i).fired) = true := by
    rw [hocc, hfired]
    rfl
  unfold executeRow
  rw [if_pos hguard, e]
  dsimp only
  rw [Int.add_sub_cancel]
  by_cases h0 : t = 0
  · rw [if_pos h0, releaseUnit_eq]
    simp [h0, setRow]
  · rw [if_neg h0]
    simp [h0, setRow]

/-! ### `schedule_instr` -/

/-- The unit that a row takes when it is fired, with the time it needs: the
arguments after the row are `remaining_time`, `fu`, `add_unit`,
`sche_mul_unit`, `ls_unit` and `ls_functional_unit` afterwards. -/
inductive Takes (row : Row) : ℤ → ℕ → ℕ → ℕ → ℕ → (ℕ → Fu) → Prop
  | adder (hop : row.opcode.usesAdder = true) (hunit : 0 < s.addUnit) :
      Takes row 1 row.fu (s.addUnit - 1) s.scheMulUnit s.lsUnit s.lsFunctionalUnit
  | multiplier (hop : row.opcode = .mul) (hunit : 0 < s.scheMulUnit) :
      Takes row 3 row.fu s.addUnit (s.scheMulUnit - 1) s.lsUnit s.lsFunctionalUnit
  | loadStore (u : ℕ) (hop : row.opcode.isLoadStore = true) (hunit : 0 < s.lsUnit)
      (hope : s.cacheOpeable row = true) (hu : u < conf.k2)
      (hfree : (s.lsFunctionalUnit u).busy = false) :
      Takes row 11 u s.addUnit s.scheMulUnit (s.lsUnit - 1)
        (Function.update s.lsFunctionalUnit u
          ⟨true, some row.opcode, conf.indexValue row.instr.ldStAddr, row.instr.ldStAddr⟩)

/-- Nothing is free for a row that is ready. -/
def NoUnit (row : Row) : Prop :=
  (row.opcode.usesAdder = true → s.addUnit = 0) ∧
  (row.opcode = .mul → s.scheMulUnit = 0) ∧
  (row.opcode.isLoadStore = true → s.lsUnit = 0 ∨ s.cacheOpeable row = false)

/-- What `tryFire` does with `row`, which is the row `i` of `s`. -/
inductive TriesFire (row : Row) : Proc conf → Prop
  | waits (hunit : s.NoUnit row) : TriesFire row s
  | fires {t u addUnit scheMulUnit lsUnit lsFunctionalUnit}
      (htakes : s.Takes row t u addUnit scheMulUnit lsUnit lsFunctionalUnit) :
      TriesFire row
        { s with
          scheduleQueue := Function.update s.scheduleQueue i
            { row with fired := true, remainingTime := t, fu := u }
          history := s.history ++ [Mark.fired row.instr.sequentialTag]
          addUnit := addUnit
          scheMulUnit := scheMulUnit
          lsUnit := lsUnit
          lsFunctionalUnit := lsFunctionalUnit }
  | leaks (hop : row.opcode.isLoadStore = true) (hunit : 0 < s.lsUnit)
      (hbusy : ∀ u < conf.k2, (s.lsFunctionalUnit u).busy = true) :
      TriesFire row
        { s with
          scheduleQueue := Function.update s.scheduleQueue i { row with remainingTime := 11 }
          lsUnit := s.lsUnit - 1 }

theorem issueRow_cases {row : Row} (hop : row.opcode.isLoadStore = true)
    (hcon : row.lsConflictEnd = true) (hunit : 0 < s.lsUnit) (hope : s.cacheOpeable row = true) :
    s.TriesFire i row (s.issueRow i row) := by
  unfold issueRow
  dsimp only [setRow]
  split
  · rename_i hnone
    have hbusy : ∀ u < conf.k2, (s.lsFunctionalUnit u).busy = true := by
      simpa using hnone
    exact .leaks hop hunit hbusy
  · rename_i u hsome
    have hfree : (s.lsFunctionalUnit u).busy = false := by
      simpa using List.find?_some hsome
    have hu : u < conf.k2 := List.mem_range.mp (List.mem_of_find?_eq_some hsome)
    have hfires := TriesFire.fires (i := i) (Takes.loadStore u hop hunit hope hu hfree)
    simpa [fireRow, setRow, note, hcon] using hfires

theorem tryFire_cases {row : Row} (hcon : row.lsConflictEnd = true) :
    s.TriesFire i row (s.tryFire i row) := by
  have hadder : row.opcode.usesAdder = true → s.TriesFire i row
      (if 0 < s.addUnit then
        { s.fireRow i { row with remainingTime := 1 } with addUnit := s.addUnit - 1 }
      else s) := by
    intro hop
    split
    · rename_i hunit
      exact .fires (.adder hop hunit)
    · rename_i hunit
      refine .waits ⟨fun _ => Nat.eq_zero_of_not_pos hunit, ?_, ?_⟩ <;>
        rcases e : row.opcode <;> simp_all [Opcode.usesAdder, Opcode.isLoadStore]
  have hloadStore : row.opcode.isLoadStore = true → s.TriesFire i row
      (if 0 < s.lsUnit && s.cacheOpeable row then s.issueRow i row else s) := by
    intro hop
    split
    · rename_i hguard
      obtain ⟨hunit, hope⟩ : 0 < s.lsUnit ∧ s.cacheOpeable row = true := by
        simpa using hguard
      exact issueRow_cases s i hop hcon hunit hope
    · rename_i hguard
      have hwhy : s.lsUnit = 0 ∨ s.cacheOpeable row = false := by
        rcases Nat.eq_zero_or_pos s.lsUnit with h0 | hpos
        · exact .inl h0
        · exact .inr (by simpa [hpos] using hguard)
      refine .waits ⟨?_, ?_, fun _ => hwhy⟩ <;>
        rcases e : row.opcode <;> simp_all [Opcode.usesAdder, Opcode.isLoadStore]
  unfold tryFire
  split
  · rename_i e
    exact hadder (by simp [e, Opcode.usesAdder])
  · rename_i e
    exact hadder (by simp [e, Opcode.usesAdder])
  · rename_i e
    split
    · rename_i hunit
      exact .fires (.multiplier e hunit)
    · rename_i hunit
      refine .waits ⟨?_, fun _ => Nat.eq_zero_of_not_pos hunit, ?_⟩ <;>
        simp [e, Opcode.usesAdder, Opcode.isLoadStore]
  · rename_i e
    exact hloadStore (by simp [e, Opcode.isLoadStore])
  · rename_i e
    exact hloadStore (by simp [e, Opcode.isLoadStore])
  · rename_i e
    exact .waits (by simp [NoUnit, e, Opcode.usesAdder, Opcode.isLoadStore])

/-- One round of `schedule_instr`. -/
inductive Schedules : Proc conf → Prop
  | passes (h : (s.scheduleQueue i).occupied = false ∨ (s.scheduleQueue i).fired = true) :
      Schedules s
  | unready (hocc : (s.scheduleQueue i).occupied = true)
      (hfired : (s.scheduleQueue i).fired = false)
      (hready : ∃ k, ((s.scheduleQueue i).src k).ready = false) :
      Schedules (s.setRow i ((s.scheduleQueue i).scheduling s.cycle))
  | ready {s' : Proc conf} (hocc : (s.scheduleQueue i).occupied = true)
      (hfired : (s.scheduleQueue i).fired = false)
      (hready : ∀ k, ((s.scheduleQueue i).src k).ready = true)
      (htries : (s.setRow i ((s.scheduleQueue i).scheduling s.cycle)).TriesFire i
        ((s.scheduleQueue i).scheduling s.cycle) s') :
      Schedules s'

theorem scheduleRow_cases : s.Schedules i (s.scheduleRow i) := by
  unfold scheduleRow
  split
  · rename_i hguard
    obtain ⟨hocc, hfired⟩ : (s.scheduleQueue i).occupied = true ∧
        (s.scheduleQueue i).fired = false := by
      simpa using hguard
    dsimp only
    split
    · rename_i hready
      refine .ready hocc hfired ?_ (tryFire_cases _ i rfl)
      have hboth : ((s.scheduleQueue i).src 0).ready = true ∧
          ((s.scheduleQueue i).src 1).ready = true := by
        simpa [Row.scheduling] using hready
      exact Fin.forall_fin_two.mpr hboth
    · rename_i hready
      refine .unready hocc hfired ?_
      by_contra hall
      apply hready
      have hall' : ∀ k, ((s.scheduleQueue i).src k).ready = true := by simpa using hall
      simp [Row.scheduling, hall']
  · rename_i hguard
    refine .passes ?_
    rcases e : (s.scheduleQueue i).occupied with - | -
    · exact .inl rfl
    · exact .inr (by simpa [e] using hguard)

/-- What a round of `schedule_instr` may write. -/
theorem scheduleRow_eq : ∃ scheduleQueue history addUnit scheMulUnit lsUnit lsFunctionalUnit,
    s.scheduleRow i =
      { s with
        scheduleQueue := scheduleQueue
        history := history
        addUnit := addUnit
        scheMulUnit := scheMulUnit
        lsUnit := lsUnit
        lsFunctionalUnit := lsFunctionalUnit } := by
  have hcases := s.scheduleRow_cases i
  generalize s.scheduleRow i = s' at hcases ⊢
  cases hcases with
  | passes _ => exact ⟨_, _, _, _, _, _, rfl⟩
  | unready _ _ _ => exact ⟨_, _, _, _, _, _, rfl⟩
  | ready _ _ _ htries =>
      cases htries with
      | waits _ => exact ⟨_, _, _, _, _, _, rfl⟩
      | fires _ => exact ⟨_, _, _, _, _, _, rfl⟩
      | leaks _ _ _ => exact ⟨_, _, _, _, _, _, rfl⟩

/-! ### `dispatch_instr` -/

/-- The instruction `k` of the queue after `markDispatch`. -/
theorem markDispatch_get (k : ℕ) :
    s.markDispatch.dispatchQueue[k]? =
      if k < s.tempIterator then s.dispatchQueue[k]?
      else s.dispatchQueue[k]?.map (Inst.marked s.cycle) := by
  show (s.dispatchQueue.take s.tempIterator ++
    (s.dispatchQueue.drop s.tempIterator).map (Inst.marked s.cycle))[k]? = _
  split
  · rename_i hlt
    rcases Nat.lt_or_ge k s.dispatchQueue.length with hk | hk
    · rw [List.getElem?_append_left (by simp [hlt, hk]), List.getElem?_take_of_lt hlt]
    · rw [List.getElem?_eq_none (by simp; omega), List.getElem?_eq_none hk]
  · rename_i hge
    rcases Nat.lt_or_ge s.dispatchQueue.length s.tempIterator with hn | hn
    · rw [List.getElem?_eq_none (by simp; omega), List.getElem?_eq_none (by omega)]
      rfl
    · have hlen : (s.dispatchQueue.take s.tempIterator).length = s.tempIterator := by
        simp [hn]
      rw [List.getElem?_append_right (by omega), hlen, List.getElem?_map, List.getElem?_drop]
      rw [Nat.add_sub_cancel' (Nat.le_of_not_lt hge)]

theorem markDispatch_tail : s.markDispatch.dispatchQueueTail = s.dispatchQueueTail := by
  show (s.dispatchQueue.take s.tempIterator ++
    (s.dispatchQueue.drop s.tempIterator).map (Inst.marked s.cycle)).length = _
  rw [List.length_append, List.length_map, ← List.length_append, List.take_append_drop]
  rfl

/-- The head of the queue moves over `k` instructions. -/
def skip (k : ℕ) : Proc conf :=
  { s with
    dispatchQueueHead := s.dispatchQueueHead + k
    dispatchQueueSize := s.dispatchQueueSize - k }

/-- The next `k` instructions of the queue are NOPs. -/
def NopsAhead (k : ℕ) : Prop :=
  ∀ m < k, ∃ inst, s.dispatchQueue[s.dispatchQueueHead + m]? = some inst ∧ inst.opcode = .nop

/-- `dispatch_queue_size` is right. -/
def SizeOk : Prop :=
  s.dispatchQueueHead ≤ s.dispatchQueueTail ∧
    s.dispatchQueueSize = (s.dispatchQueueTail : ℤ) - s.dispatchQueueHead

variable {s}

theorem skip_skip (k m : ℕ) : (s.skip k).skip m = s.skip (k + m) := by
  unfold skip
  simp only [Nat.add_assoc, Int.natCast_add, Int.sub_sub]

theorem NopsAhead.cons {inst : Inst} (h0 : s.dispatchQueue[s.dispatchQueueHead]? = some inst)
    (hnop : inst.opcode = .nop) {k : ℕ} (h : (s.skip 1).NopsAhead k) : s.NopsAhead (k + 1) := by
  intro m hm
  rcases m with - | m
  · exact ⟨inst, h0, hnop⟩
  · obtain ⟨inst', h', hnop'⟩ := h m (Nat.lt_of_succ_lt_succ hm)
    refine ⟨inst', ?_, hnop'⟩
    rw [← h', Nat.add_comm m 1, ← Nat.add_assoc]
    rfl

/-- The instruction at the head of the queue is left behind. -/
theorem SizeOk.skip_one (h : s.SizeOk) (hlt : s.dispatchQueueHead < s.dispatchQueueTail) :
    (s.skip 1).SizeOk := by
  refine ⟨hlt, ?_⟩
  show s.dispatchQueueSize - _ = (s.dispatchQueueTail : ℤ) - _
  simp only [skip, h.2]
  omega

theorem drop_skip_one {inst : Inst} {queue : List Inst}
    (h : inst :: queue = s.dispatchQueue.drop s.dispatchQueueHead) :
    queue = (s.skip 1).dispatchQueue.drop (s.skip 1).dispatchQueueHead := by
  show queue = s.dispatchQueue.drop (s.dispatchQueueHead + 1)
  rw [← List.tail_drop, ← h]
  rfl

/-- The loop over the NOPs ends at the tail of the queue, or at an instruction
that is none. -/
theorem skipNops_cases {queue : List Inst}
    (hqueue : queue = s.dispatchQueue.drop s.dispatchQueueHead) (hsize : s.SizeOk) :
    ∃ k, s.NopsAhead k ∧
      (skipNops queue s = (none, s.skip k) ∧ s.dispatchQueueHead + k = s.dispatchQueueTail ∨
        ∃ inst, skipNops queue s = (some inst, s.skip k) ∧
          s.dispatchQueue[s.dispatchQueueHead + k]? = some inst ∧ inst.opcode ≠ .nop) := by
  induction queue generalizing s with
  | nil =>
      refine ⟨0, fun m hm => absurd hm (Nat.not_lt_zero m), .inl ⟨by simp [skipNops, skip], ?_⟩⟩
      have hle : s.dispatchQueueTail ≤ s.dispatchQueueHead := List.drop_eq_nil_iff.mp hqueue.symm
      exact Nat.le_antisymm hsize.1 hle
  | cons inst queue ih =>
      have hhead : s.dispatchQueue[s.dispatchQueueHead]? = some inst := by
        rw [← List.head?_drop, ← hqueue]
        rfl
      have hlt : s.dispatchQueueHead < s.dispatchQueueTail := (List.getElem?_eq_some_iff.mp hhead).1
      rcases Decidable.em (inst.opcode = .nop) with hnop | hnop
      · have hstep : skipNops (inst :: queue) s =
            if (s.skip 1).dispatchQueueSize = 0 then (none, s.skip 1)
            else skipNops queue (s.skip 1) := by
          rw [skipNops, if_pos hnop]
          rfl
        have hsize' := hsize.skip_one hlt
        rw [hstep]
        split
        · -- the queue ends after this NOP
          rename_i h0
          refine ⟨1, .cons hhead hnop fun m hm => absurd hm (Nat.not_lt_zero m), .inl ⟨rfl, ?_⟩⟩
          have hs := hsize'.2
          rw [h0] at hs
          have htail : (s.skip 1).dispatchQueueTail = s.dispatchQueueTail := rfl
          have hhead' : (s.skip 1).dispatchQueueHead = s.dispatchQueueHead + 1 := rfl
          omega
        · obtain ⟨k, hnops, hend | ⟨inst', hend, hget, hne⟩⟩ := ih (drop_skip_one hqueue) hsize'
          · refine ⟨k + 1, .cons hhead hnop hnops, .inl ⟨?_, ?_⟩⟩
            · rw [hend.1, skip_skip, Nat.add_comm]
            · rw [Nat.add_comm k, ← Nat.add_assoc]
              exact hend.2
          · refine ⟨k + 1, .cons hhead hnop hnops, .inr ⟨inst', ?_, ?_, hne⟩⟩
            · rw [hend, skip_skip, Nat.add_comm]
            · rw [Nat.add_comm k, ← Nat.add_assoc]
              exact hget
      · refine ⟨0, fun m hm => absurd hm (Nat.not_lt_zero m), .inr ⟨inst, ?_, hhead, hnop⟩⟩
        rw [skipNops, if_neg hnop]
        simp [skip]

variable (s)

/-- The instruction is moved to the row. -/
theorem placeRow_eq (inst : Inst) :
    s.placeRow i inst =
      { s with
        scheduleQueue := Function.update s.scheduleQueue i
          ((s.scheduleQueue i).fill s.registerFile s.instrTag inst)
        dispatchQueueHead := s.dispatchQueueHead + 1
        dispatchQueueSize := s.dispatchQueueSize - 1
        instCntSq := s.instCntSq + 1
        instrTag := s.instrTag + 1
        registerFile := rename s.registerFile inst.destReg s.instrTag
        branchStarted :=
          if inst.opcode = .br ∧ inst.mispredicted then true else s.branchStarted
        dispatching :=
          if inst.opcode = .br ∧ inst.mispredicted then false else s.dispatching } := by
  unfold placeRow
  dsimp only
  split
  · rfl
  · rfl

section Place

variable (inst : Inst)

theorem placeRow_self : (s.placeRow i inst).scheduleQueue i =
    (s.scheduleQueue i).fill s.registerFile s.instrTag inst := by
  rw [placeRow_eq]
  exact Function.update_self ..

variable {i} in
theorem placeRow_of_ne {k : Fin conf.scheduleQueueSize} (hk : k ≠ i) :
    (s.placeRow i inst).scheduleQueue k = s.scheduleQueue k := by
  rw [placeRow_eq]
  exact Function.update_of_ne hk ..

theorem placeRow_head : (s.placeRow i inst).dispatchQueueHead = s.dispatchQueueHead + 1 := by
  rw [placeRow_eq]

theorem placeRow_instCntSq : (s.placeRow i inst).instCntSq = s.instCntSq + 1 := by
  rw [placeRow_eq]

theorem placeRow_result : (s.placeRow i inst).result = s.result := by
  rw [placeRow_eq]

theorem placeRow_finishedFu : (s.placeRow i inst).finishedFu = s.finishedFu := by
  rw [placeRow_eq]

end Place

/-- One round of `dispatch_instr`. -/
inductive Dispatches : Proc conf → Prop
  | stopped (h : s.dispatching = false) : Dispatches s
  | empty (hdisp : s.dispatching = true) (h : s.dispatchQueueHead = s.dispatchQueueTail) :
      Dispatches { s with dispatching := false }
  | full (hdisp : s.dispatching = true) (hne : s.dispatchQueueHead ≠ s.dispatchQueueTail)
      (hocc : (s.scheduleQueue i).occupied = true) : Dispatches s
  | ends (k : ℕ) (hdisp : s.dispatching = true)
      (hne : s.dispatchQueueHead ≠ s.dispatchQueueTail)
      (hocc : (s.scheduleQueue i).occupied = false) (hnops : s.NopsAhead k)
      (hk : s.dispatchQueueHead + k = s.dispatchQueueTail) :
      Dispatches { s.skip k with dispatching := false }
  | places (k : ℕ) (inst : Inst) (hdisp : s.dispatching = true)
      (hocc : (s.scheduleQueue i).occupied = false) (hnops : s.NopsAhead k)
      (hget : s.dispatchQueue[s.dispatchQueueHead + k]? = some inst)
      (hop : inst.opcode ≠ .nop) : Dispatches ((s.skip k).placeRow i inst)

variable {s} in
theorem dispatchRow_cases (hsize : s.SizeOk) : s.Dispatches i (s.dispatchRow i) := by
  unfold dispatchRow
  rcases hdisp : s.dispatching with - | -
  · exact .stopped hdisp
  · rw [if_neg (by simp)]
    split
    · rename_i h
      exact .empty hdisp h
    · rename_i hne
      split
      · rename_i hocc
        exact .full hdisp hne hocc
      · rename_i hocc
        have hocc' : (s.scheduleQueue i).occupied = false := by simpa using hocc
        obtain ⟨k, hnops, hend | ⟨inst, hend, hget, hop⟩⟩ := skipNops_cases rfl hsize
        · rw [hend.1]
          exact .ends k hdisp hne hocc' hnops hend.2
        · rw [hend]
          exact .places k inst hdisp hocc' hnops hget hop

/-! ### `fetch_instr` -/

variable {s}

theorem fetchLoop_nil {iterations : ℕ} (htrace : s.trace = []) :
    fetchLoop (iterations + 1) s = .ok (false, s) := by
  rw [fetchLoop, htrace]

theorem fetchLoop_cons {iterations : ℕ} {inst : TraceInst} {trace : List TraceInst}
    (htrace : s.trace = inst :: trace) :
    fetchLoop (iterations + 1) s =
      if s.dispatchQueueTail < dqDataStructureSize then fetchLoop iterations (s.fetchOne inst trace)
      else .error .dispatchQueueOverflow := by
  rw [fetchLoop, htrace]

/-- The rule for what every instruction that is fetched preserves. -/
theorem fetchLoop_induction {P : Proc conf → Prop}
    (hstep : ∀ s inst trace, P s → s.trace = inst :: trace →
      s.dispatchQueueTail < dqDataStructureSize → P (s.fetchOne inst trace))
    {iterations : ℕ} {more : Bool} {s' : Proc conf} (h0 : P s)
    (h : fetchLoop iterations s = .ok (more, s')) :
    P s' ∧ (more = false → s'.trace = []) := by
  induction iterations generalizing s with
  | zero =>
      obtain ⟨rfl, rfl⟩ : true = more ∧ s = s' := by simpa [fetchLoop] using h
      exact ⟨h0, by simp⟩
  | succ iterations ih =>
      rcases htrace : s.trace with - | ⟨inst, trace⟩
      · rw [fetchLoop_nil htrace] at h
        obtain ⟨rfl, rfl⟩ : false = more ∧ s = s' := by simpa using h
        exact ⟨h0, fun _ => htrace⟩
      · rw [fetchLoop_cons htrace] at h
        split at h
        · rename_i hlt
          exact ih (hstep s inst trace h0 htrace hlt) h
        · cases h

/-- The same for the stage; `continue_fetch` is cleared only at the end of the trace. -/
theorem fetchStage_induction {P : Proc conf → Prop}
    (hstep : ∀ s inst trace, P s → s.trace = inst :: trace →
      s.dispatchQueueTail < dqDataStructureSize → P (s.fetchOne inst trace))
    (hmore : ∀ s more, P s → P { s with continueFetch := more })
    {s' : Proc conf} (h0 : P s) (h : s.fetchStage = .ok s') : P s' := by
  unfold fetchStage at h
  split at h
  · obtain ⟨⟨more, s₁⟩, hloop, hend⟩ := Exec.bind_eq_ok h
    obtain rfl := Except.ok.inj hend
    exact hmore s₁ more (fetchLoop_induction hstep h0 hloop).1
  · obtain rfl := Except.ok.inj h
    exact h0

end Proc

end ProjectArchive.Tomasulo
