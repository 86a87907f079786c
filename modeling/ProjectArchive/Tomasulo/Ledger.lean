/-
ProjectArchive/Tomasulo/Ledger.lean

The books are right before every stage of every run.

`Phase` adds which rows are completed: none before `update_state`; those that
were fired and have no time left before `execute_instr`, which takes them below
zero; and those below zero from then on until `update_state_2` frees them.
-/
import ProjectArchive.Tomasulo.Passes

namespace ProjectArchive.Tomasulo

open Sweep

variable {conf : ProcConf} {prog : List TraceInst} {s s' : Proc conf} {qsort : Qsort conf}

/-- The rows that are completed before a stage. -/
def Stage.Done : Stage → Row → Prop
  | .updateState, _ => False
  | .executeInstr, row => row.fired = true ∧ row.remainingTime = 0
  | _, row => row.fired = true ∧ row.remainingTime < 0

/-- The stages before which no row is below zero. -/
def Stage.Early : Stage → Prop
  | .updateState | .executeInstr => True
  | _ => False

/-- Which rows are completed before `stage`. -/
structure Phase (stage : Stage) (s : Proc conf) : Prop where
  done : ∀ i, (s.scheduleQueue i).occupied = true →
    (s.Completed (s.tag i) ↔ stage.Done (s.scheduleQueue i))
  nonneg : stage.Early → ∀ i, (s.scheduleQueue i).occupied = true →
    (s.scheduleQueue i).fired = true → 0 ≤ (s.scheduleQueue i).remainingTime

structure Ledger (prog : List TraceInst) (stage : Stage) (s : Proc conf) : Prop where
  books : Books prog s
  phase : Phase stage s

theorem ledger_setup (trace : List TraceInst) :
    Ledger trace .updateState (setupProc conf trace) where
  books := books_setup trace
  phase :=
    { done := by simp [setupProc, emptyRow]
      nonneg := by simp [setupProc, emptyRow] }

/-! ### `update_state` -/

/-- A row after a row has been completed. -/
theorem completeRow_get (s : Proc conf) (i k : Fin conf.scheduleQueueSize) :
    ∃ src update lsConflictEnd, (s.completeRow i).scheduleQueue k =
      { s.scheduleQueue k with
        src := src
        instr := { (s.scheduleQueue k).instr with update := update }
        lsConflictEnd := lsConflictEnd } ∧
      (∀ j, (src j).reg = ((s.scheduleQueue k).src j).reg) ∧
      (k ≠ i → lsConflictEnd = (s.scheduleQueue k).lsConflictEnd) := by
  obtain ⟨branchTable, ghr, e⟩ := s.completeRow_eq i
  rw [e]
  obtain ⟨src, hsrc, hregs⟩ := Row.wokenBy_eq
    (Function.update s.scheduleQueue i ((s.scheduleQueue i).completed s.cycle) k)
    (s.scheduleQueue i)
  show ∃ _ _ _, Row.wokenBy _ _ = _ ∧ _
  rw [hsrc]
  rcases eq_or_ne k i with rfl | hk
  · rw [Function.update_self] at hregs ⊢
    exact ⟨src, s.cycle, false, rfl, fun j => (hregs j).1, fun hne => absurd rfl hne⟩
  · rw [Function.update_of_ne hk] at hregs ⊢
    exact ⟨src, _, _, rfl, fun j => (hregs j).1, fun _ => rfl⟩

/-- Completing a row leaves the instructions and the times in the rows. -/
theorem completeRow_row (s : Proc conf) (i k : Fin conf.scheduleQueueSize) :
    (s.scheduleQueue k).Same ((s.completeRow i).scheduleQueue k) ∧
      ((s.completeRow i).scheduleQueue k).fired = (s.scheduleQueue k).fired ∧
      ((s.completeRow i).scheduleQueue k).remainingTime = (s.scheduleQueue k).remainingTime := by
  obtain ⟨src, update, lsConflictEnd, e, hregs, -⟩ := completeRow_get s i k
  rw [e]
  exact ⟨⟨rfl, rfl, rfl, rfl, hregs, rfl, rfl, rfl⟩, rfl, rfl⟩

theorem completeRow_completed (s : Proc conf) (i : Fin conf.scheduleQueueSize) (t : ℕ) :
    (s.completeRow i).Completed t ↔ s.Completed t ∨ t = s.tag i := by
  obtain ⟨branchTable, ghr, e⟩ := s.completeRow_eq i
  rw [e]
  simp [Proc.Completed, Proc.tag, Inst.resultRow, Row.completed]

theorem completeRow_tag (s : Proc conf) (i k : Fin conf.scheduleQueueSize) :
    (s.completeRow i).tag k = s.tag k :=
  (completeRow_row s i k).1.tag

/-- Completing a row that has not been completed. -/
theorem RowsOk.completeRow (h : RowsOk prog s) {i : Fin conf.scheduleQueueSize}
    (hocc : (s.scheduleQueue i).occupied = true) (hnew : ¬ s.Completed (s.tag i)) :
    RowsOk prog (s.completeRow i) := by
  have hrow := completeRow_row s i
  have hcompleted := completeRow_completed s i
  have hfields : (s.completeRow i).dispatchQueueHead = s.dispatchQueueHead ∧
      (s.completeRow i).instCntSq = s.instCntSq ∧
      (s.completeRow i).result.map ResultRow.tag = s.result.map ResultRow.tag ++ [s.tag i] := by
    obtain ⟨branchTable, ghr, e⟩ := s.completeRow_eq i
    rw [e]
    refine ⟨rfl, rfl, ?_⟩
    simp [Inst.resultRow, Row.completed, Proc.tag]
  obtain ⟨hhead, hinstCntSq, hresult⟩ := hfields
  constructor
  case row =>
    intro k hk
    rw [hhead]
    exact (h.row k ((hrow k).1.occupied ▸ hk)).same (hrow k).1
  case idle =>
    intro k hk
    rw [(hrow k).1.occupied] at hk
    rw [(hrow k).2.1]
    exact h.idle k hk
  case distinct =>
    intro k j hk hj hkj
    rw [(hrow k).1.occupied] at hk
    rw [(hrow j).1.occupied] at hj
    rw [completeRow_tag, completeRow_tag] at hkj
    exact h.distinct k j hk hj hkj
  case dispatched =>
    intro t ht hissues
    rw [hhead] at ht
    rcases h.dispatched t ht hissues with hc | ⟨k, hk, hkt⟩
    · exact .inl ((hcompleted t).mpr (.inl hc))
    · exact .inr ⟨k, (hrow k).1.occupied.trans hk, (completeRow_tag s i k).trans hkt⟩
  case completed =>
    intro t ht
    rw [hhead]
    rcases (hcompleted t).mp ht with hc | rfl
    · exact h.completed t hc
    · exact ⟨(h.row i hocc).lt, (h.row i hocc).issues⟩
  case nodup =>
    rw [hresult, List.nodup_append]
    refine ⟨h.nodup, List.nodup_singleton _, ?_⟩
    rintro t ht t' ht' rfl
    obtain rfl := List.mem_singleton.mp ht'
    exact hnew ht
  case instCntSq =>
    rw [hinstCntSq, h.instCntSq]
    exact count_congr fun k => ((hrow k).1.occupied).symm

/-- `finished_fu` grows by the row. -/
theorem Listed.completeRow (h : Listed s) (hrows : RowsOk prog s) {i : Fin conf.scheduleQueueSize}
    (hocc : (s.scheduleQueue i).occupied = true) (hnew : ¬ s.Completed (s.tag i))
    (hidx : ∀ m k, s.finishedFu m = some k → m < s.finishedFuIdx)
    (hidx_lt : s.finishedFuIdx < conf.scheduleQueueSize) : Listed (s.completeRow i) := by
  have hnone : ∀ k, s.finishedFu s.finishedFuIdx ≠ some k :=
    fun k hk => absurd (hidx _ k hk) (Nat.lt_irrefl _)
  have hget : ∀ m k, (s.completeRow i).finishedFu m = some k ↔
      s.finishedFu m = some k ∨ m = s.finishedFuIdx ∧ i = k := by
    intro m k
    obtain ⟨branchTable, ghr, e⟩ := s.completeRow_eq i
    rw [e]
    show Function.update s.finishedFu s.finishedFuIdx (some i) m = some k ↔ _
    rcases eq_or_ne m s.finishedFuIdx with rfl | hm
    · simp [hnone k]
    · simp [hm]
  have hnot : ∀ m, s.finishedFu m ≠ some i := by
    intro m hm
    exact hnew ((h.mem i).mp ⟨m, hm⟩).2
  constructor
  case lt =>
    intro m k hm
    rcases (hget m k).mp hm with hm | ⟨rfl, -⟩
    · exact h.lt m k hm
    · exact hidx_lt
  case inj =>
    intro m m' k hm hm'
    rcases (hget m k).mp hm with hm | ⟨rfl, rfl⟩ <;>
      rcases (hget m' _).mp hm' with hm' | ⟨rfl, heq⟩
    · exact h.inj m m' k hm hm'
    · exact absurd (heq ▸ hm) (hnot m)
    · exact absurd hm' (hnot m')
    · rfl
  case mem =>
    intro k
    rw [(completeRow_row s i k).1.occupied, completeRow_tag, completeRow_completed]
    constructor
    · rintro ⟨m, hm⟩
      rcases (hget m k).mp hm with hm | ⟨-, rfl⟩
      · obtain ⟨hk, hc⟩ := (h.mem k).mp ⟨m, hm⟩
        exact ⟨hk, .inl hc⟩
      · exact ⟨hocc, .inr rfl⟩
    · rintro ⟨hk, hc | hki⟩
      · obtain ⟨m, hm⟩ := (h.mem k).mpr ⟨hk, hc⟩
        exact ⟨m, (hget m k).mpr (.inl hm)⟩
      · obtain rfl := hrows.distinct k i hk hocc hki
        exact ⟨s.finishedFuIdx, (hget _ _).mpr (.inr ⟨rfl, rfl⟩)⟩

/-- Completing a row that has not been completed keeps the books. -/
theorem Books.completeRow (h : Books prog s) {i : Fin conf.scheduleQueueSize}
    (hocc : (s.scheduleQueue i).occupied = true) (hnew : ¬ s.Completed (s.tag i))
    (hidx : ∀ m k, s.finishedFu m = some k → m < s.finishedFuIdx)
    (hidx_lt : s.finishedFuIdx < conf.scheduleQueueSize) : Books prog (s.completeRow i) := by
  refine ⟨?_, h.rowsOk.completeRow hocc hnew, h.listed.completeRow h.rowsOk hocc hnew hidx hidx_lt⟩
  obtain ⟨branchTable, ghr, e⟩ := s.completeRow_eq i
  rw [e]
  exact ⟨h.queueOk.queue, h.queueOk.tags, h.queueOk.resultTag, h.queueOk.tail_le, h.queueOk.size⟩

/-- The state in the loop of `update_state`, before the round `m`. -/
structure Updating (prog : List TraceInst) (m : ℕ) (s : Proc conf) : Prop where
  books : Books prog s
  listed : ∀ j k, s.finishedFu j = some k → j < s.finishedFuIdx
  idx : s.finishedFuIdx ≤ m
  done : ∀ k, (s.scheduleQueue k).occupied = true →
    (s.Completed (s.tag k) ↔ k.val < m ∧ s.finished k = true)
  nonneg : ∀ k, (s.scheduleQueue k).occupied = true → (s.scheduleQueue k).fired = true →
    0 ≤ (s.scheduleQueue k).remainingTime

theorem finished_completeRow (s : Proc conf) (i k : Fin conf.scheduleQueueSize) :
    (s.completeRow i).finished k = s.finished k := by
  obtain ⟨hsame, hfired, htime⟩ := completeRow_row s i k
  unfold Proc.finished
  dsimp only
  rw [hsame.occupied, hfired, htime]

theorem finished_eq_true (s : Proc conf) (i : Fin conf.scheduleQueueSize) :
    s.finished i = true ↔ (s.scheduleQueue i).occupied = true ∧
      (s.scheduleQueue i).fired = true ∧ (s.scheduleQueue i).remainingTime = 0 := by
  simp [Proc.finished, and_assoc]

theorem Updating.updateRow {m : Fin conf.scheduleQueueSize} (h : Updating prog m s) :
    Updating prog (m + 1) (s.updateRow m) := by
  unfold Proc.updateRow
  split
  · rename_i hfin
    have hocc := ((finished_eq_true s m).mp hfin).1
    have hnew : ¬ s.Completed (s.tag m) := by
      intro hc
      exact Nat.lt_irrefl _ ((h.done m hocc).mp hc).1
    have hidx_lt : s.finishedFuIdx < conf.scheduleQueueSize := Nat.lt_of_le_of_lt h.idx m.isLt
    have hidx : (s.completeRow m).finishedFuIdx = s.finishedFuIdx + 1 ∧
        (s.completeRow m).finishedFu =
          Function.update s.finishedFu s.finishedFuIdx (some m) := by
      obtain ⟨branchTable, ghr, e⟩ := s.completeRow_eq m
      rw [e]
      exact ⟨rfl, rfl⟩
    refine ⟨h.books.completeRow hocc hnew h.listed hidx_lt, ?_, ?_, ?_, ?_⟩
    · intro j k hjk
      rw [hidx.2] at hjk
      rw [hidx.1]
      rcases eq_or_ne j s.finishedFuIdx with rfl | hj
      · exact Nat.lt_succ_self _
      · rw [Function.update_of_ne hj] at hjk
        exact Nat.lt_succ_of_lt (h.listed j k hjk)
    · rw [hidx.1]
      exact Nat.succ_le_succ h.idx
    · intro k hk
      rw [(completeRow_row s m k).1.occupied] at hk
      rw [finished_completeRow, completeRow_completed]
      rw [show (s.completeRow m).tag k = s.tag k from (completeRow_row s m k).1.tag, h.done k hk]
      constructor
      · rintro (⟨hlt, hfk⟩ | hkm)
        · exact ⟨Nat.lt_succ_of_lt hlt, hfk⟩
        · obtain rfl := h.books.rowsOk.distinct k m hk hocc hkm
          exact ⟨Nat.lt_succ_self _, hfin⟩
      · rintro ⟨hlt, hfk⟩
        rcases Nat.lt_or_eq_of_le (Nat.le_of_lt_succ hlt) with hlt | heq
        · exact .inl ⟨hlt, hfk⟩
        · exact .inr (congrArg s.tag (Fin.ext heq))
    · intro k hk hfired
      obtain ⟨hsame, hfired', htime⟩ := completeRow_row s m k
      rw [htime]
      exact h.nonneg k (hsame.occupied ▸ hk) (hfired' ▸ hfired)
  · rename_i hfin
    refine ⟨h.books, h.listed, Nat.le_succ_of_le h.idx, ?_, h.nonneg⟩
    intro k hk
    rw [h.done k hk]
    constructor
    · rintro ⟨hlt, hfk⟩
      exact ⟨Nat.lt_succ_of_lt hlt, hfk⟩
    · rintro ⟨hlt, hfk⟩
      rcases Nat.lt_or_eq_of_le (Nat.le_of_lt_succ hlt) with hlt | heq
      · exact ⟨hlt, hfk⟩
      · rw [Fin.ext heq] at hfk
        exact absurd hfk hfin

/-- Before the first round. -/
theorem Ledger.updating (h : Ledger prog .updateState s) (hsame : SameBooks s s')
    (hrows : s'.scheduleQueue = s.scheduleQueue) (hidx : s'.finishedFuIdx = 0) :
    Updating prog 0 s' where
  books := hsame.books h.books
  listed := by
    intro j k hjk
    rw [hsame.finishedFu] at hjk
    obtain ⟨hocc, hc⟩ := (h.books.listed.mem k).mp ⟨j, hjk⟩
    exact absurd ((h.phase.done k hocc).mp hc) id
  idx := Nat.le_of_eq hidx
  done := by
    intro k hk
    rw [hrows] at hk
    rw [hsame.completed, hsame.tag]
    have hnot : ¬ s.Completed (s.tag k) := fun hc => (h.phase.done k hk).mp hc
    exact ⟨fun hc => absurd hc hnot, fun hlt => absurd hlt.1 (Nat.not_lt_zero _)⟩
  nonneg := by
    rw [hrows]
    exact h.phase.nonneg trivial

/-- What `update_state` leaves as it is. -/
structure Updated (s s' : Proc conf) : Prop where
  rows : ∀ k, (s.scheduleQueue k).Same (s'.scheduleQueue k)
  fired : ∀ k, (s'.scheduleQueue k).fired = (s.scheduleQueue k).fired
  remainingTime : ∀ k, (s'.scheduleQueue k).remainingTime = (s.scheduleQueue k).remainingTime
  trace : s'.trace = s.trace
  dispatchQueueTail : s'.dispatchQueueTail = s.dispatchQueueTail
  dispatchQueueHead : s'.dispatchQueueHead = s.dispatchQueueHead
  continueFetch : s'.continueFetch = s.continueFetch

theorem beginCycle_updated (s : Proc conf) : Updated s s.beginCycle := by
  refine sweep_preserves (P := Updated s)
    ⟨fun k => Row.Same.refl _, fun k => rfl, fun k => rfl, rfl, rfl, rfl, rfl⟩ ?_
  intro i a ha
  unfold Proc.updateRow
  split
  · have hrow := completeRow_row a i
    have hkept : (a.completeRow i).trace = a.trace ∧
        (a.completeRow i).dispatchQueueTail = a.dispatchQueueTail ∧
        (a.completeRow i).dispatchQueueHead = a.dispatchQueueHead ∧
        (a.completeRow i).continueFetch = a.continueFetch := by
      obtain ⟨branchTable, ghr, e⟩ := a.completeRow_eq i
      rw [e]
      exact ⟨rfl, rfl, rfl, rfl⟩
    exact ⟨fun k => (ha.rows k).trans (hrow k).1, fun k => (hrow k).2.1.trans (ha.fired k),
      fun k => (hrow k).2.2.trans (ha.remainingTime k), hkept.1.trans ha.trace,
      hkept.2.1.trans ha.dispatchQueueTail, hkept.2.2.1.trans ha.dispatchQueueHead,
      hkept.2.2.2.trans ha.continueFetch⟩
  · exact ha

theorem Ledger.beginCycle (h : Ledger prog .updateState s) :
    Ledger prog .executeInstr s.beginCycle := by
  have hpass : Updating prog conf.scheduleQueueSize s.beginCycle :=
    sweep_induction (Updating prog) (h.updating {} rfl rfl) fun m a ha => ha.updateRow
  refine ⟨hpass.books, ?_, fun _ => hpass.nonneg⟩
  intro k hk
  rw [hpass.done k hk, finished_eq_true]
  show _ ↔ _ ∧ _
  constructor
  · rintro ⟨-, -, hfired, htime⟩
    exact ⟨hfired, htime⟩
  · rintro ⟨hfired, htime⟩
    exact ⟨k.isLt, hk, hfired, htime⟩

/-! ### `execute_instr` and `schedule_instr` -/

theorem Ledger.executeInstr (h : Ledger prog .executeInstr s) :
    Ledger prog .scheduleInstr s.executeInstr := by
  obtain ⟨hsame, hrows⟩ := executeInstr_same s
  refine ⟨hsame.books h.books, ?_, fun hearly => hearly.elim⟩
  intro k hk
  have hocc : (s.scheduleQueue k).occupied = true := (hsame.rows k).occupied ▸ hk
  rw [hsame.completed, hsame.tag, h.phase.done k hocc]
  show _ ∧ _ ↔ _ ∧ _
  have hrow := hrows k
  unfold Row.Executed at hrow
  split at hrow
  · rename_i hguard
    obtain ⟨t, hrow, htick, haccess⟩ := hrow
    have hpos : 0 ≤ (s.scheduleQueue k).remainingTime := h.phase.nonneg trivial k hocc hguard.2
    have ht : t < 0 ↔ (s.scheduleQueue k).remainingTime = 0 := by
      by_cases h11 : (s.scheduleQueue k).remainingTime = 11
      · rcases haccess h11 with rfl | rfl <;> simp [h11]
      · rw [htick h11]
        omega
    rw [hrow]
    simp [ht]
  · rename_i hguard
    rw [hrow]
    have hfired : (s.scheduleQueue k).fired = false := by simpa [hocc] using hguard
    simp [hfired]

theorem Ledger.scheduleInstr (h : Ledger prog .scheduleInstr s) :
    Ledger prog .dispatchInstr s.scheduleInstr := by
  obtain ⟨hsame, hrows⟩ := scheduleInstr_same s
  refine ⟨hsame.books h.books, ?_, fun hearly => hearly.elim⟩
  intro k hk
  have hocc : (s.scheduleQueue k).occupied = true := (hsame.rows k).occupied ▸ hk
  rw [hsame.completed, hsame.tag, h.phase.done k hocc]
  show _ ∧ _ ↔ _ ∧ _
  have hrow := hrows k
  generalize s.scheduleInstr.scheduleQueue k = row' at hrow ⊢
  cases hrow with
  | passes => rfl
  | waits _ hfired => simp [hfired, Row.scheduling]
  | fires t u _ hfired _ ht =>
      have hpos : ¬ t < 0 := by omega
      simp [hfired, hpos]
  | leaks _ hfired => simp [hfired, Row.scheduling]

/-! ### `dispatch_instr` -/

theorem Books.markDispatch (h : Books prog s) : Books prog s.markDispatch where
  queueOk :=
    { queue := by
        have hmarked : (Inst.toTraceInst ∘ Inst.marked s.cycle) = Inst.toTraceInst := by
          funext inst
          exact Inst.marked_toTraceInst s.cycle inst
        show List.map Inst.toTraceInst (s.dispatchQueue.take s.tempIterator ++
          (s.dispatchQueue.drop s.tempIterator).map (Inst.marked s.cycle)) ++ s.trace = prog
        rw [List.map_append, List.map_map, hmarked, ← List.map_append, List.take_append_drop]
        exact h.queueOk.queue
      tags := by
        intro k inst hget
        rw [s.markDispatch_get] at hget
        split at hget
        · exact h.queueOk.tags k inst hget
        · obtain ⟨inst', hget', rfl⟩ := Option.map_eq_some_iff.mp hget
          rw [Inst.marked_sequentialTag]
          exact h.queueOk.tags k inst' hget'
      resultTag := by
        rw [s.markDispatch_tail]
        exact h.queueOk.resultTag
      tail_le := by
        rw [s.markDispatch_tail]
        exact h.queueOk.tail_le
      size := by
        unfold Proc.SizeOk
        rw [s.markDispatch_tail]
        exact h.queueOk.size }
  rowsOk := ⟨h.rowsOk.row, h.rowsOk.idle, h.rowsOk.distinct, h.rowsOk.dispatched,
    h.rowsOk.completed, h.rowsOk.nodup, h.rowsOk.instCntSq⟩
  listed := ⟨h.listed.lt, h.listed.inj, h.listed.mem⟩

theorem Proc.NopsAhead.le {k : ℕ} (hnops : s.NopsAhead k) (hsize : s.SizeOk) :
    s.dispatchQueueHead + k ≤ s.dispatchQueueTail := by
  rcases k with - | k
  · exact hsize.1
  · obtain ⟨inst, hget, -⟩ := hnops k (Nat.lt_succ_self k)
    exact (List.getElem?_eq_some_iff.mp hget).1

/-- The instructions that are skipped are not carried out. -/
theorem Proc.NopsAhead.not_issues {k : ℕ} (hnops : s.NopsAhead k) (h : QueueOk prog s) {t : ℕ}
    (hge : s.dispatchQueueHead ≤ t) (hlt : t < s.dispatchQueueHead + k) : ¬ Issues prog t := by
  rintro ⟨inst, hinst, hop⟩
  obtain ⟨nop, hget, hnop⟩ := hnops (t - s.dispatchQueueHead) (by omega)
  rw [Nat.add_sub_cancel' hge] at hget
  obtain rfl := Option.some.inj ((h.get hget).symm.trans hinst)
  exact hop hnop

theorem RowOk.mono {head head' : ℕ} {row : Row} (h : RowOk prog head row) (hle : head ≤ head') :
    RowOk prog head' row :=
  ⟨h.lt.trans_le hle, h.get, h.op, h.issued, h.dest, h.src⟩

theorem Books.skip (h : Books prog s) {k : ℕ} (hnops : s.NopsAhead k) : Books prog (s.skip k) where
  queueOk :=
    { queue := h.queueOk.queue
      tags := h.queueOk.tags
      resultTag := h.queueOk.resultTag
      tail_le := h.queueOk.tail_le
      size := by
        refine ⟨hnops.le h.queueOk.size, ?_⟩
        show s.dispatchQueueSize - k = (s.dispatchQueueTail : ℤ) - (s.dispatchQueueHead + k : ℕ)
        have hsize := h.queueOk.size.2
        omega }
  rowsOk :=
    { row := fun i hi => (h.rowsOk.row i hi).mono (Nat.le_add_right _ _)
      idle := h.rowsOk.idle
      distinct := h.rowsOk.distinct
      dispatched := by
        intro t ht hissues
        rcases Nat.lt_or_ge t s.dispatchQueueHead with hlt | hge
        · exact h.rowsOk.dispatched t hlt hissues
        · exact absurd hissues (hnops.not_issues h.queueOk hge ht)
      completed := by
        intro t ht
        obtain ⟨hlt, hissues⟩ := h.rowsOk.completed t ht
        exact ⟨Nat.lt_add_right k hlt, hissues⟩
      nodup := h.rowsOk.nodup
      instCntSq := h.rowsOk.instCntSq }
  listed := ⟨h.listed.lt, h.listed.inj, h.listed.mem⟩

/-- The row that an instruction is placed in. -/
theorem rowOk_fill (h : QueueOk prog s) {inst : Inst}
    (hget : s.dispatchQueue[s.dispatchQueueHead]? = some inst) (hop : inst.opcode ≠ .nop)
    (row : Row) :
    RowOk prog (s.dispatchQueueHead + 1) (row.fill s.registerFile s.instrTag inst) where
  lt := by
    rw [show (row.fill s.registerFile s.instrTag inst).instr.sequentialTag = inst.sequentialTag
      from rfl, h.tags _ _ hget]
    exact Nat.lt_succ_self _
  get := by
    show prog[inst.sequentialTag]? = some inst.toTraceInst
    rw [h.tags _ _ hget]
    exact h.get hget
  op := rfl
  issued := hop
  dest := rfl
  src := by
    intro k
    show ((row.src k).fill s.registerFile (inst.srcReg k)).reg = inst.srcReg k
    unfold Operand.fill
    split
    · rename_i e
      exact e.symm
    · rename_i r e
      split
      · exact e.symm
      · exact e.symm

theorem placeRow_completed (s : Proc conf) (i : Fin conf.scheduleQueueSize) (inst : Inst) (t : ℕ) :
    (s.placeRow i inst).Completed t ↔ s.Completed t :=
  Proc.completed_congr (s.placeRow_result i inst) t

theorem placeRow_tag (h : QueueOk prog s) {i : Fin conf.scheduleQueueSize} {inst : Inst}
    (hget : s.dispatchQueue[s.dispatchQueueHead]? = some inst) :
    (s.placeRow i inst).tag i = s.dispatchQueueHead := by
  unfold Proc.tag
  rw [s.placeRow_self]
  exact h.tags _ _ hget

theorem placeRow_tag_of_ne {i k : Fin conf.scheduleQueueSize} (inst : Inst) (hk : k ≠ i) :
    (s.placeRow i inst).tag k = s.tag k :=
  Proc.tag_congr (s.placeRow_of_ne inst hk)

/-- The new instruction is not completed. -/
theorem placeRow_not_completed (h : Books prog s) {i : Fin conf.scheduleQueueSize} {inst : Inst}
    (hget : s.dispatchQueue[s.dispatchQueueHead]? = some inst) :
    ¬ (s.placeRow i inst).Completed ((s.placeRow i inst).tag i) := by
  rw [placeRow_completed, placeRow_tag h.queueOk hget]
  exact fun hc => absurd (h.rowsOk.completed _ hc).1 (Nat.lt_irrefl _)

theorem RowsOk.placeRow (h : RowsOk prog s) (hqueue : QueueOk prog s)
    {i : Fin conf.scheduleQueueSize} {inst : Inst} (hfree : (s.scheduleQueue i).occupied = false)
    (hget : s.dispatchQueue[s.dispatchQueueHead]? = some inst) (hop : inst.opcode ≠ .nop) :
    RowsOk prog (s.placeRow i inst) := by
  have hself := s.placeRow_self i inst
  have htag_self := placeRow_tag (i := i) hqueue hget
  have hne_of_occ : ∀ {k}, (s.scheduleQueue k).occupied = true → k ≠ i := by
    rintro k hk rfl
    rw [hfree] at hk
    cases hk
  have hnew : ∀ {k}, (s.scheduleQueue k).occupied = true → s.tag k ≠ s.dispatchQueueHead :=
    fun hk => Nat.ne_of_lt (h.row _ hk).lt
  constructor
  case row =>
    intro k hk
    rw [s.placeRow_head]
    rcases eq_or_ne k i with rfl | hne
    · rw [hself]
      exact rowOk_fill hqueue hget hop (s.scheduleQueue k)
    · rw [s.placeRow_of_ne inst hne] at hk ⊢
      exact (h.row k hk).mono (Nat.le_succ _)
  case idle =>
    intro k hk
    rcases eq_or_ne k i with rfl | hne
    · rw [hself] at hk
      cases hk
    · rw [s.placeRow_of_ne inst hne] at hk ⊢
      exact h.idle k hk
  case distinct =>
    intro k j hk hj hkj
    rcases eq_or_ne k i with rfl | hki
    · rcases eq_or_ne j k with rfl | hji
      · rfl
      · rw [htag_self, placeRow_tag_of_ne inst hji] at hkj
        rw [s.placeRow_of_ne inst hji] at hj
        exact absurd hkj.symm (hnew hj)
    · rw [placeRow_tag_of_ne inst hki] at hkj
      rw [s.placeRow_of_ne inst hki] at hk
      rcases eq_or_ne j i with rfl | hji
      · rw [htag_self] at hkj
        exact absurd hkj (hnew hk)
      · rw [placeRow_tag_of_ne inst hji] at hkj
        rw [s.placeRow_of_ne inst hji] at hj
        exact h.distinct k j hk hj hkj
  case dispatched =>
    intro t ht ht_issues
    rw [s.placeRow_head] at ht
    rw [placeRow_completed]
    rcases Nat.lt_or_eq_of_le (Nat.le_of_lt_succ ht) with hlt | rfl
    · rcases h.dispatched t hlt ht_issues with hc | ⟨k, hk, hkt⟩
      · exact .inl hc
      · have hki := hne_of_occ hk
        refine .inr ⟨k, ?_, ?_⟩
        · rw [s.placeRow_of_ne inst hki]
          exact hk
        · rw [placeRow_tag_of_ne inst hki]
          exact hkt
    · exact .inr ⟨i, by rw [hself]; rfl, htag_self⟩
  case completed =>
    intro t ht
    rw [s.placeRow_head]
    obtain ⟨hlt, ht_issues⟩ := h.completed t ((placeRow_completed s i inst t).mp ht)
    exact ⟨Nat.lt_succ_of_lt hlt, ht_issues⟩
  case nodup =>
    rw [s.placeRow_result]
    exact h.nodup
  case instCntSq =>
    have hcount := count_update Row.occupied s.scheduleQueue i
      ((s.scheduleQueue i).fill s.registerFile s.instrTag inst)
    rw [hfree, show ((s.scheduleQueue i).fill s.registerFile s.instrTag inst).occupied = true
      from rfl] at hcount
    rw [s.placeRow_instCntSq, h.instCntSq, s.placeRow_eq]
    exact hcount.symm

theorem Books.placeRow (h : Books prog s) {i : Fin conf.scheduleQueueSize} {inst : Inst}
    (hfree : (s.scheduleQueue i).occupied = false)
    (hget : s.dispatchQueue[s.dispatchQueueHead]? = some inst) (hop : inst.opcode ≠ .nop) :
    Books prog (s.placeRow i inst) := by
  refine ⟨?_, h.rowsOk.placeRow h.queueOk hfree hget hop, ?_⟩
  · rw [s.placeRow_eq]
    refine ⟨h.queueOk.queue, h.queueOk.tags, h.queueOk.resultTag, h.queueOk.tail_le, ?_⟩
    refine ⟨(List.getElem?_eq_some_iff.mp hget).1, ?_⟩
    show s.dispatchQueueSize - 1 = (s.dispatchQueueTail : ℤ) - (s.dispatchQueueHead + 1 : ℕ)
    have hsize := h.queueOk.size.2
    omega
  · constructor
    case lt =>
      rw [s.placeRow_finishedFu]
      exact h.listed.lt
    case inj =>
      rw [s.placeRow_finishedFu]
      exact h.listed.inj
    case mem =>
      intro k
      rw [s.placeRow_finishedFu, h.listed.mem k]
      rcases eq_or_ne k i with rfl | hne
      · refine iff_of_false ?_ fun hc => placeRow_not_completed h hget hc.2
        rintro ⟨hocc, -⟩
        rw [hfree] at hocc
        cases hocc
      · rw [placeRow_completed, s.placeRow_of_ne inst hne, placeRow_tag_of_ne inst hne]

/-- One round of `dispatch_instr`, for what skipping and placing preserve. -/
theorem dispatchRow_induction {P : Proc conf → Prop}
    (hflag : ∀ s b, P s → P { s with dispatching := b })
    (hskip : ∀ s k, Books prog s → P s → s.NopsAhead k → P (s.skip k))
    (hplace : ∀ s i inst, Books prog s → P s → (s.scheduleQueue i).occupied = false →
      s.dispatchQueue[s.dispatchQueueHead]? = some inst → inst.opcode ≠ .nop →
      P (s.placeRow i inst))
    (i : Fin conf.scheduleQueueSize) (hbooks : Books prog s) (h : P s) :
    Books prog (s.dispatchRow i) ∧ P (s.dispatchRow i) := by
  have hcases := s.dispatchRow_cases i hbooks.queueOk.size
  generalize s.dispatchRow i = s' at hcases ⊢
  have hbooks_flag : ∀ (s : Proc conf) b, Books prog s → Books prog { s with dispatching := b } := by
    intro s b hs
    have hsame : SameBooks s { s with dispatching := b } := {}
    exact hsame.books hs
  cases hcases with
  | stopped => exact ⟨hbooks, h⟩
  | empty => exact ⟨hbooks_flag s false hbooks, hflag s false h⟩
  | full => exact ⟨hbooks, h⟩
  | ends k _ _ _ hnops _ =>
      exact ⟨hbooks_flag _ false (hbooks.skip hnops), hflag _ false (hskip s k hbooks h hnops)⟩
  | places k inst _ hfree hnops hget hop =>
      have hbooks' := hbooks.skip hnops
      exact ⟨hbooks'.placeRow hfree hget hop,
        hplace (s.skip k) i inst hbooks' (hskip s k hbooks h hnops) hfree hget hop⟩

/-- The same for the stage. -/
theorem dispatchInstr_induction {P : Proc conf → Prop}
    (hflag : ∀ s b, P s → P { s with dispatching := b })
    (hskip : ∀ s k, Books prog s → P s → s.NopsAhead k → P (s.skip k))
    (hplace : ∀ s i inst, Books prog s → P s → (s.scheduleQueue i).occupied = false →
      s.dispatchQueue[s.dispatchQueueHead]? = some inst → inst.opcode ≠ .nop →
      P (s.placeRow i inst))
    (hbooks : Books prog s) (h : P s.markDispatch) :
    Books prog s.dispatchInstr ∧ P s.dispatchInstr := by
  unfold Proc.dispatchInstr
  dsimp only
  split
  · exact ⟨hbooks.markDispatch, h⟩
  · have hsame : SameBooks s.markDispatch { s.markDispatch with dispatching := true } := {}
    refine sweep_preserves (P := fun s => Books prog s ∧ P s)
      ⟨hsame.books hbooks.markDispatch, hflag _ true h⟩ ?_
    rintro i a ⟨ha, hPa⟩
    exact dispatchRow_induction hflag hskip hplace i ha hPa

theorem Ledger.dispatchInstr (h : Ledger prog .dispatchInstr s) :
    Ledger prog .fetchInstr s.dispatchInstr := by
  obtain ⟨hbooks, hphase⟩ := dispatchInstr_induction (P := Phase .fetchInstr)
    (fun s b hs => ⟨hs.done, hs.nonneg⟩)
    (fun s k _ hs _ => ⟨hs.done, hs.nonneg⟩)
    (by
      intro s i inst hbooks hs hfree hget hop
      refine ⟨?_, fun hearly => hearly.elim⟩
      intro k hk
      rw [placeRow_completed]
      rcases eq_or_ne k i with rfl | hne
      · -- the new instruction is neither completed nor fired
        have hidle := hbooks.rowsOk.idle k hfree
        rw [placeRow_tag hbooks.queueOk hget, s.placeRow_self]
        show s.Completed s.dispatchQueueHead ↔ (s.scheduleQueue k).fired = true ∧ _
        rw [hidle]
        constructor
        · intro hc
          exact absurd (hbooks.rowsOk.completed _ hc).1 (Nat.lt_irrefl _)
        · rintro ⟨hf, -⟩
          cases hf
      · rw [placeRow_tag_of_ne inst hne, s.placeRow_of_ne inst hne]
        rw [s.placeRow_of_ne inst hne] at hk
        exact hs.done k hk)
    h.books ⟨h.phase.done, fun hearly => hearly.elim⟩
  exact ⟨hbooks, hphase⟩

/-! ### `fetch_instr` -/

theorem Books.fetchOne (h : Books prog s) {inst : TraceInst} {trace : List TraceInst}
    (htrace : s.trace = inst :: trace) (hlt : s.dispatchQueueTail < dqDataStructureSize) :
    Books prog (s.fetchOne inst trace) where
  queueOk :=
    { queue := by
        rw [← h.queueOk.queue, htrace]
        show (s.dispatchQueue ++ [s.fetched inst]).map Inst.toTraceInst ++ trace = _
        simp [Proc.fetched]
      tags := by
        intro k inst' hget
        rw [show (s.fetchOne inst trace).dispatchQueue = s.dispatchQueue ++ [s.fetched inst] from rfl,
          List.getElem?_append] at hget
        split at hget
        · exact h.queueOk.tags k inst' hget
        · rename_i hk
          obtain ⟨hk', rfl⟩ : k - s.dispatchQueue.length = 0 ∧ s.fetched inst = inst' := by
            simpa [List.getElem?_singleton] using hget
          show s.resultTag = k
          rw [h.queueOk.resultTag]
          show s.dispatchQueue.length = k
          omega
      resultTag := by
        show s.resultTag + 1 = (s.dispatchQueue ++ [s.fetched inst]).length
        rw [h.queueOk.resultTag, List.length_append]
        rfl
      tail_le := by
        show (s.dispatchQueue ++ [s.fetched inst]).length ≤ _
        rw [List.length_append]
        exact hlt
      size := by
        obtain ⟨hle, hsize⟩ := h.queueOk.size
        have htail : (s.fetchOne inst trace).dispatchQueueTail = s.dispatchQueueTail + 1 := by
          show (s.dispatchQueue ++ [s.fetched inst]).length = _
          rw [List.length_append]
          rfl
        unfold Proc.SizeOk
        rw [htail]
        refine ⟨Nat.le_succ_of_le hle, ?_⟩
        show s.dispatchQueueSize + 1 = _ - (s.dispatchQueueHead : ℤ)
        omega }
  rowsOk := ⟨h.rowsOk.row, h.rowsOk.idle, h.rowsOk.distinct, h.rowsOk.dispatched,
    h.rowsOk.completed, h.rowsOk.nodup, h.rowsOk.instCntSq⟩
  listed := ⟨h.listed.lt, h.listed.inj, h.listed.mem⟩

theorem Books.continueFetch (h : Books prog s) (more : Bool) :
    Books prog { s with continueFetch := more } :=
  ⟨⟨h.queueOk.queue, h.queueOk.tags, h.queueOk.resultTag, h.queueOk.tail_le, h.queueOk.size⟩,
    ⟨h.rowsOk.row, h.rowsOk.idle, h.rowsOk.distinct, h.rowsOk.dispatched, h.rowsOk.completed,
      h.rowsOk.nodup, h.rowsOk.instCntSq⟩,
    ⟨h.listed.lt, h.listed.inj, h.listed.mem⟩⟩

theorem Ledger.fetchStage (h : Ledger prog .fetchInstr s) (hfetch : s.fetchStage = .ok s') :
    Ledger prog .updateState2 s' := by
  refine Proc.fetchStage_induction (P := Ledger prog .updateState2) ?_ ?_
    ⟨h.books, h.phase.done, h.phase.nonneg⟩ hfetch
  · intro s inst trace hs htrace hlt
    exact ⟨hs.books.fetchOne htrace hlt, hs.phase.done, hs.phase.nonneg⟩
  · intro s more hs
    exact ⟨hs.books.continueFetch more, hs.phase.done, hs.phase.nonneg⟩

/-! ### `update_state_2` -/

/-- The rows when those that are completed have been freed. -/
def Proc.released (s : Proc conf) (k : Fin conf.scheduleQueueSize) : Row :=
  if (s.scheduleQueue k).occupied = true ∧ s.Completed (s.tag k) then (s.scheduleQueue k).free
  else s.scheduleQueue k

/-- The state in the loop of `update_state_2`, before the round `m`. -/
structure Freeing (s : Proc conf) (m : ℕ) (a : Proc conf) : Prop where
  frame : a = { s with
    scheduleQueue := a.scheduleQueue, instCntSq := a.instCntSq, finishedFu := a.finishedFu }
  finishedFu : ∀ j, a.finishedFu j = if j < m then none else s.finishedFu j
  rows : ∀ k, a.scheduleQueue k =
    if ∃ j < m, s.finishedFu j = some k then (s.scheduleQueue k).free else s.scheduleQueue k
  instCntSq : a.instCntSq = count Row.occupied a.scheduleQueue

theorem Freeing.freeRow {a : Proc conf} {m : Fin conf.scheduleQueueSize} (hs : Books prog s)
    (h : Freeing s m a) : Freeing s (m + 1) (a.freeRow m) := by
  have hm : a.finishedFu m = s.finishedFu m := by
    rw [h.finishedFu, if_neg (Nat.lt_irrefl _)]
  unfold Proc.freeRow
  rcases e : a.finishedFu m with - | i
  · rw [hm] at e
    refine ⟨h.frame, ?_, ?_, h.instCntSq⟩
    · intro j
      rw [h.finishedFu]
      rcases Nat.lt_trichotomy j m with hj | rfl | hj
      · rw [if_pos hj, if_pos (Nat.lt_succ_of_lt hj)]
      · rw [if_neg (Nat.lt_irrefl _), if_pos (Nat.lt_succ_self _), e]
      · rw [if_neg (Nat.lt_asymm hj), if_neg (Nat.not_lt.mpr hj)]
    · intro k
      rw [h.rows]
      have hlast : s.finishedFu m ≠ some k := by rw [e]; exact nofun
      simp only [Nat.exists_lt_succ_right, or_iff_left hlast]
  · rw [hm] at e
    -- the row has not been freed before: `finished_fu` lists it once
    have hrow : a.scheduleQueue i = s.scheduleQueue i := by
      rw [h.rows, if_neg]
      rintro ⟨j, hj, hji⟩
      exact Nat.ne_of_lt hj (hs.listed.inj j m i hji e)
    have hocc : (a.scheduleQueue i).occupied = true := by
      rw [hrow]
      exact ((hs.listed.mem i).mp ⟨m, e⟩).1
    refine ⟨?_, ?_, ?_, ?_⟩
    · conv_lhs => rw [h.frame]
      rfl
    · intro j
      show Function.update a.finishedFu m none j = _
      rcases Nat.lt_trichotomy j m with hj | rfl | hj
      · rw [Function.update_of_ne (Nat.ne_of_lt hj), h.finishedFu, if_pos hj,
          if_pos (Nat.lt_succ_of_lt hj)]
      · rw [Function.update_self, if_pos (Nat.lt_succ_self _)]
      · rw [Function.update_of_ne (Nat.ne_of_gt hj), h.finishedFu, if_neg (Nat.lt_asymm hj),
          if_neg (Nat.not_lt.mpr hj)]
    · intro k
      show Function.update a.scheduleQueue i (a.scheduleQueue i).free k = _
      rcases eq_or_ne k i with rfl | hk
      · rw [Function.update_self, hrow, if_pos ⟨m, Nat.lt_succ_self _, e⟩]
      · rw [Function.update_of_ne hk, h.rows]
        have hlast : s.finishedFu m ≠ some k := by
          rw [e]
          exact fun hik => hk (Option.some.inj hik).symm
        simp only [Nat.exists_lt_succ_right, or_iff_left hlast]
    · show a.instCntSq - 1 = count Row.occupied (Function.update a.scheduleQueue i _)
      have hcount := count_update Row.occupied a.scheduleQueue i (a.scheduleQueue i).free
      rw [hocc, show (a.scheduleQueue i).free.occupied = false from rfl, ← h.instCntSq] at hcount
      exact (Nat.eq_sub_of_add_eq hcount).symm

theorem Books.freeing (h : Books prog s) :
    Freeing s conf.scheduleQueueSize (sweep Proc.freeRow s) := by
  refine sweep_induction (Freeing s) ⟨rfl, ?_, ?_, h.rowsOk.instCntSq⟩ fun m a ha => ha.freeRow h
  · intro j
    rw [if_neg (Nat.not_lt_zero j)]
  · intro k
    rw [if_neg]
    rintro ⟨j, hj, -⟩
    exact Nat.not_lt_zero j hj

/-- The rows that `qsort` is called for. -/
theorem Books.freed_rows (h : Books prog s) : (sweep Proc.freeRow s).scheduleQueue = s.released := by
  funext k
  rw [h.freeing.rows]
  unfold Proc.released
  have hiff : (∃ j < conf.scheduleQueueSize, s.finishedFu j = some k) ↔
      (s.scheduleQueue k).occupied = true ∧ s.Completed (s.tag k) := by
    rw [← h.listed.mem k]
    constructor
    · rintro ⟨j, -, hj⟩
      exact ⟨j, hj⟩
    · rintro ⟨j, hj⟩
      exact ⟨j, h.listed.lt j k hj, hj⟩
  simp only [hiff]

/-- What `update_state_2` does. -/
theorem updateState2_eq (qsort : Qsort conf) (h : Books prog s) :
    ∃ instCntSq, s.updateState2 qsort =
      { s with
        scheduleQueue := qsort.run s.cycle s.released
        instCntSq := instCntSq
        finishedFu := fun _ => none } ∧
    instCntSq = count Row.occupied s.released := by
  have hnone : (sweep Proc.freeRow s).finishedFu = fun _ => none := by
    funext j
    rw [h.freeing.finishedFu]
    split
    · rfl
    · rename_i hj
      rcases e : s.finishedFu j with - | i
      · rfl
      · exact absurd (h.listed.lt j i e) hj
  refine ⟨(sweep Proc.freeRow s).instCntSq, ?_, ?_⟩
  · unfold Proc.updateState2
    dsimp only
    rw [h.freeing.frame]
    simp only [h.freed_rows, hnone]
  · rw [h.freeing.instCntSq, h.freed_rows]

/-- The rows that stay are those that are not completed. -/
theorem released_occupied {k : Fin conf.scheduleQueueSize} :
    (s.released k).occupied = true ↔
      (s.scheduleQueue k).occupied = true ∧ ¬ s.Completed (s.tag k) := by
  unfold Proc.released
  split
  · rename_i hdone
    simp [Row.free, hdone.2]
  · rename_i hdone
    constructor
    · exact fun hocc => ⟨hocc, fun hc => hdone ⟨hocc, hc⟩⟩
    · exact And.left

theorem released_eq {k : Fin conf.scheduleQueueSize} (h : (s.released k).occupied = true) :
    s.released k = s.scheduleQueue k := by
  obtain ⟨hocc, hnot⟩ := released_occupied.mp h
  unfold Proc.released
  rw [if_neg fun hdone => hnot hdone.2]

/-- The state at the end of the cycle. -/
theorem endCycle_eq (qsort : Qsort conf) (h : Books prog s) : ∃ cumulativeSize, s.endCycle qsort =
    { s with
      scheduleQueue := qsort.run s.cycle s.released
      instCntSq := count Row.occupied s.released
      finishedFu := fun _ => none
      cycle := s.cycle + 1
      dispatchQueueCumulativeSize := cumulativeSize
      continueBool := !(decide (count Row.occupied s.released = 0) &&
        decide (s.dispatchQueueHead = s.dispatchQueueTail)) || s.continueFetch } := by
  obtain ⟨instCntSq, e, hcount⟩ := updateState2_eq qsort h
  refine ⟨s.dispatchQueueCumulativeSize + s.dispatchQueueSize, ?_⟩
  unfold Proc.endCycle
  rw [e, hcount]
  rfl

/-- The rows of `t` are the rows of `s` after `update_state_2` has freed some, in the order
of `σ`. -/
def Reorders (s t : Proc conf) (σ : Equiv.Perm (Fin conf.scheduleQueueSize)) : Prop :=
  ∀ k, t.scheduleQueue k = s.released (σ k)

theorem endCycle_reorders (qsort : Qsort conf) (h : Books prog s) :
    ∃ σ, Reorders s (s.endCycle qsort) σ := by
  obtain ⟨cumulativeSize, e⟩ := endCycle_eq qsort h
  obtain ⟨σ, hσ⟩ := qsort.perm s.cycle s.released
  refine ⟨σ, fun k => ?_⟩
  rw [e, hσ]
  rfl

section Reorders

variable {t : Proc conf} {σ : Equiv.Perm (Fin conf.scheduleQueueSize)}
  {k : Fin conf.scheduleQueueSize}

/-- An occupied row is one that was occupied and not completed. -/
theorem Reorders.stayed (h : Reorders s t σ) (hk : (t.scheduleQueue k).occupied = true) :
    (s.scheduleQueue (σ k)).occupied = true ∧ ¬ s.Completed (s.tag (σ k)) ∧
      t.scheduleQueue k = s.scheduleQueue (σ k) := by
  rw [h k] at hk ⊢
  obtain ⟨hocc, hnot⟩ := released_occupied.mp hk
  exact ⟨hocc, hnot, released_eq hk⟩

theorem Reorders.tag (h : Reorders s t σ) (hk : (t.scheduleQueue k).occupied = true) :
    t.tag k = s.tag (σ k) :=
  Proc.tag_congr (h.stayed hk).2.2

theorem Reorders.stays (h : Reorders s t σ) (hk : (s.scheduleQueue k).occupied = true)
    (hnot : ¬ s.Completed (s.tag k)) : t.scheduleQueue (σ.symm k) = s.scheduleQueue k := by
  rw [h, σ.apply_symm_apply]
  exact released_eq (released_occupied.mpr ⟨hk, hnot⟩)

end Reorders

/-- The rows at the end of the cycle. -/
theorem RowsOk.endCycle (h : Books prog s) : RowsOk prog (s.endCycle qsort) := by
  obtain ⟨cumulativeSize, e⟩ := endCycle_eq qsort h
  obtain ⟨σ, hσ⟩ := endCycle_reorders qsort h
  have hr := h.rowsOk
  have hhead : (s.endCycle qsort).dispatchQueueHead = s.dispatchQueueHead := by rw [e]
  have hresult : (s.endCycle qsort).result = s.result := by rw [e]
  have hcompleted := Proc.completed_congr hresult
  constructor
  case row =>
    intro k hk
    obtain ⟨hk', -, heq⟩ := hσ.stayed hk
    rw [heq, hhead]
    exact hr.row (σ k) hk'
  case idle =>
    intro k hk
    rw [hσ k] at hk ⊢
    unfold Proc.released at hk ⊢
    split
    · rfl
    · rename_i hdone
      rw [if_neg hdone] at hk
      exact hr.idle (σ k) hk
  case distinct =>
    intro k j hk hj hkj
    rw [hσ.tag hk, hσ.tag hj] at hkj
    exact σ.injective (hr.distinct _ _ (hσ.stayed hk).1 (hσ.stayed hj).1 hkj)
  case dispatched =>
    intro t ht hissues
    rw [hhead] at ht
    rw [hcompleted]
    rcases Decidable.em (s.Completed t) with hc | hc
    · exact .inl hc
    · rcases hr.dispatched t ht hissues with hc' | ⟨k, hk, rfl⟩
      · exact absurd hc' hc
      · have hrow := hσ.stays hk hc
        exact .inr ⟨σ.symm k, by rwa [hrow], Proc.tag_congr hrow⟩
  case completed =>
    intro t ht
    rw [hhead]
    exact hr.completed t ((hcompleted t).mp ht)
  case nodup =>
    rw [hresult]
    exact hr.nodup
  case instCntSq =>
    have hrows : (s.endCycle qsort).scheduleQueue = s.released ∘ σ := funext hσ
    rw [hrows, count_comp_perm, e]

theorem Ledger.endCycle (h : Ledger prog .updateState2 s) :
    Ledger prog .updateState (s.endCycle qsort) := by
  obtain ⟨cumulativeSize, e⟩ := endCycle_eq qsort h.books
  obtain ⟨σ, hσ⟩ := endCycle_reorders qsort h.books
  have hcompleted : ∀ t, (s.endCycle qsort).Completed t ↔ s.Completed t := by
    intro t
    rw [e]
    rfl
  have hnone : (s.endCycle qsort).finishedFu = fun _ => none := by rw [e]
  -- a row that stays has not been completed
  have hstays : ∀ k, ((s.endCycle qsort).scheduleQueue k).occupied = true →
      ¬ (s.endCycle qsort).Completed ((s.endCycle qsort).tag k) := by
    intro k hk
    rw [hcompleted, hσ.tag hk]
    exact (hσ.stayed hk).2.1
  have hqueue : QueueOk prog (s.endCycle qsort) := by
    have hq := h.books.queueOk
    rw [e]
    exact ⟨hq.queue, hq.tags, hq.resultTag, hq.tail_le, hq.size⟩
  refine ⟨⟨hqueue, .endCycle h.books, ?_⟩, ?_, ?_⟩
  · constructor
    case lt =>
      intro m i hm
      rw [hnone] at hm
      cases hm
    case inj =>
      intro m m' i hm
      rw [hnone] at hm
      cases hm
    case mem =>
      intro k
      refine iff_of_false ?_ fun ⟨hk, hc⟩ => hstays k hk hc
      rintro ⟨m, hm⟩
      rw [hnone] at hm
      cases hm
  · exact fun k hk => iff_of_false (hstays k hk) id
  · intro _ k hk hfired
    obtain ⟨hk', hnot, heq⟩ := hσ.stayed hk
    rw [heq] at hfired ⊢
    by_contra hneg
    exact hnot ((h.phase.done (σ k) hk').mpr ⟨hfired, Int.not_le.mp hneg⟩)

/-! ### Runs -/

theorem Ledger.run {stage : Stage} (h : Ledger prog stage s) (hrun : stage.run qsort s = .ok s') :
    Ledger prog stage.next s' := by
  cases stage with
  | updateState =>
      obtain rfl := Except.ok.inj hrun
      exact h.beginCycle
  | executeInstr =>
      obtain rfl := Except.ok.inj hrun
      exact h.executeInstr
  | scheduleInstr =>
      obtain rfl := Except.ok.inj hrun
      exact h.scheduleInstr
  | dispatchInstr =>
      obtain rfl := Except.ok.inj hrun
      exact h.dispatchInstr
  | fetchInstr => exact h.fetchStage hrun
  | updateState2 =>
      obtain rfl := Except.ok.inj hrun
      exact h.endCycle

/-- The books are right before every stage of a run. -/
theorem Reached.ledger {trace : List TraceInst} {stage : Stage}
    (h : Reached conf qsort trace stage s) : Ledger trace stage s :=
  h.invariant (ledger_setup trace) fun _ _ _ hs hrun => hs.run hrun

end ProjectArchive.Tomasulo
