/-
ProjectArchive/Tomasulo/Times.lean

The times that are recorded for an instruction increase from stage to stage.

An instruction is handled by at most one stage in a cycle, because the stages
run in the order opposite to the way of an instruction.  So when a stage records
the time of an instruction, the stage before it has recorded an earlier one.
`Stage.limit` is the bound that the recorded times obey at every point of a
cycle, and `Timed` says which of them have been recorded.
-/
import ProjectArchive.Tomasulo.Ledger

namespace ProjectArchive.Tomasulo

open Sweep

variable {conf : ProcConf} {prog : List TraceInst} {s s' : Proc conf} {qsort : Qsort conf}

/-! ### Limits -/

/-- The place of a stage in a cycle. -/
def Stage.index : Stage → ℕ
  | .updateState => 0
  | .executeInstr => 1
  | .scheduleInstr => 2
  | .dispatchInstr => 3
  | .fetchInstr => 4
  | .updateState2 => 5

/-- Before `stage` of the cycle `cycle`, the times that `event` has recorded are
below this. -/
def Stage.limit (stage : Stage) (cycle : ℕ) (event : Stage) : ℕ :=
  if event.index < stage.index then cycle + 1 else cycle

theorem Stage.limit_le_next {stage : Stage} (h : stage ≠ .updateState2) (cycle : ℕ)
    (event : Stage) : stage.limit cycle event ≤ stage.next.limit cycle event := by
  have hnext : stage.index ≤ stage.next.index := by
    cases stage <;> first | exact absurd rfl h | decide
  unfold Stage.limit
  split
  · rename_i hlt
    rw [if_pos (hlt.trans_le hnext)]
  · split
    · exact Nat.le_succ cycle
    · exact Nat.le_refl cycle

/-! ### Recorded times -/

/-- The times of a row of `result`. -/
structure ResultRow.InOrder (r : ResultRow) : Prop where
  fetch : r.fetch < r.dispatch
  dispatch : r.dispatch < r.schedule
  schedule : r.schedule < r.execute
  execute : r.execute < r.update

/-- The times of an instruction in a row. -/
structure Row.Timely (limit : Stage → ℕ) (row : Row) : Prop where
  dispatched : row.instr.fetch < row.instr.dispatch ∧ row.instr.dispatch < limit .dispatchInstr
  scheduled : row.instr.scheduleFirst = false →
    row.instr.dispatch < row.instr.schedule ∧ row.instr.schedule < limit .scheduleInstr
  executed : row.instr.executeFirst = false → row.instr.scheduleFirst = false ∧
    row.instr.schedule < row.instr.execute ∧ row.instr.execute < limit .executeInstr
  fired : row.fired = true → row.instr.scheduleFirst = false
  done : row.fired = true → row.remainingTime ≤ 0 → row.instr.executeFirst = false

/-- The times of an instruction in the dispatch queue, at the place `k`. -/
structure Inst.Timely (limit : Stage → ℕ) (tempIterator k : ℕ) (inst : Inst) : Prop where
  scheduleFirst : inst.scheduleFirst = true
  executeFirst : inst.executeFirst = true
  dispatched : k < tempIterator →
    inst.fetch < inst.dispatch ∧ inst.dispatch < limit .dispatchInstr
  fetched : tempIterator ≤ k → inst.dispatchFirst = true ∧ inst.fetch < limit .fetchInstr

structure Timed (limit : Stage → ℕ) (s : Proc conf) : Prop where
  row : ∀ i, (s.scheduleQueue i).occupied = true → (s.scheduleQueue i).Timely limit
  queue : ∀ (k : ℕ) (inst : Inst), s.dispatchQueue[k]? = some inst →
    inst.Timely limit s.tempIterator k
  iterator : s.tempIterator ≤ s.dispatchQueueTail
  result : ∀ r ∈ s.result, r.InOrder

section Limits

variable {limit limit' : Stage → ℕ}

theorem Row.Timely.mono {row : Row} (h : row.Timely limit) (hle : ∀ event, limit event ≤ limit' event) :
    row.Timely limit' where
  dispatched := ⟨h.dispatched.1, h.dispatched.2.trans_le (hle _)⟩
  scheduled := fun hfirst => ⟨(h.scheduled hfirst).1, (h.scheduled hfirst).2.trans_le (hle _)⟩
  executed := fun hfirst => ⟨(h.executed hfirst).1, (h.executed hfirst).2.1,
    (h.executed hfirst).2.2.trans_le (hle _)⟩
  fired := h.fired
  done := h.done

theorem Inst.Timely.mono {tempIterator k : ℕ} {inst : Inst} (h : inst.Timely limit tempIterator k)
    (hle : ∀ event, limit event ≤ limit' event) : inst.Timely limit' tempIterator k where
  scheduleFirst := h.scheduleFirst
  executeFirst := h.executeFirst
  dispatched := fun hk => ⟨(h.dispatched hk).1, (h.dispatched hk).2.trans_le (hle _)⟩
  fetched := fun hk => ⟨(h.fetched hk).1, (h.fetched hk).2.trans_le (hle _)⟩

/-- The rows have changed, but the books have not. -/
theorem Timed.sameBooks (h : Timed limit s) (hsame : SameBooks s s')
    (hle : ∀ event, limit event ≤ limit' event)
    (hrow : ∀ i, (s.scheduleQueue i).occupied = true → (s.scheduleQueue i).Timely limit →
      (s'.scheduleQueue i).Timely limit') : Timed limit' s' where
  row := by
    intro i hi
    rw [(hsame.rows i).occupied] at hi
    exact hrow i hi (h.row i hi)
  queue := by
    intro k inst hget
    rw [hsame.dispatchQueue] at hget
    rw [hsame.tempIterator]
    exact (h.queue k inst hget).mono hle
  iterator := by
    unfold Proc.dispatchQueueTail
    rw [hsame.tempIterator, hsame.dispatchQueue]
    exact h.iterator
  result := by
    rw [hsame.result]
    exact h.result

/-! ### `update_state` -/

theorem Timed.completeRow (h : Timed limit s) {i : Fin conf.scheduleQueueSize}
    (hfin : s.finished i = true) (hlimit : limit .executeInstr ≤ s.cycle) :
    Timed limit (s.completeRow i) := by
  obtain ⟨hocc, hfired, htime⟩ := (finished_eq_true s i).mp hfin
  have hkept : (s.completeRow i).dispatchQueue = s.dispatchQueue ∧
      (s.completeRow i).tempIterator = s.tempIterator ∧
      (s.completeRow i).result =
        s.result ++ [((s.scheduleQueue i).completed s.cycle).instr.resultRow] := by
    obtain ⟨branchTable, ghr, e⟩ := s.completeRow_eq i
    rw [e]
    exact ⟨rfl, rfl, rfl⟩
  constructor
  case row =>
    intro k hk
    obtain ⟨src, update, lsConflictEnd, e, -⟩ := completeRow_get s i k
    rw [e] at hk ⊢
    have hrow := h.row k hk
    exact ⟨hrow.dispatched, hrow.scheduled, hrow.executed, hrow.fired, hrow.done⟩
  case queue =>
    rw [hkept.1, hkept.2.1]
    exact h.queue
  case iterator =>
    unfold Proc.dispatchQueueTail
    rw [hkept.1, hkept.2.1]
    exact h.iterator
  case result =>
    intro r hr
    rw [hkept.2.2] at hr
    rcases List.mem_append.mp hr with hold | hnew
    · exact h.result r hold
    · -- the row has been executed, and all its times are recorded
      obtain rfl := List.mem_singleton.mp hnew
      have hrow := h.row i hocc
      have hfirst := hrow.done hfired (Int.le_of_eq htime)
      obtain ⟨hscheduled, hexecute, hlast⟩ := hrow.executed hfirst
      exact ⟨hrow.dispatched.1, (hrow.scheduled hscheduled).1, hexecute, hlast.trans_le hlimit⟩

theorem Timed.beginCycle (h : Timed limit s) (hlimit : limit .executeInstr ≤ s.cycle) :
    Timed limit s.beginCycle ∧ s.beginCycle.cycle = s.cycle := by
  refine sweep_preserves (P := fun a : Proc conf => Timed limit a ∧ a.cycle = s.cycle)
    ⟨⟨h.row, h.queue, h.iterator, h.result⟩, rfl⟩ ?_
  rintro i a ⟨ha, hcycle⟩
  unfold Proc.updateRow
  split
  · rename_i hfin
    refine ⟨ha.completeRow hfin (hcycle ▸ hlimit), ?_⟩
    obtain ⟨branchTable, ghr, e⟩ := a.completeRow_eq i
    rw [e]
    exact hcycle
  · exact ⟨ha, hcycle⟩

/-! ### `execute_instr` and `schedule_instr` -/

/-- A row that is executed has been scheduled in an earlier cycle. -/
theorem Row.Timely.executed_row {cycle : ℕ} {row row' : Row} (h : row.Timely limit)
    (hrow : row.Executed cycle row') (hle : ∀ event, limit event ≤ limit' event)
    (hlimit : limit .scheduleInstr ≤ cycle) (hlimit' : cycle < limit' .executeInstr) :
    row'.Timely limit' := by
  unfold Row.Executed at hrow
  split at hrow
  · rename_i hguard
    obtain ⟨t, rfl, -⟩ := hrow
    have hmono := h.mono hle
    have hfirst := h.fired hguard.2
    unfold Row.executing
    split
    · have hbefore := (h.scheduled hfirst).2.trans_le hlimit
      exact ⟨hmono.dispatched, hmono.scheduled, fun _ => ⟨hfirst, hbefore, hlimit'⟩, hmono.fired,
        fun _ _ => rfl⟩
    · rename_i hexecuted
      exact ⟨hmono.dispatched, hmono.scheduled, hmono.executed, hmono.fired,
        fun _ _ => Bool.eq_false_of_not_eq_true hexecuted⟩
  · rw [hrow]
    exact h.mono hle

theorem Timed.executeInstr (h : Timed limit s) (hle : ∀ event, limit event ≤ limit' event)
    (hlimit : limit .scheduleInstr ≤ s.cycle) (hlimit' : s.cycle < limit' .executeInstr) :
    Timed limit' s.executeInstr := by
  obtain ⟨hsame, hrows⟩ := executeInstr_same s
  exact h.sameBooks hsame hle fun i _ hrow => hrow.executed_row (hrows i) hle hlimit hlimit'

/-- A row that is looked at has been dispatched in an earlier cycle. -/
theorem Row.Timely.scheduling {cycle : ℕ} {row : Row} (h : row.Timely limit)
    (hfired : row.fired = false) (hle : ∀ event, limit event ≤ limit' event)
    (hlimit : limit .dispatchInstr ≤ cycle) (hlimit' : cycle < limit' .scheduleInstr) :
    (row.scheduling cycle).Timely limit' ∧ (row.scheduling cycle).instr.scheduleFirst = false := by
  have hmono := h.mono hle
  have hnot : ∀ {P : Prop}, row.fired = true → P := by
    intro P hf
    rw [hfired] at hf
    cases hf
  unfold Row.scheduling
  rcases hfirst : row.instr.scheduleFirst with - | -
  · refine ⟨⟨hmono.dispatched, hmono.scheduled, hmono.executed, hmono.fired, hmono.done⟩, hfirst⟩
  · have hbefore := h.dispatched.2.trans_le hlimit
    refine ⟨⟨hmono.dispatched, fun _ => ⟨hbefore, hlimit'⟩, ?_, fun _ => rfl, hnot⟩, rfl⟩
    -- a row that is looked at for the first time has not been executed
    intro hexecuted
    have hscheduled := (h.executed hexecuted).1
    rw [hfirst] at hscheduled
    cases hscheduled

theorem Row.Timely.scheduled_row {cycle : ℕ} {row row' : Row} (h : row.Timely limit)
    (hrow : row.Scheduled cycle row') (hle : ∀ event, limit event ≤ limit' event)
    (hlimit : limit .dispatchInstr ≤ cycle) (hlimit' : cycle < limit' .scheduleInstr) :
    row'.Timely limit' := by
  cases hrow with
  | passes => exact h.mono hle
  | waits _ hfired => exact (h.scheduling hfired hle hlimit hlimit').1
  | fires t u _ hfired _ ht =>
      obtain ⟨hrow, hfirst⟩ := h.scheduling hfired hle hlimit hlimit'
      refine ⟨hrow.dispatched, hrow.scheduled, hrow.executed, fun _ => hfirst, ?_⟩
      intro _ hdone
      have hdone' : t ≤ 0 := hdone
      omega
  | leaks _ hfired =>
      obtain ⟨hrow, hfirst⟩ := h.scheduling hfired hle hlimit hlimit'
      refine ⟨hrow.dispatched, hrow.scheduled, hrow.executed, hrow.fired, ?_⟩
      intro hf
      have hf' : row.fired = true := hf
      rw [hfired] at hf'
      cases hf'

theorem Timed.scheduleInstr (h : Timed limit s) (hle : ∀ event, limit event ≤ limit' event)
    (hlimit : limit .dispatchInstr ≤ s.cycle) (hlimit' : s.cycle < limit' .scheduleInstr) :
    Timed limit' s.scheduleInstr := by
  obtain ⟨hsame, hrows⟩ := scheduleInstr_same s
  exact h.sameBooks hsame hle fun i _ hrow => hrow.scheduled_row (hrows i) hle hlimit hlimit'

/-! ### `dispatch_instr` -/

theorem Timed.markDispatch (h : Timed limit s) (hle : ∀ event, limit event ≤ limit' event)
    (hlimit : limit .fetchInstr ≤ s.cycle) (hlimit' : s.cycle < limit' .dispatchInstr) :
    Timed limit' s.markDispatch ∧ s.markDispatch.tempIterator = s.markDispatch.dispatchQueueTail := by
  have htemp : s.markDispatch.tempIterator = s.dispatchQueueTail :=
    Nat.max_eq_right h.iterator
  have hiterator : s.markDispatch.tempIterator = s.markDispatch.dispatchQueueTail := by
    rw [s.markDispatch_tail, htemp]
  refine ⟨⟨fun i hi => (h.row i hi).mono hle, ?_, hiterator.le, h.result⟩, hiterator⟩
  intro k inst hget
  have hlt : k < s.markDispatch.dispatchQueueTail := (List.getElem?_eq_some_iff.mp hget).1
  have hnot : ∀ {P : Prop}, s.markDispatch.tempIterator ≤ k → P := by
    intro P hge
    rw [hiterator] at hge
    exact absurd hlt (Nat.not_lt.mpr hge)
  rw [s.markDispatch_get] at hget
  split at hget
  · rename_i hk
    have hinst := (h.queue k inst hget).mono hle
    exact ⟨hinst.scheduleFirst, hinst.executeFirst, fun _ => hinst.dispatched hk, hnot⟩
  · -- fetched in an earlier cycle, and dispatched now
    rename_i hk
    obtain ⟨inst', hget', rfl⟩ := Option.map_eq_some_iff.mp hget
    have hinst := h.queue k inst' hget'
    obtain ⟨hfirst, hfetch⟩ := hinst.fetched (Nat.le_of_not_lt hk)
    unfold Inst.marked
    rw [if_pos hfirst]
    exact ⟨hinst.scheduleFirst, hinst.executeFirst,
      fun _ => ⟨hfetch.trans_le hlimit, hlimit'⟩, hnot⟩

theorem Timed.placeRow (h : Timed limit s) (hs : Books prog s) {i : Fin conf.scheduleQueueSize}
    {inst : Inst} (hfree : (s.scheduleQueue i).occupied = false)
    (hget : s.dispatchQueue[s.dispatchQueueHead]? = some inst)
    (hiterator : s.tempIterator = s.dispatchQueueTail) : Timed limit (s.placeRow i inst) := by
  have hkept : (s.placeRow i inst).dispatchQueue = s.dispatchQueue ∧
      (s.placeRow i inst).tempIterator = s.tempIterator := by
    rw [s.placeRow_eq]
    exact ⟨rfl, rfl⟩
  constructor
  case row =>
    intro k hk
    rcases eq_or_ne k i with rfl | hki
    · rw [s.placeRow_self]
      have hinst := h.queue _ _ hget
      have hlt : s.dispatchQueueHead < s.tempIterator := by
        rw [hiterator]
        exact (List.getElem?_eq_some_iff.mp hget).1
      have hidle := hs.rowsOk.idle k hfree
      have hscheduled : inst.scheduleFirst ≠ false := by simp [hinst.scheduleFirst]
      have hexecuted : inst.executeFirst ≠ false := by simp [hinst.executeFirst]
      have hfired : ∀ {P : Prop}, (s.scheduleQueue k).fired = true → P := by
        intro P hf
        rw [hidle] at hf
        cases hf
      exact ⟨hinst.dispatched hlt, fun hfirst => absurd hfirst hscheduled,
        fun hfirst => absurd hfirst hexecuted, hfired, hfired⟩
    · rw [s.placeRow_of_ne inst hki] at hk ⊢
      exact h.row k hk
  case queue =>
    rw [hkept.1, hkept.2]
    exact h.queue
  case iterator =>
    unfold Proc.dispatchQueueTail
    rw [hkept.1, hkept.2]
    exact h.iterator
  case result =>
    rw [s.placeRow_result]
    exact h.result

theorem Timed.dispatchInstr (h : Timed limit s) (hs : Books prog s)
    (hle : ∀ event, limit event ≤ limit' event) (hlimit : limit .fetchInstr ≤ s.cycle)
    (hlimit' : s.cycle < limit' .dispatchInstr) :
    Timed limit' s.dispatchInstr ∧ s.dispatchInstr.cycle = s.cycle := by
  have hpass := (dispatchInstr_induction
    (P := fun a : Proc conf => Timed limit' a ∧ a.tempIterator = a.dispatchQueueTail ∧
      a.cycle = s.cycle) ?_ ?_ ?_ hs ?_).2
  · exact ⟨hpass.1, hpass.2.2⟩
  · rintro a b ⟨ha, hiterator, hcycle⟩
    exact ⟨⟨ha.row, ha.queue, ha.iterator, ha.result⟩, hiterator, hcycle⟩
  · rintro a k _ ⟨ha, hiterator, hcycle⟩ _
    exact ⟨⟨ha.row, ha.queue, ha.iterator, ha.result⟩, hiterator, hcycle⟩
  · rintro a i inst ha ⟨ht, hiterator, hcycle⟩ hfree hget _
    refine ⟨ht.placeRow ha hfree hget hiterator, ?_, ?_⟩
    · rw [a.placeRow_eq]
      exact hiterator
    · rw [a.placeRow_eq]
      exact hcycle
  · obtain ⟨hmarked, hiterator⟩ := h.markDispatch hle hlimit hlimit'
    exact ⟨hmarked, hiterator, rfl⟩

/-! ### `fetch_instr` and `update_state_2` -/

theorem Timed.fetchOne (h : Timed limit s) (hlimit : s.cycle < limit .fetchInstr)
    (inst : TraceInst) (trace : List TraceInst) : Timed limit (s.fetchOne inst trace) where
  row := h.row
  queue := by
    intro k inst' hget
    have hget' : (s.dispatchQueue ++ [s.fetched inst])[k]? = some inst' := hget
    rw [List.getElem?_append] at hget'
    split at hget'
    · exact h.queue k inst' hget'
    · rename_i hk
      obtain ⟨-, rfl⟩ : k - s.dispatchQueue.length = 0 ∧ s.fetched inst = inst' := by
        simpa [List.getElem?_singleton] using hget'
      refine ⟨rfl, rfl, ?_, fun _ => ⟨rfl, hlimit⟩⟩
      intro hlt
      exact absurd (hlt.trans_le h.iterator) hk
  iterator := by
    have htail : (s.fetchOne inst trace).dispatchQueueTail = s.dispatchQueueTail + 1 := by
      show (s.dispatchQueue ++ [s.fetched inst]).length = _
      rw [List.length_append]
      rfl
    rw [htail]
    exact Nat.le_succ_of_le h.iterator
  result := h.result

theorem Timed.mono (h : Timed limit s) (hle : ∀ event, limit event ≤ limit' event) :
    Timed limit' s where
  row := fun i hi => (h.row i hi).mono hle
  queue := fun k inst hget => (h.queue k inst hget).mono hle
  iterator := h.iterator
  result := h.result

theorem Timed.fetchStage (h : Timed limit s) (hlimit : s.cycle < limit .fetchInstr)
    (hfetch : s.fetchStage = .ok s') : Timed limit s' ∧ s'.cycle = s.cycle := by
  refine Proc.fetchStage_induction (P := fun a : Proc conf => Timed limit a ∧ a.cycle = s.cycle)
    ?_ ?_ ⟨h, rfl⟩ hfetch
  · rintro a inst trace ⟨ha, hcycle⟩ _ _
    exact ⟨ha.fetchOne (hcycle ▸ hlimit) inst trace, hcycle⟩
  · rintro a more ⟨ha, hcycle⟩
    exact ⟨⟨ha.row, ha.queue, ha.iterator, ha.result⟩, hcycle⟩

theorem Timed.endCycle (h : Timed limit s) (hs : Books prog s) (qsort : Qsort conf) :
    Timed limit (s.endCycle qsort) ∧ (s.endCycle qsort).cycle = s.cycle + 1 := by
  obtain ⟨cumulativeSize, e⟩ := endCycle_eq qsort hs
  obtain ⟨σ, hσ⟩ := endCycle_reorders qsort hs
  have hrow : ∀ k, ((s.endCycle qsort).scheduleQueue k).occupied = true →
      ((s.endCycle qsort).scheduleQueue k).Timely limit := by
    intro k hk
    obtain ⟨hk', -, heq⟩ := hσ.stayed hk
    rw [heq]
    exact h.row (σ k) hk'
  rw [e] at hrow ⊢
  exact ⟨⟨hrow, h.queue, h.iterator, h.result⟩, rfl⟩

end Limits

/-! ### Runs -/

theorem timed_setup (trace : List TraceInst) (limit : Stage → ℕ) :
    Timed limit (setupProc conf trace) where
  row := by
    intro i hi
    cases hi
  queue := by
    intro k inst hget
    cases hget
  iterator := Nat.le_refl 0
  result := by
    intro r hr
    cases hr

/-- In every run the recorded times increase. -/
theorem Reached.timed {trace : List TraceInst} {stage : Stage}
    (h : Reached conf qsort trace stage s) : Timed (stage.limit s.cycle) s := by
  refine h.invariant_of (Ledger trace) (fun stage s => Timed (stage.limit s.cycle) s)
    Reached.ledger (timed_setup trace _) ?_
  intro stage s s' hledger ht hrun
  have hle : stage ≠ .updateState2 → ∀ event,
      stage.limit s.cycle event ≤ stage.next.limit s.cycle event :=
    fun hne => Stage.limit_le_next hne s.cycle
  cases stage with
  | updateState =>
      obtain rfl := Except.ok.inj hrun
      obtain ⟨hs', hcycle⟩ := ht.beginCycle (Nat.le_refl _)
      show Timed (Stage.limit .executeInstr s.beginCycle.cycle) s.beginCycle
      rw [hcycle]
      exact hs'.mono (hle (by decide))
  | executeInstr =>
      obtain rfl := Except.ok.inj hrun
      show Timed (Stage.limit .scheduleInstr s.executeInstr.cycle) s.executeInstr
      rw [(executeInstr_same s).1.cycle]
      exact ht.executeInstr (hle (by decide)) (Nat.le_refl _) (Nat.lt_succ_self _)
  | scheduleInstr =>
      obtain rfl := Except.ok.inj hrun
      show Timed (Stage.limit .dispatchInstr s.scheduleInstr.cycle) s.scheduleInstr
      rw [(scheduleInstr_same s).1.cycle]
      exact ht.scheduleInstr (hle (by decide)) (Nat.le_refl _) (Nat.lt_succ_self _)
  | dispatchInstr =>
      obtain rfl := Except.ok.inj hrun
      obtain ⟨hs', hcycle⟩ := ht.dispatchInstr hledger.books (hle (by decide)) (Nat.le_refl _)
        (Nat.lt_succ_self _)
      show Timed (Stage.limit .fetchInstr s.dispatchInstr.cycle) s.dispatchInstr
      rw [hcycle]
      exact hs'
  | fetchInstr =>
      obtain ⟨hs', hcycle⟩ :=
        (ht.mono (hle (by decide))).fetchStage (Nat.lt_succ_self _) hrun
      show Timed (Stage.limit .updateState2 s'.cycle) s'
      rw [hcycle]
      exact hs'
  | updateState2 =>
      obtain rfl := Except.ok.inj hrun
      obtain ⟨hs', hcycle⟩ := ht.endCycle hledger.books qsort
      show Timed (Stage.limit .updateState (s.endCycle qsort).cycle) (s.endCycle qsort)
      rw [hcycle]
      refine hs'.mono ?_
      intro event
      cases event <;> first | exact Nat.le_refl _ | exact Nat.le_succ _

end ProjectArchive.Tomasulo
