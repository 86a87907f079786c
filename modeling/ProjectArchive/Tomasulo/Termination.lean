/-
ProjectArchive/Tomasulo/Termination.lean

`run_proc` returns, and has recorded every instruction that is no NOP once.

The loop ends because every cycle does some of the work that is left, and it
fails only when the dispatch queue overflows, which a shorter trace does not
make it do.  When it ends, the trace has been read, the dispatch queue is empty
and so are all rows; by the books every instruction is then completed.
-/
import ProjectArchive.Tomasulo.Progress
import ProjectArchive.Tomasulo.Times

namespace ProjectArchive.Tomasulo

open Sweep Loop

variable {conf : ProcConf} {prog : List TraceInst} {s s' : Proc conf} {qsort : Qsort conf}

/-! ### Retired instructions -/

/-- `instructions_retired` counts the rows of `result`. -/
def Retires (s : Proc conf) : Prop := s.stats.instructionsRetired = s.result.length

theorem Retires.step (h : Retires s) (hs : Books prog s) (hstep : Step qsort s s') : Retires s' := by
  have hsame : SameBooks s s' → Retires s' := by
    intro hsame
    unfold Retires
    rw [hsame.retired, hsame.result]
    exact h
  unfold Retires at h ⊢
  cases hstep with
  | locals e =>
      rw [e]
      exact h
  | completes i _ _ =>
      obtain ⟨branchTable, ghr, e⟩ := s.completeRow_eq i
      rw [e]
      show s.stats.instructionsRetired + 1 = (s.result ++ [_]).length
      rw [h, List.length_append]
      rfl
  | executes i _ _ => exact hsame (executeRow_same i s).1
  | schedules i => exact hsame (scheduleRow_same i s).1
  | marks => exact h
  | skips k _ => exact h
  | places i inst _ _ _ =>
      rw [s.placeRow_eq]
      exact h
  | fetches inst trace _ _ => exact h
  | releases =>
      obtain ⟨cumulativeSize, e⟩ := endCycle_eq qsort hs
      rw [e]
      exact h

theorem Reached.retires {trace : List TraceInst} {stage : Stage}
    (h : Reached conf qsort trace stage s) : Retires s :=
  h.step_invariant rfl fun _ _ hs hr hstep => hr.step hs hstep

/-! ### Fetching -/

/-- `continue_fetch` is cleared at the end of the trace, and `continue_bool` says
whether there is something to do. -/
structure Fetching (stage : Stage) (s : Proc conf) : Prop where
  drained : s.continueFetch = false → s.trace = []
  continues : stage = .updateState → (s.continueBool = true ↔ Busy s)

theorem Fetching.congr {stage stage' : Stage} (h : Fetching stage s)
    (hmore : s'.continueFetch = s.continueFetch) (htrace : s'.trace = s.trace)
    (hstage : stage' ≠ .updateState) : Fetching stage' s' where
  drained := by
    rw [hmore, htrace]
    exact h.drained
  continues := fun e => absurd e hstage

theorem dispatchInstr_trace (hs : Books prog s) : s.dispatchInstr.trace = s.trace := by
  refine (dispatchInstr_induction (P := fun a : Proc conf => a.trace = s.trace)
    ?_ ?_ ?_ hs rfl).2
  · exact fun a b ha => ha
  · exact fun a k _ ha _ => ha
  · intro a i inst _ ha _ _ _
    rw [a.placeRow_eq]
    exact ha

theorem Fetching.fetchStage (h : Fetching .fetchInstr s) (hfetch : s.fetchStage = .ok s') :
    Fetching .updateState2 s' := by
  refine ⟨?_, fun e => by cases e⟩
  unfold Proc.fetchStage at hfetch
  split at hfetch
  · obtain ⟨⟨more, s₁⟩, hloop, hend⟩ := Exec.bind_eq_ok hfetch
    obtain rfl := Except.ok.inj hend
    exact (Proc.fetchLoop_induction (P := fun _ => True) (fun _ _ _ _ _ _ => trivial) trivial hloop).2
  · obtain rfl := Except.ok.inj hfetch
    exact h.drained

/-- The condition at the end of the loop. -/
theorem continueBool_iff (hs : Books prog s) :
    (!(decide (s.instCntSq = 0) && decide (s.dispatchQueueHead = s.dispatchQueueTail)) ||
      s.continueFetch) = true ↔ Busy s := by
  have hcount : s.instCntSq = 0 ↔ ¬ ∃ k, (s.scheduleQueue k).occupied = true := by
    rw [hs.rowsOk.instCntSq, ← count_ne_zero_iff (p := Row.occupied), not_not]
  unfold Busy
  simp only [Bool.or_eq_true, Bool.not_eq_true', Bool.and_eq_false_iff, decide_eq_false_iff_not,
    hcount, not_not]
  exact or_comm

theorem Reached.fetching {trace : List TraceInst} {stage : Stage}
    (h : Reached conf qsort trace stage s) : Fetching stage s := by
  refine h.invariant_of (Ledger trace) Fetching Reached.ledger ?_ ?_
  · refine ⟨?_, fun _ => iff_of_true rfl (.inl rfl)⟩
    intro hmore
    cases hmore
  · intro stage s s' hledger hs hrun
    cases stage with
    | updateState =>
        obtain rfl := Except.ok.inj hrun
        have hupdated := beginCycle_updated s
        exact hs.congr hupdated.continueFetch hupdated.trace (by decide)
    | executeInstr =>
        obtain rfl := Except.ok.inj hrun
        have hsame := (executeInstr_same s).1
        exact hs.congr hsame.continueFetch hsame.trace (by decide)
    | scheduleInstr =>
        obtain rfl := Except.ok.inj hrun
        have hsame := (scheduleInstr_same s).1
        exact hs.congr hsame.continueFetch hsame.trace (by decide)
    | dispatchInstr =>
        obtain rfl := Except.ok.inj hrun
        exact hs.congr (dispatchInstr_continueFetch hledger.books)
          (dispatchInstr_trace hledger.books) (by decide)
    | fetchInstr => exact hs.fetchStage hrun
    | updateState2 =>
        obtain rfl := Except.ok.inj hrun
        have hbooks : Books trace (s.endCycle qsort) := hledger.endCycle.books
        obtain ⟨cumulativeSize, e⟩ := endCycle_eq qsort hledger.books
        refine ⟨?_, fun _ => ?_⟩
        · rw [e]
          exact hs.drained
        · rw [← continueBool_iff hbooks, e]
          exact Iff.rfl

/-- A trace that is short enough fits into the dispatch queue. -/
theorem fetchLoop_ok (hlen : prog.length < dqDataStructureSize) (iterations : ℕ)
    (hs : Books prog s) : ∃ r, Proc.fetchLoop iterations s = .ok r := by
  induction iterations generalizing s with
  | zero => exact ⟨_, rfl⟩
  | succ iterations ih =>
      unfold Proc.fetchLoop
      split
      · exact ⟨_, rfl⟩
      · rename_i inst trace htrace
        have hlt : s.dispatchQueueTail < dqDataStructureSize := by
          have hqueue := congrArg List.length hs.queueOk.queue
          rw [List.length_append, List.length_map, htrace, List.length_cons] at hqueue
          show s.dispatchQueue.length < _
          omega
        rw [if_pos hlt]
        exact ih (hs.fetchOne htrace hlt)

theorem fetchStage_ok (hlen : prog.length < dqDataStructureSize) (hs : Books prog s) :
    ∃ s', s.fetchStage = .ok s' := by
  unfold Proc.fetchStage
  split
  · obtain ⟨⟨more, s₁⟩, hloop⟩ := fetchLoop_ok hlen conf.f hs
    unfold Proc.fetchInstr
    rw [hloop]
    exact ⟨_, rfl⟩
  · exact ⟨s, rfl⟩

/-- A cycle fails only when it fetches. -/
theorem cycleBody_ok
    (hok : ∀ s, Reached conf qsort prog .fetchInstr s → ∃ s', s.fetchStage = .ok s')
    (h : Reached conf qsort prog .updateState s) (hcontinue : s.continueBool = true) :
    ∃ s', s.cycleBody qsort = .ok s' := by
  obtain ⟨s₅, hfetch⟩ := hok _ (h.dispatched hcontinue)
  refine ⟨s₅.endCycle qsort, ?_⟩
  unfold Proc.cycleBody
  dsimp only
  rw [hfetch]
  rfl

/-- A run that does not fail ends, and then there is nothing left to do. -/
theorem run_ends
    (hok : ∀ s, Reached conf qsort prog .fetchInstr s → ∃ s', s.fetchStage = .ok s') :
    ∃ s, Returns Proc.continueBool (Proc.cycleBody qsort) (setupProc conf prog) s ∧
      Reached conf qsort prog .updateState s ∧ ¬ Busy s := by
  obtain ⟨s, hreturns, hreach, hguard⟩ := returns_of_measure
    (Reached conf qsort prog .updateState) Proc.work (by
      intro s hs hcontinue
      obtain ⟨s', hbody⟩ := cycleBody_ok hok hs hcontinue
      exact ⟨s', hbody, hs.cycle hcontinue hbody,
        work_cycleBody hs hcontinue ((hs.fetching.continues rfl).mp hcontinue) hbody⟩) .setup
  refine ⟨s, hreturns, hreach, ?_⟩
  intro hbusy
  rw [(hreach.fetching.continues rfl).mpr hbusy] at hguard
  cases hguard

/-! ### The end of a run -/

/-- The instructions that are carried out, counted in the trace. -/
theorem countP_issues (prog : List TraceInst) :
    (List.range prog.length).countP (fun t => decide (Issues prog t)) =
      prog.countP fun inst => decide (inst.opcode ≠ .nop) := by
  induction prog using List.reverseRecOn with
  | nil => rfl
  | append_singleton prog inst ih =>
      have hbefore : ∀ t ∈ List.range prog.length,
          decide (Issues (prog ++ [inst]) t) = true ↔ decide (Issues prog t) = true := by
        intro t ht
        rw [decide_eq_true_eq, decide_eq_true_eq]
        unfold Issues
        rw [List.getElem?_append_left (List.mem_range.mp ht)]
      have hlast : Issues (prog ++ [inst]) prog.length ↔ inst.opcode ≠ .nop := by
        simp [Issues]
      rw [List.length_append, List.length_singleton, List.range_succ, List.countP_append,
        List.countP_append, List.countP_congr hbefore, ih, List.countP_singleton,
        List.countP_singleton]
      simp only [decide_eq_true_eq, hlast]

/-- When there is nothing left to do, every instruction has been completed. -/
theorem completed_of_not_busy (hs : Books prog s) (hf : Fetching .updateState s) (h : ¬ Busy s)
    (t : ℕ) : s.Completed t ↔ Issues prog t := by
  unfold Busy at h
  simp only [not_or, not_exists, not_not] at h
  obtain ⟨hmore, hfree, hempty⟩ := h
  have hdrained := hf.drained (Bool.eq_false_of_not_eq_true hmore)
  have hlen : s.dispatchQueueTail = prog.length := by
    have hqueue := congrArg List.length hs.queueOk.queue
    rw [hdrained, List.append_nil, List.length_map] at hqueue
    exact hqueue
  constructor
  · exact fun hc => (hs.rowsOk.completed t hc).2
  · intro hissues
    have hlt : t < s.dispatchQueueHead := by
      obtain ⟨inst, hget, -⟩ := hissues
      rw [hempty, hlen]
      exact (List.getElem?_eq_some_iff.mp hget).1
    rcases hs.rowsOk.dispatched t hlt hissues with hc | ⟨k, hk, -⟩
    · exact hc
    · exact absurd hk (hfree k)

/-- Instructions that are recorded once each are as many as there are. -/
theorem length_of_completed (hs : Books prog s) (h : ∀ t, s.Completed t ↔ Issues prog t) :
    s.result.length = prog.countP fun inst => decide (inst.opcode ≠ .nop) := by
  have hperm : (s.result.map ResultRow.tag).Perm
      ((List.range prog.length).filter fun t => decide (Issues prog t)) := by
    refine (List.perm_ext_iff_of_nodup hs.rowsOk.nodup
      (List.nodup_range.filter _)).mpr ?_
    intro t
    rw [show t ∈ s.result.map ResultRow.tag ↔ Issues prog t from h t, List.mem_filter,
      List.mem_range, decide_eq_true_eq]
    constructor
    · rintro ⟨inst, hget, hop⟩
      exact ⟨(List.getElem?_eq_some_iff.mp hget).1, ⟨inst, hget, hop⟩⟩
    · exact And.right
  rw [← countP_issues, List.countP_eq_length_filter, ← hperm.length_eq, List.length_map]

/-- `run_proc` returns on every trace that fits into the dispatch queue.  Then
`result` has recorded every instruction that is no NOP exactly once and no NOP,
`instructions_retired` is their number, and the times of every recorded
instruction increase from stage to stage. -/
theorem runProc_returns (conf : ProcConf) (qsort : Qsort conf) (prog : List TraceInst)
    (hlen : prog.length < dqDataStructureSize) :
    ∃ s, (∃ N, ∀ fuel, N ≤ fuel → runProc conf qsort prog fuel = .ok (some s)) ∧
      (s.result.map ResultRow.tag).Nodup ∧
      (∀ t, t ∈ s.result.map ResultRow.tag ↔
        ∃ inst, prog[t]? = some inst ∧ inst.opcode ≠ .nop) ∧
      s.stats.instructionsRetired = prog.countP (fun inst => decide (inst.opcode ≠ .nop)) ∧
      ∀ r ∈ s.result, r.fetch < r.dispatch ∧ r.dispatch < r.schedule ∧ r.schedule < r.execute ∧
        r.execute < r.update := by
  have hok : ∀ s, Reached conf qsort prog .fetchInstr s → ∃ s', s.fetchStage = .ok s' :=
    fun s hs => fetchStage_ok hlen hs.ledger.books
  obtain ⟨s, ⟨N, hN⟩, hreach, hidle⟩ := run_ends hok
  have hbooks := hreach.ledger.books
  have hcompleted := completed_of_not_busy hbooks hreach.fetching hidle
  refine ⟨{ s with stats := { s.stats with cycleCount := s.stats.cycleCount - 1 } }, ⟨N, ?_⟩,
    hbooks.rowsOk.nodup, hcompleted, ?_, ?_⟩
  · intro fuel hfuel
    unfold runProc
    rw [hN fuel hfuel]
    rfl
  · exact hreach.retires.trans (length_of_completed hbooks hcompleted)
  · intro r hr
    have htimes := hreach.timed.result r hr
    exact ⟨htimes.fetch, htimes.dispatch, htimes.schedule, htimes.execute⟩

/-- Of a multiplication, a NOP and an addition, two are retired. -/
theorem runProc_returns_three : ∃ s : Proc smallConf,
    (∃ N, ∀ fuel, N ≤ fuel → runProc smallConf (keepOrder smallConf)
      [⟨0, .mul, some 1, fun _ => none, 0, false⟩, ⟨4, .nop, none, fun _ => none, 0, false⟩,
        ⟨8, .add, some 2, fun _ => some 1, 0, false⟩] fuel = .ok (some s)) ∧
      s.stats.instructionsRetired = 2 ∧ 1 ∉ s.result.map ResultRow.tag := by
  obtain ⟨s, hreturns, -, hmem, hretired, -⟩ := runProc_returns smallConf (keepOrder smallConf)
    [⟨0, .mul, some 1, fun _ => none, 0, false⟩, ⟨4, .nop, none, fun _ => none, 0, false⟩,
      ⟨8, .add, some 2, fun _ => some 1, 0, false⟩] (by decide)
  refine ⟨s, hreturns, hretired, ?_⟩
  rw [hmem]
  rintro ⟨inst, hget, hop⟩
  obtain rfl := Option.some.inj hget
  exact hop rfl

end ProjectArchive.Tomasulo
