/-
ProjectArchive/Tomasulo/Makespan.lean

How long a run takes.

`run_proc` takes one from `cycle_count` at its end, so that it names the last
cycle, and this is the last time in the table unless the trace ends with NOPs
(`cycle_count_exact`).  No run takes more than 40 cycles for an instruction.
From below a run is bounded by its data: a chain of instructions each of which
reads what the one before writes takes the latencies of all of them and a cycle
in between, whatever the configuration (`dataflow_limit`).
-/
import ProjectArchive.Tomasulo.Latency
import ProjectArchive.Tomasulo.Predictor
import ProjectArchive.Tomasulo.Timeline

namespace ProjectArchive.Tomasulo

open Sweep Loop

variable {conf : ProcConf} {prog : List TraceInst} {s s' : Proc conf} {qsort : Qsort conf}

/-! ### A cycle -/

theorem beginCycle_result (s : Proc conf) : s.beginCycle.cycle = s.cycle ∧
    ∃ rows, s.beginCycle.result = s.result ++ rows ∧ ∀ r ∈ rows, r.update = s.cycle := by
  refine sweep_preserves (P := fun a : Proc conf => a.cycle = s.cycle ∧
    ∃ rows, a.result = s.result ++ rows ∧ ∀ r ∈ rows, r.update = s.cycle)
    ⟨rfl, [], (List.append_nil _).symm, fun r hr => absurd hr List.not_mem_nil⟩ ?_
  rintro i a ⟨hcycle, rows, hresult, hrows⟩
  unfold Proc.updateRow
  split
  · obtain ⟨hnew, hsame, -⟩ := completeRow_result a i
    refine ⟨hsame.trans hcycle, rows ++ [((a.scheduleQueue i).completed a.cycle).instr.resultRow],
      ?_, ?_⟩
    · rw [hnew, hresult, List.append_assoc]
    · intro r hr
      rcases List.mem_append.mp hr with hold | hlast
      · exact hrows r hold
      · obtain rfl := List.mem_singleton.mp hlast
        exact hcycle
  · exact ⟨hcycle, rows, hresult, hrows⟩

/-- A cycle completes instructions at its own time. -/
theorem cycleBody_result (h : Reached conf qsort prog .updateState s)
    (hcontinue : s.continueBool = true) (hbody : s.cycleBody qsort = .ok s') :
    s'.cycle = s.cycle + 1 ∧
      ∃ rows, s'.result = s.result ++ rows ∧ ∀ r ∈ rows, r.update = s.cycle := by
  obtain ⟨s₅, hfetch, rfl⟩ := cycleBody_eq_ok hbody
  have hscheduled := (h.scheduled hcontinue).ledger.books
  have hdispatched := h.dispatched hcontinue
  have hfetched := (h.fetched hcontinue hfetch).ledger.books
  have hsame := (executeInstr_same s.beginCycle).1.trans
    (scheduleInstr_same s.beginCycle.executeInstr).1
  obtain ⟨hcycle, rows, hresult, hrows⟩ := beginCycle_result s
  obtain ⟨hcycle', -, -, hresult', -⟩ := fetchStage_kept hdispatched.timed.iterator hfetch
  -- what `dispatch_instr` does keeps the clock and the table
  have hdispatch : s.beginCycle.executeInstr.scheduleInstr.dispatchInstr.cycle = s.cycle ∧
      s.beginCycle.executeInstr.scheduleInstr.dispatchInstr.result = s.result ++ rows := by
    refine (dispatchInstr_induction (P := fun a : Proc conf => a.cycle = s.cycle ∧
      a.result = s.result ++ rows) ?_ ?_ ?_ hscheduled ?_).2
    · exact fun a b ha => ha
    · exact fun a k _ ha _ => ha
    · intro a i inst _ ha _ _ _
      rw [a.placeRow_eq]
      exact ha
    · exact ⟨hsame.cycle.trans hcycle, hsame.result.trans hresult⟩
  obtain ⟨cumulativeSize, e⟩ := endCycle_eq qsort hfetched
  rw [e]
  refine ⟨?_, rows, ?_, hrows⟩
  · show s₅.cycle + 1 = s.cycle + 1
    rw [hcycle', hdispatch.1]
  · exact hresult'.trans hdispatch.2

/-! ### Between the cycles -/

/-- The cycles that have been counted, the work that they have done and the instructions that
have been completed in them. -/
structure Elapsed (prog : List TraceInst) (s : Proc conf) : Prop where
  cycleCount : s.stats.cycleCount = s.cycle
  work : s.cycle + s.work ≤ 40 * prog.length + 1
  update : ∀ r ∈ s.result, r.update < s.cycle

theorem elapsed_setup (prog : List TraceInst) : Elapsed prog (setupProc conf prog) where
  cycleCount := rfl
  work := by
    have hrows : total Row.work (setupProc conf prog).scheduleQueue = 0 :=
      Finset.sum_eq_zero fun i _ => rfl
    have hwork : (setupProc conf prog).work =
        1 + 40 * prog.length + 20 * (0 - 0) + total Row.work (setupProc conf prog).scheduleQueue :=
      rfl
    show 0 + (setupProc conf prog).work ≤ _
    omega
  update := fun r hr => absurd hr List.not_mem_nil

theorem Lengths.elapsed {sizes : List ℤ} (h : Lengths conf qsort prog sizes s) :
    Elapsed prog s := by
  induction h with
  | setup => exact elapsed_setup prog
  | @cycle sizes s s' h hcontinue hbody ih =>
      have hreach := h.reached
      obtain ⟨hcycle, rows, hresult, hrows⟩ := cycleBody_result hreach hcontinue hbody
      have hless := work_cycleBody hreach hcontinue
        ((hreach.fetching.continues rfl).mp hcontinue) hbody
      constructor
      case cycleCount =>
        have hbefore : s.stats.cycleCount = sizes.length := h.summed.cycleCount
        have hafter : s'.stats.cycleCount = sizes.length + 1 :=
          (h.cycle hcontinue hbody).summed.cycleCount
        rw [hafter, hcycle, ← ih.cycleCount, hbefore]
      case work =>
        -- the cycle has taken something from the work that is left
        have hwork := ih.work
        omega
      case update =>
        intro r hr
        rw [hresult] at hr
        rw [hcycle]
        rcases List.mem_append.mp hr with hold | hnew
        · exact Nat.lt_succ_of_lt (ih.update r hold)
        · rw [hrows r hnew]
          exact Nat.lt_succ_self _

/-! ### The last cycle -/

/-- The last instruction, if it is no NOP, is not the only one to be completed before the last
cycle: something is completed in it. -/
theorem exists_completed_last (h : Reached conf qsort prog .updateState s)
    (hcontinue : s.continueBool = true) (hbody : s.cycleBody qsort = .ok s')
    (hall : ∀ t, s'.Completed t ↔ Issues prog t) (hlast : Issues prog (prog.length - 1))
    (hupdate : ∀ r ∈ s.result, r.update < s.cycle) : ∃ r ∈ s'.result, r.update = s.cycle := by
  obtain ⟨-, rows, hresult, hrows⟩ := cycleBody_result h hcontinue hbody
  have hbooks := h.ledger.books
  -- what is completed now and was not before is completed in this cycle
  have hnew : ∀ t, Issues prog t → ¬ s.Completed t → ∃ r ∈ s'.result, r.update = s.cycle := by
    intro t ht hnot
    obtain ⟨r, hr, rfl⟩ := List.mem_map.mp ((hall t).mpr ht)
    refine ⟨r, hr, ?_⟩
    rw [hresult] at hr
    rcases List.mem_append.mp hr with hold | hmem
    · exact absurd (List.mem_map_of_mem hold) hnot
    · exact hrows r hmem
  by_cases hc : s.Completed (prog.length - 1)
  · rcases (h.fetching.continues rfl).mp hcontinue with hmore | ⟨i, hi⟩ | hne
    · -- the last instruction was fetched in the cycle before, and cannot be completed yet
      obtain ⟨r, hr, htag⟩ := List.mem_map.mp hc
      have hfull : s.dispatchQueueTail = s.cycle * conf.f := h.paced.full hmore
      have htotal := hbooks.tail_add
      have hlt := (hbooks.rowsOk.completed _ hc).1
      have hsize := hbooks.queueOk.size.1
      have hfetch := (h.paced.result r hr).1
      have htimes := h.timed.result r hr
      have hbefore := hupdate r hr
      have hfetched : s.cycle - 1 ≤ r.fetch := by
        rw [hfetch, htag, Nat.le_div_iff_mul_le conf.f_pos]
        have hmul : (s.cycle - 1) * conf.f + conf.f ≤ s.cycle * conf.f ∨ s.cycle = 0 := by
          rcases Nat.eq_zero_or_pos s.cycle with h0 | hpos
          · exact .inr h0
          · refine .inl (Nat.le_of_eq ?_)
            rw [← Nat.succ_mul, Nat.succ_eq_add_one, Nat.sub_add_cancel hpos]
        have hf := conf.f_pos
        rcases hmul with hmul | h0
        · omega
        · omega
      have h₁ := htimes.fetch
      have h₂ := htimes.dispatch
      have h₃ := htimes.schedule
      have h₄ := htimes.execute
      omega
    · -- a row that is occupied has not been completed
      refine hnew (s.tag i) (hbooks.rowsOk.row i hi).issues ?_
      exact fun hdone => (h.ledger.phase.done i hi).mp hdone
    · have hlt := (hbooks.rowsOk.completed _ hc).1
      have htotal := hbooks.tail_add
      have hsize := hbooks.queueOk.size.1
      omega
  · exact hnew _ hlast hc

/-- **The cycle count is that of the last completion.**  No instruction is completed later than
the cycle that `run_proc` reports, one is completed in it if the trace does not end with a NOP,
and there are at most 40 cycles for an instruction. -/
theorem cycle_count_exact (conf : ProcConf) (qsort : Qsort conf) (prog : List TraceInst)
    (hlen : prog.length < dqDataStructureSize) :
    ∃ s, (∃ N, ∀ fuel, N ≤ fuel → runProc conf qsort prog fuel = .ok (some s)) ∧
      (∀ r ∈ s.result, r.update ≤ s.stats.cycleCount) ∧
      (Issues prog (prog.length - 1) → ∃ r ∈ s.result, r.update = s.stats.cycleCount) ∧
      s.stats.cycleCount ≤ 40 * prog.length := by
  have hok : ∀ s, Reached conf qsort prog .fetchInstr s → ∃ s', s.fetchStage = .ok s' :=
    fun s hs => fetchStage_ok hlen hs.ledger.books
  obtain ⟨s, ⟨N, hN⟩, hreach, hidle⟩ := run_ends hok
  obtain ⟨hiterates, -⟩ := of_whileLoop (hN N (Nat.le_refl N))
  have hcompleted := completed_of_not_busy hreach.ledger.books hreach.fetching hidle
  obtain ⟨sizes, hsizes⟩ := lengths_of_iterates hiterates
  have helapsed := hsizes.elapsed
  have hcount := helapsed.cycleCount
  refine ⟨{ s with stats := { s.stats with cycleCount := s.stats.cycleCount - 1 } }, ⟨N, ?_⟩,
    ?_, ?_, ?_⟩
  · intro fuel hfuel
    unfold runProc
    rw [hN fuel hfuel]
    rfl
  · intro r hr
    have hupdate := helapsed.update r hr
    show r.update ≤ s.stats.cycleCount - 1
    omega
  · intro hlast
    show ∃ r ∈ s.result, r.update = s.stats.cycleCount - 1
    cases hsizes with
    | setup =>
        -- the loop is entered
        exact absurd (.inl rfl) hidle
    | @cycle sizes s₀ _ h hcontinue hbody =>
        obtain ⟨r, hr, hupdate⟩ := exists_completed_last h.reached hcontinue hbody hcompleted hlast
          h.elapsed.update
        refine ⟨r, hr, ?_⟩
        have hcycle := (cycleBody_result h.reached hcontinue hbody).1
        omega
  · have hwork := helapsed.work
    show s.stats.cycleCount - 1 ≤ 40 * prog.length
    omega

/-- Three instructions, of which the last is a store. -/
theorem cycle_count_exact_loadBranchStore : ∃ s : Proc smallConf,
    (∃ r ∈ s.result, r.update = s.stats.cycleCount) ∧ s.stats.cycleCount ≤ 120 := by
  obtain ⟨s, -, -, hlast, hle⟩ := cycle_count_exact smallConf (keepOrder smallConf)
    (loadBranchStore 1) (by decide)
  exact ⟨s, hlast (by decide), hle⟩

/-! ### The limit of the data -/

/-- The instruction `t` of the trace reads what the instruction `p` writes. -/
def Reads (prog : List TraceInst) (t p : ℕ) : Prop :=
  ∃ inst k r, prog[t]? = some inst ∧ inst.srcReg k = some r ∧ Producer prog r t p

/-- What a run knows of the producers of the instructions that have been fired: an instruction
that has not been executed yet, before the cycle `clock`, will be later. -/
structure Awaited (prog : List TraceInst) (clock : ℕ) (s : Proc conf) : Prop where
  row : ∀ i, (s.scheduleQueue i).occupied = true → (s.scheduleQueue i).fired = true →
    ∀ p, Reads prog (s.tag i) p → ∃ r ∈ s.result, r.tag = p ∧ r.update <
      if (s.scheduleQueue i).instr.executeFirst then clock
      else (s.scheduleQueue i).instr.execute
  result : ∀ r ∈ s.result, ∀ p, Reads prog r.tag p →
    ∃ q ∈ s.result, q.tag = p ∧ q.update < r.execute

theorem awaited_setup (prog : List TraceInst) (clock : ℕ) :
    Awaited prog clock (setupProc conf prog) where
  row := by
    intro i hi
    cases hi
  result := fun r hr => absurd hr List.not_mem_nil

section Awaited

variable {clock : ℕ}

theorem Awaited.completeRow (h : Awaited prog clock s) {limit : Stage → ℕ} (ht : Timed limit s)
    {i : Fin conf.scheduleQueueSize} (hfin : s.finished i = true) :
    Awaited prog clock (s.completeRow i) := by
  obtain ⟨hocc, hfired, htime⟩ := (finished_eq_true s i).mp hfin
  have hfirst := (ht.row i hocc).done hfired (Int.le_of_eq htime)
  obtain ⟨hresult, -, -⟩ := completeRow_result s i
  have hmem : ∀ {r}, r ∈ s.result → r ∈ (s.completeRow i).result := by
    intro r hr
    rw [hresult]
    exact List.mem_append_left _ hr
  constructor
  case row =>
    intro k hk hf p hp
    obtain ⟨src, update, lsConflictEnd, e, -⟩ := completeRow_get s i k
    unfold Proc.tag at hp
    rw [e] at hk hf hp ⊢
    obtain ⟨r, hr, htag, hlt⟩ := h.row k hk hf p hp
    exact ⟨r, hmem hr, htag, hlt⟩
  case result =>
    intro r hr p hp
    rw [hresult] at hr
    rcases List.mem_append.mp hr with hold | hnew
    · obtain ⟨q, hq, htag, hlt⟩ := h.result r hold p hp
      exact ⟨q, hmem hq, htag, hlt⟩
    · -- the row that is completed has been fired, after its producers were completed
      obtain rfl := List.mem_singleton.mp hnew
      obtain ⟨q, hq, htag, hlt⟩ := h.row i hocc hfired p hp
      rw [hfirst] at hlt
      exact ⟨q, hmem hq, htag, hlt⟩

theorem Awaited.beginCycle (h : Awaited prog s.cycle s)
    (ht : Timed (Stage.limit .updateState s.cycle) s) : Awaited prog s.cycle s.beginCycle := by
  have hpass : Awaited prog s.cycle s.beginCycle ∧
      Timed (Stage.limit .updateState s.cycle) s.beginCycle ∧ s.beginCycle.cycle = s.cycle := by
    refine sweep_preserves (P := fun a : Proc conf => Awaited prog s.cycle a ∧
      Timed (Stage.limit .updateState s.cycle) a ∧ a.cycle = s.cycle)
      ⟨⟨h.row, h.result⟩, ⟨ht.row, ht.queue, ht.iterator, ht.result⟩, rfl⟩ ?_
    rintro i a ⟨ha, hta, hcycle⟩
    unfold Proc.updateRow
    split
    · rename_i hfin
      exact ⟨ha.completeRow hta hfin, hta.completeRow hfin hcycle.ge,
        (completeRow_result a i).2.1.trans hcycle⟩
    · exact ⟨ha, hta, hcycle⟩
  exact hpass.1

theorem Awaited.executeInstr (h : Awaited prog s.cycle s) :
    Awaited prog (s.cycle + 1) s.executeInstr := by
  obtain ⟨hsame, hrows⟩ := executeInstr_same s
  constructor
  case row =>
    intro i hi hf p hp
    rw [(hsame.rows i).occupied] at hi
    rw [hsame.tag] at hp
    rw [hsame.result]
    have hrow := hrows i
    unfold Row.Executed at hrow
    split at hrow
    · -- in its first cycle of execution the row gets the time of this cycle
      rename_i hguard
      obtain ⟨t, e, -⟩ := hrow
      obtain ⟨r, hr, htag, hlt⟩ := h.row i hi hguard.2 p hp
      refine ⟨r, hr, htag, ?_⟩
      rw [e]
      unfold Row.executing
      rcases hfirst : (s.scheduleQueue i).instr.executeFirst with - | -
      · rw [hfirst] at hlt
        simpa [hfirst] using hlt
      · rw [hfirst] at hlt
        simpa using hlt
    · -- a row that is not executed has not been fired
      rename_i hguard
      rw [hrow] at hf
      exact absurd ⟨hi, hf⟩ hguard
  case result =>
    rw [hsame.result]
    exact h.result

theorem Row.scheduling_execute (row : Row) (cycle : ℕ) :
    (row.scheduling cycle).instr.executeFirst = row.instr.executeFirst ∧
      (row.scheduling cycle).instr.execute = row.instr.execute := by
  unfold Row.scheduling
  dsimp only
  split
  · exact ⟨rfl, rfl⟩
  · exact ⟨rfl, rfl⟩

/-- A row is fired when its producers are completed, in this cycle at the latest. -/
theorem Awaited.scheduleInstr (h : Awaited prog (s.cycle + 1) s) (hs : Books prog s)
    (hr : Renamed prog s) (hd : Dated s) {clocks : Fin conf.scheduleQueueSize → ℕ}
    (hm : Metered prog clocks s) : Awaited prog (s.cycle + 1) s.scheduleInstr := by
  obtain ⟨hsame, hrows⟩ := scheduleInstr_same s
  constructor
  case row =>
    intro i hi hf p hp
    rw [(hsame.rows i).occupied] at hi
    rw [hsame.tag] at hp
    rw [hsame.result]
    have hrow := hrows i
    generalize s.scheduleInstr.scheduleQueue i = row at hf hrow ⊢
    cases hrow with
    | passes _ => exact h.row i hi hf p hp
    | waits _ hfired =>
        have hf' : (s.scheduleQueue i).fired = true := hf
        rw [hfired] at hf'
        cases hf'
    | leaks _ hfired =>
        have hf' : (s.scheduleQueue i).fired = true := hf
        rw [hfired] at hf'
        cases hf'
    | fires t u _ hfired hready _ _ =>
        have hfirst : (s.scheduleQueue i).instr.executeFirst = true := by
          by_contra hnot
          have hrunning := ((hm.row i hi).running (Bool.eq_false_of_not_eq_true hnot)).1
          rw [hfired] at hrunning
          cases hrunning
        -- the source that waits for the producer is ready, so the producer is completed
        obtain ⟨inst, k, r, hget, hsrc, hproducer⟩ := hp
        have hok := hs.rowsOk.row i hi
        obtain rfl := Option.some.inj (hok.get.symm.trans hget)
        have hreg : ((s.scheduleQueue i).src k).reg = some r := (hok.src k).trans hsrc
        have hdone := (hr.source i k r hi hreg p hproducer).ready_iff.mp (hready k)
        obtain ⟨q, hq, htag⟩ := List.mem_map.mp hdone
        refine ⟨q, hq, htag, ?_⟩
        show q.update < if ((s.scheduleQueue i).scheduling s.cycle).instr.executeFirst then
          s.cycle + 1 else ((s.scheduleQueue i).scheduling s.cycle).instr.execute
        rw [((s.scheduleQueue i).scheduling_execute s.cycle).1, hfirst]
        exact Nat.lt_succ_of_le (hd q hq)
  case result =>
    rw [hsame.result]
    exact h.result

/-- The rows and the result are the same. -/
theorem Awaited.congr (h : Awaited prog clock s) (hrows : s'.scheduleQueue = s.scheduleQueue)
    (hresult : s'.result = s.result) : Awaited prog clock s' where
  row := by
    unfold Proc.tag
    rw [hrows, hresult]
    exact h.row
  result := by
    rw [hresult]
    exact h.result

theorem Awaited.dispatchInstr (h : Awaited prog clock s) (hs : Books prog s) :
    Awaited prog clock s.dispatchInstr := by
  refine (dispatchInstr_induction (P := Awaited prog clock) ?_ ?_ ?_ hs (h.congr rfl rfl)).2
  · exact fun a b ha => ha.congr rfl rfl
  · exact fun a k _ ha _ => ha.congr rfl rfl
  · intro a i inst hbooks ha hfree _ _
    constructor
    case row =>
      intro k hk hf p hp
      rcases eq_or_ne k i with rfl | hne
      · -- the row that is filled has not been fired
        rw [a.placeRow_self] at hf
        have hf' : (a.scheduleQueue k).fired = true := hf
        rw [hbooks.rowsOk.idle k hfree] at hf'
        cases hf'
      · rw [placeRow_tag_of_ne inst hne] at hp
        rw [a.placeRow_of_ne inst hne] at hk hf ⊢
        rw [a.placeRow_result]
        exact ha.row k hk hf p hp
    case result =>
      rw [a.placeRow_result]
      exact ha.result

theorem Awaited.endCycle (h : Awaited prog clock s) (hs : Books prog s) :
    Awaited prog clock (s.endCycle qsort) := by
  have hresult : (s.endCycle qsort).result = s.result := by
    obtain ⟨cumulativeSize, e⟩ := endCycle_eq qsort hs
    rw [e]
  obtain ⟨σ, hσ⟩ := endCycle_reorders qsort hs
  constructor
  case row =>
    intro i hi hf p hp
    obtain ⟨hi', -, heq⟩ := hσ.stayed hi
    rw [heq] at hf ⊢
    rw [hσ.tag hi] at hp
    rw [hresult]
    exact h.row (σ i) hi' hf p hp
  case result =>
    rw [hresult]
    exact h.result

end Awaited

theorem Reached.awaited (hc : blockSize ≤ conf.c) {stage : Stage}
    (h : Reached conf qsort prog stage s) :
    Awaited prog (stage.limit s.cycle .executeInstr) s := by
  refine h.invariant_of (fun stage s => Reached conf qsort prog stage s)
    (fun stage s => Awaited prog (stage.limit s.cycle .executeInstr) s) id
    (awaited_setup prog _) ?_
  intro stage s s' hreach ha hrun
  have hbooks := hreach.ledger.books
  cases stage with
  | updateState =>
      obtain rfl := Except.ok.inj hrun
      rw [(beginCycle_result s).1]
      exact Awaited.beginCycle ha hreach.timed
  | executeInstr =>
      obtain rfl := Except.ok.inj hrun
      rw [(executeInstr_same s).1.cycle]
      exact Awaited.executeInstr ha
  | scheduleInstr =>
      obtain rfl := Except.ok.inj hrun
      rw [(scheduleInstr_same s).1.cycle]
      exact Awaited.scheduleInstr ha hbooks hreach.renamed hreach.dated (hreach.metered hc)
  | dispatchInstr =>
      obtain rfl := Except.ok.inj hrun
      have hcycle : s.dispatchInstr.cycle = s.cycle :=
        (hreach.timed.dispatchInstr hbooks (Stage.limit_le_next (by decide) _)
          (Nat.le_refl _) (Nat.lt_succ_self _)).2
      rw [hcycle]
      exact Awaited.dispatchInstr ha hbooks
  | fetchInstr =>
      obtain ⟨hcycle, -, hrows, hresult, -⟩ := fetchStage_kept hreach.timed.iterator hrun
      rw [hcycle]
      exact Awaited.congr ha hrows hresult
  | updateState2 =>
      obtain rfl := Except.ok.inj hrun
      have hcycle := (hreach.timed.endCycle hbooks qsort).2
      rw [hcycle]
      exact Awaited.endCycle ha hbooks

/-- A chain of instructions, each of which reads what the one before writes, ends with the
instruction `t`, and takes `d` cycles: those to the execution of its first instruction, which is
fetched in the cycle `t / f`, the latencies of all, which for loads and stores the accesses to the
cache determine, and one from each to the next. -/
inductive Chain (conf : ProcConf) (prog : List TraceInst) (accesses : List ℕ) : ℕ → ℕ → Prop
  | first {t : ℕ} {inst : TraceInst} (hget : prog[t]? = some inst) :
      Chain conf prog accesses t
        (t / conf.f + 3 + inst.opcode.latency (found conf prog accesses t))
  | next {p t d : ℕ} {inst : TraceInst} (h : Chain conf prog accesses p d)
      (hget : prog[t]? = some inst) (hreads : Reads prog t p) :
      Chain conf prog accesses t (d + 1 + inst.opcode.latency (found conf prog accesses t))

/-- No chain ends earlier. -/
theorem Chain.le_update {t d : ℕ} (h : Chain conf prog s.accesses t d) (hc : blockSize ≤ conf.c)
    {stage : Stage} (hreach : Reached conf qsort prog stage s) {r : ResultRow}
    (hr : r ∈ s.result) (htag : r.tag = t) : d ≤ r.update := by
  have hlatency : ∀ {r : ResultRow} {inst : TraceInst}, r ∈ s.result → prog[r.tag]? = some inst →
      r.update = r.execute + inst.opcode.latency (found conf prog s.accesses r.tag) := by
    intro r inst hr hget
    obtain ⟨inst', hget', hupdate⟩ := (hreach.metered hc).result r hr
    obtain rfl := Option.some.inj (hget.symm.trans hget')
    exact hupdate
  induction h generalizing r with
  | first hget =>
      obtain rfl := htag
      have hlast := hlatency hr hget
      obtain ⟨-, hdispatch⟩ := hreach.paced.result r hr
      -- dispatched one cycle after the fetch, then scheduled and executed
      have htimes := hreach.timed.result r hr
      have h₁ := htimes.dispatch
      have h₂ := htimes.schedule
      omega
  | next _ hget hreads ih =>
      obtain rfl := htag
      have hlast := hlatency hr hget
      -- the producer is completed before the instruction is executed
      obtain ⟨q, hq, hqtag, hlt⟩ := (hreach.awaited hc).result r hr _ hreads
      have hbefore := ih hq hqtag
      omega

/-- **The limit of the data.**  A run is at least as long as every chain of true dependences in
its trace, with the latencies that the run gives to loads and stores: the instruction at the end
of the chain is not completed earlier, and the cycle count is not smaller. -/
theorem dataflow_limit (conf : ProcConf) (hc : 6 ≤ conf.c) (qsort : Qsort conf)
    (prog : List TraceInst) (hlen : prog.length < dqDataStructureSize) :
    ∃ s, (∃ N, ∀ fuel, N ≤ fuel → runProc conf qsort prog fuel = .ok (some s)) ∧
      ∀ t d, Chain conf prog s.accesses t d → Issues prog t →
        d ≤ s.stats.cycleCount ∧ ∃ r ∈ s.result, r.tag = t ∧ d ≤ r.update := by
  have hok : ∀ s, Reached conf qsort prog .fetchInstr s → ∃ s', s.fetchStage = .ok s' :=
    fun s hs => fetchStage_ok hlen hs.ledger.books
  obtain ⟨s, ⟨N, hN⟩, hreach, hidle⟩ := run_ends hok
  obtain ⟨hiterates, -⟩ := of_whileLoop (hN N (Nat.le_refl N))
  have hcompleted := completed_of_not_busy hreach.ledger.books hreach.fetching hidle
  obtain ⟨sizes, hsizes⟩ := lengths_of_iterates hiterates
  have helapsed := hsizes.elapsed
  refine ⟨{ s with stats := { s.stats with cycleCount := s.stats.cycleCount - 1 } }, ⟨N, ?_⟩, ?_⟩
  · intro fuel hfuel
    unfold runProc
    rw [hN fuel hfuel]
    rfl
  · intro t d hchain hissues
    -- `run_proc` takes one from the cycle count at the end, which changes no access
    have hchain : Chain conf prog s.accesses t d := hchain
    obtain ⟨r, hr, htag⟩ := List.mem_map.mp ((hcompleted t).mpr hissues)
    have hle := hchain.le_update hc hreach hr htag
    have hupdate := helapsed.update r hr
    have hcount := helapsed.cycleCount
    refine ⟨?_, r, hr, htag, hle⟩
    show d ≤ s.stats.cycleCount - 1
    omega

/-- A load whose result is stored. -/
theorem dataflow_limit_loadBranchStore : ∃ s : Proc smallConf, 6 ≤ s.stats.cycleCount := by
  obtain ⟨s, -, hlimit⟩ := dataflow_limit smallConf (by decide) (keepOrder smallConf)
    (loadBranchStore 1) (by decide)
  have hget : (loadBranchStore 1)[0]? = some ⟨0, .load, some 1, fun _ => none, 64, false⟩ := rfl
  have hload : Chain smallConf (loadBranchStore 1) s.accesses 0 _ := Chain.first hget
  have hproducer : Producer (loadBranchStore 1) 1 2 0 :=
    ⟨by decide, ⟨_, rfl, by decide, rfl⟩, by
      intro k hk hk'
      obtain rfl : k = 1 := by omega
      rintro ⟨inst, hget, -, hdest⟩
      obtain rfl := Option.some.inj hget
      cases hdest⟩
  have hget' : (loadBranchStore 1)[2]? = some ⟨8, .store, none, fun _ => some 1, 64, false⟩ := rfl
  have hstore := hload.next hget' ⟨_, 0, 1, hget', rfl, hproducer⟩
  have hle := (hlimit 2 _ hstore ⟨_, rfl, by decide⟩).1
  -- a hit takes one cycle, a miss more
  have hfirst : ∀ b, 1 ≤ Opcode.load.latency b := by decide
  have hlast : ∀ b, 1 ≤ Opcode.store.latency b := by decide
  have hload := hfirst (found smallConf (loadBranchStore 1) s.accesses 0)
  have hstore := hlast (found smallConf (loadBranchStore 1) s.accesses 2)
  rw [Nat.zero_div] at hle
  refine ⟨s, ?_⟩
  dsimp only at hle
  omega

end ProjectArchive.Tomasulo
