/-
ProjectArchive/Tomasulo/Statistics.lean

The statistics that `run_proc` prints.

`fetch_instr` counts loads, stores, branches and the branches that are predicted
right, and keeps the largest length of the dispatch queue that it has seen; the
loop of `run_proc` adds the lengths up.  `Counted` compares the counters with the
queue.  The largest length and the sum are compared with the lengths of the queue
at the ends of the cycles, which `Lengths` collects along a run
(`statistics_exact`).
-/
import ProjectArchive.Tomasulo.Termination
import Mathlib.Algebra.Ring.Int.Defs

namespace ProjectArchive.Tomasulo

open Sweep

variable {conf : ProcConf} {prog : List TraceInst} {s s' : Proc conf} {qsort : Qsort conf}

/-! ### The counters -/

/-- The statistics that are kept by `fetch_instr` and by the loop of `run_proc`. -/
structure Tally where
  branchInstructions : ℕ
  correctlyPredicted : ℕ
  loadInstructions : ℕ
  storeInstructions : ℕ
  maxDispQueueSize : ℕ
  cycleCount : ℕ
  cumulativeSize : ℤ

def Proc.tally (s : Proc conf) : Tally where
  branchInstructions := s.stats.branchInstructions
  correctlyPredicted := s.stats.correctlyPredicted
  loadInstructions := s.stats.loadInstructions
  storeInstructions := s.stats.storeInstructions
  maxDispQueueSize := s.stats.maxDispQueueSize
  cycleCount := s.stats.cycleCount
  cumulativeSize := s.dispatchQueueCumulativeSize

theorem beginCycle_tally (s : Proc conf) :
    s.beginCycle.tally = { s.tally with cycleCount := s.tally.cycleCount + 1 } := by
  refine sweep_preserves (P := fun a : Proc conf =>
    a.tally = { s.tally with cycleCount := s.tally.cycleCount + 1 }) rfl ?_
  intro i a ha
  unfold Proc.updateRow
  split
  · obtain ⟨branchTable, ghr, e⟩ := a.completeRow_eq i
    rw [e]
    exact ha
  · exact ha

theorem executeInstr_tally (s : Proc conf) : s.executeInstr.tally = s.tally := by
  refine sweep_preserves (P := fun a : Proc conf => a.tally = s.tally) rfl ?_
  intro i a ha
  refine a.executeRow_preserves (P := fun a : Proc conf => a.tally = s.tally) i ha ?_
  intro hocc hfired
  obtain ⟨t, history, l1Cache, cacheMisses, e, -⟩ := a.executeRow_eq i hocc hfired
  rw [e]
  exact ha

theorem scheduleInstr_tally (s : Proc conf) : s.scheduleInstr.tally = s.tally := by
  refine sweep_preserves (P := fun a : Proc conf => a.tally = s.tally) rfl ?_
  intro i a ha
  obtain ⟨scheduleQueue, history, addUnit, scheMulUnit, lsUnit, lsFunctionalUnit, e⟩ :=
    a.scheduleRow_eq i
  rw [e]
  exact ha

theorem dispatchInstr_tally (hs : Books prog s) : s.dispatchInstr.tally = s.tally := by
  refine (dispatchInstr_induction (P := fun a : Proc conf => a.tally = s.tally)
    ?_ ?_ ?_ hs rfl).2
  · exact fun a b ha => ha
  · exact fun a k _ ha _ => ha
  · intro a i inst _ ha _ _ _
    rw [a.placeRow_eq]
    exact ha

theorem endCycle_tally (hs : Books prog s) : (s.endCycle qsort).tally =
    { s.tally with cumulativeSize := s.tally.cumulativeSize + s.dispatchQueueSize } := by
  obtain ⟨instCntSq, e, -⟩ := updateState2_eq qsort hs
  unfold Proc.endCycle
  rw [e]
  rfl

/-- The branch was predicted right. -/
def Inst.predictedRight (inst : Inst) : Bool :=
  decide (inst.opcode = .br ∧ inst.brTaken = inst.predictedBr)

/-- The counters count the instructions that have been fetched. -/
structure Counted (s : Proc conf) : Prop where
  loads : s.tally.loadInstructions = s.dispatchQueue.countP fun inst => inst.opcode = .load
  stores : s.tally.storeInstructions = s.dispatchQueue.countP fun inst => inst.opcode = .store
  branches : s.tally.branchInstructions = s.dispatchQueue.countP fun inst => inst.opcode = .br
  right : s.tally.correctlyPredicted = s.dispatchQueue.countP Inst.predictedRight

theorem counted_setup (prog : List TraceInst) : Counted (setupProc conf prog) :=
  ⟨rfl, rfl, rfl, rfl⟩

theorem Counted.congr (h : Counted s) {cycleCount : ℕ}
    (htally : s'.tally = { s.tally with cycleCount := cycleCount })
    (hqueue : s'.dispatchQueue = s.dispatchQueue) : Counted s' := by
  constructor
  case loads =>
    rw [htally, hqueue]
    exact h.loads
  case stores =>
    rw [htally, hqueue]
    exact h.stores
  case branches =>
    rw [htally, hqueue]
    exact h.branches
  case right =>
    rw [htally, hqueue]
    exact h.right

/-- Dispatching changes no instruction in what is counted. -/
theorem countP_markDispatch (s : Proc conf) (p : Inst → Bool)
    (hp : ∀ inst, p (inst.marked s.cycle) = p inst) :
    s.markDispatch.dispatchQueue.countP p = s.dispatchQueue.countP p := by
  have hmap : (p ∘ Inst.marked s.cycle) = p := funext hp
  show (s.dispatchQueue.take s.tempIterator ++
    (s.dispatchQueue.drop s.tempIterator).map (Inst.marked s.cycle)).countP p = _
  rw [List.countP_append, List.countP_map, hmap, ← List.countP_append, List.take_append_drop]

theorem Inst.marked_eq (inst : Inst) (cycle : ℕ) : ∃ dispatchFirst dispatch,
    inst.marked cycle = { inst with dispatchFirst := dispatchFirst, dispatch := dispatch } := by
  unfold Inst.marked
  split
  · exact ⟨_, _, rfl⟩
  · exact ⟨_, _, rfl⟩

theorem Counted.markDispatch (h : Counted s) : Counted s.markDispatch := by
  have hmarked : ∀ inst : Inst, (inst.marked s.cycle).opcode = inst.opcode ∧
      (inst.marked s.cycle).predictedRight = inst.predictedRight := by
    intro inst
    obtain ⟨dispatchFirst, dispatch, e⟩ := inst.marked_eq s.cycle
    rw [e]
    exact ⟨rfl, rfl⟩
  constructor
  case loads =>
    rw [countP_markDispatch s _ fun inst => by rw [(hmarked inst).1]]
    exact h.loads
  case stores =>
    rw [countP_markDispatch s _ fun inst => by rw [(hmarked inst).1]]
    exact h.stores
  case branches =>
    rw [countP_markDispatch s _ fun inst => by rw [(hmarked inst).1]]
    exact h.branches
  case right =>
    rw [countP_markDispatch s _ fun inst => (hmarked inst).2]
    exact h.right

theorem Counted.fetchOne (h : Counted s) (inst : TraceInst) (trace : List TraceInst) :
    Counted (s.fetchOne inst trace) := by
  have hcount : ∀ p : Inst → Bool, (s.fetchOne inst trace).dispatchQueue.countP p =
      s.dispatchQueue.countP p + if p (s.fetched inst) then 1 else 0 := by
    intro p
    show (s.dispatchQueue ++ [s.fetched inst]).countP p = _
    rw [List.countP_append, List.countP_singleton]
  constructor
  case loads =>
    rw [hcount, ← h.loads]
    simp only [decide_eq_true_eq]
    rfl
  case stores =>
    rw [hcount, ← h.stores]
    simp only [decide_eq_true_eq]
    rfl
  case branches =>
    rw [hcount, ← h.branches]
    simp only [decide_eq_true_eq]
    rfl
  case right =>
    rw [hcount, ← h.right]
    unfold Inst.predictedRight
    simp only [decide_eq_true_eq]
    rfl

theorem Reached.counted {stage : Stage} (h : Reached conf qsort prog stage s) : Counted s := by
  refine h.invariant_of (Ledger prog) (fun _ => Counted) Reached.ledger (counted_setup prog) ?_
  intro stage s s' hledger hc hrun
  have hbooks := hledger.books
  cases stage with
  | updateState =>
      obtain rfl := Except.ok.inj hrun
      refine hc.congr (beginCycle_tally s) ?_
      refine sweep_preserves (P := fun a : Proc conf => a.dispatchQueue = s.dispatchQueue) rfl ?_
      intro i a ha
      unfold Proc.updateRow
      split
      · obtain ⟨branchTable, ghr, e⟩ := a.completeRow_eq i
        rw [e]
        exact ha
      · exact ha
  | executeInstr =>
      obtain rfl := Except.ok.inj hrun
      exact hc.congr (executeInstr_tally s) (executeInstr_same s).1.dispatchQueue
  | scheduleInstr =>
      obtain rfl := Except.ok.inj hrun
      exact hc.congr (scheduleInstr_tally s) (scheduleInstr_same s).1.dispatchQueue
  | dispatchInstr =>
      obtain rfl := Except.ok.inj hrun
      refine (dispatchInstr_induction (P := Counted) ?_ ?_ ?_ hbooks hc.markDispatch).2
      · exact fun a b ha => ha.congr rfl rfl
      · exact fun a k _ ha _ => ha.congr rfl rfl
      · intro a i inst _ ha _ _ _
        rw [a.placeRow_eq]
        exact ha.congr rfl rfl
  | fetchInstr =>
      refine Proc.fetchStage_induction (P := Counted) ?_ ?_ hc hrun
      · exact fun a inst trace ha _ _ => ha.fetchOne inst trace
      · exact fun a more ha => ha.congr rfl rfl
  | updateState2 =>
      obtain rfl := Except.ok.inj hrun
      obtain ⟨cumulativeSize, e⟩ := endCycle_eq qsort hbooks
      rw [e]
      exact ⟨hc.loads, hc.stores, hc.branches, hc.right⟩

/-! ### The lengths of the dispatch queue -/

/-- The lengths of the dispatch queue at the ends of the cycles of a run, the latest first. -/
inductive Lengths (conf : ProcConf) (qsort : Qsort conf) (prog : List TraceInst) :
    List ℤ → Proc conf → Prop
  | setup : Lengths conf qsort prog [] (setupProc conf prog)
  | cycle {sizes : List ℤ} {s s' : Proc conf} (h : Lengths conf qsort prog sizes s)
      (hcontinue : s.continueBool = true) (hbody : s.cycleBody qsort = .ok s') :
      Lengths conf qsort prog (s'.dispatchQueueSize :: sizes) s'

theorem Lengths.reached {sizes : List ℤ} (h : Lengths conf qsort prog sizes s) :
    Reached conf qsort prog .updateState s := by
  induction h with
  | setup => exact .setup
  | cycle _ hcontinue hbody ih => exact ih.cycle hcontinue hbody

/-- Every run has such a record. -/
theorem lengths_of_iterates
    (h : Loop.Iterates Proc.continueBool (Proc.cycleBody qsort) (setupProc conf prog) s) :
    ∃ sizes, Lengths conf qsort prog sizes s := by
  induction h with
  | refl => exact ⟨[], .setup⟩
  | tail _ hround ih =>
      obtain ⟨sizes, hsizes⟩ := ih
      exact ⟨_, hsizes.cycle hround.1 hround.2⟩

theorem beginCycle_size (s : Proc conf) : s.beginCycle.dispatchQueueSize = s.dispatchQueueSize := by
  refine sweep_preserves
    (P := fun a : Proc conf => a.dispatchQueueSize = s.dispatchQueueSize) rfl ?_
  intro i a ha
  unfold Proc.updateRow
  split
  · obtain ⟨branchTable, ghr, e⟩ := a.completeRow_eq i
    rw [e]
    exact ha
  · exact ha

/-- Before `fetch_instr`, the queue is no longer than at the end of the last cycle. -/
theorem dispatchInstr_size (hs : Books prog s) :
    s.dispatchInstr.dispatchQueueSize ≤ s.dispatchQueueSize := by
  refine (dispatchInstr_induction
    (P := fun a : Proc conf => a.dispatchQueueSize ≤ s.dispatchQueueSize) ?_ ?_ ?_ hs
    (Int.le_refl _)).2
  · exact fun a b ha => ha
  · intro a k _ ha _
    exact Int.le_trans (Int.sub_le_self _ (Int.natCast_nonneg k)) ha
  · intro a i inst _ ha _ _ _
    rw [a.placeRow_eq]
    exact Int.le_trans (Int.sub_le_self _ (by decide)) ha

/-- `fetch_instr` sees the largest length at its end. -/
theorem fetchStage_max (hs : Books prog s)
    (hle : s.dispatchQueueSize ≤ s.tally.maxDispQueueSize) (hfetch : s.fetchStage = .ok s') :
    (s'.tally.maxDispQueueSize : ℤ) = max (s'.dispatchQueueSize) s.tally.maxDispQueueSize ∧
      s'.tally.cumulativeSize = s.tally.cumulativeSize ∧
      s'.tally.cycleCount = s.tally.cycleCount := by
  have hsize := hs.queueOk.size
  have hnonneg : 0 ≤ s.dispatchQueueSize := by
    have hhead := hsize.1
    rw [hsize.2]
    omega
  have hpass := Proc.fetchStage_induction (P := fun a : Proc conf => 0 ≤ a.dispatchQueueSize ∧
    (a.tally.maxDispQueueSize : ℤ) = max a.dispatchQueueSize s.tally.maxDispQueueSize ∧
      a.tally.cumulativeSize = s.tally.cumulativeSize ∧
      a.tally.cycleCount = s.tally.cycleCount) ?_ ?_
      ⟨hnonneg, (max_eq_right hle).symm, rfl, rfl⟩ hfetch
  · exact hpass.2
  · rintro a inst trace ⟨hpos, hmax, hsum⟩ _ _
    refine ⟨?_, ?_, hsum⟩
    · show 0 ≤ a.dispatchQueueSize + 1
      omega
    · show ((max a.tally.maxDispQueueSize (a.dispatchQueueSize + 1).toNat : ℕ) : ℤ) =
        max (a.dispatchQueueSize + 1) s.tally.maxDispQueueSize
      omega
  · rintro a more ha
    exact ha

/-- The largest length and the sum, and the number of the cycles. -/
structure Summed (sizes : List ℤ) (s : Proc conf) : Prop where
  max : (s.tally.maxDispQueueSize : ℤ) = sizes.foldr max 0
  sum : s.tally.cumulativeSize = sizes.sum
  last : s.dispatchQueueSize ≤ s.tally.maxDispQueueSize
  cycleCount : s.tally.cycleCount = sizes.length

theorem summed_setup (prog : List TraceInst) : Summed [] (setupProc conf prog) :=
  ⟨rfl, rfl, Int.le_refl 0, rfl⟩

theorem Summed.cycle {sizes : List ℤ} (h : Summed sizes s)
    (hreach : Reached conf qsort prog .updateState s) (hcontinue : s.continueBool = true)
    (hbody : s.cycleBody qsort = .ok s') : Summed (s'.dispatchQueueSize :: sizes) s' := by
  obtain ⟨s₅, hfetch, rfl⟩ := cycleBody_eq_ok hbody
  have hscheduled := (hreach.scheduled hcontinue).ledger.books
  have hdispatched := (hreach.dispatched hcontinue).ledger.books
  have hfetched := (hreach.fetched hcontinue hfetch).ledger.books
  have htally : s.beginCycle.executeInstr.scheduleInstr.dispatchInstr.tally =
      { s.tally with cycleCount := s.tally.cycleCount + 1 } := by
    rw [dispatchInstr_tally hscheduled, scheduleInstr_tally, executeInstr_tally, beginCycle_tally]
  have hsize : s.beginCycle.executeInstr.scheduleInstr.dispatchQueueSize = s.dispatchQueueSize := by
    rw [(scheduleInstr_same _).1.dispatchQueueSize, (executeInstr_same _).1.dispatchQueueSize]
    exact beginCycle_size s
  have hle : s.beginCycle.executeInstr.scheduleInstr.dispatchInstr.dispatchQueueSize ≤
      s.beginCycle.executeInstr.scheduleInstr.dispatchInstr.tally.maxDispQueueSize := by
    rw [htally]
    exact (dispatchInstr_size hscheduled).trans (hsize ▸ h.last)
  obtain ⟨hmax, hsum, hcount⟩ := fetchStage_max hdispatched hle hfetch
  rw [htally] at hmax hsum hcount
  have hlast : (s₅.endCycle qsort).dispatchQueueSize = s₅.dispatchQueueSize := by
    obtain ⟨cumulativeSize, e⟩ := endCycle_eq qsort hfetched
    rw [e]
  constructor
  case max =>
    rw [endCycle_tally hfetched, hlast, List.foldr_cons, ← h.max]
    exact hmax
  case sum =>
    rw [endCycle_tally hfetched, hlast, List.sum_cons, ← h.sum, Int.add_comm]
    exact congrArg (s₅.dispatchQueueSize + ·) hsum
  case last =>
    rw [endCycle_tally hfetched, hlast]
    exact hmax ▸ le_max_left _ _
  case cycleCount =>
    rw [endCycle_tally hfetched, List.length_cons, ← h.cycleCount]
    exact hcount

theorem Lengths.summed {sizes : List ℤ} (h : Lengths conf qsort prog sizes s) :
    Summed sizes s := by
  induction h with
  | setup => exact summed_setup prog
  | cycle h hcontinue hbody ih => exact ih.cycle h.reached hcontinue hbody

/-- **The statistics are those of the run**: loads, stores and branches are counted in the part
of the trace that has been fetched, correct predictions in the queue, and the largest length,
the sum and the number of cycles are those of the lengths of the dispatch queue at the ends of
the cycles. -/
theorem statistics_exact (conf : ProcConf) (qsort : Qsort conf) (prog : List TraceInst)
    (sizes : List ℤ) (s : Proc conf) (h : Lengths conf qsort prog sizes s) :
    s.stats.loadInstructions =
        (prog.take s.dispatchQueueTail).countP (fun inst => inst.opcode = .load) ∧
      s.stats.storeInstructions =
        (prog.take s.dispatchQueueTail).countP (fun inst => inst.opcode = .store) ∧
      s.stats.branchInstructions =
        (prog.take s.dispatchQueueTail).countP (fun inst => inst.opcode = .br) ∧
      s.stats.correctlyPredicted = s.dispatchQueue.countP
        (fun inst => inst.opcode = .br ∧ inst.brTaken = inst.predictedBr) ∧
      (s.stats.maxDispQueueSize : ℤ) = sizes.foldr max 0 ∧
      s.dispatchQueueCumulativeSize = sizes.sum ∧ s.stats.cycleCount = sizes.length := by
  have hcounted := h.reached.counted
  have hsummed := h.summed
  have htake : prog.take s.dispatchQueueTail = s.dispatchQueue.map Inst.toTraceInst := by
    rw [← h.reached.ledger.books.queueOk.queue]
    exact List.take_left' (List.length_map _)
  have hcount : ∀ p : TraceInst → Bool, (prog.take s.dispatchQueueTail).countP p =
      s.dispatchQueue.countP fun inst => p inst.toTraceInst := by
    intro p
    rw [htake, List.countP_map]
    rfl
  refine ⟨?_, ?_, ?_, hcounted.right, hsummed.max, hsummed.sum, hsummed.cycleCount⟩
  · rw [hcount]
    exact hcounted.loads
  · rw [hcount]
    exact hcounted.stores
  · rw [hcount]
    exact hcounted.branches

/-- A load of a register, a branch that is predicted right and a store of the register. -/
def loadBranchStore (r : Reg) : List TraceInst :=
  [⟨0, .load, some r, fun _ => none, 64, false⟩, ⟨4, .br, none, fun _ => none, 0, false⟩,
    ⟨8, .store, none, fun _ => some r, 64, false⟩]

/-- After two cycles, with two instructions and then one in the queue. -/
theorem statistics_exact_loadBranchStore : ∃ s : Proc smallConf,
    s.dispatchQueueTail = 3 ∧
      (s.stats.loadInstructions =
          ((loadBranchStore 1).take s.dispatchQueueTail).countP (fun inst => inst.opcode = .load) ∧
        s.stats.storeInstructions =
          ((loadBranchStore 1).take s.dispatchQueueTail).countP (fun inst => inst.opcode = .store) ∧
        s.stats.branchInstructions =
          ((loadBranchStore 1).take s.dispatchQueueTail).countP (fun inst => inst.opcode = .br) ∧
        s.stats.correctlyPredicted = s.dispatchQueue.countP
          (fun inst => inst.opcode = .br ∧ inst.brTaken = inst.predictedBr) ∧
        (s.stats.maxDispQueueSize : ℤ) = [(1 : ℤ), 2].foldr max 0 ∧
        s.dispatchQueueCumulativeSize = [(1 : ℤ), 2].sum ∧
        s.stats.cycleCount = [(1 : ℤ), 2].length) := by
  have h₁ : Lengths smallConf (keepOrder smallConf) (loadBranchStore 1) _ _ :=
    Lengths.setup.cycle rfl rfl
  have h₂ := h₁.cycle rfl rfl
  exact ⟨_, rfl, statistics_exact _ _ _ _ _ h₂⟩

end ProjectArchive.Tomasulo
