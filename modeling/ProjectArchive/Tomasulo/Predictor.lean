/-
ProjectArchive/Tomasulo/Predictor.lean

The branch predictor.

`branch_table` and `ghr` are trained by `update_state`, in the order in which it
completes the branches, which is not that of the program; `fetch_instr` looks a
branch up before it is known which branches come before it.  `Trained` compares
the table and the register with a predictor that has no state, a function of the
list of the branches that have been completed.  A branch is predicted from those
that have been completed before it is fetched, and they can be read off `result`:
the time of their completion is at most that of the fetch
(`predictions_reference`).
-/
import ProjectArchive.Library.Gshare
import ProjectArchive.Tomasulo.Steps
import ProjectArchive.Tomasulo.Times

namespace ProjectArchive.Tomasulo

open Sweep Gshare

variable {conf : ProcConf} {prog : List TraceInst} {s s' : Proc conf} {qsort : Qsort conf}

/-! ### The reference -/

/-- A branch, and which way it goes. -/
def TraceInst.outcome (inst : TraceInst) : Option (Outcome (BitVec 64)) :=
  if inst.opcode = .br then some ⟨inst.instAddr, inst.brTaken⟩ else none

/-- The branches among the instructions that have been completed, the latest first. -/
def resolved (prog : List TraceInst) (rows : List ResultRow) : List (Outcome (BitVec 64)) :=
  (rows.filterMap fun r => prog[r.tag]?.bind TraceInst.outcome).reverse

/-- The part of an address that is used. -/
def ProcConf.hash (conf : ProcConf) (addr : BitVec 64) : ℕ := addr.toNat / 4 % 2 ^ conf.g

/-- The number of outcomes that are used; `ghr` keeps 64. -/
def ProcConf.historyLength (conf : ProcConf) : ℕ := min conf.g 64

/-- The counter at an index, after some branches. -/
def ProcConf.counterAt (conf : ProcConf) (past : List (Outcome (BitVec 64))) (i : ℕ) : ℕ :=
  Gshare.counter (outcomesAt conf.hash conf.historyLength i past)

/-- `predicted_br`, after some branches. -/
def ProcConf.predictedBr (conf : ProcConf) (past : List (Outcome (BitVec 64)))
    (inst : TraceInst) : Bool :=
  decide (inst.opcode = .br) && predicts conf.hash conf.historyLength past inst.instAddr

/-! ### Training -/

/-- The table and the register are those of the reference. -/
structure Trained (prog : List TraceInst) (s : Proc conf) : Prop where
  branchTable : ∀ i, s.branchTable i = conf.counterAt (resolved prog s.result) i
  ghr : s.ghr.toNat = bits ((resolved prog s.result).take 64)

theorem trained_setup (prog : List TraceInst) : Trained prog (setupProc conf prog) where
  branchTable _ := rfl
  ghr := rfl

theorem Trained.congr (h : Trained prog s) (htable : s'.branchTable = s.branchTable)
    (hghr : s'.ghr = s.ghr) (hresult : s'.result = s.result) : Trained prog s' where
  branchTable := by
    rw [htable, hresult]
    exact h.branchTable
  ghr := by
    rw [hghr, hresult]
    exact h.ghr

/-- `btb_idx` is the index of the reference. -/
theorem Trained.btbIdx_eq (h : Trained prog s) (addr : BitVec 64) :
    s.btbIdx addr = index conf.hash conf.historyLength (resolved prog s.result) addr := by
  rw [Proc.btbIdx, h.ghr, bits_take_take, index]
  rfl

theorem Trained.predictedBr_eq (h : Trained prog s) (inst : TraceInst) :
    s.predictedBr inst = conf.predictedBr (resolved prog s.result) inst := by
  have hcounter : (s.branchTable (s.btbIdx inst.instAddr) - 2 > -1) ↔
      2 ≤ conf.counterAt (resolved prog s.result)
        (index conf.hash conf.historyLength (resolved prog s.result) inst.instAddr) := by
    rw [h.branchTable, h.btbIdx_eq]
    omega
  rw [Proc.predictedBr, ProcConf.predictedBr, predicts]
  congr 1
  exact decide_eq_decide.mpr hcounter

/-- An instruction is completed. -/
theorem resolved_concat (prog : List TraceInst) (rows : List ResultRow) (r : ResultRow) :
    resolved prog (rows ++ [r]) =
      (prog[r.tag]?.bind TraceInst.outcome).toList ++ resolved prog rows := by
  unfold resolved
  rw [List.filterMap_append, List.reverse_append]
  congr 1
  cases h : prog[r.tag]?.bind TraceInst.outcome with
  | none => simp [h]
  | some branch => simp [h]

/-- What `update_state` does to the predictor when it completes a row. -/
theorem completeRow_predictor (s : Proc conf) (i : Fin conf.scheduleQueueSize) :
    (s.completeRow i).branchTable = (if (s.scheduleQueue i).opcode = .br then
        Function.update s.branchTable (s.btbIdx (s.scheduleQueue i).instr.instAddr)
          (s.counter (s.scheduleQueue i).instr) else s.branchTable) ∧
      (s.completeRow i).ghr = (if (s.scheduleQueue i).opcode = .br then
        s.ghr <<< 1 ||| (if (s.scheduleQueue i).instr.brTaken then 1 else 0) else s.ghr) := by
  unfold Proc.completeRow
  rw [Proc.deliver_eq]
  show (Proc.resolve (s.finishRow i ((s.scheduleQueue i).completed s.cycle))
      ((s.scheduleQueue i).completed s.cycle)).branchTable = _ ∧
    (Proc.resolve (s.finishRow i ((s.scheduleQueue i).completed s.cycle))
      ((s.scheduleQueue i).completed s.cycle)).ghr = _
  unfold Proc.resolve
  by_cases hbr : (s.scheduleQueue i).opcode = .br
  · rw [if_pos (show ((s.scheduleQueue i).completed s.cycle).opcode = .br from hbr), if_pos hbr,
      if_pos hbr]
    exact ⟨rfl, rfl⟩
  · rw [if_neg (show ¬((s.scheduleQueue i).completed s.cycle).opcode = .br from hbr), if_neg hbr,
      if_neg hbr]
    exact ⟨rfl, rfl⟩

/-- The register takes one more outcome. -/
theorem toNat_shift (x : BitVec 64) (taken : Bool) :
    (x <<< 1 ||| (if taken then 1 else 0)).toNat = (2 * x.toNat + taken.toNat) % 2 ^ 64 := by
  have hshift : (x <<< 1).toNat = 2 * x.toNat % 2 ^ 64 := by
    rw [BitVec.toNat_shiftLeft, Nat.shiftLeft_eq, Nat.mul_comm]
  cases taken with
  | false =>
      show (x <<< 1 ||| 0#64).toNat = _
      rw [BitVec.or_zero, hshift]
      rfl
  | true =>
      have hdisjoint : x <<< 1 &&& 1#64 = 0#64 := by
        ext k hk
        rcases Nat.eq_zero_or_pos k with rfl | hpos
        · simp
        · simp [hpos.ne']
      show (x <<< 1 ||| 1#64).toNat = _
      rw [← BitVec.add_eq_or_of_and_eq_zero _ _ hdisjoint, BitVec.toNat_add, hshift]
      show (2 * x.toNat % 2 ^ 64 + 1) % 2 ^ 64 = (2 * x.toNat + 1) % 2 ^ 64
      omega

/-- A counter after a branch. -/
theorem Trained.counter_eq (h : Trained prog s) (inst : Inst) :
    s.counter inst = Gshare.counter (inst.brTaken :: outcomesAt conf.hash conf.historyLength
      (s.btbIdx inst.instAddr) (resolved prog s.result)) := by
  have hle := counter_le (outcomesAt conf.hash conf.historyLength (s.btbIdx inst.instAddr)
    (resolved prog s.result))
  rw [Proc.counter, h.branchTable, ProcConf.counterAt]
  cases inst.brTaken with
  | true =>
      rw [if_pos rfl, Gshare.counter]
      split
      · split
        · omega
        · omega
      · split
        · omega
        · omega
  | false =>
      rw [if_neg Bool.false_ne_true, Gshare.counter]
      split
      · split
        · omega
        · omega
      · split
        · omega
        · omega

theorem Trained.completeRow (h : Trained prog s) (hs : Books prog s)
    {i : Fin conf.scheduleQueueSize} (hocc : (s.scheduleQueue i).occupied = true) :
    Trained prog (s.completeRow i) := by
  have hrow := hs.rowsOk.row i hocc
  obtain ⟨htable, hghr⟩ := completeRow_predictor s i
  have hresolved : resolved prog (s.completeRow i).result =
      (TraceInst.outcome (s.scheduleQueue i).instr.toTraceInst).toList ++
        resolved prog s.result := by
    obtain ⟨branchTable, ghr, e⟩ := s.completeRow_eq i
    rw [e, resolved_concat]
    show (prog[(s.scheduleQueue i).instr.sequentialTag]?.bind TraceInst.outcome).toList ++ _ = _
    rw [hrow.get]
    rfl
  rw [hrow.op] at htable hghr
  by_cases hbr : (s.scheduleQueue i).instr.opcode = .br
  · -- one more branch
    have houtcome : TraceInst.outcome (s.scheduleQueue i).instr.toTraceInst =
        some ⟨(s.scheduleQueue i).instr.instAddr, (s.scheduleQueue i).instr.brTaken⟩ := if_pos hbr
    rw [houtcome] at hresolved
    rw [if_pos hbr] at htable hghr
    constructor
    · intro k
      rw [htable, hresolved, ProcConf.counterAt]
      show _ = ((Gshare.counter (outcomesAt conf.hash conf.historyLength k
        (⟨(s.scheduleQueue i).instr.instAddr, (s.scheduleQueue i).instr.brTaken⟩ ::
          resolved prog s.result)) : ℕ) : ℤ)
      rw [outcomesAt, ← h.btbIdx_eq]
      rcases eq_or_ne k (s.btbIdx (s.scheduleQueue i).instr.instAddr) with rfl | hne
      · rw [Function.update_self, if_pos rfl, h.counter_eq]
      · rw [Function.update_of_ne hne, if_neg hne.symm, h.branchTable]
        rfl
    · have hbefore : s.ghr.toNat = bits (resolved prog s.result) % 2 ^ 64 := by
        rw [h.ghr, bits_take]
      rw [hghr, toNat_shift, hresolved, bits_take, hbefore]
      show _ = (2 * bits (resolved prog s.result) +
        (s.scheduleQueue i).instr.brTaken.toNat) % 2 ^ 64
      omega
  · have houtcome : TraceInst.outcome (s.scheduleQueue i).instr.toTraceInst = none := if_neg hbr
    rw [houtcome] at hresolved
    rw [if_neg hbr] at htable hghr
    constructor
    · intro k
      rw [htable, hresolved]
      exact h.branchTable k
    · rw [hghr, hresolved]
      exact h.ghr

/-- **Every step keeps the predictor trained.** -/
theorem Trained.step (h : Trained prog s) (hs : Books prog s) (hstep : Step qsort s s') :
    Trained prog s' := by
  cases hstep with
  | locals he =>
      rw [he]
      exact h.congr rfl rfl rfl
  | completes i hfin _ => exact h.completeRow hs ((finished_eq_true s i).mp hfin).1
  | executes i hocc hfired =>
      obtain ⟨t, history, l1Cache, cacheMisses, e, -⟩ := s.executeRow_eq i hocc hfired
      rw [e]
      exact h.congr rfl rfl rfl
  | schedules i =>
      obtain ⟨rows, history, addUnit, scheMulUnit, lsUnit, lsFunctionalUnit, e⟩ :=
        s.scheduleRow_eq i
      rw [e]
      exact h.congr rfl rfl rfl
  | marks => exact h.congr rfl rfl rfl
  | skips k _ => exact h.congr rfl rfl rfl
  | places i inst _ _ _ =>
      rw [s.placeRow_eq]
      exact h.congr rfl rfl rfl
  | fetches inst trace _ _ => exact h.congr rfl rfl rfl
  | releases =>
      obtain ⟨cumulativeSize, e⟩ := endCycle_eq qsort hs
      rw [e]
      exact h.congr rfl rfl rfl

theorem Reached.trained {stage : Stage} (h : Reached conf qsort prog stage s) : Trained prog s :=
  h.step_invariant (trained_setup prog) fun _ _ hs ht => ht.step hs

/-! ### Predictions -/

/-- Every instruction in the dispatch queue has been predicted from the branches that had been
completed when it was fetched. -/
def Predicted (prog : List TraceInst) (s : Proc conf) : Prop :=
  ∀ inst ∈ s.dispatchQueue, inst.predictedBr =
    conf.predictedBr (resolved prog (s.result.filter fun r => r.update ≤ inst.fetch))
      inst.toTraceInst

/-- What has been completed has been completed by now. -/
def Dated (s : Proc conf) : Prop := ∀ r ∈ s.result, r.update ≤ s.cycle

theorem completeRow_result (s : Proc conf) (i : Fin conf.scheduleQueueSize) :
    (s.completeRow i).result =
      s.result ++ [((s.scheduleQueue i).completed s.cycle).instr.resultRow] ∧
      (s.completeRow i).cycle = s.cycle ∧ (s.completeRow i).dispatchQueue = s.dispatchQueue := by
  obtain ⟨branchTable, ghr, e⟩ := s.completeRow_eq i
  rw [e]
  exact ⟨rfl, rfl, rfl⟩

theorem Dated.step (h : Dated s) (hs : Books prog s) (hstep : Step qsort s s') : Dated s' := by
  cases hstep with
  | locals he =>
      rw [he]
      exact h
  | completes i _ _ =>
      obtain ⟨hresult, hcycle, -⟩ := completeRow_result s i
      intro r hr
      rw [hresult] at hr
      rw [hcycle]
      rcases List.mem_append.mp hr with hold | hnew
      · exact h r hold
      · obtain rfl := List.mem_singleton.mp hnew
        exact Nat.le_refl s.cycle
  | executes i hocc hfired =>
      obtain ⟨t, history, l1Cache, cacheMisses, e, -⟩ := s.executeRow_eq i hocc hfired
      rw [e]
      exact h
  | schedules i =>
      obtain ⟨rows, history, addUnit, scheMulUnit, lsUnit, lsFunctionalUnit, e⟩ :=
        s.scheduleRow_eq i
      rw [e]
      exact h
  | marks => exact h
  | skips k _ => exact h
  | places i inst _ _ _ =>
      rw [s.placeRow_eq]
      exact h
  | fetches inst trace _ _ => exact h
  | releases =>
      obtain ⟨cumulativeSize, e⟩ := endCycle_eq qsort hs
      rw [e]
      exact fun r hr => Nat.le_succ_of_le (h r hr)

theorem Reached.dated {stage : Stage} (h : Reached conf qsort prog stage s) : Dated s :=
  h.step_invariant (fun _ hr => absurd hr List.not_mem_nil) fun _ _ hs hd => hd.step hs

theorem Predicted.congr (h : Predicted prog s) (hqueue : s'.dispatchQueue = s.dispatchQueue)
    (hresult : s'.result = s.result) : Predicted prog s' := by
  unfold Predicted
  rw [hqueue, hresult]
  exact h

/-- `update_state` completes instructions after the fetch of all that are in the queue. -/
theorem Predicted.beginCycle (h : Predicted prog s)
    (hfetch : ∀ inst ∈ s.dispatchQueue, inst.fetch < s.cycle) : Predicted prog s.beginCycle := by
  have hpass : s.beginCycle.dispatchQueue = s.dispatchQueue ∧ s.beginCycle.cycle = s.cycle ∧
      ∀ t, t < s.cycle → (s.beginCycle.result.filter fun r => r.update ≤ t) =
        s.result.filter fun r => r.update ≤ t := by
    refine sweep_preserves (P := fun a : Proc conf => a.dispatchQueue = s.dispatchQueue ∧
      a.cycle = s.cycle ∧ ∀ t, t < s.cycle → (a.result.filter fun r => r.update ≤ t) =
        s.result.filter fun r => r.update ≤ t) ⟨rfl, rfl, fun _ _ => rfl⟩ ?_
    rintro i a ⟨hqueue, hcycle, hbefore⟩
    unfold Proc.updateRow
    split
    · obtain ⟨hresult, hcycle', hqueue'⟩ := completeRow_result a i
      refine ⟨hqueue'.trans hqueue, hcycle'.trans hcycle, fun t ht => ?_⟩
      have hlate : ¬((a.scheduleQueue i).completed a.cycle).instr.resultRow.update ≤ t := by
        show ¬a.cycle ≤ t
        rw [hcycle]
        exact Nat.not_le_of_lt ht
      rw [hresult, List.filter_append, hbefore t ht]
      simp [hlate]
    · exact ⟨hqueue, hcycle, hbefore⟩
  obtain ⟨hqueue, -, hbefore⟩ := hpass
  intro inst hinst
  rw [hqueue] at hinst
  rw [hbefore inst.fetch (hfetch inst hinst)]
  exact h inst hinst

theorem Predicted.markDispatch (h : Predicted prog s) : Predicted prog s.markDispatch := by
  intro inst hinst
  rcases List.mem_append.mp hinst with hmem | hmem
  · exact h inst (List.mem_of_mem_take hmem)
  · obtain ⟨inst', hinst', rfl⟩ := List.mem_map.mp hmem
    have hbefore := h inst' (List.mem_of_mem_drop hinst')
    unfold Inst.marked
    split
    · exact hbefore
    · exact hbefore

theorem Predicted.dispatchInstr (h : Predicted prog s) (hs : Books prog s) :
    Predicted prog s.dispatchInstr := by
  refine (dispatchInstr_induction (P := Predicted prog) ?_ ?_ ?_ hs h.markDispatch).2
  · exact fun _ _ ha => ha
  · exact fun _ _ _ ha _ => ha
  · intro a i inst _ ha _ _ _
    rw [a.placeRow_eq]
    exact ha

/-- An instruction is looked up in the table as it is now. -/
theorem Predicted.fetchOne (h : Predicted prog s) (ht : Trained prog s) (hd : Dated s)
    (inst : TraceInst) (trace : List TraceInst) : Predicted prog (s.fetchOne inst trace) := by
  intro inst' hinst'
  rcases List.mem_append.mp hinst' with hmem | hmem
  · exact h inst' hmem
  · obtain rfl := List.mem_singleton.mp hmem
    have hall : (s.result.filter fun r => r.update ≤ s.cycle) = s.result :=
      List.filter_eq_self.mpr fun r hr => decide_eq_true (hd r hr)
    show s.predictedBr inst = conf.predictedBr (resolved prog
      (s.result.filter fun r => r.update ≤ s.cycle)) inst
    rw [hall]
    exact ht.predictedBr_eq inst

theorem Predicted.fetchStage (h : Predicted prog s) (ht : Trained prog s) (hd : Dated s)
    (hfetch : s.fetchStage = .ok s') : Predicted prog s' := by
  refine (Proc.fetchStage_induction (P := fun a => Predicted prog a ∧ Trained prog a ∧ Dated a)
    ?_ ?_ ⟨h, ht, hd⟩ hfetch).1
  · rintro a inst trace ⟨ha, hat, had⟩ _ _
    exact ⟨ha.fetchOne hat had inst trace, hat.congr rfl rfl rfl, had⟩
  · rintro a more ⟨ha, hat, had⟩
    exact ⟨ha, hat.congr rfl rfl rfl, had⟩

/-- Before `update_state`, everything in the queue has been fetched in an earlier cycle. -/
theorem Timed.fetch_lt (h : Timed (Stage.limit .updateState s.cycle) s) {inst : Inst}
    (hinst : inst ∈ s.dispatchQueue) : inst.fetch < s.cycle := by
  obtain ⟨k, hget⟩ := List.mem_iff_getElem?.mp hinst
  have htimely := h.queue k inst hget
  rcases Nat.lt_or_ge k s.tempIterator with hlt | hge
  · exact (htimely.dispatched hlt).1.trans (htimely.dispatched hlt).2
  · exact (htimely.fetched hge).2

theorem Reached.predicted {stage : Stage} (h : Reached conf qsort prog stage s) :
    Predicted prog s := by
  refine h.invariant_of (fun stage s => Reached conf qsort prog stage s)
    (fun _ => Predicted prog) id (fun inst hinst => absurd hinst List.not_mem_nil) ?_
  intro stage s s' hreach hp hrun
  have hbooks := hreach.ledger.books
  cases stage with
  | updateState =>
      obtain rfl := Except.ok.inj hrun
      exact hp.beginCycle fun inst hinst => hreach.timed.fetch_lt hinst
  | executeInstr =>
      obtain rfl := Except.ok.inj hrun
      have hsame := (executeInstr_same s).1
      exact hp.congr hsame.dispatchQueue hsame.result
  | scheduleInstr =>
      obtain rfl := Except.ok.inj hrun
      have hsame := (scheduleInstr_same s).1
      exact hp.congr hsame.dispatchQueue hsame.result
  | dispatchInstr =>
      obtain rfl := Except.ok.inj hrun
      exact hp.dispatchInstr hbooks
  | fetchInstr => exact hp.fetchStage hreach.trained hreach.dated hrun
  | updateState2 =>
      obtain rfl := Except.ok.inj hrun
      obtain ⟨cumulativeSize, e⟩ := endCycle_eq qsort hbooks
      rw [e]
      exact hp.congr rfl rfl

/-- **Every branch is predicted from the branches that have been completed before it is
fetched**, and the table holds what the completed branches have made of it. -/
theorem predictions_reference (conf : ProcConf) (qsort : Qsort conf) (prog : List TraceInst)
    (stage : Stage) (s : Proc conf) (h : Reached conf qsort prog stage s) :
    (∀ i, s.branchTable i = conf.counterAt (resolved prog s.result) i ∧
      0 ≤ s.branchTable i ∧ s.branchTable i ≤ 3) ∧
    ∀ inst ∈ s.dispatchQueue, inst.predictedBr =
      conf.predictedBr (resolved prog (s.result.filter fun r => r.update ≤ inst.fetch))
        inst.toTraceInst := by
  refine ⟨fun i => ?_, h.predicted⟩
  have htable := h.trained.branchTable i
  have hle : conf.counterAt (resolved prog s.result) i ≤ 3 := counter_le _
  exact ⟨htable, by omega, by omega⟩

/-- One instruction is fetched in a cycle, and all branches share a counter. -/
def oneCounter : ProcConf :=
  { smallConf with f := 1, g := 0, f_pos := Nat.one_pos, f_lt := by decide, g_lt := by decide }

/-- A branch that is taken twice, the second time after the first has been completed. -/
def takenTwice : List TraceInst :=
  [⟨0, .br, none, fun _ => none, 0, true⟩, ⟨4, .nop, none, fun _ => none, 0, false⟩,
    ⟨8, .nop, none, fun _ => none, 0, false⟩, ⟨12, .nop, none, fun _ => none, 0, false⟩,
    ⟨0, .br, none, fun _ => none, 0, true⟩]

/-- With its first branch completed, the predictions are those of a counter trained by it. -/
theorem predictions_reference_taken : ∃ s : Proc oneCounter,
    s.result.length = 1 ∧ s.dispatchQueue.length = 5 ∧
      ((∀ i, s.branchTable i = oneCounter.counterAt (resolved takenTwice s.result) i ∧
        0 ≤ s.branchTable i ∧ s.branchTable i ≤ 3) ∧
      ∀ inst ∈ s.dispatchQueue, inst.predictedBr = oneCounter.predictedBr
        (resolved takenTwice (s.result.filter fun r => r.update ≤ inst.fetch))
          inst.toTraceInst) := by
  have h₁ : Reached oneCounter (keepOrder oneCounter) takenTwice .updateState _ :=
    Reached.cycle .setup rfl rfl
  have h₂ := h₁.cycle rfl rfl
  have h₃ := h₂.cycle rfl rfl
  have h₄ := h₃.cycle rfl rfl
  have h₅ := h₄.cycle rfl rfl
  exact ⟨_, rfl, rfl, predictions_reference _ _ _ _ _ h₅⟩

end ProjectArchive.Tomasulo
