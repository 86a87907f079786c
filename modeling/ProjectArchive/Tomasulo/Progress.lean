/-
ProjectArchive/Tomasulo/Progress.lean

Every cycle does some work.

`Proc.work` measures what is left to do: the instructions that have not been
read or dispatched, and for every row the time until it is free.  No stage adds
to it.  In a cycle that fetches nothing, there is a row that has been fired, and
has less time left after `execute_instr`; or nothing has been fired, and then
the oldest row has no producer, no unit and no older row to wait for, so that
`schedule_instr` fires it if it fires nothing else; or all rows are free, and
`dispatch_instr` is not stalled.
-/
import ProjectArchive.Tomasulo.Renaming
import ProjectArchive.Tomasulo.Units
import Mathlib.Data.Finset.Max

namespace ProjectArchive.Tomasulo

open Sweep

variable {conf : ProcConf} {prog : List TraceInst} {s s' : Proc conf} {qsort : Qsort conf}

/-! ### Work -/

/-- The work that a row still takes: more than the time it needs once it is fired. -/
def Row.work (row : Row) : ℕ :=
  if row.occupied then
    if row.fired then (row.remainingTime + 2).toNat else 15
  else 0

/-- The work that is left. -/
def Proc.work (s : Proc conf) : ℕ :=
  s.continueFetch.toNat + 40 * s.trace.length +
    20 * (s.dispatchQueueTail - s.dispatchQueueHead) + total Row.work s.scheduleQueue

theorem Row.work_congr {row row' : Row} (hocc : row'.occupied = row.occupied)
    (hfired : row'.fired = row.fired) (htime : row'.remainingTime = row.remainingTime) :
    row'.work = row.work := by
  unfold Row.work
  rw [hocc, hfired, htime]

/-- The rows change and the queues do not. -/
theorem work_of_rows (htrace : s'.trace = s.trace)
    (htail : s'.dispatchQueueTail = s.dispatchQueueTail)
    (hhead : s'.dispatchQueueHead = s.dispatchQueueHead)
    (hmore : s'.continueFetch = s.continueFetch) :
    s'.work + total Row.work s.scheduleQueue = s.work + total Row.work s'.scheduleQueue := by
  unfold Proc.work
  rw [htrace, htail, hhead, hmore]
  omega

theorem SameBooks.dispatchQueueTail (h : SameBooks s s') :
    s'.dispatchQueueTail = s.dispatchQueueTail :=
  congrArg List.length h.dispatchQueue

theorem SameBooks.work_le (h : SameBooks s s')
    (hrows : ∀ k, (s'.scheduleQueue k).work ≤ (s.scheduleQueue k).work) : s'.work ≤ s.work := by
  have hwork := work_of_rows h.trace h.dispatchQueueTail h.dispatchQueueHead h.continueFetch
  have htotal := total_mono hrows
  omega

theorem SameBooks.work_lt (h : SameBooks s s')
    (hrows : ∀ k, (s'.scheduleQueue k).work ≤ (s.scheduleQueue k).work)
    {i : Fin conf.scheduleQueueSize} (hi : (s'.scheduleQueue i).work < (s.scheduleQueue i).work) :
    s'.work < s.work := by
  have hwork := work_of_rows h.trace h.dispatchQueueTail h.dispatchQueueHead h.continueFetch
  have htotal := total_lt_total hrows hi
  omega

/-! ### No stage adds work -/

theorem work_beginCycle (s : Proc conf) : s.beginCycle.work = s.work := by
  have h := beginCycle_updated s
  have hwork := work_of_rows h.trace h.dispatchQueueTail h.dispatchQueueHead h.continueFetch
  have htotal : total Row.work s.beginCycle.scheduleQueue = total Row.work s.scheduleQueue :=
    total_congr fun k => Row.work_congr (h.rows k).occupied (h.fired k) (h.remainingTime k)
  omega

/-- A row that is executed has less to do afterwards. -/
theorem Row.Executed.work_lt {cycle : ℕ} {row row' : Row} (h : row.Executed cycle row')
    (hocc : row.occupied = true) (hfired : row.fired = true) (hpos : 0 ≤ row.remainingTime) :
    row'.work < row.work := by
  unfold Row.Executed at h
  rw [if_pos ⟨hocc, hfired⟩] at h
  obtain ⟨t, rfl, htick, haccess⟩ := h
  have hsame := row.same_executing cycle t
  have ht : t < row.remainingTime := by
    by_cases h11 : row.remainingTime = 11
    · rcases haccess h11 with rfl | rfl <;> omega
    · rw [htick h11]
      omega
  unfold Row.work
  rw [hsame.occupied, hocc, hfired,
    show ({ row.executing cycle with remainingTime := t } : Row).fired = true
      from (Row.executing_fired _ _).trans hfired]
  show (t + 2).toNat < (row.remainingTime + 2).toNat
  omega

theorem Row.Executed.work_le {cycle : ℕ} {row row' : Row} (h : row.Executed cycle row')
    (hpos : row.occupied = true → row.fired = true → 0 ≤ row.remainingTime) :
    row'.work ≤ row.work := by
  by_cases hguard : row.occupied = true ∧ row.fired = true
  · exact (h.work_lt hguard.1 hguard.2 (hpos hguard.1 hguard.2)).le
  · unfold Row.Executed at h
    rw [if_neg hguard] at h
    rw [h]

/-- A row that is fired has less to do afterwards. -/
theorem Row.Scheduled.work_lt {cycle : ℕ} {row row' : Row} (h : row.Scheduled cycle row')
    (hocc : row.occupied = true) (hfired : row.fired = false) (hfired' : row'.fired = true) :
    row'.work < row.work := by
  have hwork : row.work = 15 := by simp [Row.work, hocc, hfired]
  cases h with
  | passes => simp [hfired] at hfired'
  | waits => simp [Row.scheduling, hfired] at hfired'
  | leaks => simp [Row.scheduling, hfired] at hfired'
  | fires t u _ _ _ ht =>
      rw [hwork]
      unfold Row.work
      rw [show ({ row.scheduling cycle with fired := true, remainingTime := t, fu := u } : Row).occupied
        = true from hocc]
      show (t + 2).toNat < 15
      omega

theorem Row.Scheduled.work_le {cycle : ℕ} {row row' : Row} (h : row.Scheduled cycle row') :
    row'.work ≤ row.work := by
  cases h with
  | passes => exact Nat.le_refl _
  | waits => exact (Row.work_congr rfl rfl rfl).le
  | fires t u hocc hfired hready ht hls =>
      exact ((Row.Scheduled.fires t u hocc hfired hready ht hls).work_lt hocc hfired rfl).le
  | leaks hocc hfired =>
      have hunfired : ({ row.scheduling cycle with remainingTime := 11 } : Row).work = 15 := by
        simp [Row.work, Row.scheduling, hocc, hfired]
      have hwork : row.work = 15 := by simp [Row.work, hocc, hfired]
      rw [hunfired, hwork]

theorem work_executeInstr (hpos : ∀ k, (s.scheduleQueue k).occupied = true →
    (s.scheduleQueue k).fired = true → 0 ≤ (s.scheduleQueue k).remainingTime) :
    s.executeInstr.work ≤ s.work ∧
      ((∃ k, (s.scheduleQueue k).occupied = true ∧ (s.scheduleQueue k).fired = true) →
        s.executeInstr.work < s.work) := by
  obtain ⟨hsame, hrows⟩ := executeInstr_same s
  have hle : ∀ k, (s.executeInstr.scheduleQueue k).work ≤ (s.scheduleQueue k).work :=
    fun k => (hrows k).work_le (hpos k)
  refine ⟨hsame.work_le hle, ?_⟩
  rintro ⟨k, hocc, hfired⟩
  exact hsame.work_lt hle ((hrows k).work_lt hocc hfired (hpos k hocc hfired))

theorem work_scheduleInstr (s : Proc conf) : s.scheduleInstr.work ≤ s.work := by
  obtain ⟨hsame, hrows⟩ := scheduleInstr_same s
  exact hsame.work_le fun k => (hrows k).work_le

theorem work_scheduleInstr_lt
    (hidle : ∀ k, (s.scheduleQueue k).occupied = true → (s.scheduleQueue k).fired = false)
    (hfires : ∃ k, (s.scheduleInstr.scheduleQueue k).occupied = true ∧
      (s.scheduleInstr.scheduleQueue k).fired = true) : s.scheduleInstr.work < s.work := by
  obtain ⟨hsame, hrows⟩ := scheduleInstr_same s
  obtain ⟨k, hk, hfired⟩ := hfires
  rw [(hsame.rows k).occupied] at hk
  exact hsame.work_lt (fun j => (hrows j).work_le) ((hrows k).work_lt hk (hidle k hk) hfired)

theorem work_skip {k : ℕ} (hle : s.dispatchQueueHead + k ≤ s.dispatchQueueTail) :
    (s.skip k).work + 20 * k = s.work := by
  show s.continueFetch.toNat + 40 * s.trace.length +
    20 * (s.dispatchQueueTail - (s.dispatchQueueHead + k)) + total Row.work s.scheduleQueue +
      20 * k = s.work
  unfold Proc.work
  omega

/-- An instruction takes less work in a row than in the queue. -/
theorem work_placeRow (hs : Books prog s) {i : Fin conf.scheduleQueueSize} {inst : Inst}
    (hfree : (s.scheduleQueue i).occupied = false)
    (hget : s.dispatchQueue[s.dispatchQueueHead]? = some inst) :
    (s.placeRow i inst).work < s.work := by
  have hlt : s.dispatchQueueHead < s.dispatchQueueTail := (List.getElem?_eq_some_iff.mp hget).1
  have htotal := total_update Row.work s.scheduleQueue i
    ((s.scheduleQueue i).fill s.registerFile s.instrTag inst)
  have hbefore : (s.scheduleQueue i).work = 0 := by simp [Row.work, hfree]
  have hafter : ((s.scheduleQueue i).fill s.registerFile s.instrTag inst).work = 15 := by
    simp [Row.work, Row.fill, hs.rowsOk.idle i hfree]
  rw [hbefore, hafter] at htotal
  rw [s.placeRow_eq]
  show s.continueFetch.toNat + 40 * s.trace.length +
    20 * (s.dispatchQueueTail - (s.dispatchQueueHead + 1)) +
      total Row.work (Function.update s.scheduleQueue i _) < s.work
  unfold Proc.work
  omega

theorem work_markDispatch (s : Proc conf) : s.markDispatch.work = s.work := by
  show s.continueFetch.toNat + 40 * s.trace.length +
    20 * (s.markDispatch.dispatchQueueTail - s.dispatchQueueHead) +
      total Row.work s.scheduleQueue = s.work
  rw [s.markDispatch_tail]
  rfl

theorem work_dispatchInstr (hs : Books prog s) : s.dispatchInstr.work ≤ s.work := by
  refine (dispatchInstr_induction (P := fun a : Proc conf => a.work ≤ s.work) ?_ ?_ ?_ hs
    (work_markDispatch s).le).2
  · exact fun a b ha => ha
  · intro a k hbooks ha hnops
    exact (Nat.le.intro (work_skip (hnops.le hbooks.queueOk.size))).trans ha
  · exact fun a i inst hbooks ha hfree hget _ => (work_placeRow hbooks hfree hget).le.trans ha

theorem work_fetchOne (hs : Books prog s) {inst : TraceInst} {trace : List TraceInst}
    (htrace : s.trace = inst :: trace) : (s.fetchOne inst trace).work < s.work := by
  have hhead := hs.queueOk.size.1
  have htail : (s.fetchOne inst trace).dispatchQueueTail = s.dispatchQueueTail + 1 := by
    show (s.dispatchQueue ++ [s.fetched inst]).length = _
    rw [List.length_append]
    rfl
  show s.continueFetch.toNat + 40 * trace.length +
    20 * ((s.fetchOne inst trace).dispatchQueueTail - s.dispatchQueueHead) +
      total Row.work s.scheduleQueue < s.work
  unfold Proc.work
  rw [htail, htrace, List.length_cons]
  omega

theorem work_continueFetch (s : Proc conf) (more : Bool) :
    ({ s with continueFetch := more } : Proc conf).work + s.continueFetch.toNat =
      s.work + more.toNat := by
  show more.toNat + 40 * s.trace.length + 20 * (s.dispatchQueueTail - s.dispatchQueueHead) +
    total Row.work s.scheduleQueue + s.continueFetch.toNat = s.work + more.toNat
  unfold Proc.work
  omega

/-- Fetching reads an instruction, or finds that there is none left. -/
theorem work_fetchStage (hs : Books prog s) (hmore : s.continueFetch = true)
    (hfetch : s.fetchStage = .ok s') : s'.work < s.work := by
  unfold Proc.fetchStage at hfetch
  rw [if_pos hmore] at hfetch
  obtain ⟨⟨more, s₁⟩, hloop, hend⟩ := Exec.bind_eq_ok hfetch
  obtain rfl := Except.ok.inj hend
  unfold Proc.fetchInstr at hloop
  obtain ⟨iterations, hf⟩ : ∃ iterations, conf.f = iterations + 1 :=
    ⟨conf.f - 1, (Nat.sub_add_cancel conf.f_pos).symm⟩
  rw [hf] at hloop
  rcases htrace : s.trace with - | ⟨inst, trace⟩
  · obtain ⟨rfl, rfl⟩ : false = more ∧ s = s₁ := by simpa [Proc.fetchLoop, htrace] using hloop
    have hwork := work_continueFetch s false
    rw [hmore, Bool.toNat_false, Bool.toNat_true] at hwork
    omega
  · rcases Nat.lt_or_ge s.dispatchQueueTail dqDataStructureSize with hlt | hge
    · have hrest : Proc.fetchLoop iterations (s.fetchOne inst trace) = .ok (more, s₁) := by
        simpa [Proc.fetchLoop, htrace, hlt] using hloop
      have hfirst := work_fetchOne hs htrace
      have hall := (Proc.fetchLoop_induction
        (P := fun a : Proc conf => Books prog a ∧ a.continueFetch = true ∧ a.work < s.work)
        (by
          rintro a inst trace ⟨ha, hmore, hwork⟩ htrace hlt
          exact ⟨ha.fetchOne htrace hlt, hmore, (work_fetchOne ha htrace).trans hwork⟩)
        ⟨hs.fetchOne htrace hlt, hmore, hfirst⟩ hrest).1
      have hwork := work_continueFetch s₁ more
      have hle := Bool.toNat_le more
      rw [hall.2.1, Bool.toNat_true] at hwork
      have hlt' := hall.2.2
      omega
    · simp [Proc.fetchLoop, htrace, Nat.not_lt.mpr hge] at hloop

theorem work_fetchStage_le (hs : Books prog s) (hfetch : s.fetchStage = .ok s') :
    s'.work ≤ s.work := by
  rcases hmore : s.continueFetch with - | -
  · unfold Proc.fetchStage at hfetch
    rw [if_neg (by simp [hmore])] at hfetch
    obtain rfl := Except.ok.inj hfetch
    exact Nat.le_refl _
  · exact (work_fetchStage hs hmore hfetch).le

theorem work_endCycle (hs : Books prog s) (qsort : Qsort conf) : (s.endCycle qsort).work ≤ s.work := by
  obtain ⟨cumulativeSize, e⟩ := endCycle_eq qsort hs
  obtain ⟨σ, hσ⟩ := qsort.perm s.cycle s.released
  have hrows : total Row.work (s.released ∘ σ) ≤ total Row.work s.scheduleQueue := by
    rw [total_comp_perm]
    refine total_mono ?_
    intro k
    unfold Proc.released
    split
    · exact Nat.zero_le _
    · exact Nat.le_refl _
  rw [e, hσ]
  show s.continueFetch.toNat + 40 * s.trace.length +
    20 * (s.dispatchQueueTail - s.dispatchQueueHead) + total Row.work (s.released ∘ σ) ≤ s.work
  unfold Proc.work
  omega

/-! ### Stalls -/

/-- `dispatch_instr` is stalled by a branch in a row only. -/
def Stalls (s : Proc conf) : Prop :=
  s.branchStarted = true → ∃ i, (s.scheduleQueue i).occupied = true ∧ ¬ s.Completed (s.tag i) ∧
    (s.scheduleQueue i).opcode = .br ∧ (s.scheduleQueue i).instr.mispredicted = true

theorem Row.Same.mispredicted {row row' : Row} (h : row.Same row') :
    row'.instr.mispredicted = row.instr.mispredicted := by
  unfold Inst.mispredicted
  rw [h.predictedBr, show row'.instr.brTaken = row.instr.brTaken from
    congrArg TraceInst.brTaken h.inst]

theorem SameBooks.stalls (h : SameBooks s s') (hs : Stalls s) : Stalls s' := by
  intro hstall
  rw [h.branchStarted] at hstall
  obtain ⟨i, hi, hnot, hop, hpred⟩ := hs hstall
  refine ⟨i, (h.rows i).occupied.trans hi, ?_, (h.rows i).opcode.trans hop,
    (h.rows i).mispredicted.trans hpred⟩
  rw [h.completed, h.tag]
  exact hnot

theorem Stalls.completeRow (h : Stalls s) (hs : Books prog s) {i : Fin conf.scheduleQueueSize}
    (hocc : (s.scheduleQueue i).occupied = true) : Stalls (s.completeRow i) := by
  have hstarted : (s.completeRow i).branchStarted =
      if (s.scheduleQueue i).opcode = .br ∧ (s.scheduleQueue i).instr.mispredicted = true then false
      else s.branchStarted := by
    obtain ⟨branchTable, ghr, e⟩ := s.completeRow_eq i
    rw [e]
  intro hstall
  rw [hstarted] at hstall
  split at hstall
  · cases hstall
  · rename_i hother
    obtain ⟨k, hk, hnot, hop, hpred⟩ := h hstall
    have hsame := (completeRow_row s i k).1
    refine ⟨k, hsame.occupied.trans hk, ?_, hsame.opcode.trans hop, hsame.mispredicted.trans hpred⟩
    rw [completeRow_completed, show (s.completeRow i).tag k = s.tag k from hsame.tag]
    rintro (hc | htag)
    · exact hnot hc
    · -- the row that is completed is not the branch
      obtain rfl := hs.eq_of_tag hk hocc htag
      exact hother ⟨hop, hpred⟩

theorem Stalls.placeRow (h : Stalls s) (hs : Books prog s) {i : Fin conf.scheduleQueueSize}
    {inst : Inst} (hfree : (s.scheduleQueue i).occupied = false)
    (hget : s.dispatchQueue[s.dispatchQueueHead]? = some inst) : Stalls (s.placeRow i inst) := by
  have hself := s.placeRow_self i inst
  intro hstall
  by_cases hbranch : inst.opcode = .br ∧ inst.mispredicted = true
  · refine ⟨i, by rw [hself]; rfl, placeRow_not_completed hs hget, ?_, ?_⟩
    · rw [hself]
      exact hbranch.1
    · rw [hself]
      exact hbranch.2
  · rw [s.placeRow_eq] at hstall
    have hstall' : (if inst.opcode = .br ∧ inst.mispredicted = true then true else s.branchStarted)
      = true := hstall
    rw [if_neg hbranch] at hstall'
    obtain ⟨k, hk, hnot, hop, hpred⟩ := h hstall'
    have hki : k ≠ i := by
      rintro rfl
      rw [hfree] at hk
      cases hk
    have hrow := s.placeRow_of_ne inst hki
    refine ⟨k, by rwa [hrow], ?_, by rwa [hrow], by rwa [hrow]⟩
    rw [placeRow_completed, placeRow_tag_of_ne inst hki]
    exact hnot

theorem Stalls.endCycle (h : Stalls s) (hs : Books prog s) : Stalls (s.endCycle qsort) := by
  obtain ⟨cumulativeSize, e⟩ := endCycle_eq qsort hs
  obtain ⟨σ, hσ⟩ := endCycle_reorders qsort hs
  intro hstall
  rw [e] at hstall
  obtain ⟨k, hk, hnot, hop, hpred⟩ := h hstall
  have hrow := hσ.stays hk hnot
  refine ⟨σ.symm k, by rwa [hrow], ?_, by rwa [hrow], by rwa [hrow]⟩
  rw [Proc.tag_congr hrow, Proc.completed_congr (by rw [e])]
  exact hnot

theorem Stalls.step (h : Stalls s) (hs : Books prog s) (hstep : Step qsort s s') : Stalls s' := by
  cases hstep with
  | locals e =>
      rw [e]
      exact h
  | completes i hfin _ => exact h.completeRow hs ((finished_eq_true s i).mp hfin).1
  | executes i _ _ => exact (executeRow_same i s).1.stalls h
  | schedules i => exact (scheduleRow_same i s).1.stalls h
  | marks => exact h
  | skips k _ => exact h
  | places i inst hfree hget _ => exact h.placeRow hs hfree hget
  | fetches inst trace _ _ => exact h
  | releases => exact h.endCycle hs

theorem Reached.stalls {trace : List TraceInst} {stage : Stage}
    (h : Reached conf qsort trace stage s) : Stalls s := by
  refine h.step_invariant ?_ fun _ _ hs hstalls hstep => hstalls.step hs hstep
  intro hstall
  cases hstall

/-! ### The oldest row is fired -/

/-- A row with no older row that is occupied. -/
def Oldest (s : Proc conf) (i : Fin conf.scheduleQueueSize) : Prop :=
  (s.scheduleQueue i).occupied = true ∧
    ∀ k, (s.scheduleQueue k).occupied = true → s.tag i ≤ s.tag k

theorem exists_oldest {k : Fin conf.scheduleQueueSize} (hk : (s.scheduleQueue k).occupied = true) :
    ∃ i, Oldest s i := by
  have hnonempty : (Finset.univ.filter fun i => (s.scheduleQueue i).occupied = true).Nonempty :=
    ⟨k, by simp [hk]⟩
  obtain ⟨i, hi, hmin⟩ := Finset.exists_min_image _ s.tag hnonempty
  exact ⟨i, by simpa using hi, fun j hj => hmin j (by simp [hj])⟩

/-- The oldest row has nothing to wait for but a unit. -/
theorem Oldest.ready {i : Fin conf.scheduleQueueSize} (h : Oldest s i) (hs : Books prog s)
    (hr : Renamed prog s) (k : Fin 2) : ((s.scheduleQueue i).src k).ready = true := by
  refine hr.ready h.1 ?_
  intro r p _ hp
  have hlt : p < s.dispatchQueueHead := hp.lt.trans (hs.rowsOk.row i h.1).lt
  rcases hs.rowsOk.dispatched p hlt hp.wrote.issues with hc | ⟨j, hj, rfl⟩
  · exact hc
  · exact absurd (h.2 j hj) (Nat.not_le.mpr hp.lt)

/-- An older row does not conflict with a younger one. -/
theorem conflicts_of_le {other row : Row}
    (h : other.occupied = true → row.instr.sequentialTag ≤ other.instr.sequentialTag) :
    conflicts other row = false := by
  rcases hocc : other.occupied with - | -
  · simp [conflicts, hocc]
  · simp [conflicts, Nat.not_lt.mpr (h hocc)]

/-- Nothing has been fired yet in this pass of `schedule_instr`. -/
structure Idle (s a : Proc conf) : Prop where
  same : SameBooks s a
  unfired : ∀ k, (a.scheduleQueue k).occupied = true → (a.scheduleQueue k).fired = false
  addUnit : 0 < a.addUnit
  scheMulUnit : 0 < a.scheMulUnit
  lsUnit : 0 < a.lsUnit
  free : ∀ u < conf.k2, (a.lsFunctionalUnit u).busy = false

theorem Idle.setRow {a : Proc conf} (h : Idle s a) {i : Fin conf.scheduleQueueSize}
    (hsame : SameBooks a (a.setRow i ((a.scheduleQueue i).scheduling a.cycle)))
    (hfired : (a.scheduleQueue i).fired = false) :
    Idle s (a.setRow i ((a.scheduleQueue i).scheduling a.cycle)) := by
  refine ⟨h.same.trans hsame, ?_, h.addUnit, h.scheMulUnit, h.lsUnit, h.free⟩
  intro k hk
  rw [(hsame.rows k).occupied] at hk
  show (Function.update a.scheduleQueue i _ k).fired = false
  rcases eq_or_ne k i with rfl | hki
  · rw [Function.update_self]
    exact hfired
  · rw [Function.update_of_ne hki]
    exact h.unfired k hk

/-- There is a unit for the oldest row while nothing is fired. -/
theorem Idle.unit {a : Proc conf} (h : Idle s a) {row : Row} (hop : row.opcode ≠ .nop)
    (holdest : ∀ k, (a.scheduleQueue k).occupied = true →
      row.instr.sequentialTag ≤ (a.scheduleQueue k).instr.sequentialTag) : ¬ a.NoUnit row := by
  rintro ⟨hadder, hmultiplier, hloadStore⟩
  rcases Opcode.kind_cases hop with huses | hmul | hls
  · exact Nat.ne_of_gt h.addUnit (hadder huses)
  · exact Nat.ne_of_gt h.scheMulUnit (hmultiplier hmul)
  · have hope : a.cacheOpeable row = true := by
      unfold Proc.cacheOpeable
      rw [Bool.and_eq_true, List.all_eq_true, List.all_eq_true]
      constructor
      · intro u hu
        rw [h.free u (List.mem_range.mp hu)]
        rfl
      · intro k _
        rw [conflicts_of_le (holdest k)]
        rfl
    rcases hloadStore hls with hzero | hnot
    · exact Nat.ne_of_gt h.lsUnit hzero
    · rw [hope] at hnot
      cases hnot

/-- A row that has been fired stays fired. -/
theorem scheduleRow_fired {a : Proc conf} (i : Fin conf.scheduleQueueSize)
    (h : ∃ k, (a.scheduleQueue k).occupied = true ∧ (a.scheduleQueue k).fired = true) :
    ∃ k, ((a.scheduleRow i).scheduleQueue k).occupied = true ∧
      ((a.scheduleRow i).scheduleQueue k).fired = true := by
  obtain ⟨hsame, hrow, hothers⟩ := scheduleRow_same i a
  obtain ⟨k, hk, hfired⟩ := h
  refine ⟨k, (hsame.rows k).occupied.trans hk, ?_⟩
  rcases eq_or_ne k i with rfl | hki
  · generalize (a.scheduleRow k).scheduleQueue k = row' at hrow ⊢
    cases hrow with
    | passes => exact hfired
    | waits => exact hfired
    | fires => rfl
    | leaks => exact hfired
  · rw [hothers k hki]
    exact hfired

/-- A round of `schedule_instr` fires its row, or nothing is fired and the row is
not the oldest one. -/
theorem Idle.scheduleRow {a : Proc conf} (h : Idle s a) (hs : Books prog s) (hr : Renamed prog s)
    (i : Fin conf.scheduleQueueSize) :
    (∃ k, ((a.scheduleRow i).scheduleQueue k).occupied = true ∧
        ((a.scheduleRow i).scheduleQueue k).fired = true) ∨
      Idle s (a.scheduleRow i) ∧ ¬ Oldest s i := by
  have hrow := scheduleRow_same i a
  have hcases := a.scheduleRow_cases i
  generalize a.scheduleRow i = a' at hcases hrow ⊢
  have hlooked : (a.scheduleQueue i).occupied = true → (a.scheduleQueue i).fired = false →
      Idle s (a.setRow i ((a.scheduleQueue i).scheduling a.cycle)) := by
    intro hocc hfired
    refine h.setRow ?_ hfired
    exact sameBooks_update ((a.scheduleQueue i).same_scheduling a.cycle _ _ _) rfl (fun _ => rfl)
      {} rfl
  cases hcases with
  | passes hpass =>
      refine .inr ⟨h, ?_⟩
      intro holdest
      have hocc : (a.scheduleQueue i).occupied = true := (h.same.rows i).occupied.trans holdest.1
      rcases hpass with hfree | hfired
      · rw [hocc] at hfree
        cases hfree
      · rw [h.unfired i hocc] at hfired
        cases hfired
  | unready hocc hfired hready =>
      refine .inr ⟨hlooked hocc hfired, ?_⟩
      intro holdest
      obtain ⟨k, hk⟩ := hready
      rw [h.same.src, holdest.ready hs hr k] at hk
      cases hk
  | ready hocc hfired hready htries =>
      have hidle := hlooked hocc hfired
      cases htries with
      | waits hunit =>
          refine .inr ⟨hidle, ?_⟩
          intro holdest
          have hrowOk := (h.same.books hs).rowsOk.row i hocc
          have hsame := (a.scheduleQueue i).same_scheduling a.cycle (a.scheduleQueue i).fired
            (a.scheduleQueue i).remainingTime (a.scheduleQueue i).fu
          refine hidle.unit ?_ ?_ hunit
          · show (a.scheduleQueue i).opcode ≠ .nop
            rw [hrowOk.op]
            exact hrowOk.issued
          · intro k hk
            rw [(hidle.same.rows k).occupied] at hk
            rw [(hidle.same.rows k).tag]
            have hle := holdest.2 k hk
            have htag : ((a.scheduleQueue i).scheduling a.cycle).instr.sequentialTag = s.tag i :=
              hsame.tag.trans (h.same.rows i).tag
            rw [htag]
            exact hle
      | fires htakes =>
          refine .inl ⟨i, ?_, ?_⟩
          · rw [(hrow.1.rows i).occupied]
            exact hocc
          · simp
      | leaks hop hunit hbusy =>
          have hfree := hidle.free 0 conf.k2_pos
          rw [hbusy 0 conf.k2_pos] at hfree
          cases hfree

/-- If nothing is fired and some row is occupied, `schedule_instr` fires a row. -/
theorem scheduleInstr_fires (hs : Books prog s) (hr : Renamed prog s) (hu : UnitsOk s)
    (hidle : ∀ k, (s.scheduleQueue k).occupied = true → (s.scheduleQueue k).fired = false)
    (hocc : ∃ k, (s.scheduleQueue k).occupied = true) :
    ∃ k, (s.scheduleInstr.scheduleQueue k).occupied = true ∧
      (s.scheduleInstr.scheduleQueue k).fired = true := by
  obtain ⟨k, hk⟩ := hocc
  obtain ⟨i, holdest⟩ := exists_oldest hk
  obtain ⟨hadd, hls, hfree⟩ := hu.all_free hidle
  have hlocal : SameBooks s { s with scheMulUnit := 1 } := {}
  have hstart : Idle s { s with scheMulUnit := 1 } :=
    ⟨hlocal, hidle, hadd ▸ conf.k0_pos, Nat.one_pos, hls ▸ conf.k2_pos, hfree⟩
  have hpass := sweep_induction (f := Proc.scheduleRow) (a := { s with scheMulUnit := 1 })
    (fun m a => (∃ k, (a.scheduleQueue k).occupied = true ∧ (a.scheduleQueue k).fired = true) ∨
      Idle s a ∧ m ≤ i.val) (.inr ⟨hstart, Nat.zero_le _⟩) (by
      rintro m a (hfired | ⟨ha, hm⟩)
      · exact .inl (scheduleRow_fired m hfired)
      · rcases ha.scheduleRow hs hr m with hfired | ⟨ha', hnot⟩
        · exact .inl hfired
        · refine .inr ⟨ha', ?_⟩
          rcases Nat.lt_or_eq_of_le hm with hlt | heq
          · exact hlt
          · exact absurd (Fin.ext heq ▸ holdest) hnot)
  rcases hpass with hfired | ⟨-, hle⟩
  · exact hfired
  · exact absurd i.isLt (Nat.not_lt.mpr hle)

/-! ### Dispatching advances -/

theorem work_dispatchRow {i : Fin conf.scheduleQueueSize} (hs : Books prog s) :
    Books prog (s.dispatchRow i) ∧ (s.dispatchRow i).work ≤ s.work := by
  refine dispatchRow_induction (P := fun a : Proc conf => a.work ≤ s.work) ?_ ?_ ?_ i hs
    (Nat.le_refl _)
  · exact fun a b ha => ha
  · intro a k hbooks ha hnops
    exact (Nat.le.intro (work_skip (hnops.le hbooks.queueOk.size))).trans ha
  · exact fun a i inst hbooks ha hfree hget _ => (work_placeRow hbooks hfree hget).le.trans ha

/-- When the queue is not empty and the row is free, an instruction leaves the queue. -/
theorem work_dispatchRow_lt {i : Fin conf.scheduleQueueSize} (hs : Books prog s)
    (hdisp : s.dispatching = true) (hqueue : s.dispatchQueueHead ≠ s.dispatchQueueTail)
    (hfree : (s.scheduleQueue i).occupied = false) : (s.dispatchRow i).work < s.work := by
  have hcases := s.dispatchRow_cases i hs.queueOk.size
  generalize s.dispatchRow i = s' at hcases ⊢
  cases hcases with
  | stopped hstop =>
      rw [hdisp] at hstop
      cases hstop
  | empty _ hempty => exact absurd hempty hqueue
  | full _ _ hocc =>
      rw [hfree] at hocc
      cases hocc
  | ends k _ _ _ _ hk =>
      -- the NOPs that are skipped were at least one
      have hpos : 0 < k := by
        refine Nat.pos_of_ne_zero ?_
        rintro rfl
        exact hqueue hk
      have hskip := work_skip hk.le
      show (s.skip k).work < s.work
      omega
  | places k inst _ _ hnops hget _ =>
      have hskip := work_skip (hnops.le hs.queueOk.size)
      have hplace := work_placeRow (hs.skip hnops) hfree hget
      omega

theorem work_dispatchInstr_lt (hs : Books prog s) (hstarted : s.branchStarted = false)
    (hfree : ∀ k, (s.scheduleQueue k).occupied = false)
    (hqueue : s.dispatchQueueHead ≠ s.dispatchQueueTail) : s.dispatchInstr.work < s.work := by
  have hsame : SameBooks s.markDispatch { s.markDispatch with dispatching := true } := {}
  have hbooks := hsame.books hs.markDispatch
  have hqueue' : s.markDispatch.dispatchQueueHead ≠ s.markDispatch.dispatchQueueTail := by
    rw [s.markDispatch_tail]
    exact hqueue
  have hpass := sweep_induction (f := Proc.dispatchRow)
    (a := { s.markDispatch with dispatching := true })
    (fun m a => Books prog a ∧
      (a.work < s.work ∨ m = 0 ∧ a = { s.markDispatch with dispatching := true }))
    ⟨hbooks, .inr ⟨rfl, rfl⟩⟩ (by
      rintro m a ⟨ha, hlt | ⟨-, rfl⟩⟩
      · obtain ⟨ha', hle⟩ := work_dispatchRow ha
        exact ⟨ha', .inl (hle.trans_lt hlt)⟩
      · have hlt := work_dispatchRow_lt hbooks rfl hqueue' (hfree m)
        exact ⟨(work_dispatchRow hbooks).1, .inl (hlt.trans_eq (work_markDispatch s))⟩)
  have hstarted' : ¬ s.markDispatch.branchStarted = true := by
    show ¬ s.branchStarted = true
    simp [hstarted]
  unfold Proc.dispatchInstr
  dsimp only
  rw [if_neg hstarted']
  rcases hpass.2 with hlt | ⟨hzero, -⟩
  · exact hlt
  · exact absurd hzero (Nat.ne_of_gt conf.scheduleQueueSize_pos)

theorem dispatchInstr_continueFetch (hs : Books prog s) :
    s.dispatchInstr.continueFetch = s.continueFetch := by
  refine (dispatchInstr_induction (P := fun a : Proc conf => a.continueFetch = s.continueFetch)
    ?_ ?_ ?_ hs rfl).2
  · exact fun a b ha => ha
  · exact fun a k _ ha _ => ha
  · intro a i inst _ ha _ _ _
    rw [a.placeRow_eq]
    exact ha

/-! ### A cycle -/

/-- There is something to do. -/
def Busy (s : Proc conf) : Prop :=
  s.continueFetch = true ∨ (∃ k, (s.scheduleQueue k).occupied = true) ∨
    s.dispatchQueueHead ≠ s.dispatchQueueTail

/-- While there is something to do, a cycle does some of it. -/
theorem work_cycleBody (h : Reached conf qsort prog .updateState s)
    (hcontinue : s.continueBool = true) (hbusy : Busy s) (hbody : s.cycleBody qsort = .ok s') :
    s'.work < s.work := by
  obtain ⟨s₅, hfetch, rfl⟩ := cycleBody_eq_ok hbody
  have h₁ : Reached conf qsort prog .executeInstr s.beginCycle := h.step (fun _ => hcontinue) rfl
  have h₂ := h.executed hcontinue
  have h₃ := h.scheduled hcontinue
  have h₄ := h.dispatched hcontinue
  have h₅ := h.fetched hcontinue hfetch
  have hupdated := beginCycle_updated s
  have hsame := (executeInstr_same s.beginCycle).1.trans
    (scheduleInstr_same s.beginCycle.executeInstr).1
  have hupdate := work_beginCycle s
  have hexecute := work_executeInstr (h₁.ledger.phase.nonneg trivial)
  have hschedule := work_scheduleInstr s.beginCycle.executeInstr
  have hdispatch := work_dispatchInstr h₃.ledger.books
  have hfetch' := work_fetchStage_le h₄.ledger.books hfetch
  have hend := work_endCycle h₅.ledger.books qsort
  by_cases hmore : s.continueFetch = true
  · -- something is fetched, or there is nothing left to fetch
    have hmore₄ : s.beginCycle.executeInstr.scheduleInstr.dispatchInstr.continueFetch = true := by
      rw [dispatchInstr_continueFetch h₃.ledger.books, hsame.continueFetch, hupdated.continueFetch]
      exact hmore
    have hlt := work_fetchStage h₄.ledger.books hmore₄ hfetch
    omega
  by_cases hfired : ∃ k, (s.beginCycle.scheduleQueue k).occupied = true ∧
      (s.beginCycle.scheduleQueue k).fired = true
  · have hlt := hexecute.2 hfired
    omega
  by_cases hocc : ∃ k, (s.beginCycle.scheduleQueue k).occupied = true
  · have hidle : ∀ k, (s.beginCycle.executeInstr.scheduleQueue k).occupied = true →
        (s.beginCycle.executeInstr.scheduleQueue k).fired = false := by
      intro k hk
      obtain ⟨hbooks, hrows⟩ := executeInstr_same s.beginCycle
      have hrow := hrows k
      rw [(hbooks.rows k).occupied] at hk
      unfold Row.Executed at hrow
      rw [if_neg fun hguard => hfired ⟨k, hguard⟩] at hrow
      rw [hrow]
      exact Bool.eq_false_of_not_eq_true fun hf => hfired ⟨k, hk, hf⟩
    have hocc₂ : ∃ k, (s.beginCycle.executeInstr.scheduleQueue k).occupied = true := by
      obtain ⟨k, hk⟩ := hocc
      exact ⟨k, ((executeInstr_same s.beginCycle).1.rows k).occupied.trans hk⟩
    have hlt := work_scheduleInstr_lt hidle
      (scheduleInstr_fires h₂.ledger.books h₂.renamed h₂.unitsOk hidle hocc₂)
    omega
  · -- all rows are free, so there is no branch to wait for
    have hfree : ∀ k, (s.beginCycle.executeInstr.scheduleInstr.scheduleQueue k).occupied = false := by
      intro k
      rw [(hsame.rows k).occupied]
      exact Bool.eq_false_of_not_eq_true fun hk => hocc ⟨k, hk⟩
    have hstarted : s.beginCycle.executeInstr.scheduleInstr.branchStarted = false := by
      by_contra hstall
      obtain ⟨k, hk, -⟩ := h₃.stalls (Bool.eq_true_of_not_eq_false hstall)
      rw [hfree k] at hk
      cases hk
    have hqueue : s.beginCycle.executeInstr.scheduleInstr.dispatchQueueHead ≠
        s.beginCycle.executeInstr.scheduleInstr.dispatchQueueTail := by
      rw [hsame.dispatchQueueHead, hsame.dispatchQueueTail, hupdated.dispatchQueueHead,
        hupdated.dispatchQueueTail]
      rcases hbusy with hfetching | ⟨k, hk⟩ | hqueue
      · exact absurd hfetching hmore
      · exact absurd ⟨k, (hupdated.rows k).occupied.trans hk⟩ hocc
      · exact hqueue
    have hlt := work_dispatchInstr_lt h₃.ledger.books hstarted hfree hqueue
    omega

end ProjectArchive.Tomasulo
