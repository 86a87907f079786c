/-
ProjectArchive/Tomasulo/Timeline.lean

The timeline of a run.

The front end of the pipeline is regular: `f` instructions are fetched in every
cycle until the trace ends, and each of them is dispatched in the cycle after its
fetch, whatever happens behind (`Paced`).  The rest is not: an instruction leaves
the dispatch queue when a row is free and no branch is waited for.  `Departs`
says when, for an unknown function `left` that never decreases in program order:
the instruction is looked at by `schedule_instr` in the cycle after that, and
`dispatch_queue_cumulative_size` counts the cycles in between for every
instruction, although it is computed from the lengths of the queue
(`littles_law`).
-/
import ProjectArchive.Tomasulo.Statistics

namespace ProjectArchive.Tomasulo

open Sweep

variable {conf : ProcConf} {prog : List TraceInst} {s s' : Proc conf} {qsort : Qsort conf}

/-! ### The front end -/

/-- The times of an instruction that has been fetched and dispatched. -/
def ProcConf.OnTime (conf : ProcConf) (inst : Inst) : Prop :=
  inst.fetch = inst.sequentialTag / conf.f ∧ inst.dispatch = inst.sequentialTag / conf.f + 1

/-- Before `stage` of a cycle, the instructions that have been fetched and those that have been
dispatched are known. -/
structure Paced (prog : List TraceInst) (stage : Stage) (s : Proc conf) : Prop where
  tail : s.dispatchQueueTail = min (stage.limit s.cycle .fetchInstr * conf.f) prog.length
  full : s.continueFetch = true →
    s.dispatchQueueTail = stage.limit s.cycle .fetchInstr * conf.f
  iterator : s.tempIterator = min ((stage.limit s.cycle .dispatchInstr - 1) * conf.f) prog.length
  fetched : ∀ (k : ℕ) (inst : Inst), s.dispatchQueue[k]? = some inst → inst.fetch = k / conf.f
  dispatched : ∀ (k : ℕ) (inst : Inst), k < s.tempIterator → s.dispatchQueue[k]? = some inst →
    inst.dispatch = k / conf.f + 1
  row : ∀ i, (s.scheduleQueue i).occupied = true → conf.OnTime (s.scheduleQueue i).instr
  result : ∀ r ∈ s.result, r.fetch = r.tag / conf.f ∧ r.dispatch = r.tag / conf.f + 1

theorem paced_setup (prog : List TraceInst) :
    Paced prog .updateState (setupProc conf prog) where
  tail := by
    show 0 = min (0 * conf.f) prog.length
    rw [Nat.zero_mul, Nat.zero_min]
  full := by
    intro _
    exact (Nat.zero_mul conf.f).symm
  iterator := by
    show 0 = min ((0 - 1) * conf.f) prog.length
    rw [Nat.zero_sub, Nat.zero_mul, Nat.zero_min]
  fetched := by
    intro k inst hget
    cases hget
  dispatched := by
    intro k inst _ hget
    cases hget
  row := by
    intro i hi
    cases hi
  result := by
    intro r hr
    cases hr

/-- The front end has not moved. -/
theorem Paced.congr {stage stage' : Stage} (h : Paced prog stage s)
    (hqueue : s'.dispatchQueue = s.dispatchQueue) (hiterator : s'.tempIterator = s.tempIterator)
    (hmore : s'.continueFetch = s.continueFetch)
    (hfetch : stage'.limit s'.cycle .fetchInstr = stage.limit s.cycle .fetchInstr)
    (hdispatch : stage'.limit s'.cycle .dispatchInstr = stage.limit s.cycle .dispatchInstr)
    (hrow : ∀ i, (s'.scheduleQueue i).occupied = true → conf.OnTime (s'.scheduleQueue i).instr)
    (hresult : ∀ r ∈ s'.result, r.fetch = r.tag / conf.f ∧ r.dispatch = r.tag / conf.f + 1) :
    Paced prog stage' s' where
  tail := by
    unfold Proc.dispatchQueueTail
    rw [hqueue, hfetch]
    exact h.tail
  full := by
    unfold Proc.dispatchQueueTail
    rw [hmore, hqueue, hfetch]
    exact h.full
  iterator := by
    rw [hiterator, hdispatch]
    exact h.iterator
  fetched := by
    rw [hqueue]
    exact h.fetched
  dispatched := by
    rw [hqueue, hiterator]
    exact h.dispatched
  row := hrow
  result := hresult

/-- A stage that leaves the books alone changes only later times. -/
theorem Paced.sameBooks {stage stage' : Stage} (h : Paced prog stage s) (hsame : SameBooks s s')
    (hfetch : stage'.limit s.cycle .fetchInstr = stage.limit s.cycle .fetchInstr)
    (hdispatch : stage'.limit s.cycle .dispatchInstr = stage.limit s.cycle .dispatchInstr)
    (hrow : ∀ i, (s'.scheduleQueue i).instr.fetch = (s.scheduleQueue i).instr.fetch ∧
      (s'.scheduleQueue i).instr.dispatch = (s.scheduleQueue i).instr.dispatch) :
    Paced prog stage' s' := by
  refine h.congr hsame.dispatchQueue hsame.tempIterator hsame.continueFetch
    (hsame.cycle ▸ hfetch) (hsame.cycle ▸ hdispatch) ?_ (hsame.result ▸ h.result)
  intro i hi
  rw [(hsame.rows i).occupied] at hi
  unfold ProcConf.OnTime
  rw [(hsame.rows i).tag, (hrow i).1, (hrow i).2]
  exact h.row i hi

theorem Paced.completeRow {stage : Stage} (h : Paced prog stage s)
    {i : Fin conf.scheduleQueueSize} (hfin : s.finished i = true) :
    Paced prog stage (s.completeRow i) ∧ (s.completeRow i).cycle = s.cycle := by
  have hrow := h.row i ((finished_eq_true s i).mp hfin).1
  have hkept : ∀ k, ((s.completeRow i).scheduleQueue k).occupied = true →
      conf.OnTime ((s.completeRow i).scheduleQueue k).instr := by
    intro k hk
    obtain ⟨src, update, lsConflictEnd, e, -⟩ := completeRow_get s i k
    rw [e] at hk ⊢
    exact h.row k hk
  obtain ⟨branchTable, ghr, e⟩ := s.completeRow_eq i
  rw [e] at hkept ⊢
  refine ⟨h.congr rfl rfl rfl rfl rfl hkept ?_, rfl⟩
  intro r hr
  rcases List.mem_append.mp hr with hold | hnew
  · exact h.result r hold
  · obtain rfl := List.mem_singleton.mp hnew
    exact hrow

theorem Paced.beginCycle (h : Paced prog .updateState s) :
    Paced prog .executeInstr s.beginCycle := by
  have hpass : Paced prog .updateState s.beginCycle ∧ s.beginCycle.cycle = s.cycle := by
    refine sweep_preserves
      (P := fun a : Proc conf => Paced prog .updateState a ∧ a.cycle = s.cycle)
      ⟨h.congr rfl rfl rfl rfl rfl h.row h.result, rfl⟩ ?_
    rintro i a ⟨ha, hcycle⟩
    unfold Proc.updateRow
    split
    · rename_i hfin
      obtain ⟨hrow, hsame⟩ := ha.completeRow hfin
      exact ⟨hrow, hsame.trans hcycle⟩
    · exact ⟨ha, hcycle⟩
  exact hpass.1.congr rfl rfl rfl rfl rfl hpass.1.row hpass.1.result

theorem Row.Executed.front {cycle : ℕ} {row row' : Row} (h : row.Executed cycle row') :
    row'.instr.fetch = row.instr.fetch ∧ row'.instr.dispatch = row.instr.dispatch := by
  unfold Row.Executed at h
  split at h
  · obtain ⟨t, rfl, -⟩ := h
    unfold Row.executing
    split
    · exact ⟨rfl, rfl⟩
    · exact ⟨rfl, rfl⟩
  · rw [h]
    exact ⟨rfl, rfl⟩

theorem Row.scheduling_front (row : Row) (cycle : ℕ) :
    (row.scheduling cycle).instr.fetch = row.instr.fetch ∧
      (row.scheduling cycle).instr.dispatch = row.instr.dispatch := by
  unfold Row.scheduling
  dsimp only
  split
  · exact ⟨rfl, rfl⟩
  · exact ⟨rfl, rfl⟩

theorem Row.Scheduled.front {cycle : ℕ} {row row' : Row} (h : row.Scheduled cycle row') :
    row'.instr.fetch = row.instr.fetch ∧ row'.instr.dispatch = row.instr.dispatch := by
  cases h with
  | passes _ => exact ⟨rfl, rfl⟩
  | waits _ _ => exact row.scheduling_front cycle
  | fires t u _ _ _ _ _ => exact row.scheduling_front cycle
  | leaks _ _ => exact row.scheduling_front cycle

/-- What was fetched in the last cycle is dispatched now. -/
theorem Paced.markDispatch (h : Paced prog .dispatchInstr s)
    (ht : Timed (Stage.limit .dispatchInstr s.cycle) s) :
    Paced prog .fetchInstr s.markDispatch := by
  have htail : s.dispatchQueueTail = min (s.cycle * conf.f) prog.length := h.tail
  have hbefore : s.tempIterator = min ((s.cycle - 1) * conf.f) prog.length := h.iterator
  have hiterator : s.markDispatch.tempIterator = s.dispatchQueueTail :=
    Nat.max_eq_right ht.iterator
  constructor
  case tail =>
    rw [s.markDispatch_tail]
    exact htail
  case full =>
    rw [s.markDispatch_tail]
    exact h.full
  case iterator =>
    rw [hiterator]
    exact htail
  case fetched =>
    intro k inst hget
    rw [s.markDispatch_get] at hget
    split at hget
    · exact h.fetched k inst hget
    · obtain ⟨inst', hget', rfl⟩ := Option.map_eq_some_iff.mp hget
      unfold Inst.marked
      split
      · exact h.fetched k inst' hget'
      · exact h.fetched k inst' hget'
  case dispatched =>
    intro k inst hlt hget
    rw [s.markDispatch_get] at hget
    split at hget
    · rename_i hk
      exact h.dispatched k inst hk hget
    · rename_i hk
      obtain ⟨inst', hget', rfl⟩ := Option.map_eq_some_iff.mp hget
      obtain ⟨hfirst, -⟩ := (ht.queue k inst' hget').fetched (Nat.le_of_not_lt hk)
      unfold Inst.marked
      rw [if_pos hfirst]
      -- the place `k` was filled in the cycle before
      rw [hiterator, htail] at hlt
      rw [hbefore] at hk
      have hf := conf.f_pos
      have hlo : (s.cycle - 1) * conf.f ≤ k := by omega
      have hhi : k < s.cycle * conf.f := by omega
      have hcycle : 0 < s.cycle := Nat.pos_of_mul_pos_right (Nat.zero_lt_of_lt hhi)
      have hdiv : k / conf.f = s.cycle - 1 := by
        refine Nat.div_eq_of_lt_le hlo ?_
        rwa [Nat.sub_add_cancel hcycle]
      show s.cycle = k / conf.f + 1
      omega
  case row => exact h.row
  case result => exact h.result

theorem Paced.placeRow (h : Paced prog .fetchInstr s) (hs : Books prog s)
    {i : Fin conf.scheduleQueueSize} {inst : Inst}
    (hget : s.dispatchQueue[s.dispatchQueueHead]? = some inst)
    (hiterator : s.tempIterator = s.dispatchQueueTail) :
    Paced prog .fetchInstr (s.placeRow i inst) := by
  have hlt : s.dispatchQueueHead < s.tempIterator := by
    rw [hiterator]
    exact (List.getElem?_eq_some_iff.mp hget).1
  have htag := hs.queueOk.tags _ _ hget
  have hinst : conf.OnTime inst := by
    unfold ProcConf.OnTime
    rw [htag]
    exact ⟨h.fetched _ _ hget, h.dispatched _ _ hlt hget⟩
  have hrow : ∀ k, ((s.placeRow i inst).scheduleQueue k).occupied = true →
      conf.OnTime ((s.placeRow i inst).scheduleQueue k).instr := by
    intro k hk
    rcases eq_or_ne k i with rfl | hne
    · rw [s.placeRow_self]
      exact hinst
    · rw [s.placeRow_of_ne inst hne] at hk ⊢
      exact h.row k hk
  rw [s.placeRow_eq] at hrow ⊢
  exact h.congr rfl rfl rfl rfl rfl hrow h.result

theorem Paced.dispatchInstr (h : Paced prog .dispatchInstr s) (hs : Books prog s)
    (ht : Timed (Stage.limit .dispatchInstr s.cycle) s) :
    Paced prog .fetchInstr s.dispatchInstr := by
  have hpass := (dispatchInstr_induction
    (P := fun a : Proc conf => Paced prog .fetchInstr a ∧ a.tempIterator = a.dispatchQueueTail)
    ?_ ?_ ?_ hs ?_).2
  · exact hpass.1
  · rintro a b ⟨ha, hiterator⟩
    exact ⟨ha.congr rfl rfl rfl rfl rfl ha.row ha.result, hiterator⟩
  · rintro a k _ ⟨ha, hiterator⟩ _
    exact ⟨ha.congr rfl rfl rfl rfl rfl ha.row ha.result, hiterator⟩
  · rintro a i inst hbooks ⟨ha, hiterator⟩ _ hget _
    refine ⟨ha.placeRow hbooks hget hiterator, ?_⟩
    rw [a.placeRow_eq]
    exact hiterator
  · refine ⟨h.markDispatch ht, ?_⟩
    rw [s.markDispatch_tail]
    exact Nat.max_eq_right ht.iterator

/-- The loop of `fetch_instr` reads as many instructions as there are. -/
theorem fetchLoop_reads {iterations : ℕ} {more : Bool} (hs : Books prog s)
    (h : Proc.fetchLoop iterations s = .ok (more, s')) :
    s'.dispatchQueueTail = min (s.dispatchQueueTail + iterations) prog.length ∧
      (more = true → s'.dispatchQueueTail = s.dispatchQueueTail + iterations) := by
  have htotal := hs.tail_add
  induction iterations generalizing s with
  | zero =>
      obtain ⟨rfl, rfl⟩ : true = more ∧ s = s' := by simpa [Proc.fetchLoop] using h
      exact ⟨by omega, fun _ => rfl⟩
  | succ iterations ih =>
      rcases htrace : s.trace with - | ⟨inst, trace⟩
      · rw [Proc.fetchLoop_nil htrace] at h
        obtain ⟨rfl, rfl⟩ : false = more ∧ s = s' := by simpa using h
        rw [htrace, List.length_nil] at htotal
        exact ⟨by omega, fun hmore => by cases hmore⟩
      · rw [Proc.fetchLoop_cons htrace] at h
        split at h
        · rename_i hlt
          have hnext := hs.fetchOne htrace hlt
          have htail : (s.fetchOne inst trace).dispatchQueueTail = s.dispatchQueueTail + 1 := by
            show (s.dispatchQueue ++ [s.fetched inst]).length = _
            rw [List.length_append]
            rfl
          obtain ⟨hmin, hall⟩ := ih hnext h hnext.tail_add
          rw [htail] at hmin hall
          exact ⟨by omega, fun hmore => by rw [hall hmore]; omega⟩
        · cases h

/-- It reads them in one cycle, and their places say which. -/
theorem fetchLoop_fetch {iterations : ℕ} {more : Bool}
    (h : Proc.fetchLoop iterations s = .ok (more, s'))
    (hlo : s.cycle * conf.f ≤ s.dispatchQueueTail)
    (hhi : s.dispatchQueueTail + iterations ≤ (s.cycle + 1) * conf.f)
    (hfetched : ∀ (k : ℕ) (inst : Inst), s.dispatchQueue[k]? = some inst → inst.fetch = k / conf.f)
    (k : ℕ) (inst : Inst) (hget : s'.dispatchQueue[k]? = some inst) : inst.fetch = k / conf.f := by
  induction iterations generalizing s with
  | zero =>
      obtain ⟨-, rfl⟩ : true = more ∧ s = s' := by simpa [Proc.fetchLoop] using h
      exact hfetched k inst hget
  | succ iterations ih =>
      rcases htrace : s.trace with - | ⟨inst', trace⟩
      · rw [Proc.fetchLoop_nil htrace] at h
        obtain ⟨-, rfl⟩ : false = more ∧ s = s' := by simpa using h
        exact hfetched k inst hget
      · rw [Proc.fetchLoop_cons htrace] at h
        split at h
        · have htail : (s.fetchOne inst' trace).dispatchQueueTail = s.dispatchQueueTail + 1 := by
            show (s.dispatchQueue ++ [s.fetched inst']).length = _
            rw [List.length_append]
            rfl
          refine ih h ?_ ?_ ?_
          · rw [htail]
            exact Nat.le_succ_of_le hlo
          · rw [htail]
            show s.dispatchQueueTail + 1 + iterations ≤ (s.cycle + 1) * conf.f
            omega
          · intro j inst₁ hj
            have hj' : (s.dispatchQueue ++ [s.fetched inst'])[j]? = some inst₁ := hj
            rw [List.getElem?_append] at hj'
            split at hj'
            · exact hfetched j inst₁ hj'
            · rename_i hge
              obtain ⟨hlast, rfl⟩ : j - s.dispatchQueue.length = 0 ∧ s.fetched inst' = inst₁ := by
                simpa [List.getElem?_singleton] using hj'
              have hj_eq : j = s.dispatchQueueTail := by
                show j = s.dispatchQueue.length
                omega
              rw [hj_eq]
              refine (Nat.div_eq_of_lt_le hlo ?_).symm
              omega
        · cases h

/-- What `fetch_instr` leaves alone. -/
theorem fetchStage_kept (hiterator : s.tempIterator ≤ s.dispatchQueueTail)
    (hfetch : s.fetchStage = .ok s') :
    s'.cycle = s.cycle ∧ s'.tempIterator = s.tempIterator ∧
      s'.scheduleQueue = s.scheduleQueue ∧ s'.result = s.result ∧
      ∀ k < s.tempIterator, s'.dispatchQueue[k]? = s.dispatchQueue[k]? := by
  have hpass := Proc.fetchStage_induction (P := fun a : Proc conf =>
    s.dispatchQueueTail ≤ a.dispatchQueueTail ∧ a.cycle = s.cycle ∧
      a.tempIterator = s.tempIterator ∧ a.scheduleQueue = s.scheduleQueue ∧
      a.result = s.result ∧ ∀ k < s.tempIterator, a.dispatchQueue[k]? = s.dispatchQueue[k]?)
    ?_ ?_ ⟨Nat.le_refl _, rfl, rfl, rfl, rfl, fun k hk => rfl⟩ hfetch
  · exact hpass.2
  · rintro a inst trace ⟨htail, hcycle, hsame, hrows, hresult, hqueue⟩ _ _
    refine ⟨?_, hcycle, hsame, hrows, hresult, fun k hk => ?_⟩
    · show s.dispatchQueueTail ≤ (a.dispatchQueue ++ [a.fetched inst]).length
      rw [List.length_append]
      exact Nat.le_add_right_of_le htail
    · rw [← hqueue k hk]
      exact List.getElem?_append_left ((hk.trans_le hiterator).trans_le htail)
  · rintro a more ha
    exact ha

theorem Paced.fetchStage (h : Paced prog .fetchInstr s) (hs : Books prog s)
    (hf : Fetching .fetchInstr s) (hiterator : s.tempIterator ≤ s.dispatchQueueTail)
    (hfetch : s.fetchStage = .ok s') : Paced prog .updateState2 s' := by
  obtain ⟨hcycle, hsame, hrows, hresult, hqueue⟩ := fetchStage_kept hiterator hfetch
  have htail : s.dispatchQueueTail = min (s.cycle * conf.f) prog.length := h.tail
  have hnew : s'.dispatchQueueTail = min ((s.cycle + 1) * conf.f) prog.length ∧
      (s'.continueFetch = true → s'.dispatchQueueTail = (s.cycle + 1) * conf.f) ∧
      ∀ (k : ℕ) (inst : Inst), s'.dispatchQueue[k]? = some inst → inst.fetch = k / conf.f := by
    have hsucc : (s.cycle + 1) * conf.f = s.cycle * conf.f + conf.f := Nat.succ_mul _ _
    unfold Proc.fetchStage at hfetch
    split at hfetch
    · rename_i hmore
      have hfull : s.dispatchQueueTail = s.cycle * conf.f := h.full hmore
      obtain ⟨⟨more, s₁⟩, hloop, hend⟩ := Exec.bind_eq_ok hfetch
      obtain rfl := Except.ok.inj hend
      obtain ⟨hmin, hall⟩ := fetchLoop_reads hs hloop
      rw [hfull, ← hsucc] at hmin hall
      have hroom : s.dispatchQueueTail + conf.f ≤ (s.cycle + 1) * conf.f := by
        rw [hfull, hsucc]
      have htimes := fetchLoop_fetch hloop hfull.ge hroom h.fetched
      exact ⟨hmin, hall, htimes⟩
    · rename_i hmore
      obtain rfl := Except.ok.inj hfetch
      have hdrained := hf.drained (Bool.eq_false_of_not_eq_true hmore)
      have htotal := hs.tail_add
      rw [hdrained, List.length_nil] at htotal
      refine ⟨?_, fun hmore' => absurd hmore' hmore, h.fetched⟩
      omega
  constructor
  case tail =>
    rw [hcycle]
    exact hnew.1
  case full =>
    rw [hcycle]
    exact hnew.2.1
  case iterator =>
    rw [hcycle, hsame]
    exact h.iterator
  case fetched => exact hnew.2.2
  case dispatched =>
    intro k inst hlt hget
    rw [hsame] at hlt
    rw [hqueue k hlt] at hget
    exact h.dispatched k inst hlt hget
  case row =>
    rw [hrows]
    exact h.row
  case result =>
    rw [hresult]
    exact h.result

theorem Paced.endCycle (h : Paced prog .updateState2 s) (hs : Books prog s) :
    Paced prog .updateState (s.endCycle qsort) := by
  obtain ⟨cumulativeSize, e⟩ := endCycle_eq qsort hs
  obtain ⟨σ, hσ⟩ := endCycle_reorders qsort hs
  have hrow : ∀ k, ((s.endCycle qsort).scheduleQueue k).occupied = true →
      conf.OnTime ((s.endCycle qsort).scheduleQueue k).instr := by
    intro k hk
    obtain ⟨hk', -, heq⟩ := hσ.stayed hk
    rw [heq]
    exact h.row (σ k) hk'
  rw [e] at hrow ⊢
  exact h.congr rfl rfl rfl rfl rfl hrow h.result

/-- The front end runs at the same pace in every run. -/
theorem Reached.paced {stage : Stage} (h : Reached conf qsort prog stage s) :
    Paced prog stage s := by
  refine h.invariant_of (fun stage s => Reached conf qsort prog stage s) (Paced prog) id
    (paced_setup prog) ?_
  intro stage s s' hreach hp hrun
  have hbooks := hreach.ledger.books
  cases stage with
  | updateState =>
      obtain rfl := Except.ok.inj hrun
      exact hp.beginCycle
  | executeInstr =>
      obtain rfl := Except.ok.inj hrun
      obtain ⟨hsame, hrows⟩ := executeInstr_same s
      exact hp.sameBooks hsame rfl rfl fun i => (hrows i).front
  | scheduleInstr =>
      obtain rfl := Except.ok.inj hrun
      obtain ⟨hsame, hrows⟩ := scheduleInstr_same s
      exact hp.sameBooks hsame rfl rfl fun i => (hrows i).front
  | dispatchInstr =>
      obtain rfl := Except.ok.inj hrun
      exact hp.dispatchInstr hbooks hreach.timed
  | fetchInstr =>
      exact hp.fetchStage hbooks hreach.fetching hreach.timed.iterator hrun
  | updateState2 =>
      obtain rfl := Except.ok.inj hrun
      exact hp.endCycle hbooks

/-! ### Leaving the dispatch queue -/

/-- When the instruction `k` leaves the queue, or the present cycle. -/
def Proc.departure (s : Proc conf) (left : ℕ → ℕ) (k : ℕ) : ℕ :=
  if k < s.dispatchQueueHead then left k else s.cycle

/-- The instruction `k` has left the queue in the cycle `left k`; the last of them in a cycle
before `dispatched`, and those that are still to be looked at in the one before `looked`. -/
structure Departs (looked dispatched : ℕ) (left : ℕ → ℕ) (s : Proc conf) : Prop where
  mono : ∀ j k, j ≤ k → k < s.dispatchQueueHead → left j ≤ left k
  lt : ∀ k < s.dispatchQueueHead, left k < dispatched
  fetched : ∀ k < s.dispatchQueueHead, k / conf.f < left k
  waiting : ∀ i, (s.scheduleQueue i).occupied = true →
    (s.scheduleQueue i).instr.scheduleFirst = true → left (s.tag i) + 1 = looked
  scheduled : ∀ i, (s.scheduleQueue i).occupied = true →
    (s.scheduleQueue i).instr.scheduleFirst = false →
      (s.scheduleQueue i).instr.schedule = left (s.tag i) + 1
  result : ∀ r ∈ s.result, r.schedule = left r.tag + 1
  size : s.dispatchQueueCumulativeSize =
    ∑ k ∈ Finset.range s.dispatchQueueTail, ((s.departure left k : ℤ) - (k / conf.f : ℕ))

theorem departs_setup (prog : List TraceInst) (left : ℕ → ℕ) :
    Departs 0 0 left (setupProc conf prog) where
  mono := by
    intro j k _ hk
    exact absurd hk (Nat.not_lt_zero k)
  lt := by
    intro k hk
    exact absurd hk (Nat.not_lt_zero k)
  fetched := by
    intro k hk
    exact absurd hk (Nat.not_lt_zero k)
  waiting := by
    intro i hi
    cases hi
  scheduled := by
    intro i hi
    cases hi
  result := by
    intro r hr
    cases hr
  size := rfl

section Departs

variable {looked dispatched : ℕ} {left : ℕ → ℕ}

/-- The queue has not moved. -/
theorem Departs.congr {looked' : ℕ} (h : Departs looked dispatched left s)
    (hqueue : s'.dispatchQueue = s.dispatchQueue)
    (hhead : s'.dispatchQueueHead = s.dispatchQueueHead) (hcycle : s'.cycle = s.cycle)
    (hsize : s'.dispatchQueueCumulativeSize = s.dispatchQueueCumulativeSize)
    (hwaiting : ∀ i, (s'.scheduleQueue i).occupied = true →
      (s'.scheduleQueue i).instr.scheduleFirst = true → left (s'.tag i) + 1 = looked')
    (hscheduled : ∀ i, (s'.scheduleQueue i).occupied = true →
      (s'.scheduleQueue i).instr.scheduleFirst = false →
        (s'.scheduleQueue i).instr.schedule = left (s'.tag i) + 1)
    (hresult : ∀ r ∈ s'.result, r.schedule = left r.tag + 1) :
    Departs looked' dispatched left s' where
  mono := by
    rw [hhead]
    exact h.mono
  lt := by
    rw [hhead]
    exact h.lt
  fetched := by
    rw [hhead]
    exact h.fetched
  waiting := hwaiting
  scheduled := hscheduled
  result := hresult
  size := by
    have hdeparture : s'.departure left = s.departure left := by
      funext k
      unfold Proc.departure
      rw [hhead, hcycle]
    unfold Proc.dispatchQueueTail
    rw [hsize, hqueue, hdeparture]
    exact h.size

theorem Departs.completeRow (h : Departs looked dispatched left s) {limit : Stage → ℕ}
    (ht : Timed limit s) {i : Fin conf.scheduleQueueSize} (hfin : s.finished i = true) :
    Departs looked dispatched left (s.completeRow i) := by
  obtain ⟨hocc, hfired, -⟩ := (finished_eq_true s i).mp hfin
  have hrow := h.scheduled i hocc ((ht.row i hocc).fired hfired)
  have hwaiting : ∀ k, ((s.completeRow i).scheduleQueue k).occupied = true →
      ((s.completeRow i).scheduleQueue k).instr.scheduleFirst = true →
        left ((s.completeRow i).tag k) + 1 = looked := by
    intro k
    obtain ⟨src, update, lsConflictEnd, e, -⟩ := completeRow_get s i k
    unfold Proc.tag
    rw [e]
    exact h.waiting k
  have hscheduled : ∀ k, ((s.completeRow i).scheduleQueue k).occupied = true →
      ((s.completeRow i).scheduleQueue k).instr.scheduleFirst = false →
        ((s.completeRow i).scheduleQueue k).instr.schedule =
          left ((s.completeRow i).tag k) + 1 := by
    intro k
    obtain ⟨src, update, lsConflictEnd, e, -⟩ := completeRow_get s i k
    unfold Proc.tag
    rw [e]
    exact h.scheduled k
  obtain ⟨branchTable, ghr, e⟩ := s.completeRow_eq i
  rw [e] at hwaiting hscheduled ⊢
  refine h.congr rfl rfl rfl rfl hwaiting hscheduled ?_
  intro r hr
  rcases List.mem_append.mp hr with hold | hnew
  · exact h.result r hold
  · obtain rfl := List.mem_singleton.mp hnew
    exact hrow

theorem Departs.beginCycle (h : Departs s.cycle s.cycle left s)
    (ht : Timed (Stage.limit .updateState s.cycle) s) :
    Departs s.cycle s.cycle left s.beginCycle := by
  have hpass : Departs s.cycle s.cycle left s.beginCycle ∧
      Timed (Stage.limit .updateState s.cycle) s.beginCycle ∧ s.beginCycle.cycle = s.cycle := by
    refine sweep_preserves (P := fun a : Proc conf => Departs s.cycle s.cycle left a ∧
      Timed (Stage.limit .updateState s.cycle) a ∧ a.cycle = s.cycle)
      ⟨h.congr rfl rfl rfl rfl h.waiting h.scheduled h.result,
        ⟨ht.row, ht.queue, ht.iterator, ht.result⟩, rfl⟩ ?_
    rintro i a ⟨ha, hta, hcycle⟩
    unfold Proc.updateRow
    split
    · rename_i hfin
      refine ⟨ha.completeRow hta hfin, hta.completeRow hfin hcycle.ge, ?_⟩
      obtain ⟨branchTable, ghr, e⟩ := a.completeRow_eq i
      rw [e]
      exact hcycle
    · exact ⟨ha, hta, hcycle⟩
  exact hpass.1

theorem Row.Executed.schedule {cycle : ℕ} {row row' : Row} (h : row.Executed cycle row') :
    row'.instr.scheduleFirst = row.instr.scheduleFirst ∧
      row'.instr.schedule = row.instr.schedule := by
  unfold Row.Executed at h
  split at h
  · obtain ⟨t, rfl, -⟩ := h
    unfold Row.executing
    split
    · exact ⟨rfl, rfl⟩
    · exact ⟨rfl, rfl⟩
  · rw [h]
    exact ⟨rfl, rfl⟩

theorem Departs.executeInstr (h : Departs looked dispatched left s) :
    Departs looked dispatched left s.executeInstr := by
  obtain ⟨hsame, hrows⟩ := executeInstr_same s
  refine h.congr hsame.dispatchQueue hsame.dispatchQueueHead hsame.cycle
    (congrArg Tally.cumulativeSize (executeInstr_tally s)) ?_ ?_ (hsame.result ▸ h.result)
  · intro i
    rw [(hsame.rows i).occupied, (hrows i).schedule.1, hsame.tag]
    exact h.waiting i
  · intro i
    rw [(hsame.rows i).occupied, (hrows i).schedule.1, (hrows i).schedule.2, hsame.tag]
    exact h.scheduled i

/-- A row that `schedule_instr` has passed has been looked at. -/
theorem Row.Scheduled.schedule {cycle : ℕ} {row row' : Row} (h : row.Scheduled cycle row')
    (hocc : row.occupied = true) (hfired : row.fired = true → row.instr.scheduleFirst = false) :
    row'.instr.scheduleFirst = false ∧ row'.instr.schedule =
      if row.instr.scheduleFirst then cycle else row.instr.schedule := by
  have hlooked : (row.scheduling cycle).instr.scheduleFirst = false ∧
      (row.scheduling cycle).instr.schedule =
        if row.instr.scheduleFirst then cycle else row.instr.schedule := by
    unfold Row.scheduling
    rcases hfirst : row.instr.scheduleFirst with - | -
    · exact ⟨hfirst, rfl⟩
    · exact ⟨rfl, rfl⟩
  cases h with
  | passes hpass =>
      have hfirst := hfired (hpass.resolve_left (by simp [hocc]))
      refine ⟨hfirst, ?_⟩
      rw [hfirst]
      rfl
  | waits _ _ => exact hlooked
  | fires t u _ _ _ _ _ => exact hlooked
  | leaks _ _ => exact hlooked

theorem Departs.scheduleInstr {looked' : ℕ} (h : Departs s.cycle dispatched left s)
    {limit : Stage → ℕ} (ht : Timed limit s) :
    Departs looked' dispatched left s.scheduleInstr := by
  obtain ⟨hsame, hrows⟩ := scheduleInstr_same s
  have hschedule : ∀ i, (s.scheduleInstr.scheduleQueue i).occupied = true →
      (s.scheduleQueue i).occupied = true ∧
        (s.scheduleInstr.scheduleQueue i).instr.scheduleFirst = false ∧
        (s.scheduleInstr.scheduleQueue i).instr.schedule =
          if (s.scheduleQueue i).instr.scheduleFirst then s.cycle
          else (s.scheduleQueue i).instr.schedule := by
    intro i hi
    rw [(hsame.rows i).occupied] at hi
    exact ⟨hi, (hrows i).schedule hi (ht.row i hi).fired⟩
  refine h.congr hsame.dispatchQueue hsame.dispatchQueueHead hsame.cycle
    (congrArg Tally.cumulativeSize (scheduleInstr_tally s)) ?_ ?_ (hsame.result ▸ h.result)
  · intro i hi hfirst
    rw [(hschedule i hi).2.1] at hfirst
    cases hfirst
  · intro i hi _
    obtain ⟨hocc, -, htime⟩ := hschedule i hi
    rw [htime, hsame.tag]
    rcases hfirst : (s.scheduleQueue i).instr.scheduleFirst with - | -
    · exact h.scheduled i hocc hfirst
    · exact (h.waiting i hocc hfirst).symm

/-- The head of the queue moves on, and those that it passes leave in this cycle. -/
theorem Departs.moves (h : Departs (s.cycle + 1) (s.cycle + 1) left s) (hs : Books prog s)
    (htail : s.dispatchQueueTail ≤ s.cycle * conf.f)
    (hqueue : s'.dispatchQueue = s.dispatchQueue)
    (hhead : s.dispatchQueueHead ≤ s'.dispatchQueueHead)
    (hhead' : s'.dispatchQueueHead ≤ s.dispatchQueueTail) (hcycle : s'.cycle = s.cycle)
    (hsize : s'.dispatchQueueCumulativeSize = s.dispatchQueueCumulativeSize)
    (hresult : s'.result = s.result)
    (hrow : ∀ i, (s'.scheduleQueue i).occupied = true →
      (s'.tag i = s.dispatchQueueHead ∧ (s'.scheduleQueue i).instr.scheduleFirst = true) ∨
        (s.scheduleQueue i).occupied = true ∧ s'.scheduleQueue i = s.scheduleQueue i) :
    Departs (s.cycle + 1) (s.cycle + 1) (s.departure left) s' := by
  have hbefore : ∀ {k}, k < s.dispatchQueueHead → s.departure left k = left k :=
    fun hk => if_pos hk
  have hafter : ∀ {k}, ¬ k < s.dispatchQueueHead → s.departure left k = s.cycle :=
    fun hk => if_neg hk
  have hle : ∀ k, s.departure left k ≤ s.cycle := by
    intro k
    by_cases hk : k < s.dispatchQueueHead
    · rw [hbefore hk]
      exact Nat.le_of_lt_succ (h.lt k hk)
    · rw [hafter hk]
  have htag : ∀ i, (s.scheduleQueue i).occupied = true → s.departure left (s.tag i) = left (s.tag i) :=
    fun i hi => hbefore (hs.rowsOk.row i hi).lt
  constructor
  case mono =>
    intro j k hjk hk
    by_cases hk' : k < s.dispatchQueueHead
    · rw [hbefore hk', hbefore (hjk.trans_lt hk')]
      exact h.mono j k hjk hk'
    · rw [hafter hk']
      exact hle j
  case lt => exact fun k _ => Nat.lt_succ_of_le (hle k)
  case fetched =>
    intro k hk
    by_cases hk' : k < s.dispatchQueueHead
    · rw [hbefore hk']
      exact h.fetched k hk'
    · rw [hafter hk']
      refine Nat.div_lt_of_lt_mul ?_
      rw [Nat.mul_comm]
      exact (hk.trans_le hhead').trans_le htail
  case waiting =>
    intro i hi hfirst
    rcases hrow i hi with ⟨htag_eq, -⟩ | ⟨hocc, heq⟩
    · rw [htag_eq, hafter (Nat.lt_irrefl _)]
    · rw [Proc.tag_congr heq, htag i hocc]
      rw [heq] at hfirst
      exact h.waiting i hocc hfirst
  case scheduled =>
    intro i hi hfirst
    rcases hrow i hi with ⟨-, hfirst'⟩ | ⟨hocc, heq⟩
    · rw [hfirst'] at hfirst
      cases hfirst
    · rw [Proc.tag_congr heq, htag i hocc]
      rw [heq] at hfirst ⊢
      exact h.scheduled i hocc hfirst
  case result =>
    intro r hr
    rw [hresult] at hr
    have hlt := (hs.rowsOk.completed r.tag (List.mem_map_of_mem hr)).1
    rw [hbefore hlt]
    exact h.result r hr
  case size =>
    have hdeparture : s'.departure (s.departure left) = s.departure left := by
      funext k
      unfold Proc.departure
      rw [hcycle]
      split
      · rfl
      · rename_i hk
        rw [if_neg fun hk' => hk (hk'.trans_le hhead)]
    unfold Proc.dispatchQueueTail
    rw [hsize, hqueue, hdeparture]
    exact h.size

theorem Departs.dispatchInstr (h : Departs (s.cycle + 1) s.cycle left s) (hs : Books prog s)
    (htail : s.dispatchQueueTail ≤ s.cycle * conf.f)
    (ht : Timed (Stage.limit .dispatchInstr s.cycle) s) :
    ∃ left', Departs (s.cycle + 1) (s.cycle + 1) left' s.dispatchInstr := by
  have hpass := (dispatchInstr_induction (P := fun a : Proc conf => a.cycle = s.cycle ∧
    a.dispatchQueueTail = s.dispatchQueueTail ∧
      (∀ inst ∈ a.dispatchQueue, inst.scheduleFirst = true) ∧
        ∃ left', Departs (s.cycle + 1) (s.cycle + 1) left' a) ?_ ?_ ?_ hs ?_).2
  · exact hpass.2.2.2
  · rintro a b ⟨hcycle, hsame, hfirst, left', ha⟩
    exact ⟨hcycle, hsame, hfirst, left', ha.congr rfl rfl rfl rfl ha.waiting ha.scheduled ha.result⟩
  · rintro a k hbooks ⟨hcycle, hsame, hfirst, left', ha⟩ hnops
    refine ⟨hcycle, hsame, hfirst, a.departure left', ?_⟩
    rw [← hcycle] at ha htail ⊢
    rw [← hsame] at htail
    exact ha.moves hbooks htail rfl (Nat.le_add_right _ _) (hbooks.skip hnops).queueOk.size.1 rfl rfl
      rfl fun i hi => .inr ⟨hi, rfl⟩
  · rintro a i inst hbooks ⟨hcycle, hsame, hfirst, left', ha⟩ hfree hget hop
    have hnew : ∀ j, ((a.placeRow i inst).scheduleQueue j).occupied = true →
        ((a.placeRow i inst).tag j = a.dispatchQueueHead ∧
          ((a.placeRow i inst).scheduleQueue j).instr.scheduleFirst = true) ∨
        (a.scheduleQueue j).occupied = true ∧
          (a.placeRow i inst).scheduleQueue j = a.scheduleQueue j := by
      intro j hj
      rcases eq_or_ne j i with rfl | hne
      · refine .inl ⟨placeRow_tag hbooks.queueOk hget, ?_⟩
        rw [a.placeRow_self]
        exact hfirst inst (List.mem_of_getElem? hget)
      · have heq := a.placeRow_of_ne inst hne
        rw [heq] at hj
        exact .inr ⟨hj, heq⟩
    have hlt : a.dispatchQueueHead < a.dispatchQueueTail := (List.getElem?_eq_some_iff.mp hget).1
    rw [← hcycle] at ha htail ⊢
    rw [← hsame] at htail
    rw [a.placeRow_eq] at hnew ⊢
    exact ⟨rfl, hsame, hfirst, a.departure left', ha.moves hbooks htail rfl (Nat.le_succ _) hlt rfl
      rfl rfl hnew⟩
  · refine ⟨rfl, s.markDispatch_tail, ?_, left, ?_⟩
    · intro inst hinst
      obtain ⟨k, hget⟩ := List.mem_iff_getElem?.mp hinst
      rw [s.markDispatch_get] at hget
      split at hget
      · exact (ht.queue k inst hget).scheduleFirst
      · obtain ⟨inst', hget', rfl⟩ := Option.map_eq_some_iff.mp hget
        obtain ⟨dispatchFirst, dispatch, e⟩ := inst'.marked_eq s.cycle
        rw [e]
        exact (ht.queue k inst' hget').scheduleFirst
    · refine ⟨h.mono, fun k hk => Nat.lt_succ_of_lt (h.lt k hk), h.fetched, h.waiting, h.scheduled,
        h.result, ?_⟩
      rw [s.markDispatch_tail]
      exact h.size

/-- What is fetched in this cycle has not waited yet. -/
theorem Departs.fetchStage (h : Departs looked dispatched left s) (hs : Books prog s)
    (hp : Paced prog .fetchInstr s) (hp' : Paced prog .updateState2 s')
    (hiterator : s.tempIterator ≤ s.dispatchQueueTail) (hfetch : s.fetchStage = .ok s') :
    Departs looked dispatched left s' := by
  obtain ⟨hcycle, -, hrows, hresult, -⟩ := fetchStage_kept hiterator hfetch
  have hhead : s'.dispatchQueueHead = s.dispatchQueueHead :=
    Proc.fetchStage_induction (P := fun a => a.dispatchQueueHead = s.dispatchQueueHead)
      (fun a inst trace ha _ _ => ha) (fun a more ha => ha) rfl hfetch
  have hsize : s'.dispatchQueueCumulativeSize = s.dispatchQueueCumulativeSize :=
    Proc.fetchStage_induction
      (P := fun a => a.dispatchQueueCumulativeSize = s.dispatchQueueCumulativeSize)
      (fun a inst trace ha _ _ => ha) (fun a more ha => ha) rfl hfetch
  have htag : s'.tag = s.tag := by
    unfold Proc.tag
    rw [hrows]
  have htail : s.dispatchQueueTail = min (s.cycle * conf.f) prog.length := hp.tail
  have htail' : s'.dispatchQueueTail = min ((s.cycle + 1) * conf.f) prog.length := by
    rw [← hcycle]
    exact hp'.tail
  have hsucc : (s.cycle + 1) * conf.f = s.cycle * conf.f + conf.f := Nat.succ_mul _ _
  constructor
  case mono =>
    rw [hhead]
    exact h.mono
  case lt =>
    rw [hhead]
    exact h.lt
  case fetched =>
    rw [hhead]
    exact h.fetched
  case waiting =>
    rw [hrows, htag]
    exact h.waiting
  case scheduled =>
    rw [hrows, htag]
    exact h.scheduled
  case result =>
    rw [hresult]
    exact h.result
  case size =>
    have hdeparture : s'.departure left = s.departure left := by
      funext k
      unfold Proc.departure
      rw [hhead, hcycle]
    have hnew : ∀ k, s.dispatchQueueTail ≤ k → k < s'.dispatchQueueTail →
        (s.departure left k : ℤ) - (k / conf.f : ℕ) = 0 := by
      intro k hlo hhi
      have hsize := hs.queueOk.size.1
      have hdiv : k / conf.f = s.cycle := by
        refine Nat.div_eq_of_lt_le ?_ ?_
        · omega
        · omega
      have hk' : ¬ k < s.dispatchQueueHead := Nat.not_lt.mpr (hsize.trans hlo)
      unfold Proc.departure
      rw [if_neg hk', hdiv, Int.sub_self]
    have hle : s.dispatchQueueTail ≤ s'.dispatchQueueTail := by omega
    obtain ⟨m, hm⟩ := Nat.exists_eq_add_of_le hle
    have hlater : ∑ k ∈ Finset.range m, ((s.departure left (s.dispatchQueueTail + k) : ℤ) -
        ((s.dispatchQueueTail + k) / conf.f : ℕ)) = 0 := by
      refine Finset.sum_eq_zero fun k hk => hnew _ (Nat.le_add_right _ _) ?_
      rw [hm]
      exact Nat.add_lt_add_left (Finset.mem_range.mp hk) _
    rw [hsize, h.size, hdeparture, hm, Finset.sum_range_add, hlater, Int.add_zero]

/-- At the end of a cycle, everything in the queue has waited for one more. -/
theorem Departs.endCycle (h : Departs looked dispatched left s) (hs : Books prog s) :
    Departs looked dispatched left (s.endCycle qsort) := by
  have hcumulative : (s.endCycle qsort).dispatchQueueCumulativeSize =
      s.dispatchQueueCumulativeSize + s.dispatchQueueSize :=
    congrArg Tally.cumulativeSize (endCycle_tally hs)
  obtain ⟨cumulativeSize, e⟩ := endCycle_eq qsort hs
  obtain ⟨σ, hσ⟩ := endCycle_reorders qsort hs
  constructor
  case mono =>
    rw [e]
    exact h.mono
  case lt =>
    rw [e]
    exact h.lt
  case fetched =>
    rw [e]
    exact h.fetched
  case waiting =>
    intro i hi hfirst
    obtain ⟨hi', -, heq⟩ := hσ.stayed hi
    rw [heq] at hfirst
    rw [hσ.tag hi]
    exact h.waiting (σ i) hi' hfirst
  case scheduled =>
    intro i hi hfirst
    obtain ⟨hi', -, heq⟩ := hσ.stayed hi
    rw [heq] at hfirst ⊢
    rw [hσ.tag hi]
    exact h.scheduled (σ i) hi' hfirst
  case result =>
    rw [e]
    exact h.result
  case size =>
    have hkept : (s.endCycle qsort).dispatchQueueTail = s.dispatchQueueTail ∧
        (s.endCycle qsort).dispatchQueueHead = s.dispatchQueueHead ∧
        (s.endCycle qsort).cycle = s.cycle + 1 := by
      rw [e]
      exact ⟨rfl, rfl, rfl⟩
    obtain ⟨hle, hlen⟩ := hs.queueOk.size
    have hone : ∀ k, ((s.endCycle qsort).departure left k : ℤ) - (k / conf.f : ℕ) =
        ((s.departure left k : ℤ) - (k / conf.f : ℕ)) +
          if k < s.dispatchQueueHead then 0 else 1 := by
      intro k
      unfold Proc.departure
      rw [hkept.2.1, hkept.2.2]
      split
      · omega
      · omega
    have hwaits : ∑ k ∈ Finset.range s.dispatchQueueTail,
        (if k < s.dispatchQueueHead then (0 : ℤ) else 1) =
          (s.dispatchQueueTail : ℤ) - s.dispatchQueueHead := by
      obtain ⟨m, hm⟩ := Nat.exists_eq_add_of_le hle
      rw [hm, Finset.sum_range_add, Finset.sum_eq_zero fun k hk =>
        if_pos (Finset.mem_range.mp hk), Finset.sum_congr rfl fun k _ =>
        if_neg (Nat.not_lt.mpr (Nat.le_add_right _ k)), Finset.sum_const, Finset.card_range]
      simp
    rw [hcumulative, hkept.1, Finset.sum_congr rfl fun k _ => hone k, Finset.sum_add_distrib,
      ← h.size, hwaits, hlen]

end Departs

/-- Every run has such a function. -/
theorem Reached.departs {stage : Stage} (h : Reached conf qsort prog stage s) :
    ∃ left, Departs (stage.limit s.cycle .scheduleInstr) (stage.limit s.cycle .dispatchInstr)
      left s := by
  refine h.invariant_of (fun stage s => Reached conf qsort prog stage s)
    (fun stage s => ∃ left, Departs (stage.limit s.cycle .scheduleInstr)
      (stage.limit s.cycle .dispatchInstr) left s) id ⟨id, departs_setup prog id⟩ ?_
  rintro stage s s' hreach ⟨left, hd⟩ hrun
  have hbooks := hreach.ledger.books
  have htimed := hreach.timed
  have hpaced := hreach.paced
  cases stage with
  | updateState =>
      obtain rfl := Except.ok.inj hrun
      have hcycle := (htimed.beginCycle (Nat.le_refl _)).2
      refine ⟨left, ?_⟩
      rw [hcycle]
      exact Departs.beginCycle hd htimed
  | executeInstr =>
      obtain rfl := Except.ok.inj hrun
      refine ⟨left, ?_⟩
      rw [(executeInstr_same s).1.cycle]
      exact hd.executeInstr
  | scheduleInstr =>
      obtain rfl := Except.ok.inj hrun
      refine ⟨left, ?_⟩
      rw [(scheduleInstr_same s).1.cycle]
      exact Departs.scheduleInstr hd htimed
  | dispatchInstr =>
      obtain rfl := Except.ok.inj hrun
      have hcycle := (htimed.dispatchInstr hbooks (Stage.limit_le_next (by decide) _)
        (Nat.le_refl _) (Nat.lt_succ_self _)).2
      have htail : s.dispatchQueueTail ≤ s.cycle * conf.f :=
        hpaced.tail.trans_le (Nat.min_le_left _ _)
      rw [hcycle]
      exact Departs.dispatchInstr hd hbooks htail htimed
  | fetchInstr =>
      have hpaced' := hpaced.fetchStage hbooks hreach.fetching htimed.iterator hrun
      have hcycle := (fetchStage_kept htimed.iterator hrun).1
      refine ⟨left, ?_⟩
      rw [hcycle]
      exact Departs.fetchStage hd hbooks hpaced hpaced' htimed.iterator hrun
  | updateState2 =>
      obtain rfl := Except.ok.inj hrun
      have hcycle := (htimed.endCycle hbooks qsort).2
      refine ⟨left, ?_⟩
      rw [hcycle]
      exact Departs.endCycle hd hbooks

/-! ### The end of a run -/

/-- Nothing is left to do, so the queue is empty. -/
theorem head_of_not_busy (hs : Books prog s) (hf : Fetching .updateState s) (h : ¬ Busy s) :
    s.dispatchQueueHead = prog.length ∧ s.dispatchQueueTail = prog.length := by
  unfold Busy at h
  simp only [not_or, not_exists, not_not] at h
  obtain ⟨hmore, -, hempty⟩ := h
  have htotal := hs.tail_add
  rw [hf.drained (Bool.eq_false_of_not_eq_true hmore), List.length_nil] at htotal
  exact ⟨hempty.trans htotal, htotal⟩

/-- **Little's law for the dispatch queue.**  The lengths of the queue, added up over the cycles
of a run, are the cycles that the instructions have spent in it, added up over the instructions:
at least the sum of `schedule - 1 - fetch` over `result`, and exactly that when the trace has no
NOPs, which `result` does not record. -/
theorem littles_law (conf : ProcConf) (qsort : Qsort conf) (prog : List TraceInst)
    (hlen : prog.length < dqDataStructureSize) :
    ∃ s, (∃ N, ∀ fuel, N ≤ fuel → runProc conf qsort prog fuel = .ok (some s)) ∧
      (s.result.map fun r => (r.schedule : ℤ) - 1 - r.fetch).sum ≤ s.dispatchQueueCumulativeSize ∧
      ((∀ inst ∈ prog, inst.opcode ≠ .nop) →
        s.dispatchQueueCumulativeSize =
          (s.result.map fun r => (r.schedule : ℤ) - 1 - r.fetch).sum) := by
  have hok : ∀ s, Reached conf qsort prog .fetchInstr s → ∃ s', s.fetchStage = .ok s' :=
    fun s hs => fetchStage_ok hlen hs.ledger.books
  obtain ⟨s, ⟨N, hN⟩, hreach, hidle⟩ := run_ends hok
  have hbooks := hreach.ledger.books
  have hcompleted := completed_of_not_busy hbooks hreach.fetching hidle
  obtain ⟨hhead, htail⟩ := head_of_not_busy hbooks hreach.fetching hidle
  obtain ⟨left, hleft⟩ := hreach.departs
  have hsize : s.dispatchQueueCumulativeSize =
      ∑ k ∈ Finset.range prog.length, ((left k : ℤ) - (k / conf.f : ℕ)) := by
    rw [hleft.size, htail]
    refine Finset.sum_congr rfl fun k hk => ?_
    unfold Proc.departure
    rw [hhead, if_pos (Finset.mem_range.mp hk)]
  have hsum : (s.result.map fun r => (r.schedule : ℤ) - 1 - r.fetch).sum =
      ∑ k ∈ (s.result.map ResultRow.tag).toFinset, ((left k : ℤ) - (k / conf.f : ℕ)) := by
    rw [List.sum_toFinset _ hbooks.rowsOk.nodup, List.map_map]
    congr 1
    refine List.map_congr_left fun r hr => ?_
    show (r.schedule : ℤ) - 1 - r.fetch = (left r.tag : ℤ) - (r.tag / conf.f : ℕ)
    rw [hleft.result r hr, (hreach.paced.result r hr).1]
    omega
  have hsubset : (s.result.map ResultRow.tag).toFinset ⊆ Finset.range prog.length := by
    intro k hk
    rw [Finset.mem_range, ← hhead]
    exact (hbooks.rowsOk.completed k (List.mem_toFinset.mp hk)).1
  refine ⟨{ s with stats := { s.stats with cycleCount := s.stats.cycleCount - 1 } }, ⟨N, ?_⟩,
    ?_, ?_⟩
  · intro fuel hfuel
    unfold runProc
    rw [hN fuel hfuel]
    rfl
  · show (s.result.map fun r => (r.schedule : ℤ) - 1 - r.fetch).sum ≤
      s.dispatchQueueCumulativeSize
    rw [hsum, hsize]
    refine Finset.sum_le_sum_of_subset_of_nonneg hsubset fun k hk _ => ?_
    have hwait := hleft.fetched k (hhead ▸ Finset.mem_range.mp hk)
    omega
  · intro hissue
    show s.dispatchQueueCumulativeSize =
      (s.result.map fun r => (r.schedule : ℤ) - 1 - r.fetch).sum
    have hall : Finset.range prog.length ⊆ (s.result.map ResultRow.tag).toFinset := by
      intro k hk
      have hlt := Finset.mem_range.mp hk
      exact List.mem_toFinset.mpr ((hcompleted k).mpr
        ⟨prog[k], List.getElem?_eq_getElem hlt, hissue _ (List.getElem_mem hlt)⟩)
    rw [hsum, hsize, Finset.Subset.antisymm hsubset hall]

/-- The three instructions of a trace without NOPs. -/
theorem littles_law_loadBranchStore : ∃ s : Proc smallConf,
    (∃ N, ∀ fuel, N ≤ fuel →
      runProc smallConf (keepOrder smallConf) (loadBranchStore 1) fuel = .ok (some s)) ∧
      s.dispatchQueueCumulativeSize =
        (s.result.map fun r => (r.schedule : ℤ) - 1 - r.fetch).sum := by
  obtain ⟨s, hreturns, -, hexact⟩ := littles_law smallConf (keepOrder smallConf)
    (loadBranchStore 1) (by decide)
  exact ⟨s, hreturns, hexact (by decide)⟩

end ProjectArchive.Tomasulo
