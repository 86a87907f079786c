/-
ProjectArchive/Tomasulo/MemoryOrder.lean

Loads and stores of one address, of which at least one is a store, access the
cache in program order.

A load or store is not fired while an older row with its address has
`ls_conflict_end` set.  The flag is set when a row is looked at, so it can be
relied on for the rows that `schedule_instr` has passed already, and for those
that were fired before; it is cleared when the row is completed.  Since the rows
stand in program order, the older ones have been passed.
-/
import ProjectArchive.Tomasulo.Marks
import ProjectArchive.Tomasulo.SortedQueue

namespace ProjectArchive.Tomasulo

open Sweep EventLog Loop

variable {conf : ProcConf} {prog : List TraceInst} {s s' : Proc conf} {qsort : Qsort conf}

/-! ### Fired rows are guarded -/

/-- A row that has been fired and is not completed has `ls_conflict_end` set. -/
def Guarded (s : Proc conf) : Prop :=
  ∀ k, (s.scheduleQueue k).occupied = true → (s.scheduleQueue k).fired = true →
    ¬ s.Completed (s.tag k) → (s.scheduleQueue k).lsConflictEnd = true

theorem guarded_setup (trace : List TraceInst) : Guarded (setupProc conf trace) := by
  intro k hk
  cases hk

theorem Guarded.congr (h : Guarded s) (hrows : s'.scheduleQueue = s.scheduleQueue)
    (hresult : s'.result = s.result) : Guarded s' := by
  intro k hk hfired hnot
  rw [Proc.completed_congr hresult, Proc.tag_congr (congrFun hrows k)] at hnot
  rw [hrows] at hk hfired ⊢
  exact h k hk hfired hnot

theorem Guarded.completeRow (h : Guarded s) {i : Fin conf.scheduleQueueSize} :
    Guarded (s.completeRow i) := by
  intro k hk hfired hnot
  obtain ⟨hsame, hfired', -⟩ := completeRow_row s i k
  rw [hsame.occupied] at hk
  rw [hfired'] at hfired
  rw [completeRow_completed, show (s.completeRow i).tag k = s.tag k from hsame.tag] at hnot
  have hki : k ≠ i := by
    rintro rfl
    exact hnot (.inr rfl)
  obtain ⟨src, update, lsConflictEnd, e, -, hflag⟩ := completeRow_get s i k
  rw [e]
  exact (hflag hki).trans (h k hk hfired fun hc => hnot (.inl hc))

theorem Guarded.executeRow (h : Guarded s) (i : Fin conf.scheduleQueueSize) :
    Guarded (s.executeRow i) := by
  obtain ⟨hsame, hrow, hothers⟩ := executeRow_same i s
  intro k hk hfired hnot
  rw [hsame.completed, hsame.tag] at hnot
  rcases eq_or_ne k i with rfl | hki
  · rw [(hsame.rows k).occupied] at hk
    unfold Row.Executed at hrow
    split at hrow
    · rename_i hguard
      obtain ⟨t, hrow, -⟩ := hrow
      rw [hrow]
      exact (Row.executing_lsConflictEnd _ _).trans (h k hk hguard.2 hnot)
    · rw [hrow] at hfired ⊢
      exact h k hk hfired hnot
  · rw [hothers k hki] at hk hfired ⊢
    exact h k hk hfired hnot

/-- `schedule_instr` sets the flag of every row that it changes. -/
theorem Row.Scheduled.lsConflictEnd {cycle : ℕ} {row row' : Row} (h : row.Scheduled cycle row')
    (hrow : row.occupied = true → row.fired = true → row.lsConflictEnd = true)
    (hocc : row.occupied = true) : row'.lsConflictEnd = true := by
  cases h with
  | passes hpass =>
      rcases hpass with hfree | hfired
      · rw [hocc] at hfree
        cases hfree
      · exact hrow hocc hfired
  | waits => rfl
  | fires => rfl
  | leaks => rfl

theorem Guarded.scheduleRow (h : Guarded s) (i : Fin conf.scheduleQueueSize) :
    Guarded (s.scheduleRow i) := by
  obtain ⟨hsame, hrow, hothers⟩ := scheduleRow_same i s
  intro k hk hfired hnot
  rw [hsame.completed, hsame.tag] at hnot
  rw [(hsame.rows k).occupied] at hk
  rcases eq_or_ne k i with rfl | hki
  · exact hrow.lsConflictEnd (fun hocc hf => h k hocc hf hnot) hk
  · rw [hothers k hki] at hfired ⊢
    exact h k hk hfired hnot

theorem Guarded.placeRow (h : Guarded s) (hs : Books prog s) {i : Fin conf.scheduleQueueSize}
    {inst : Inst} (hfree : (s.scheduleQueue i).occupied = false) :
    Guarded (s.placeRow i inst) := by
  intro k hk hfired hnot
  rw [placeRow_completed] at hnot
  rcases eq_or_ne k i with rfl | hki
  · -- a row that is filled has not been fired
    rw [s.placeRow_self] at hfired
    have hidle : (s.scheduleQueue k).fired = true := hfired
    rw [hs.rowsOk.idle k hfree] at hidle
    cases hidle
  · rw [placeRow_tag_of_ne inst hki] at hnot
    rw [s.placeRow_of_ne inst hki] at hk hfired ⊢
    exact h k hk hfired hnot

theorem Guarded.endCycle (h : Guarded s) (hs : Books prog s) : Guarded (s.endCycle qsort) := by
  obtain ⟨σ, hσ⟩ := endCycle_reorders qsort hs
  intro k hk hfired _
  obtain ⟨hk', hnot, heq⟩ := hσ.stayed hk
  rw [heq] at hfired ⊢
  exact h (σ k) hk' hfired hnot

theorem Guarded.step (h : Guarded s) (hs : Books prog s) (hstep : Step qsort s s') :
    Guarded s' := by
  cases hstep with
  | locals e => exact h.congr (by rw [e]) (by rw [e])
  | completes i _ _ => exact h.completeRow
  | executes i _ _ => exact h.executeRow i
  | schedules i => exact h.scheduleRow i
  | marks => exact h.congr rfl rfl
  | skips k _ => exact h.congr rfl rfl
  | places i inst hfree _ _ => exact h.placeRow hs hfree
  | fetches inst trace _ _ => exact h.congr rfl rfl
  | releases => exact h.endCycle hs

theorem Reached.guarded {trace : List TraceInst} {stage : Stage}
    (h : Reached conf qsort trace stage s) : Guarded s :=
  h.step_invariant (guarded_setup trace) fun _ _ hs hg hstep => hg.step hs hstep

/-! ### The life of a load or store -/

/-- A load or store is fired, then it accesses the cache, then it is completed. -/
def LifeCycle (prog : List TraceInst) (s : Proc conf) : Prop :=
  ∀ t, Precedes (.fired t) (.accessed t) s.history ∧
    (IsLoadStore prog t → Precedes (.accessed t) (.completed t) s.history)

theorem LifeCycle.append (h : LifeCycle prog s) (mark : Mark)
    (hhistory : s'.history = s.history ++ [mark])
    (haccessed : ∀ t, mark = .accessed t → .fired t ∈ s.history)
    (hcompleted : ∀ t, mark = .completed t → IsLoadStore prog t → .accessed t ∈ s.history) :
    LifeCycle prog s' := by
  intro t
  rw [hhistory, precedes_append_singleton, precedes_append_singleton]
  exact ⟨⟨(h t).1, haccessed t⟩, fun hls => ⟨(h t).2 hls, fun hmark => hcompleted t hmark hls⟩⟩

theorem LifeCycle.step (h : LifeCycle prog s) (hs : Books prog s) (hm : Marked prog s)
    (hstep : Step qsort s s') : LifeCycle prog s' := by
  have hkept : s'.history = s.history → LifeCycle prog s' := by
    intro e t
    rw [e]
    exact h t
  cases hstep with
  | locals e => exact hkept (by rw [e])
  | completes i hfin _ =>
      obtain ⟨hocc, hfired, htime⟩ := (finished_eq_true s i).mp hfin
      obtain ⟨branchTable, ghr, e⟩ := s.completeRow_eq i
      refine h.append (.completed (s.tag i)) (by rw [e]; rfl) (fun t ht => by cases ht) ?_
      rintro t ht hls
      obtain rfl : s.tag i = t := by simpa using ht
      -- no time is left, so the row has accessed the cache
      have hop := ((hs.rowsOk.row i hocc).isLoadStore_iff).mp hls
      have hne : (s.scheduleQueue i).remainingTime ≠ 11 := by
        rw [htime]
        decide
      exact (hm.accessed _).mpr (.inr ⟨i, hocc, ⟨hfired, hop, hne⟩, rfl⟩)
  | executes i hocc hfired =>
      obtain ⟨t₀, history, l1Cache, cacheMisses, e, ht₀, -⟩ := s.executeRow_eq i hocc hfired
      rcases ht₀ with ⟨-, -, rfl⟩ | ⟨-, -, rfl⟩
      · exact hkept (by rw [e])
      · refine h.append (.accessed (s.tag i)) (by rw [e]; rfl) ?_ (fun t ht => by cases ht)
        rintro t ht
        obtain rfl : s.tag i = t := by simpa using ht
        exact (hm.fired _).mpr (.inr ⟨i, hocc, hfired, rfl⟩)
  | schedules i =>
      rcases scheduleRow_marks s i with ⟨hhistory, -⟩ | ⟨hhistory, -⟩
      · exact hkept hhistory
      · exact h.append _ hhistory (fun t ht => by cases ht) (fun t ht => by cases ht)
  | marks => exact hkept rfl
  | skips k _ => exact hkept rfl
  | places i inst _ _ _ => exact hkept (by rw [s.placeRow_eq])
  | fetches inst trace _ _ => exact hkept rfl
  | releases =>
      obtain ⟨cumulativeSize, e⟩ := endCycle_eq qsort hs
      exact hkept (by rw [e])

theorem Reached.lifeCycle {stage : Stage} (h : Reached conf qsort prog stage s) :
    LifeCycle prog s := by
  have hall : Marked prog s ∧ LifeCycle prog s := by
    refine h.step_invariant (P := fun s => Marked prog s ∧ LifeCycle prog s)
      ⟨marked_setup prog, fun t => ⟨precedes_of_not_mem (by simp [setupProc]),
        fun _ => precedes_of_not_mem (by simp [setupProc])⟩⟩ ?_
    rintro s s' hs ⟨hm, hl⟩ hstep
    exact ⟨hm.step hs hstep, hl.step hs hm hstep⟩
  exact hall.2

/-! ### Conflicts -/

/-- `x` precedes `y` in the program, both are loads or stores of one address,
and one of them is a store. -/
def Conflict (prog : List TraceInst) (x y : ℕ) : Prop :=
  x < y ∧ ∃ instX instY, prog[x]? = some instX ∧ prog[y]? = some instY ∧
    instX.opcode.isLoadStore = true ∧ instY.opcode.isLoadStore = true ∧
    instX.ldStAddr = instY.ldStAddr ∧ (instX.opcode = .store ∨ instY.opcode = .store)

/-- A row of an older instruction that conflicts holds the younger one back. -/
theorem conflicts_of_conflict {head head' : ℕ} {row row' : Row} (hrow : RowOk prog head row)
    (hrow' : RowOk prog head' row') (hocc : row.occupied = true) (hcon : row.lsConflictEnd = true)
    (h : Conflict prog row.instr.sequentialTag row'.instr.sequentialTag) :
    conflicts row row' = true := by
  obtain ⟨hlt, instX, instY, hx, hy, hlsX, hlsY, haddr, hstore⟩ := h
  obtain rfl := Option.some.inj (hrow.get.symm.trans hx)
  obtain rfl := Option.some.inj (hrow'.get.symm.trans hy)
  have hopcodes : (row'.opcode == .load && row.opcode == .store || row'.opcode == .store) = true := by
    rw [hrow.op, hrow'.op]
    rcases ex : row.instr.opcode <;> rcases ey : row'.instr.opcode <;>
      simp_all [Opcode.isLoadStore]
  unfold conflicts
  rw [hocc, hcon, hopcodes, haddr]
  simp [hlt]

/-- The rows that `schedule_instr` has passed, before the round `m`, are guarded. -/
def Passed (m : ℕ) (s : Proc conf) : Prop :=
  ∀ k : Fin conf.scheduleQueueSize, k.val < m → (s.scheduleQueue k).occupied = true →
    ¬ s.Completed (s.tag k) → (s.scheduleQueue k).lsConflictEnd = true

theorem Passed.scheduleRow {i : Fin conf.scheduleQueueSize} (h : Passed i s) (hg : Guarded s) :
    Passed (i + 1) (s.scheduleRow i) := by
  obtain ⟨hsame, hrow, hothers⟩ := scheduleRow_same i s
  intro k hk hocc hnot
  rw [(hsame.rows k).occupied] at hocc
  rw [hsame.completed, hsame.tag] at hnot
  rcases eq_or_ne k i with rfl | hki
  · exact hrow.lsConflictEnd (fun hocc hf => hg k hocc hf hnot) hocc
  · rw [hothers k hki]
    exact h k (lt_of_le_of_ne (Nat.le_of_lt_succ hk) (Fin.val_ne_of_ne hki)) hocc hnot

theorem conflicts_congr (other : Row) {row row' : Row} (h : row.Same row') :
    conflicts other row' = conflicts other row := by
  unfold conflicts
  rw [h.tag, h.opcode, show row'.instr.ldStAddr = row.instr.ldStAddr from
    congrArg TraceInst.ldStAddr h.inst]

/-- A load or store that is fired has no row to wait for. -/
theorem scheduleRow_conflicts (s : Proc conf) (i : Fin conf.scheduleQueueSize) :
    (s.scheduleRow i).history = s.history ∨
      (s.scheduleRow i).history = s.history ++ [Mark.fired (s.tag i)] ∧
        (s.scheduleQueue i).occupied = true ∧
        ((s.scheduleQueue i).opcode.isLoadStore = true →
          ∀ k, k ≠ i → conflicts (s.scheduleQueue k) (s.scheduleQueue i) = false) := by
  have hcases := s.scheduleRow_cases i
  generalize s.scheduleRow i = s' at hcases ⊢
  have hsame : (s.scheduleQueue i).Same ((s.scheduleQueue i).scheduling s.cycle) :=
    Row.same_scheduling (s.scheduleQueue i) s.cycle (s.scheduleQueue i).fired
      (s.scheduleQueue i).remainingTime (s.scheduleQueue i).fu
  cases hcases with
  | passes => exact .inl rfl
  | unready => exact .inl rfl
  | ready hocc _ _ htries =>
      cases htries with
      | waits => exact .inl rfl
      | leaks => exact .inl rfl
      | fires htakes =>
          refine .inr ⟨congrArg (fun tag => s.history ++ [Mark.fired tag]) hsame.tag, hocc, ?_⟩
          intro hls k hki
          cases htakes with
          | adder hop =>
              have hnot : (s.scheduleQueue i).opcode.isLoadStore = false :=
                Opcode.isLoadStore_of_usesAdder hop
              rw [hls] at hnot
              cases hnot
          | multiplier hop =>
              have hop' : (s.scheduleQueue i).opcode = .mul := hop
              simp [hop', Opcode.isLoadStore] at hls
          | loadStore u _ _ hope =>
              unfold Proc.cacheOpeable at hope
              rw [Bool.and_eq_true, List.all_eq_true, List.all_eq_true] at hope
              have hk := hope.2 k (List.mem_finRange k)
              rw [show (s.setRow i ((s.scheduleQueue i).scheduling s.cycle)).scheduleQueue k =
                s.scheduleQueue k from Function.update_of_ne hki ..] at hk
              rw [← conflicts_congr (s.scheduleQueue k) hsame]
              simpa using hk

/-! ### The order of loads and stores -/

/-- The order of the history, as far as memory is concerned. -/
def FiresInOrder (prog : List TraceInst) (s : Proc conf) : Prop :=
  ∀ x y, Conflict prog x y → Precedes (.completed x) (.fired y) s.history

theorem FiresInOrder.congr (h : FiresInOrder prog s) (hhistory : s'.history = s.history) :
    FiresInOrder prog s' := by
  intro x y hxy
  rw [hhistory]
  exact h x y hxy

/-- A mark that is not `fired` keeps the order. -/
theorem FiresInOrder.append (h : FiresInOrder prog s) (mark : Mark)
    (hhistory : s'.history = s.history ++ [mark]) (hmark : ∀ t, mark ≠ .fired t) :
    FiresInOrder prog s' := by
  intro x y hxy
  rw [hhistory, precedes_append_singleton]
  exact ⟨h x y hxy, fun hfired => absurd hfired (hmark y)⟩

theorem FiresInOrder.beginCycle (h : FiresInOrder prog s) : FiresInOrder prog s.beginCycle := by
  refine sweep_preserves (P := FiresInOrder prog) h ?_
  intro i a ha
  unfold Proc.updateRow
  split
  · obtain ⟨branchTable, ghr, e⟩ := a.completeRow_eq i
    exact ha.append (.completed (a.tag i)) (by rw [e]; rfl) (fun t ht => by cases ht)
  · exact ha

theorem FiresInOrder.executeInstr (h : FiresInOrder prog s) : FiresInOrder prog s.executeInstr := by
  refine sweep_preserves (P := FiresInOrder prog) h ?_
  intro i a ha
  refine a.executeRow_preserves i ha ?_
  intro hocc hfired
  obtain ⟨t₀, history, l1Cache, cacheMisses, e, ht₀, -⟩ := a.executeRow_eq i hocc hfired
  rcases ht₀ with ⟨-, -, rfl⟩ | ⟨-, -, rfl⟩
  · exact ha.congr (by rw [e])
  · exact ha.append (.accessed (a.tag i)) (by rw [e]; rfl) (fun t ht => by cases ht)

/-- The state in the loop of `schedule_instr`, before the round `m`. -/
structure Firing (prog : List TraceInst) (s : Proc conf) (m : ℕ) (a : Proc conf) : Prop where
  same : SameBooks s a
  marked : Marked prog a
  guarded : Guarded a
  passed : Passed m a
  fires : FiresInOrder prog a

theorem Firing.scheduleRow {a : Proc conf} {i : Fin conf.scheduleQueueSize} (hs : Books prog s)
    (hsorted : Sorted s.scheduleQueue) (h : Firing prog s i a) :
    Firing prog s (i + 1) (a.scheduleRow i) := by
  have hbooks := h.same.books hs
  refine ⟨h.same.trans (scheduleRow_same i a).1, h.marked.scheduleRow hbooks i,
    h.guarded.scheduleRow i, h.passed.scheduleRow h.guarded, ?_⟩
  rcases scheduleRow_conflicts a i with hhistory | ⟨hhistory, hocc, hfree⟩
  · exact h.fires.congr hhistory
  · intro x y hxy
    rw [hhistory, precedes_append_singleton]
    refine ⟨h.fires x y hxy, ?_⟩
    intro hmark
    obtain rfl : a.tag i = y := by simpa using hmark
    rw [h.marked.completed]
    by_contra hnot
    have hrow := hbooks.rowsOk.row i hocc
    have hxy' := hxy
    obtain ⟨hlt, instX, instY, hx, hy, hlsX, hlsY, -⟩ := hxy'
    obtain rfl := Option.some.inj (hrow.get.symm.trans hy)
    -- the older instruction is in a row, and this row stands before the row `i`
    have hissues : Issues prog x := by
      refine ⟨instX, hx, ?_⟩
      rintro hnop
      rw [hnop] at hlsX
      cases hlsX
    obtain ⟨k, hk, rfl⟩ := (hbooks.rowsOk.dispatched x (hlt.trans hrow.lt) hissues).resolve_left hnot
    have hki : k < i := by
      by_contra hge
      rcases (not_lt.mp hge).eq_or_lt with rfl | hik
      · exact Nat.lt_irrefl _ hlt
      · have hlt' := hsorted.same h.same.rows i k hik hocc hk
        exact Nat.lt_asymm hlt hlt'
    have hcon := h.passed k hki hk hnot
    have hconflicts := conflicts_of_conflict (hbooks.rowsOk.row k hk) hrow hk hcon hxy
    rw [hfree (hrow.op ▸ hlsY) k hki.ne] at hconflicts
    cases hconflicts

theorem FiresInOrder.scheduleInstr (h : FiresInOrder prog s) (hs : Books prog s)
    (hm : Marked prog s) (hg : Guarded s) (hsorted : Sorted s.scheduleQueue) :
    FiresInOrder prog s.scheduleInstr := by
  have hlocal : SameBooks s { s with scheMulUnit := 1 } := {}
  have hpass : Firing prog s conf.scheduleQueueSize s.scheduleInstr :=
    sweep_induction (Firing prog s)
      ⟨hlocal, hm.congr rfl rfl rfl, hg.congr rfl rfl,
        fun k hk => absurd hk (Nat.not_lt_zero k.val), h.congr rfl⟩
      fun i a ha => ha.scheduleRow hs hsorted
  exact hpass.fires

/-- No load or store is fired before an older one that it conflicts with is completed. -/
theorem Reached.firesInOrder {stage : Stage}
    (h : Reached conf (glibcQsort conf) prog stage s) : FiresInOrder prog s := by
  refine h.invariant_of
    (fun stage s => Ledger prog stage s ∧ Marked prog s ∧ Guarded s ∧ Lined stage s)
    (fun _ => FiresInOrder prog) (fun hr => ⟨hr.ledger, hr.marked, hr.guarded, hr.lined⟩) ?_ ?_
  · intro x y _
    exact precedes_of_not_mem (by simp [setupProc])
  · rintro stage s s' ⟨hledger, hm, hg, hlined⟩ hf hrun
    cases stage with
    | updateState =>
        obtain rfl := Except.ok.inj hrun
        exact hf.beginCycle
    | executeInstr =>
        obtain rfl := Except.ok.inj hrun
        exact hf.executeInstr
    | scheduleInstr =>
        obtain rfl := Except.ok.inj hrun
        exact hf.scheduleInstr hledger.books hm hg (hlined.sorted trivial)
    | dispatchInstr =>
        obtain rfl := Except.ok.inj hrun
        refine (dispatchInstr_induction (P := FiresInOrder prog) ?_ ?_ ?_ hledger.books
          (hf.congr rfl)).2
        · exact fun a b ha => ha.congr rfl
        · exact fun a k _ ha _ => ha.congr rfl
        · exact fun a i inst _ ha _ _ _ => ha.congr (by rw [a.placeRow_eq])
    | fetchInstr =>
        exact Proc.fetchStage_induction (P := FiresInOrder prog)
          (fun a inst trace ha _ _ => ha.congr rfl) (fun a more ha => ha.congr rfl) hf hrun
    | updateState2 =>
        obtain rfl := Except.ok.inj hrun
        obtain ⟨cumulativeSize, e⟩ := endCycle_eq (glibcQsort conf) hledger.books
        exact hf.congr (by rw [e])

/-- In every run a load or store is fired only after every older one that it
conflicts with has been completed, so the older one is the first to access the
cache. -/
theorem memory_order {stage : Stage} (h : Reached conf (glibcQsort conf) prog stage s) {x y : ℕ}
    (hxy : Conflict prog x y) :
    Precedes (.completed x) (.fired y) s.history ∧
      ∀ l₁ l₂, s.history = l₁ ++ .accessed y :: l₂ → .accessed x ∈ l₁ ∧ .accessed x ∉ l₂ := by
  have hfires := h.firesInOrder x y hxy
  refine ⟨hfires, ?_⟩
  have hls : IsLoadStore prog x := by
    obtain ⟨-, instX, -, hx, -, hlsX, -⟩ := hxy
    exact ⟨instX, hx, hlsX⟩
  have haccesses : Precedes (.accessed x) (.accessed y) s.history :=
    (((h.lifeCycle x).2 hls).trans hfires).trans (h.lifeCycle y).1
  intro l₁ l₂ e
  exact ⟨haccesses l₁ l₂ e, haccesses.not_mem_right h.marked.nodup e⟩

set_option maxRecDepth 4000 in
/-- The load after a store to the same address is fired when the store is completed. -/
theorem memory_order_store_load :
    ∃ s : Proc smallConf, Mark.fired 1 ∈ s.history ∧
      Precedes (.completed 0) (.fired 1) s.history ∧
      ∀ l₁ l₂, s.history = l₁ ++ .accessed 1 :: l₂ → .accessed 0 ∈ l₁ ∧ .accessed 0 ∉ l₂ := by
  have hrun : whileLoop Proc.continueBool (Proc.cycleBody (glibcQsort smallConf)) 16
      (setupProc smallConf [⟨0, .store, none, fun _ => none, 64, false⟩,
        ⟨4, .load, some 2, fun _ => none, 64, false⟩]) = .ok (some _) := rfl
  exact ⟨_, by decide +kernel, memory_order (Reached.of_iterates (of_whileLoop hrun).1)
    ⟨by decide, _, _, rfl, rfl, rfl, rfl, rfl, .inl rfl⟩⟩

end ProjectArchive.Tomasulo
