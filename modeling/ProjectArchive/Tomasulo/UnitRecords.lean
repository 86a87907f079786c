/-
ProjectArchive/Tomasulo/UnitRecords.lean

What `ls_functional_unit` records.

The entry of a load or store in flight holds its address, its index in the cache
and its opcode, an entry is busy only if there is such a row for it, and no two
rows in flight have the same index, because `cache_opeable` compares the index
of a row with those of the busy entries before the row is fired.  Together with
the invariant of the units this accounts for every unit in every state of a run.
-/
import ProjectArchive.Tomasulo.Units

namespace ProjectArchive.Tomasulo

open Sweep

variable {conf : ProcConf} {prog : List TraceInst} {s s' : Proc conf} {qsort : Qsort conf}

/-- The entry of `ls_functional_unit` for a row. -/
def Row.unit (conf : ProcConf) (row : Row) : Fu :=
  ⟨true, some row.opcode, conf.indexValue row.instr.ldStAddr, row.instr.ldStAddr⟩

/-- What the entries of `ls_functional_unit` say about the rows in flight. -/
structure Recorded (s : Proc conf) : Prop where
  record : ∀ i, (s.scheduleQueue i).inFlight Opcode.isLoadStore = true →
    s.lsFunctionalUnit (s.scheduleQueue i).fu = (s.scheduleQueue i).unit conf
  holder : ∀ u < conf.k2, (s.lsFunctionalUnit u).busy = true →
    ∃ i, (s.scheduleQueue i).inFlight Opcode.isLoadStore = true ∧ (s.scheduleQueue i).fu = u
  index : ∀ i j, (s.scheduleQueue i).inFlight Opcode.isLoadStore = true →
    (s.scheduleQueue j).inFlight Opcode.isLoadStore = true →
    ((s.scheduleQueue i).unit conf).index = ((s.scheduleQueue j).unit conf).index → i = j

theorem recorded_setup (trace : List TraceInst) : Recorded (setupProc conf trace) where
  record := by
    intro i hi
    cases hi
  holder := by
    intro u _ hbusy
    cases hbusy
  index := by
    intro i j hi
    cases hi

theorem Row.unit_congr {row row' : Row} (hop : row'.opcode = row.opcode)
    (hinst : row'.instr.toTraceInst = row.instr.toTraceInst) : row'.unit conf = row.unit conf := by
  unfold Row.unit
  rw [hop, show row'.instr.ldStAddr = row.instr.ldStAddr from congrArg TraceInst.ldStAddr hinst]

/-- The entries stay, and so do the rows that they are about, though in another order. -/
theorem Recorded.of_perm (h : Recorded s) (σ : Equiv.Perm (Fin conf.scheduleQueueSize))
    (hunits : s'.lsFunctionalUnit = s.lsFunctionalUnit)
    (hflight : ∀ k, (s'.scheduleQueue k).inFlight Opcode.isLoadStore =
      (s.scheduleQueue (σ k)).inFlight Opcode.isLoadStore)
    (hrows : ∀ k, (s.scheduleQueue (σ k)).inFlight Opcode.isLoadStore = true →
      (s'.scheduleQueue k).fu = (s.scheduleQueue (σ k)).fu ∧
        (s'.scheduleQueue k).unit conf = (s.scheduleQueue (σ k)).unit conf) : Recorded s' where
  record := by
    intro k hk
    rw [hflight] at hk
    obtain ⟨hfu, hunit⟩ := hrows k hk
    rw [hfu, hunits, hunit]
    exact h.record (σ k) hk
  holder := by
    intro u hu hbusy
    rw [hunits] at hbusy
    obtain ⟨i, hi, hfu⟩ := h.holder u hu hbusy
    obtain ⟨k, rfl⟩ := σ.surjective i
    exact ⟨k, (hflight k).trans hi, (hrows k hi).1.trans hfu⟩
  index := by
    intro k j hk hj hkj
    rw [hflight] at hk hj
    rw [(hrows k hk).2, (hrows j hj).2] at hkj
    exact σ.injective (h.index (σ k) (σ j) hk hj hkj)

/-- Nothing changes that has to do with the entries. -/
theorem Recorded.congr (h : Recorded s) (hunits : s'.lsFunctionalUnit = s.lsFunctionalUnit)
    (hflight : ∀ k, (s'.scheduleQueue k).inFlight Opcode.isLoadStore =
      (s.scheduleQueue k).inFlight Opcode.isLoadStore)
    (hrows : ∀ k, (s.scheduleQueue k).inFlight Opcode.isLoadStore = true →
      (s'.scheduleQueue k).fu = (s.scheduleQueue k).fu ∧
        (s'.scheduleQueue k).unit conf = (s.scheduleQueue k).unit conf) : Recorded s' :=
  h.of_perm (Equiv.refl _) hunits hflight hrows

/-! ### The stages -/

theorem Recorded.completeRow (h : Recorded s) (i : Fin conf.scheduleQueueSize) :
    Recorded (s.completeRow i) := by
  refine h.congr ?_ ?_ ?_
  · obtain ⟨branchTable, ghr, e⟩ := s.completeRow_eq i
    rw [e]
  · intro k
    exact (completeRow_flight i k).1 _
  · intro k _
    obtain ⟨src, update, lsConflictEnd, e, -⟩ := completeRow_get s i k
    rw [e]
    exact ⟨rfl, rfl⟩

theorem Recorded.executeRow (h : Recorded s) (hu : UnitsOk s) {i : Fin conf.scheduleQueueSize}
    (hocc : (s.scheduleQueue i).occupied = true) (hfired : (s.scheduleQueue i).fired = true) :
    Recorded (s.executeRow i) := by
  obtain ⟨t, he⟩ := executeRow_executes s hocc hfired
  generalize s.executeRow i = s' at he ⊢
  have hunit : ∀ k, (s'.scheduleQueue k).unit conf = (s.scheduleQueue k).unit conf := by
    intro k
    rcases eq_or_ne k i with rfl | hki
    · exact Row.unit_congr he.opcode he.inst
    · rw [he.others k hki]
  -- the entry that is released belongs to the row `i` only
  have hkept : ∀ k, (s'.scheduleQueue k).inFlight Opcode.isLoadStore = true →
      s'.lsFunctionalUnit (s.scheduleQueue k).fu = s.lsFunctionalUnit (s.scheduleQueue k).fu := by
    intro k hk
    obtain ⟨hflight, -, hself⟩ := he.back hk
    rw [he.lsFunctionalUnit]
    split
    · rename_i hdone
      refine Function.update_of_ne ?_ ..
      intro heq
      exact Int.ne_of_gt (hself (hu.distinct k i hflight (he.done hdone) heq)) hdone.1
    · rfl
  constructor
  case record =>
    intro k hk
    obtain ⟨hflight, hfu, -⟩ := he.back hk
    rw [hfu, hkept k hk, hunit]
    exact h.record k hflight
  case holder =>
    intro u hlt hbusy
    rw [he.lsFunctionalUnit] at hbusy
    have hrest : ¬(t = 0 ∧ (s.scheduleQueue i).opcode.isLoadStore = true ∧
        u = (s.scheduleQueue i).fu) ∧ (s.lsFunctionalUnit u).busy = true := by
      split at hbusy
      · rename_i hdone
        rcases eq_or_ne u (s.scheduleQueue i).fu with rfl | hne
        · rw [Function.update_self] at hbusy
          cases hbusy
        · rw [Function.update_of_ne hne] at hbusy
          exact ⟨fun hthis => hne hthis.2.2, hbusy⟩
      · rename_i hnot
        exact ⟨fun hthis => hnot ⟨hthis.1, hthis.2.1⟩, hbusy⟩
    obtain ⟨k, hk, rfl⟩ := h.holder u hlt hrest.2
    rcases eq_or_ne k i with rfl | hki
    · -- the row has some time left
      refine ⟨k, ?_, he.fu⟩
      rw [he.before, Bool.and_eq_true, decide_eq_true_eq] at hk
      have hne : t ≠ 0 := fun hzero => hrest.1 ⟨hzero, hk.2, rfl⟩
      rw [he.after, hk.2, decide_eq_true (lt_of_le_of_ne hk.1 hne.symm)]
      rfl
    · refine ⟨k, ?_, ?_⟩
      · rw [he.others k hki]
        exact hk
      · rw [he.others k hki]
  case index =>
    intro k j hk hj hkj
    rw [hunit, hunit] at hkj
    exact h.index k j (he.back hk).1 (he.back hj).1 hkj

/-- The row `i` is changed, but is not fired. -/
theorem Recorded.setRow (h : Recorded s) {i : Fin conf.scheduleQueueSize} (row : Row)
    (hbefore : (s.scheduleQueue i).fired = false) (hafter : row.fired = false)
    (hunits : s'.lsFunctionalUnit = s.lsFunctionalUnit)
    (hrows : s'.scheduleQueue = Function.update s.scheduleQueue i row) : Recorded s' := by
  refine h.congr hunits ?_ ?_
  · intro k
    exact (flights_setRow hbefore hafter hrows k).1 _
  · intro k hk
    rw [(flights_setRow hbefore hafter hrows k).2 hk]
    exact ⟨rfl, rfl⟩

/-- A busy entry has another index than a row that may be fired. -/
theorem index_ne_of_cacheOpeable {row : Row} (hope : s.cacheOpeable row = true) {u : ℕ}
    (hu : u < conf.k2) (hbusy : (s.lsFunctionalUnit u).busy = true) :
    (s.lsFunctionalUnit u).index ≠ (row.unit conf).index := by
  unfold Proc.cacheOpeable at hope
  rw [Bool.and_eq_true, List.all_eq_true] at hope
  have hallows := hope.1 u (List.mem_range.mpr hu)
  rw [hbusy, Bool.not_true, Bool.false_or] at hallows
  unfold fuAllows at hallows
  rw [Bool.and_eq_true] at hallows
  exact bne_iff_ne.mp hallows.2

/-- A row that no entry is about is fired. -/
theorem Recorded.firesOther (h : Recorded s) {i : Fin conf.scheduleQueueSize}
    (hbefore : (s.scheduleQueue i).inFlight Opcode.isLoadStore = false)
    (hself : (s'.scheduleQueue i).inFlight Opcode.isLoadStore = false)
    (hothers : ∀ k ≠ i, s'.scheduleQueue k = s.scheduleQueue k)
    (hunits : s'.lsFunctionalUnit = s.lsFunctionalUnit) : Recorded s' := by
  refine h.congr hunits ?_ ?_
  · intro k
    rcases eq_or_ne k i with rfl | hki
    · rw [hself, hbefore]
    · rw [hothers k hki]
  · intro k hk
    rcases eq_or_ne k i with rfl | hki
    · rw [hbefore] at hk
      cases hk
    · rw [hothers k hki]
      exact ⟨rfl, rfl⟩

/-- A load or store is fired on the free unit `u`, and its entry says what it is about. -/
theorem Recorded.firesLoadStore (h : Recorded s) (hu : UnitsOk s) {i : Fin conf.scheduleQueueSize}
    {row : Row} {u : ℕ} (hope : s.cacheOpeable row = true)
    (hfree : (s.lsFunctionalUnit u).busy = false)
    (hbefore : (s.scheduleQueue i).inFlight Opcode.isLoadStore = false)
    (hself : (s'.scheduleQueue i).inFlight Opcode.isLoadStore = true)
    (hfu : (s'.scheduleQueue i).fu = u) (hunit : (s'.scheduleQueue i).unit conf = row.unit conf)
    (hothers : ∀ k ≠ i, s'.scheduleQueue k = s.scheduleQueue k)
    (hunits : s'.lsFunctionalUnit = Function.update s.lsFunctionalUnit u (row.unit conf)) :
    Recorded s' := by
  -- the rows in flight have other indices
  have hindex : ∀ k, (s.scheduleQueue k).inFlight Opcode.isLoadStore = true →
      ((s.scheduleQueue k).unit conf).index ≠ (row.unit conf).index := by
    intro k hk
    obtain ⟨hlt, hbusy⟩ := hu.held k hk
    rw [← h.record k hk]
    exact index_ne_of_cacheOpeable hope hlt hbusy
  constructor
  case record =>
    intro k hk
    rw [hunits]
    rcases eq_or_ne k i with rfl | hki
    · rw [hfu, hunit]
      exact Function.update_self ..
    · rw [hothers k hki] at hk ⊢
      rw [Function.update_of_ne (hu.fu_ne hfree hk)]
      exact h.record k hk
  case holder =>
    intro v hv hbusy
    rw [hunits] at hbusy
    rcases eq_or_ne v u with rfl | hvu
    · exact ⟨i, hself, hfu⟩
    · rw [Function.update_of_ne hvu] at hbusy
      obtain ⟨k, hk, hkv⟩ := h.holder v hv hbusy
      have hki : k ≠ i := by
        rintro rfl
        rw [hbefore] at hk
        cases hk
      refine ⟨k, ?_, ?_⟩ <;> rw [hothers k hki]
      · exact hk
      · exact hkv
  case index =>
    intro k j hk hj hkj
    rcases eq_or_ne k i with rfl | hki <;> rcases eq_or_ne j k with rfl | hji
    · rfl
    · rw [hothers j hji] at hj hkj
      rw [hunit] at hkj
      exact absurd hkj.symm (hindex j hj)
    · rfl
    · rw [hothers k hki] at hk hkj
      rcases eq_or_ne j i with rfl | hji'
      · rw [hunit] at hkj
        exact absurd hkj (hindex k hk)
      · rw [hothers j hji'] at hj hkj
        exact h.index k j hk hj hkj

/-- A row that is not in flight is fired. -/
theorem Recorded.fires (h : Recorded s) (hu : UnitsOk s) {i : Fin conf.scheduleQueueSize}
    {row : Row} {t : ℤ} {u addUnit scheMulUnit lsUnit : ℕ} {lsFunctionalUnit : ℕ → Fu}
    (hocc : row.occupied = true)
    (hbefore : (s.scheduleQueue i).inFlight Opcode.isLoadStore = false)
    (htakes : s.Takes row t u addUnit scheMulUnit lsUnit lsFunctionalUnit)
    (hrows : s'.scheduleQueue =
      Function.update s.scheduleQueue i { row with fired := true, remainingTime := t, fu := u })
    (hunits : s'.lsFunctionalUnit = lsFunctionalUnit) : Recorded s' := by
  have hrow : s'.scheduleQueue i = { row with fired := true, remainingTime := t, fu := u } := by
    rw [hrows, Function.update_self]
  have hself : (s'.scheduleQueue i).inFlight Opcode.isLoadStore = row.opcode.isLoadStore := by
    rw [hrow]
    exact Row.inFlight_fired hocc htakes.pos ..
  have hothers : ∀ k ≠ i, s'.scheduleQueue k = s.scheduleQueue k := by
    intro k hki
    rw [hrows, Function.update_of_ne hki]
  cases htakes with
  | adder hop =>
      exact h.firesOther hbefore (hself.trans (Opcode.isLoadStore_of_usesAdder hop)) hothers hunits
  | multiplier hop =>
      exact h.firesOther hbefore (hself.trans (by rw [hop]; rfl)) hothers hunits
  | loadStore u hop hunit hope hlt hfree =>
      refine h.firesLoadStore hu hope hfree hbefore (hself.trans hop) ?_ ?_ hothers
        hunits <;> rw [hrow]
      rfl

theorem Recorded.scheduleRow (h : Recorded s) (hu : UnitsOk s) (i : Fin conf.scheduleQueueSize) :
    Recorded (s.scheduleRow i) := by
  have hcases := s.scheduleRow_cases i
  generalize s.scheduleRow i = s' at hcases ⊢
  cases hcases with
  | passes => exact h
  | unready hocc hfired =>
      exact h.setRow ((s.scheduleQueue i).scheduling s.cycle) hfired hfired rfl rfl
  | ready hocc hfired hready htries =>
      have hlooked : Recorded (s.setRow i ((s.scheduleQueue i).scheduling s.cycle)) :=
        h.setRow ((s.scheduleQueue i).scheduling s.cycle) hfired hfired rfl rfl
      have hunits : UnitsOk (s.setRow i ((s.scheduleQueue i).scheduling s.cycle)) :=
        hu.setRow ((s.scheduleQueue i).scheduling s.cycle) hfired hfired rfl rfl rfl rfl
      cases htries with
      | waits => exact hlooked
      | fires htakes =>
          have hocc' : ((s.scheduleQueue i).scheduling s.cycle).occupied = true := hocc
          refine hlooked.fires hunits hocc' ?_ htakes rfl rfl
          apply Row.inFlight_of_not_fired
          show (Function.update s.scheduleQueue i _ i).fired = false
          rw [Function.update_self]
          exact hfired
      | leaks hop hunit hbusy =>
          obtain ⟨u, hlt, hfree⟩ := hunits.exists_free hunit
          rw [hbusy u hlt] at hfree
          cases hfree

theorem Recorded.placeRow (h : Recorded s) (hs : Books prog s) {i : Fin conf.scheduleQueueSize}
    {inst : Inst} (hfree : (s.scheduleQueue i).occupied = false) :
    Recorded (s.placeRow i inst) := by
  have hidle := hs.rowsOk.idle i hfree
  rw [s.placeRow_eq]
  exact h.setRow ((s.scheduleQueue i).fill s.registerFile s.instrTag inst) hidle hidle rfl rfl

theorem Recorded.endCycle (h : Recorded s) (hs : Books prog s) (hm : Marked prog s) :
    Recorded (s.endCycle qsort) := by
  obtain ⟨σ, hrows⟩ := endCycle_rows qsort hs hm
  refine h.of_perm σ ?_ (fun k => (hrows k).1 _) ?_
  · obtain ⟨cumulativeSize, e⟩ := endCycle_eq qsort hs
    rw [e]
  · intro k _
    obtain ⟨-, hfu, hop, hinst⟩ := hrows k
    exact ⟨hfu, Row.unit_congr hop (congrArg Inst.toTraceInst hinst)⟩

/-! ### Runs -/

theorem Recorded.step (h : Recorded s) (hu : UnitsOk s) (hs : Books prog s) (hm : Marked prog s)
    (hstep : Step qsort s s') : Recorded s' := by
  cases hstep with
  | locals e =>
      refine h.congr ?_ ?_ ?_ <;> rw [e]
      · exact fun _ => rfl
      · exact fun _ _ => ⟨rfl, rfl⟩
  | completes i _ _ => exact h.completeRow i
  | executes i hocc hfired => exact h.executeRow hu hocc hfired
  | schedules i => exact h.scheduleRow hu i
  | marks => exact h.congr rfl (fun _ => rfl) (fun _ _ => ⟨rfl, rfl⟩)
  | skips k _ => exact h.congr rfl (fun _ => rfl) (fun _ _ => ⟨rfl, rfl⟩)
  | places i inst hfree _ _ => exact h.placeRow hs hfree
  | fetches inst trace _ _ => exact h.congr rfl (fun _ => rfl) (fun _ _ => ⟨rfl, rfl⟩)
  | releases => exact h.endCycle hs hm

theorem Reached.recorded {trace : List TraceInst} {stage : Stage}
    (h : Reached conf qsort trace stage s) : Recorded s := by
  have hall : (Marked trace s ∧ UnitsOk s) ∧ Recorded s := by
    refine h.step_invariant (P := fun s => (Marked trace s ∧ UnitsOk s) ∧ Recorded s)
      ⟨⟨marked_setup trace, unitsOk_setup trace⟩, recorded_setup trace⟩ ?_
    rintro s s' hs ⟨⟨hm, hu⟩, hr⟩ hstep
    exact ⟨⟨hm.step hs hstep, hu.step hs hm hstep⟩, hr.step hu hs hm hstep⟩
  exact hall.2

/-- The units add up, and the loads and stores in flight hold the busy entries, each
its own. -/
structure Accounted (s : Proc conf) : Prop where
  adders : s.addUnit + s.flights Opcode.usesAdder = conf.k0
  loadStores : s.lsUnit + s.flights Opcode.isLoadStore = conf.k2
  distinct : ∀ i j, (s.scheduleQueue i).inFlight Opcode.isLoadStore = true →
    (s.scheduleQueue j).inFlight Opcode.isLoadStore = true →
    (s.scheduleQueue i).fu = (s.scheduleQueue j).fu → i = j
  range : ∀ i, (s.scheduleQueue i).inFlight Opcode.isLoadStore = true →
    (s.scheduleQueue i).fu < conf.k2
  busy : ∀ u < conf.k2, (s.lsFunctionalUnit u).busy = true ↔
    ∃ i, (s.scheduleQueue i).inFlight Opcode.isLoadStore = true ∧ (s.scheduleQueue i).fu = u
  record : ∀ i, (s.scheduleQueue i).inFlight Opcode.isLoadStore = true →
    s.lsFunctionalUnit (s.scheduleQueue i).fu =
      { busy := true
        load := some (s.scheduleQueue i).opcode
        index := conf.indexValue (s.scheduleQueue i).instr.ldStAddr
        addr := (s.scheduleQueue i).instr.ldStAddr }
  index : ∀ i j, (s.scheduleQueue i).inFlight Opcode.isLoadStore = true →
    (s.scheduleQueue j).inFlight Opcode.isLoadStore = true →
    conf.indexValue (s.scheduleQueue i).instr.ldStAddr =
      conf.indexValue (s.scheduleQueue j).instr.ldStAddr → i = j

/-- **No unit is leaked, freed twice or shared.**  Between the stages every unit is
accounted for, and in every round of `schedule_instr` the search for an entry that is
not busy finds one if `ls_unit` is positive. -/
theorem units_accounted {trace : List TraceInst} {stage : Stage}
    (h : Reached conf qsort trace stage s) :
    Accounted s ∧ (stage = .scheduleInstr → ∀ (k : ℕ) (hk : k ≤ conf.scheduleQueueSize),
      0 < (upTo Proc.scheduleRow k hk { s with scheMulUnit := 1 }).lsUnit →
        ∃ u, (List.range conf.k2).find? (fun u => !((upTo Proc.scheduleRow k hk
          { s with scheMulUnit := 1 }).lsFunctionalUnit u).busy) = some u) := by
  have hu := h.unitsOk
  have hr := h.recorded
  refine ⟨⟨hu.adders, hu.loadStores, hu.distinct, fun i hi => (hu.held i hi).1, ?_, hr.record,
    hr.index⟩, ?_⟩
  · intro u hlt
    refine ⟨hr.holder u hlt, ?_⟩
    rintro ⟨i, hi, rfl⟩
    exact (hu.held i hi).2
  · intro _ k hk hpos
    have hstart : UnitsOk { s with scheMulUnit := 1 } :=
      hu.congr rfl rfl rfl (fun _ _ => rfl) (fun _ _ => rfl)
    have hround := upTo_induction (fun _ => UnitsOk) hstart
      (fun i _ ha => UnitsOk.scheduleRow ha i) k hk
    obtain ⟨u, hlt, hfree⟩ := hround.exists_free hpos
    apply Option.ne_none_iff_exists'.mp
    intro hnone
    have hbusy := List.find?_eq_none.mp hnone u (List.mem_range.mpr hlt)
    rw [hfree] at hbusy
    exact hbusy rfl

set_option maxRecDepth 4000 in
/-- In the fourth cycle the load is in flight, and the search for an entry is left to
`schedule_instr`. -/
theorem units_accounted_load : ∃ s : Proc smallConf,
    (s.scheduleQueue ⟨0, by decide⟩).inFlight Opcode.isLoadStore = true ∧
    Accounted s ∧ (Stage.scheduleInstr = .scheduleInstr →
      ∀ (k : ℕ) (hk : k ≤ smallConf.scheduleQueueSize),
        0 < (upTo Proc.scheduleRow k hk { s with scheMulUnit := 1 }).lsUnit →
          ∃ u, (List.range smallConf.k2).find? (fun u => !((upTo Proc.scheduleRow k hk
            { s with scheMulUnit := 1 }).lsFunctionalUnit u).busy) = some u) := by
  have h₁ : Reached smallConf (keepOrder smallConf)
      [⟨0, .load, some 1, fun _ => none, 64, false⟩] .updateState _ :=
    Reached.cycle .setup rfl rfl
  have h₂ := h₁.cycle rfl rfl
  have h₃ := h₂.cycle rfl rfl
  have h₄ : Reached _ _ _ .scheduleInstr _ := h₃.executed rfl
  exact ⟨_, rfl, units_accounted h₄⟩

end ProjectArchive.Tomasulo
