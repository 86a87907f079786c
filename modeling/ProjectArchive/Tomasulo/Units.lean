/-
ProjectArchive/Tomasulo/Units.lean

No functional unit is lost.

A row is in flight when it has been fired and has time left.  The units of a
kind that are free and the rows in flight that use this kind always add up to
the number of units.  For loads and stores there is more to say, since
`ls_functional_unit` records which unit is busy: the unit of a row in flight is
busy and belongs to this row only, so that `ls_unit` counts the entries that
are not busy, and a load or store that finds `ls_unit` positive finds an entry.
-/
import ProjectArchive.Tomasulo.Marks

namespace ProjectArchive.Tomasulo

open Sweep

variable {conf : ProcConf} {prog : List TraceInst} {s s' : Proc conf} {qsort : Qsort conf}

/-! ### Rows in flight -/

/-- The row uses a unit of the given kind. -/
def Row.inFlight (kind : Opcode → Bool) (row : Row) : Bool :=
  row.occupied && row.fired && decide (0 < row.remainingTime) && kind row.opcode

theorem Row.inFlight_eq_true {kind : Opcode → Bool} {row : Row} :
    row.inFlight kind = true ↔ row.occupied = true ∧ row.fired = true ∧
      0 < row.remainingTime ∧ kind row.opcode = true := by
  simp [Row.inFlight, and_assoc]

theorem Row.inFlight_of_not_fired {kind : Opcode → Bool} {row : Row} (h : row.fired = false) :
    row.inFlight kind = false := by
  simp [Row.inFlight, h]

namespace Proc

/-- How many rows use a unit of the given kind. -/
def flights (s : Proc conf) (kind : Opcode → Bool) : ℕ := count (Row.inFlight kind) s.scheduleQueue

/-- How many entries of `ls_functional_unit` are not busy. -/
def freeUnits (s : Proc conf) : ℕ :=
  count (fun unit : Fu => !unit.busy) fun u : Fin conf.k2 => s.lsFunctionalUnit u

end Proc

theorem flights_congr {kind : Opcode → Bool}
    (h : ∀ k, (s'.scheduleQueue k).inFlight kind = (s.scheduleQueue k).inFlight kind) :
    s'.flights kind = s.flights kind :=
  count_congr h

theorem flights_update (kind : Opcode → Bool) {i : Fin conf.scheduleQueueSize} {row : Row}
    (hrows : s'.scheduleQueue = Function.update s.scheduleQueue i row) :
    s'.flights kind + ((s.scheduleQueue i).inFlight kind).toNat =
      s.flights kind + (row.inFlight kind).toNat := by
  unfold Proc.flights
  rw [hrows]
  exact count_update (Row.inFlight kind) s.scheduleQueue i row

/-- An entry of `ls_functional_unit` changes. -/
theorem freeUnits_update {u : ℕ} (hu : u < conf.k2) {unit : Fu}
    (hunits : s'.lsFunctionalUnit = Function.update s.lsFunctionalUnit u unit) :
    s'.freeUnits + (!(s.lsFunctionalUnit u).busy).toNat = s.freeUnits + (!unit.busy).toNat := by
  have hfin : (fun v : Fin conf.k2 => s'.lsFunctionalUnit v) =
      Function.update (fun v : Fin conf.k2 => s.lsFunctionalUnit v) ⟨u, hu⟩ unit := by
    funext v
    rw [hunits]
    rcases eq_or_ne v ⟨u, hu⟩ with rfl | hv
    · rw [Function.update_self, Function.update_self]
    · rw [Function.update_of_ne hv, Function.update_of_ne (Fin.val_ne_of_ne hv)]
  unfold Proc.freeUnits
  rw [hfin]
  exact count_update (fun unit : Fu => !unit.busy) (fun v : Fin conf.k2 => s.lsFunctionalUnit v)
    ⟨u, hu⟩ unit

/-! ### The invariant -/

/-- The units and the rows that use them. -/
structure UnitsOk (s : Proc conf) : Prop where
  adders : s.addUnit + s.flights Opcode.usesAdder = conf.k0
  loadStores : s.lsUnit + s.flights Opcode.isLoadStore = conf.k2
  free : s.lsUnit = s.freeUnits
  held : ∀ i, (s.scheduleQueue i).inFlight Opcode.isLoadStore = true →
    (s.scheduleQueue i).fu < conf.k2 ∧ (s.lsFunctionalUnit (s.scheduleQueue i).fu).busy = true
  distinct : ∀ i j, (s.scheduleQueue i).inFlight Opcode.isLoadStore = true →
    (s.scheduleQueue j).inFlight Opcode.isLoadStore = true →
    (s.scheduleQueue i).fu = (s.scheduleQueue j).fu → i = j

theorem unitsOk_setup (trace : List TraceInst) : UnitsOk (setupProc conf trace) where
  adders := by
    show conf.k0 + count _ _ = _
    rw [count_eq_zero_iff.mpr fun _ => rfl, Nat.add_zero]
  loadStores := by
    show conf.k2 + count _ _ = _
    rw [count_eq_zero_iff.mpr fun _ => rfl, Nat.add_zero]
  free := by
    show conf.k2 = count _ _
    simp [count, setupProc]
  held := by
    intro i hi
    cases hi
  distinct := by
    intro i j hi
    cases hi

/-- The entries of `ls_functional_unit` stay, and so do the rows that use them,
though in another order. -/
theorem UnitsOk.of_perm (h : UnitsOk s) (σ : Equiv.Perm (Fin conf.scheduleQueueSize))
    (hadders : s'.addUnit + s'.flights Opcode.usesAdder = conf.k0) (hls : s'.lsUnit = s.lsUnit)
    (hunits : s'.lsFunctionalUnit = s.lsFunctionalUnit)
    (hflights : s'.flights Opcode.isLoadStore = s.flights Opcode.isLoadStore)
    (hrows : ∀ k, (s'.scheduleQueue k).inFlight Opcode.isLoadStore = true →
      (s.scheduleQueue (σ k)).inFlight Opcode.isLoadStore = true ∧
        (s'.scheduleQueue k).fu = (s.scheduleQueue (σ k)).fu) : UnitsOk s' where
  adders := hadders
  loadStores := by
    rw [hls, hflights]
    exact h.loadStores
  free := by
    unfold Proc.freeUnits
    rw [hls, hunits]
    exact h.free
  held := by
    intro k hk
    obtain ⟨hflight, hfu⟩ := hrows k hk
    rw [hfu, hunits]
    exact h.held (σ k) hflight
  distinct := by
    intro k j hk hj hkj
    obtain ⟨hflight, hfu⟩ := hrows k hk
    obtain ⟨hflight', hfu'⟩ := hrows j hj
    rw [hfu, hfu'] at hkj
    exact σ.injective (h.distinct (σ k) (σ j) hflight hflight' hkj)

/-- Nothing changes that has to do with the units. -/
theorem UnitsOk.congr (h : UnitsOk s) (hadd : s'.addUnit = s.addUnit) (hls : s'.lsUnit = s.lsUnit)
    (hunits : s'.lsFunctionalUnit = s.lsFunctionalUnit)
    (hflight : ∀ kind k, (s'.scheduleQueue k).inFlight kind = (s.scheduleQueue k).inFlight kind)
    (hfu : ∀ k, (s.scheduleQueue k).inFlight Opcode.isLoadStore = true →
      (s'.scheduleQueue k).fu = (s.scheduleQueue k).fu) : UnitsOk s' := by
  refine h.of_perm (Equiv.refl _) ?_ hls hunits (flights_congr (hflight _)) ?_
  · rw [hadd, flights_congr (hflight _)]
    exact h.adders
  · intro k hk
    rw [hflight] at hk
    exact ⟨hk, hfu k hk⟩

/-- There is an entry that is not busy if `ls_unit` is positive. -/
theorem UnitsOk.exists_free (h : UnitsOk s) (hpos : 0 < s.lsUnit) :
    ∃ u < conf.k2, (s.lsFunctionalUnit u).busy = false := by
  by_contra hnone
  have hzero : s.freeUnits = 0 := by
    refine count_eq_zero_iff.mpr ?_
    intro u
    by_contra hbusy
    exact hnone ⟨u, u.isLt, by simpa using hbusy⟩
  rw [h.free, hzero] at hpos
  exact Nat.lt_irrefl 0 hpos

/-- When nothing is in flight, all units are free. -/
theorem UnitsOk.all_free (h : UnitsOk s)
    (hidle : ∀ i, (s.scheduleQueue i).occupied = true → (s.scheduleQueue i).fired = false) :
    s.addUnit = conf.k0 ∧ s.lsUnit = conf.k2 ∧
      ∀ u < conf.k2, (s.lsFunctionalUnit u).busy = false := by
  have hflights : ∀ kind, s.flights kind = 0 := by
    intro kind
    refine count_eq_zero_iff.mpr ?_
    intro i
    by_contra hi
    obtain ⟨hocc, hfired, -⟩ := Row.inFlight_eq_true.mp (Bool.eq_true_of_not_eq_false hi)
    rw [hidle i hocc] at hfired
    cases hfired
  have hadd := h.adders
  have hls := h.loadStores
  rw [hflights, Nat.add_zero] at hadd hls
  refine ⟨hadd, hls, ?_⟩
  intro u hu
  have hfree := count_eq_card_iff.mp (h.free.symm.trans hls) ⟨u, hu⟩
  simpa using hfree

/-! ### The stages -/

/-- A completion changes neither the unit of a row nor whether the row is in flight. -/
theorem completeRow_flight (i k : Fin conf.scheduleQueueSize) :
    (∀ kind, ((s.completeRow i).scheduleQueue k).inFlight kind =
      (s.scheduleQueue k).inFlight kind) ∧
    ((s.completeRow i).scheduleQueue k).fu = (s.scheduleQueue k).fu := by
  obtain ⟨src, update, lsConflictEnd, e, -⟩ := completeRow_get s i k
  rw [e]
  exact ⟨fun _ => rfl, rfl⟩

/-- A row that is changed, but not fired, is not in flight before and after. -/
theorem flights_setRow {i : Fin conf.scheduleQueueSize} {row : Row}
    (hbefore : (s.scheduleQueue i).fired = false) (hafter : row.fired = false)
    (hrows : s'.scheduleQueue = Function.update s.scheduleQueue i row)
    (k : Fin conf.scheduleQueueSize) :
    (∀ kind, (s'.scheduleQueue k).inFlight kind = (s.scheduleQueue k).inFlight kind) ∧
    ((s.scheduleQueue k).inFlight Opcode.isLoadStore = true →
      s'.scheduleQueue k = s.scheduleQueue k) := by
  rw [hrows]
  rcases eq_or_ne k i with rfl | hki
  · rw [Function.update_self]
    refine ⟨fun kind => ?_, fun hk => ?_⟩
    · rw [Row.inFlight_of_not_fired hbefore, Row.inFlight_of_not_fired hafter]
    · rw [Row.inFlight_of_not_fired hbefore] at hk
      cases hk
  · rw [Function.update_of_ne hki]
    exact ⟨fun _ => rfl, fun _ => rfl⟩

theorem UnitsOk.completeRow (h : UnitsOk s) (i : Fin conf.scheduleQueueSize) :
    UnitsOk (s.completeRow i) := by
  have hkept : (s.completeRow i).addUnit = s.addUnit ∧ (s.completeRow i).lsUnit = s.lsUnit ∧
      (s.completeRow i).lsFunctionalUnit = s.lsFunctionalUnit := by
    obtain ⟨branchTable, ghr, e⟩ := s.completeRow_eq i
    rw [e]
    exact ⟨rfl, rfl, rfl⟩
  refine h.congr hkept.1 hkept.2.1 hkept.2.2 ?_ ?_
  · intro kind k
    exact (completeRow_flight i k).1 kind
  · intro k _
    exact (completeRow_flight i k).2

/-- A round of `execute_instr` leaves the row `i` with the time `t`, and releases its
unit if no time is left. -/
structure Executes (s : Proc conf) (i : Fin conf.scheduleQueueSize) (t : ℤ) (s' : Proc conf) :
    Prop where
  before : ∀ kind, (s.scheduleQueue i).inFlight kind =
    (decide (0 ≤ t) && kind (s.scheduleQueue i).opcode)
  after : ∀ kind, (s'.scheduleQueue i).inFlight kind =
    (decide (0 < t) && kind (s.scheduleQueue i).opcode)
  opcode : (s'.scheduleQueue i).opcode = (s.scheduleQueue i).opcode
  fu : (s'.scheduleQueue i).fu = (s.scheduleQueue i).fu
  inst : (s'.scheduleQueue i).instr.toTraceInst = (s.scheduleQueue i).instr.toTraceInst
  others : ∀ k ≠ i, s'.scheduleQueue k = s.scheduleQueue k
  flights : ∀ kind, s'.flights kind + ((s.scheduleQueue i).inFlight kind).toNat =
    s.flights kind + ((s'.scheduleQueue i).inFlight kind).toNat
  addUnit : s'.addUnit =
    s.addUnit + if t = 0 ∧ (s.scheduleQueue i).opcode.usesAdder = true then 1 else 0
  lsUnit : s'.lsUnit =
    s.lsUnit + if t = 0 ∧ (s.scheduleQueue i).opcode.isLoadStore = true then 1 else 0
  lsFunctionalUnit : s'.lsFunctionalUnit =
    if t = 0 ∧ (s.scheduleQueue i).opcode.isLoadStore = true then
      Function.update s.lsFunctionalUnit (s.scheduleQueue i).fu
        { s.lsFunctionalUnit (s.scheduleQueue i).fu with busy := false }
    else s.lsFunctionalUnit

theorem executeRow_executes (s : Proc conf) {i : Fin conf.scheduleQueueSize}
    (hocc : (s.scheduleQueue i).occupied = true) (hfired : (s.scheduleQueue i).fired = true) :
    ∃ t, Executes s i t (s.executeRow i) := by
  obtain ⟨t, history, l1Cache, cacheMisses, e, ht, -⟩ := s.executeRow_eq i hocc hfired
  have hsame := Row.same_executing (s.scheduleQueue i) s.cycle t
  have hself : (s.executeRow i).scheduleQueue i =
      { (s.scheduleQueue i).executing s.cycle with remainingTime := t } := by
    rw [e]
    exact Function.update_self ..
  -- a row that has no time left after the round had some before it
  have hpos : 0 < (s.scheduleQueue i).remainingTime ↔ 0 ≤ t := by
    rcases ht with ⟨-, rfl, -⟩ | ⟨heq, rfl | rfl, -⟩ <;> omega
  refine ⟨t, ⟨?_, ?_, ?_, ?_, ?_, ?_, ?_, by rw [e], by rw [e], by rw [e]⟩⟩
  · intro kind
    unfold Row.inFlight
    rw [hocc, hfired, decide_eq_decide.mpr hpos]
    rfl
  · intro kind
    rw [hself]
    unfold Row.inFlight
    rw [hsame.occupied, hsame.opcode, hocc,
      show ({ (s.scheduleQueue i).executing s.cycle with remainingTime := t } : Row).fired = true
        from (Row.executing_fired _ _).trans hfired]
    rfl
  · rw [hself]
    exact hsame.opcode
  · rw [hself]
    exact Row.executing_fu _ _
  · rw [hself]
    exact hsame.inst
  · intro k hk
    rw [e]
    exact Function.update_of_ne hk ..
  · intro kind
    rw [hself]
    refine flights_update kind ?_
    rw [e]

/-- A unit is released when a row stops being in flight. -/
theorem Executes.balance {i : Fin conf.scheduleQueueSize} {t : ℤ} (he : Executes s i t s')
    (kind : Opcode → Bool) :
    (if t = 0 ∧ kind (s.scheduleQueue i).opcode = true then 1 else 0) + s'.flights kind =
      s.flights kind := by
  have hsum := he.flights kind
  rw [he.before, he.after] at hsum
  rcases Int.lt_trichotomy t 0 with hneg | rfl | hpos
  · rw [if_neg fun hzero => Int.ne_of_lt hneg hzero.1]
    simpa [Int.not_le.mpr hneg, Int.not_lt.mpr hneg.le] using hsum
  · rcases hkind : kind (s.scheduleQueue i).opcode with - | -
    · simpa [hkind] using hsum
    · rw [if_pos (by simp), Nat.add_comm]
      simpa [hkind] using hsum
  · rw [if_neg fun hzero => Int.ne_of_gt hpos hzero.1, Nat.zero_add]
    simpa [hpos, hpos.le] using hsum

/-- A row in flight was in flight before. -/
theorem Executes.back {i : Fin conf.scheduleQueueSize} {t : ℤ} (he : Executes s i t s')
    {k : Fin conf.scheduleQueueSize} (hk : (s'.scheduleQueue k).inFlight Opcode.isLoadStore = true) :
    (s.scheduleQueue k).inFlight Opcode.isLoadStore = true ∧
      (s'.scheduleQueue k).fu = (s.scheduleQueue k).fu ∧ (k = i → 0 < t) := by
  rcases eq_or_ne k i with rfl | hki
  · rw [he.after, Bool.and_eq_true, decide_eq_true_eq] at hk
    refine ⟨?_, he.fu, fun _ => hk.1⟩
    rw [he.before, hk.2, decide_eq_true hk.1.le]
    rfl
  · rw [he.others k hki] at hk ⊢
    exact ⟨hk, rfl, fun heq => absurd heq hki⟩

/-- The row that stops being in flight was in flight before. -/
theorem Executes.done {i : Fin conf.scheduleQueueSize} {t : ℤ} (he : Executes s i t s')
    (hdone : t = 0 ∧ (s.scheduleQueue i).opcode.isLoadStore = true) :
    (s.scheduleQueue i).inFlight Opcode.isLoadStore = true := by
  rw [he.before, hdone.1, hdone.2]
  rfl

theorem UnitsOk.executeRow (h : UnitsOk s) {i : Fin conf.scheduleQueueSize}
    (hocc : (s.scheduleQueue i).occupied = true) (hfired : (s.scheduleQueue i).fired = true) :
    UnitsOk (s.executeRow i) := by
  obtain ⟨t, he⟩ := executeRow_executes s hocc hfired
  generalize s.executeRow i = s' at he ⊢
  constructor
  case adders => rw [he.addUnit, Nat.add_assoc, he.balance]; exact h.adders
  case loadStores => rw [he.lsUnit, Nat.add_assoc, he.balance]; exact h.loadStores
  case free =>
    rw [he.lsUnit]
    by_cases hdone : t = 0 ∧ (s.scheduleQueue i).opcode.isLoadStore = true
    · obtain ⟨hlt, hbusy⟩ := h.held i (he.done hdone)
      have hfree := freeUnits_update hlt (he.lsFunctionalUnit.trans (if_pos hdone))
      rw [hbusy] at hfree
      rw [if_pos hdone, h.free]
      exact hfree.symm
    · rw [if_neg hdone, Nat.add_zero, h.free]
      unfold Proc.freeUnits
      rw [he.lsFunctionalUnit, if_neg hdone]
  case held =>
    intro k hk
    obtain ⟨hflight, hfu, hself⟩ := he.back hk
    obtain ⟨hlt, hbusy⟩ := h.held k hflight
    rw [hfu, he.lsFunctionalUnit]
    refine ⟨hlt, ?_⟩
    split
    · rename_i hdone
      -- the unit that is released belongs to another row
      have hne : (s.scheduleQueue k).fu ≠ (s.scheduleQueue i).fu := by
        intro heq
        exact Int.ne_of_gt (hself (h.distinct k i hflight (he.done hdone) heq)) hdone.1
      rw [Function.update_of_ne hne]
      exact hbusy
    · exact hbusy
  case distinct =>
    intro k j hk hj hkj
    obtain ⟨hflight, hfu, -⟩ := he.back hk
    obtain ⟨hflight', hfu', -⟩ := he.back hj
    rw [hfu, hfu'] at hkj
    exact h.distinct k j hflight hflight' hkj

/-- The row `i` is changed, but is not fired. -/
theorem UnitsOk.setRow (h : UnitsOk s) {i : Fin conf.scheduleQueueSize} (row : Row)
    (hbefore : (s.scheduleQueue i).fired = false) (hafter : row.fired = false)
    (hadd : s'.addUnit = s.addUnit) (hls : s'.lsUnit = s.lsUnit)
    (hunits : s'.lsFunctionalUnit = s.lsFunctionalUnit)
    (hrows : s'.scheduleQueue = Function.update s.scheduleQueue i row) : UnitsOk s' := by
  refine h.congr hadd hls hunits ?_ ?_
  · intro kind k
    exact (flights_setRow hbefore hafter hrows k).1 kind
  · intro k hk
    rw [(flights_setRow hbefore hafter hrows k).2 hk]

/-- A row is in flight once it has been fired. -/
theorem Row.inFlight_fired {row : Row} {t : ℤ} (hocc : row.occupied = true) (ht : 0 < t) (u : ℕ)
    (kind : Opcode → Bool) :
    ({ row with fired := true, remainingTime := t, fu := u } : Row).inFlight kind =
      kind row.opcode := by
  simp [Row.inFlight, hocc, ht]

/-- The units of the loads and stores in flight are busy. -/
theorem UnitsOk.fu_ne (h : UnitsOk s) {u : ℕ} (hfree : (s.lsFunctionalUnit u).busy = false)
    {k : Fin conf.scheduleQueueSize}
    (hk : (s.scheduleQueue k).inFlight Opcode.isLoadStore = true) : (s.scheduleQueue k).fu ≠ u := by
  intro heq
  have hbusy := (h.held k hk).2
  rw [heq, hfree] at hbusy
  cases hbusy

/-- The row `i` is fired on the unit `u`, and the others are left alone. -/
structure Fired (s s' : Proc conf) (i : Fin conf.scheduleQueueSize) (opcode : Opcode) (u : ℕ) :
    Prop where
  flights : ∀ kind : Opcode → Bool, s'.flights kind = s.flights kind + (kind opcode).toNat
  /-- A load or store in flight is the row `i`, or was in flight before. -/
  back : ∀ k, (s'.scheduleQueue k).inFlight Opcode.isLoadStore = true →
    k = i ∧ (s'.scheduleQueue k).fu = u ∧ opcode.isLoadStore = true ∨
      k ≠ i ∧ (s.scheduleQueue k).inFlight Opcode.isLoadStore = true ∧
        (s'.scheduleQueue k).fu = (s.scheduleQueue k).fu

theorem Fired.of_rows {i : Fin conf.scheduleQueueSize} {row : Row} {t : ℤ} {u : ℕ}
    (hocc : row.occupied = true) (ht : 0 < t)
    (hbefore : ∀ kind, (s.scheduleQueue i).inFlight kind = false)
    (hrows : s'.scheduleQueue =
      Function.update s.scheduleQueue i { row with fired := true, remainingTime := t, fu := u }) :
    Fired s s' i row.opcode u := by
  constructor
  case flights =>
    intro kind
    have hsum := flights_update kind hrows
    rw [hbefore, Row.inFlight_fired hocc ht] at hsum
    exact hsum
  case back =>
    intro k hk
    rw [hrows] at hk ⊢
    rcases eq_or_ne k i with rfl | hki
    · rw [Function.update_self] at hk ⊢
      rw [Row.inFlight_fired hocc ht] at hk
      exact .inl ⟨rfl, rfl, hk⟩
    · rw [Function.update_of_ne hki] at hk ⊢
      exact .inr ⟨hki, hk, rfl⟩

/-- An adder and the multiplier leave the loads and stores alone. -/
theorem Fired.kept {i : Fin conf.scheduleQueueSize} {opcode : Opcode} {u : ℕ}
    (hf : Fired s s' i opcode u) (hnot : opcode.isLoadStore = false) :
    s'.flights Opcode.isLoadStore = s.flights Opcode.isLoadStore ∧
      ∀ k, (s'.scheduleQueue k).inFlight Opcode.isLoadStore = true →
        (s.scheduleQueue k).inFlight Opcode.isLoadStore = true ∧
          (s'.scheduleQueue k).fu = (s.scheduleQueue k).fu := by
  refine ⟨by rw [hf.flights, hnot, Bool.toNat_false, Nat.add_zero], ?_⟩
  intro k hk
  rcases hf.back k hk with ⟨-, -, hop⟩ | ⟨-, hflight, hfu⟩
  · rw [hnot] at hop
    cases hop
  · exact ⟨hflight, hfu⟩

/-- A load or store takes a free unit. -/
theorem UnitsOk.takes (h : UnitsOk s) {i : Fin conf.scheduleQueueSize} {opcode : Opcode} {u : ℕ}
    {fu : Fu} (hf : Fired s s' i opcode u) (hop : opcode.isLoadStore = true)
    (hunit : 0 < s.lsUnit) (hu : u < conf.k2) (hfree : (s.lsFunctionalUnit u).busy = false)
    (hbusy : fu.busy = true) (hadd : s'.addUnit = s.addUnit) (hls : s'.lsUnit = s.lsUnit - 1)
    (hunits : s'.lsFunctionalUnit = Function.update s.lsFunctionalUnit u fu) : UnitsOk s' := by
  constructor
  case adders =>
    have hnot : opcode.usesAdder = false := by
      by_contra huses
      have hnot := Opcode.isLoadStore_of_usesAdder (Bool.eq_true_of_not_eq_false huses)
      rw [hop] at hnot
      cases hnot
    rw [hadd, hf.flights, hnot]
    exact h.adders
  case loadStores =>
    have hloadStores := h.loadStores
    rw [hls, hf.flights, hop]
    show s.lsUnit - 1 + (_ + 1) = _
    omega
  case free =>
    have hcount := freeUnits_update hu hunits
    rw [hfree, hbusy] at hcount
    rw [hls, h.free]
    exact (Nat.eq_sub_of_add_eq hcount).symm
  case held =>
    intro k hk
    rw [hunits]
    rcases hf.back k hk with ⟨-, hfu, -⟩ | ⟨-, hflight, hfu⟩
    · rw [hfu, Function.update_self]
      exact ⟨hu, hbusy⟩
    · rw [hfu, Function.update_of_ne (h.fu_ne hfree hflight)]
      exact h.held k hflight
  case distinct =>
    intro k j hk hj hkj
    rcases hf.back k hk with ⟨rfl, hfu, -⟩ | ⟨hki, hflight, hfu⟩ <;>
      rcases hf.back j hj with ⟨rfl, hfu', -⟩ | ⟨hji, hflight', hfu'⟩
    · rfl
    · rw [hfu, hfu'] at hkj
      exact absurd hkj.symm (h.fu_ne hfree hflight')
    · rw [hfu, hfu'] at hkj
      exact absurd hkj (h.fu_ne hfree hflight)
    · rw [hfu, hfu'] at hkj
      exact h.distinct k j hflight hflight' hkj

theorem Proc.Takes.pos {row : Row} {t : ℤ} {u addUnit scheMulUnit lsUnit : ℕ}
    {lsFunctionalUnit : ℕ → Fu}
    (h : s.Takes row t u addUnit scheMulUnit lsUnit lsFunctionalUnit) : 0 < t := by
  rcases h.time.1 with rfl | rfl | rfl <;> decide

/-- A row that is not in flight is fired, and takes a unit of its kind. -/
theorem UnitsOk.fires (h : UnitsOk s) {i : Fin conf.scheduleQueueSize} {row : Row} {t : ℤ}
    {u addUnit scheMulUnit lsUnit : ℕ} {lsFunctionalUnit : ℕ → Fu} (hocc : row.occupied = true)
    (hbefore : ∀ kind, (s.scheduleQueue i).inFlight kind = false)
    (htakes : s.Takes row t u addUnit scheMulUnit lsUnit lsFunctionalUnit)
    (hrows : s'.scheduleQueue =
      Function.update s.scheduleQueue i { row with fired := true, remainingTime := t, fu := u })
    (hadd : s'.addUnit = addUnit) (hls : s'.lsUnit = lsUnit)
    (hunits : s'.lsFunctionalUnit = lsFunctionalUnit) : UnitsOk s' := by
  have hf := Fired.of_rows hocc htakes.pos hbefore hrows
  have hadders := h.adders
  cases htakes with
  | adder hop hunit =>
      obtain ⟨hsame, hsame'⟩ := hf.kept (Opcode.isLoadStore_of_usesAdder hop)
      refine h.of_perm (Equiv.refl _) ?_ hls hunits hsame hsame'
      rw [hadd, hf.flights, hop]
      show s.addUnit - 1 + (_ + 1) = _
      omega
  | multiplier hop hunit =>
      obtain ⟨hsame, hsame'⟩ := hf.kept (by rw [hop]; rfl)
      refine h.of_perm (Equiv.refl _) ?_ hls hunits hsame hsame'
      rw [hadd, hf.flights, hop]
      exact hadders
  | loadStore u hop hunit hope hu hfree => exact h.takes hf hop hunit hu hfree rfl hadd hls hunits

theorem UnitsOk.scheduleRow (h : UnitsOk s) (i : Fin conf.scheduleQueueSize) :
    UnitsOk (s.scheduleRow i) := by
  have hcases := s.scheduleRow_cases i
  generalize s.scheduleRow i = s' at hcases ⊢
  cases hcases with
  | passes => exact h
  | unready hocc hfired =>
      exact h.setRow ((s.scheduleQueue i).scheduling s.cycle) hfired hfired rfl rfl rfl rfl
  | ready hocc hfired hready htries =>
      have hlooked : UnitsOk (s.setRow i ((s.scheduleQueue i).scheduling s.cycle)) :=
        h.setRow ((s.scheduleQueue i).scheduling s.cycle) hfired hfired rfl rfl rfl rfl
      cases htries with
      | waits => exact hlooked
      | fires htakes =>
          have hocc' : ((s.scheduleQueue i).scheduling s.cycle).occupied = true := hocc
          refine hlooked.fires hocc' ?_ htakes rfl rfl rfl rfl
          intro kind
          refine Row.inFlight_of_not_fired ?_
          show (Function.update s.scheduleQueue i _ i).fired = false
          rw [Function.update_self]
          exact hfired
      | leaks hop hunit hbusy =>
          -- `ls_unit` counts the entries that are not busy
          obtain ⟨u, hu, hfree⟩ := hlooked.exists_free hunit
          rw [hbusy u hu] at hfree
          cases hfree

theorem UnitsOk.placeRow (h : UnitsOk s) (hs : Books prog s) {i : Fin conf.scheduleQueueSize}
    {inst : Inst} (hfree : (s.scheduleQueue i).occupied = false) :
    UnitsOk (s.placeRow i inst) := by
  have hidle := hs.rowsOk.idle i hfree
  rw [s.placeRow_eq]
  exact h.setRow ((s.scheduleQueue i).fill s.registerFile s.instrTag inst) hidle hidle
    rfl rfl rfl rfl

/-- The rows in flight stay in flight, though in another order. -/
theorem endCycle_rows (qsort : Qsort conf) (hs : Books prog s) (hm : Marked prog s) :
    ∃ σ : Equiv.Perm (Fin conf.scheduleQueueSize), ∀ k,
      (∀ kind, ((s.endCycle qsort).scheduleQueue k).inFlight kind =
        (s.scheduleQueue (σ k)).inFlight kind) ∧
      ((s.endCycle qsort).scheduleQueue k).fu = (s.scheduleQueue (σ k)).fu ∧
      ((s.endCycle qsort).scheduleQueue k).opcode = (s.scheduleQueue (σ k)).opcode ∧
      ((s.endCycle qsort).scheduleQueue k).instr = (s.scheduleQueue (σ k)).instr := by
  obtain ⟨σ, hσ⟩ := endCycle_reorders qsort hs
  refine ⟨σ, ?_⟩
  intro k
  rw [hσ k]
  unfold Proc.released
  split
  · rename_i hdone
    -- the rows that are freed have no time left
    have htime := (hm.done (σ k) hdone.1 hdone.2).2
    refine ⟨?_, rfl, rfl, rfl⟩
    intro kind
    rw [Row.inFlight_of_not_fired rfl]
    unfold Row.inFlight
    rw [decide_eq_false (Int.not_lt.mpr htime), Bool.and_false, Bool.false_and]
  · exact ⟨fun _ => rfl, rfl, rfl, rfl⟩

theorem UnitsOk.endCycle (h : UnitsOk s) (hs : Books prog s) (hm : Marked prog s) :
    UnitsOk (s.endCycle qsort) := by
  obtain ⟨σ, hrows⟩ := endCycle_rows qsort hs hm
  obtain ⟨cumulativeSize, e⟩ := endCycle_eq qsort hs
  have hflights : ∀ kind, (s.endCycle qsort).flights kind = s.flights kind := by
    intro kind
    calc (s.endCycle qsort).flights kind
        = count (Row.inFlight kind) (s.scheduleQueue ∘ σ) := count_congr fun k => (hrows k).1 kind
      _ = s.flights kind := count_comp_perm σ
  refine h.of_perm σ ?_ (by rw [e]) (by rw [e]) (hflights _) ?_
  · rw [hflights, show (s.endCycle qsort).addUnit = s.addUnit by rw [e]]
    exact h.adders
  · intro k hk
    obtain ⟨hflight, hfu, -⟩ := hrows k
    rw [hflight] at hk
    exact ⟨hk, hfu⟩

/-! ### Runs -/

theorem UnitsOk.step (h : UnitsOk s) (hs : Books prog s) (hm : Marked prog s)
    (hstep : Step qsort s s') : UnitsOk s' := by
  cases hstep with
  | locals e =>
      refine h.congr ?_ ?_ ?_ ?_ ?_ <;> rw [e]
      · exact fun _ _ => rfl
      · exact fun _ _ => rfl
  | completes i _ _ => exact h.completeRow i
  | executes i hocc hfired => exact h.executeRow hocc hfired
  | schedules i => exact h.scheduleRow i
  | marks => exact h.congr rfl rfl rfl (fun _ _ => rfl) (fun _ _ => rfl)
  | skips k _ => exact h.congr rfl rfl rfl (fun _ _ => rfl) (fun _ _ => rfl)
  | places i inst hfree _ _ => exact h.placeRow hs hfree
  | fetches inst trace _ _ => exact h.congr rfl rfl rfl (fun _ _ => rfl) (fun _ _ => rfl)
  | releases => exact h.endCycle hs hm

/-- In every run the units add up. -/
theorem Reached.unitsOk {trace : List TraceInst} {stage : Stage}
    (h : Reached conf qsort trace stage s) : UnitsOk s := by
  have hall : Marked trace s ∧ UnitsOk s := by
    refine h.step_invariant (P := fun s => Marked trace s ∧ UnitsOk s)
      ⟨marked_setup trace, unitsOk_setup trace⟩ ?_
    rintro s s' hs ⟨hm, hu⟩ hstep
    exact ⟨hm.step hs hstep, hu.step hs hm hstep⟩
  exact hall.2

end ProjectArchive.Tomasulo
