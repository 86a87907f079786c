/-
ProjectArchive/Tomasulo/WorkConserving.lean

Which rows `schedule_instr` leaves behind.

A row that is ready and is not fired finds no unit.  For additions and branches
this means that all `k0` of them are taken.  For multiplications it means that
one has been fired in this cycle already: `sche_mul_unit` starts at 1 in every
cycle, whatever `k1` is, and `mul_unit` is not used.  So `schedule_instr` keeps
all units at work if and only if `k1` is 1, or no two multiplications are ready.
-/
import ProjectArchive.Tomasulo.Units

namespace ProjectArchive.Tomasulo

open Sweep

variable {conf : ProcConf} {s a a' : Proc conf} {qsort : Qsort conf}

/-- The row is occupied and unfired, and its two sources are ready. -/
def Row.isReady (row : Row) : Prop :=
  row.occupied = true ∧ row.fired = false ∧ ∀ k, (row.src k).ready = true

/-- A multiplication that is fired. -/
def firesMul (before after : Row) : Bool :=
  before.opcode == .mul && !before.fired && after.fired

namespace Proc

/-- How many multiplications have been fired since the state `s`. -/
def mulsFired (s s' : Proc conf) : ℕ :=
  count (fun r : Row × Row => firesMul r.1 r.2) fun i => (s.scheduleQueue i, s'.scheduleQueue i)

/-- After `s'` has come out of `s`, a row that was ready and is still unfired finds
all units of its class taken. -/
structure WorkConserving (s s' : Proc conf) : Prop where
  adders : ∀ i, (s.scheduleQueue i).isReady → (s.scheduleQueue i).opcode.usesAdder = true →
    (s'.scheduleQueue i).fired = false → s'.flights Opcode.usesAdder = conf.k0
  multipliers : ∀ i, (s.scheduleQueue i).isReady → (s.scheduleQueue i).opcode = .mul →
    (s'.scheduleQueue i).fired = false → s.mulsFired s' = conf.k1

end Proc

/-! ### The pass -/

/-- The rounds below `m` are done. -/
structure Scheduling (s : Proc conf) (m : ℕ) (a : Proc conf) : Prop where
  units : UnitsOk a
  later : ∀ k : Fin conf.scheduleQueueSize, m ≤ k → a.scheduleQueue k = s.scheduleQueue k
  muls : s.mulsFired a + a.scheMulUnit = 1
  adder : ∀ k : Fin conf.scheduleQueueSize, k.val < m → (s.scheduleQueue k).isReady →
    (s.scheduleQueue k).opcode.usesAdder = true → (a.scheduleQueue k).fired = false → a.addUnit = 0
  mul : ∀ k : Fin conf.scheduleQueueSize, k.val < m → (s.scheduleQueue k).isReady →
    (s.scheduleQueue k).opcode = .mul → (a.scheduleQueue k).fired = false → a.scheMulUnit = 0

/-- Before the first round nothing has been fired. -/
theorem Scheduling.start (h : UnitsOk s) : Scheduling s 0 { s with scheMulUnit := 1 } where
  units := h.congr rfl rfl rfl (fun _ _ => rfl) (fun _ _ => rfl)
  later := fun _ _ => rfl
  muls := by
    show s.mulsFired s + 1 = 1
    have hnone : s.mulsFired s = 0 := by
      apply count_eq_zero_iff.mpr
      intro i
      show firesMul (s.scheduleQueue i) (s.scheduleQueue i) = false
      unfold firesMul
      cases (s.scheduleQueue i).fired <;> simp
    rw [hnone]
  adder := fun _ hk => absurd hk (Nat.not_lt_zero _)
  mul := fun _ hk => absurd hk (Nat.not_lt_zero _)

section Takes

variable {row : Row} {t : ℤ} {u addUnit scheMulUnit lsUnit : ℕ} {lsFunctionalUnit : ℕ → Fu}

theorem Proc.Takes.addUnit_le
    (h : a.Takes row t u addUnit scheMulUnit lsUnit lsFunctionalUnit) : addUnit ≤ a.addUnit := by
  cases h with
  | adder => exact Nat.sub_le _ _
  | multiplier => exact Nat.le_refl _
  | loadStore => exact Nat.le_refl _

/-- Only a multiplication takes the multiplier. -/
theorem Proc.Takes.scheMulUnit_eq
    (h : a.Takes row t u addUnit scheMulUnit lsUnit lsFunctionalUnit) :
    (row.opcode == .mul).toNat + scheMulUnit = a.scheMulUnit := by
  have hkept : row.opcode ≠ .mul → (row.opcode == .mul).toNat + a.scheMulUnit = a.scheMulUnit := by
    intro hne
    rw [beq_eq_false_iff_ne.mpr hne]
    exact Nat.zero_add _
  cases h with
  | adder hop =>
      apply hkept
      intro heq
      rw [heq] at hop
      cases hop
  | multiplier hop hunit =>
      rw [hop]
      exact Nat.add_sub_cancel' hunit
  | loadStore _ hop =>
      apply hkept
      intro heq
      rw [heq] at hop
      cases hop

end Takes

/-- A row that is unfired after a round is the row of the round, or was so before. -/
theorem unfired_of_update {i k : Fin conf.scheduleQueueSize} {row : Row}
    (hrows : a'.scheduleQueue = Function.update a.scheduleQueue i row) (hk : k.val < i.val + 1)
    (hfired : (a'.scheduleQueue k).fired = false) :
    k = i ∧ row.fired = false ∨ k.val < i.val ∧ (a.scheduleQueue k).fired = false := by
  rw [hrows] at hfired
  rcases eq_or_ne k i with rfl | hki
  · rw [Function.update_self] at hfired
    exact .inl ⟨rfl, hfired⟩
  · rw [Function.update_of_ne hki] at hfired
    exact .inr ⟨Nat.lt_of_le_of_ne (Nat.le_of_lt_succ hk) (Fin.val_ne_of_ne hki), hfired⟩

/-- One round, from what it does to its row and to the units. -/
theorem Scheduling.next {i : Fin conf.scheduleQueueSize} (h : Scheduling s i a) {row : Row}
    (hunits : UnitsOk a') (hrows : a'.scheduleQueue = Function.update a.scheduleQueue i row)
    (hadd : a'.addUnit ≤ a.addUnit)
    (hmuls : (firesMul (s.scheduleQueue i) row).toNat + a'.scheMulUnit = a.scheMulUnit)
    (hadder : (s.scheduleQueue i).isReady → (s.scheduleQueue i).opcode.usesAdder = true →
      row.fired = false → a'.addUnit = 0)
    (hmul : (s.scheduleQueue i).isReady → (s.scheduleQueue i).opcode = .mul →
      row.fired = false → a'.scheMulUnit = 0) : Scheduling s (i + 1) a' where
  units := hunits
  later := by
    intro k hk
    rw [hrows, Function.update_of_ne (Fin.ne_of_val_ne (Nat.ne_of_gt hk))]
    exact h.later k (Nat.le_of_succ_le hk)
  muls := by
    have hpairs : (fun k => (s.scheduleQueue k, a'.scheduleQueue k)) =
        Function.update (fun k => (s.scheduleQueue k, a.scheduleQueue k)) i
          (s.scheduleQueue i, row) := by
      funext k
      rw [hrows]
      rcases eq_or_ne k i with rfl | hk
      · rw [Function.update_self, Function.update_self]
      · rw [Function.update_of_ne hk, Function.update_of_ne hk]
    have hsum := count_update (fun r : Row × Row => firesMul r.1 r.2)
      (fun k => (s.scheduleQueue k, a.scheduleQueue k)) i (s.scheduleQueue i, row)
    -- the row has not been fired before its round
    have hbefore : firesMul (s.scheduleQueue i) (a.scheduleQueue i) = false := by
      rw [h.later i (Nat.le_refl _)]
      unfold firesMul
      cases (s.scheduleQueue i).fired <;> simp
    dsimp only at hsum
    rw [← hpairs, hbefore, Bool.toNat_false, Nat.add_zero] at hsum
    have hstart := h.muls
    unfold Proc.mulsFired at hstart ⊢
    omega
  adder := by
    intro k hk hready hop hfired
    rcases unfired_of_update hrows hk hfired with ⟨rfl, hrow⟩ | ⟨hlt, hbefore⟩
    · exact hadder hready hop hrow
    · exact Nat.le_zero.mp (hadd.trans (Nat.le_of_eq (h.adder k hlt hready hop hbefore)))
  mul := by
    intro k hk hready hop hfired
    rcases unfired_of_update hrows hk hfired with ⟨rfl, hrow⟩ | ⟨hlt, hbefore⟩
    · exact hmul hready hop hrow
    · have hzero := h.mul k hlt hready hop hbefore
      omega

theorem Scheduling.scheduleRow {i : Fin conf.scheduleQueueSize} (h : Scheduling s i a) :
    Scheduling s (i + 1) (a.scheduleRow i) := by
  have hunits := h.units.scheduleRow i
  have hrow := h.later i (Nat.le_refl _)
  have hcases := a.scheduleRow_cases i
  generalize a.scheduleRow i = a' at hunits hcases ⊢
  -- a row that stays unfired counts for nothing
  have hunfired : ∀ {row : Row}, row.fired = false →
      (firesMul (s.scheduleQueue i) row).toNat + a.scheMulUnit = a.scheMulUnit := by
    intro row hfired
    simp [firesMul, hfired]
  cases hcases with
  | passes hpass =>
      have hnot : ¬(s.scheduleQueue i).isReady := by
        rintro ⟨hocc, hfired, -⟩
        rw [hrow, hocc, hfired] at hpass
        simp at hpass
      refine h.next hunits (Function.update_eq_self i _).symm (Nat.le_refl _) ?_
        (fun hready => absurd hready hnot) (fun hready => absurd hready hnot)
      rw [hrow]
      cases hf : (s.scheduleQueue i).fired <;> simp [firesMul, hf]
  | unready hocc hfired hwaits =>
      have hnot : ¬(s.scheduleQueue i).isReady := by
        rintro ⟨-, -, hready⟩
        obtain ⟨k, hk⟩ := hwaits
        rw [hrow, hready k] at hk
        cases hk
      exact h.next hunits rfl (Nat.le_refl _) (hunfired hfired)
        (fun hready => absurd hready hnot) (fun hready => absurd hready hnot)
  | ready hocc hfired hready htries =>
      have hop : (s.scheduleQueue i).opcode = ((a.scheduleQueue i).scheduling a.cycle).opcode := by
        rw [hrow]
        rfl
      cases htries with
      | waits hnone =>
          refine h.next hunits rfl (Nat.le_refl _) (hunfired hfired) ?_ ?_
          · intro _ hadder _
            exact hnone.1 (hop ▸ hadder)
          · intro _ hmul _
            exact hnone.2.1 (hop ▸ hmul)
      | @fires t u addUnit scheMulUnit lsUnit lsFunctionalUnit htakes =>
          have hrows : Function.update (a.setRow i ((a.scheduleQueue i).scheduling
              a.cycle)).scheduleQueue i
              { (a.scheduleQueue i).scheduling a.cycle with
                fired := true, remainingTime := t, fu := u } =
              Function.update a.scheduleQueue i
                { (a.scheduleQueue i).scheduling a.cycle with
                  fired := true, remainingTime := t, fu := u } :=
            Function.update_idem ..
          refine h.next hunits hrows htakes.addUnit_le ?_ (fun _ _ hfalse => by cases hfalse)
            (fun _ _ hfalse => by cases hfalse)
          show (firesMul (s.scheduleQueue i) _).toNat + scheMulUnit = a.scheMulUnit
          have hfired' : (s.scheduleQueue i).fired = false := by
            rw [← hrow]
            exact hfired
          rw [show firesMul (s.scheduleQueue i) { (a.scheduleQueue i).scheduling a.cycle with
            fired := true, remainingTime := t, fu := u } =
              ((s.scheduleQueue i).opcode == .mul) by simp [firesMul, hfired'], hop]
          exact htakes.scheMulUnit_eq
      | leaks hls hunit hbusy =>
          -- `ls_unit` counts the entries that are not busy
          obtain ⟨u, hu, hfree⟩ := h.units.exists_free hunit
          have hbusy' : (a.lsFunctionalUnit u).busy = true := hbusy u hu
          rw [hfree] at hbusy'
          cases hbusy'

theorem Scheduling.scheduleInstr (h : UnitsOk s) :
    Scheduling s conf.scheduleQueueSize s.scheduleInstr :=
  sweep_induction (Scheduling s) (Scheduling.start h) fun _ _ ha => ha.scheduleRow

/-! ### The rows that are left -/

/-- Two multiplications are ready at once. -/
def TwoMulsReady (s : Proc conf) : Prop :=
  ∃ i j, i ≠ j ∧ ((s.scheduleQueue i).isReady ∧ (s.scheduleQueue i).opcode = .mul) ∧
    (s.scheduleQueue j).isReady ∧ (s.scheduleQueue j).opcode = .mul

/-- A ready multiplication that has been fired. -/
theorem firesMul_of_fired {before after : Row} (hready : before.isReady) (hop : before.opcode = .mul)
    (hfired : after.fired = true) : firesMul before after = true := by
  simp [firesMul, hop, hready.2.1, hfired]

/-- A row that `schedule_instr` has fired was ready. -/
theorem isReady_of_firesMul {i : Fin conf.scheduleQueueSize}
    (h : firesMul (s.scheduleQueue i) (s.scheduleInstr.scheduleQueue i) = true) :
    (s.scheduleQueue i).isReady ∧ (s.scheduleQueue i).opcode = .mul := by
  obtain ⟨⟨hop, hunfired⟩, hfired⟩ : ((s.scheduleQueue i).opcode = .mul ∧
      (s.scheduleQueue i).fired = false) ∧ (s.scheduleInstr.scheduleQueue i).fired = true := by
    simpa [firesMul] using h
  have hrow := (scheduleInstr_same s).2 i
  generalize s.scheduleInstr.scheduleQueue i = row at hrow hfired
  cases hrow with
  | passes =>
      rw [hunfired] at hfired
      cases hfired
  | waits =>
      have hfired' : (s.scheduleQueue i).fired = true := hfired
      rw [hunfired] at hfired'
      cases hfired'
  | fires t u hocc hf hready => exact ⟨⟨hocc, hf, hready⟩, hop⟩
  | leaks =>
      have hfired' : (s.scheduleQueue i).fired = true := hfired
      rw [hunfired] at hfired'
      cases hfired'

/-- **`schedule_instr` keeps all units at work if and only if there is one
multiplier, or at most one multiplication is ready.** -/
theorem workConserving_iff {trace : List TraceInst}
    (h : Reached conf qsort trace .scheduleInstr s) :
    s.WorkConserving s.scheduleInstr ↔ conf.k1 = 1 ∨ ¬TwoMulsReady s := by
  have hpass := Scheduling.scheduleInstr h.unitsOk
  have hmuls := hpass.muls
  -- a multiplication is left behind when one has been fired
  have hleft : ∀ i, (s.scheduleQueue i).isReady → (s.scheduleQueue i).opcode = .mul →
      (s.scheduleInstr.scheduleQueue i).fired = false → s.mulsFired s.scheduleInstr = 1 := by
    intro i hready hop hfired
    rw [hpass.mul i i.isLt hready hop hfired] at hmuls
    exact hmuls
  constructor
  · intro hwork
    by_contra hneither
    rw [not_or, not_not] at hneither
    obtain ⟨hk1, i, j, hij, ⟨hi, hi'⟩, hj, hj'⟩ := hneither
    have hfired : ∀ k, (s.scheduleQueue k).isReady → (s.scheduleQueue k).opcode = .mul →
        (s.scheduleInstr.scheduleQueue k).fired = true := by
      intro k hready hop
      by_contra hf
      have hf' := Bool.eq_false_of_not_eq_true hf
      exact hk1 ((hwork.multipliers k hready hop hf').symm.trans (hleft k hready hop hf'))
    -- both have been fired, which are more than one
    have hone : s.mulsFired s.scheduleInstr ≤ 1 := by omega
    unfold Proc.mulsFired count at hone
    exact hij (Finset.card_le_one.mp hone i
      (Finset.mem_filter.mpr ⟨Finset.mem_univ i, firesMul_of_fired hi hi' (hfired i hi hi')⟩) j
      (Finset.mem_filter.mpr ⟨Finset.mem_univ j, firesMul_of_fired hj hj' (hfired j hj hj')⟩))
  · intro hk1
    refine ⟨?_, ?_⟩
    · intro i hready hop hfired
      have hadders := hpass.units.adders
      rw [hpass.adder i i.isLt hready hop hfired, Nat.zero_add] at hadders
      exact hadders
    · intro i hready hop hfired
      rcases hk1 with hk1 | hnot
      · rw [hk1]
        exact hleft i hready hop hfired
      · -- the multiplication that has been fired is another one
        have hne : s.mulsFired s.scheduleInstr ≠ 0 := by
          rw [hleft i hready hop hfired]
          exact Nat.one_ne_zero
        obtain ⟨j, hj⟩ := count_ne_zero_iff.mp hne
        obtain ⟨hjready, hjop⟩ := isReady_of_firesMul hj
        refine absurd ⟨i, j, ?_, ⟨hready, hop⟩, hjready, hjop⟩ hnot
        rintro rfl
        have hj' : firesMul (s.scheduleQueue i) (s.scheduleInstr.scheduleQueue i) = true := hj
        unfold firesMul at hj'
        rw [hfired, Bool.and_false] at hj'
        cases hj'

/-! ### Two multipliers -/

/-- As the small processor, but with two multipliers. -/
def twoMultipliers : ProcConf :=
  { smallConf with k1 := 2, k1_pos := Nat.two_pos, rows_lt := by decide }

/-- Two multiplications that do not depend on each other. -/
def twoMuls : List TraceInst :=
  [⟨0, .mul, some 1, fun _ => none, 0, false⟩, ⟨4, .mul, some 2, fun _ => none, 0, false⟩]

/-- With one multiplier, `schedule_instr` keeps it at work in the third cycle. -/
theorem workConserving_iff_twoMuls : ∃ s : Proc smallConf,
    (s.scheduleQueue ⟨1, by decide⟩).isReady ∧
      (s.WorkConserving s.scheduleInstr ↔ smallConf.k1 = 1 ∨ ¬TwoMulsReady s) := by
  have h₁ : Reached smallConf (keepOrder smallConf) twoMuls .updateState _ :=
    Reached.cycle .setup rfl rfl
  have h₂ := h₁.cycle rfl rfl
  have h₃ : Reached _ _ _ .scheduleInstr _ := h₂.executed rfl
  exact ⟨_, ⟨rfl, rfl, Fin.forall_fin_two.mpr ⟨rfl, rfl⟩⟩, workConserving_iff h₃⟩

set_option maxRecDepth 2000 in
/-- With two multipliers, the second multiplication is ready in the third cycle and
is not fired, although only one is. -/
theorem not_workConserving : ¬∀ (conf : ProcConf) (qsort : Qsort conf) (trace : List TraceInst)
    (s : Proc conf), Reached conf qsort trace .scheduleInstr s →
      s.WorkConserving s.scheduleInstr := by
  intro h
  have h₁ : Reached twoMultipliers (keepOrder twoMultipliers) twoMuls .updateState _ :=
    Reached.cycle .setup rfl rfl
  have h₂ := h₁.cycle rfl rfl
  have h₃ : Reached _ _ _ .scheduleInstr _ := h₂.executed rfl
  have hmuls := (h _ _ _ _ h₃).multipliers ⟨1, by decide⟩
    ⟨rfl, rfl, Fin.forall_fin_two.mpr ⟨rfl, rfl⟩⟩ rfl rfl
  -- one has been fired, and there are two units
  exact absurd hmuls (by decide +kernel)

end ProjectArchive.Tomasulo
