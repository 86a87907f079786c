/-
ProjectArchive/Tomasulo/Passes.lean

What a whole pass of `execute_instr` or `schedule_instr` over the rows does:
the books stay as they are, and every row changes on its own.
-/
import ProjectArchive.Tomasulo.Books

namespace ProjectArchive.Tomasulo

open Sweep

variable {conf : ProcConf} {s : Proc conf}

/-- A pass in which every round changes its own row only. -/
theorem sweep_rows {f : Fin conf.scheduleQueueSize → Proc conf → Proc conf}
    {R : Row → Row → Prop}
    (hf : ∀ i a, SameBooks s a → SameBooks s (f i a) ∧
      R (a.scheduleQueue i) ((f i a).scheduleQueue i) ∧
      ∀ k, k ≠ i → (f i a).scheduleQueue k = a.scheduleQueue k) :
    SameBooks s (sweep f s) ∧ ∀ k, R (s.scheduleQueue k) ((sweep f s).scheduleQueue k) := by
  have hpass := sweep_induction (f := f) (a := s)
    (fun m a => SameBooks s a ∧ ∀ k : Fin conf.scheduleQueueSize,
      (k.val < m → R (s.scheduleQueue k) (a.scheduleQueue k)) ∧
      (m ≤ k.val → a.scheduleQueue k = s.scheduleQueue k))
    ⟨SameBooks.refl s, fun k => ⟨fun hk => absurd hk (Nat.not_lt_zero k.val), fun _ => rfl⟩⟩
    (by
      rintro i a ⟨hsame, hrows⟩
      obtain ⟨hsame', hrow, hothers⟩ := hf i a hsame
      refine ⟨hsame', ?_⟩
      intro k
      rcases eq_or_ne k i with rfl | hne
      · rw [(hrows k).2 (Nat.le_refl k.val)] at hrow
        exact ⟨fun _ => hrow, fun hk => absurd hk (Nat.not_succ_le_self k.val)⟩
      · rw [hothers k hne]
        have hval : k.val ≠ i.val := Fin.val_ne_of_ne hne
        exact ⟨fun hk => (hrows k).1 (by omega), fun hk => (hrows k).2 (by omega)⟩)
  exact ⟨hpass.1, fun k => (hpass.2 k).1 k.isLt⟩

/-! ### `execute_instr` -/

/-- A row before and after `execute_instr`. -/
def Row.Executed (cycle : ℕ) (row row' : Row) : Prop :=
  if row.occupied = true ∧ row.fired = true then
    ∃ t, row' = { row.executing cycle with remainingTime := t } ∧
      (row.remainingTime ≠ 11 → t = row.remainingTime - 1) ∧
      (row.remainingTime = 11 → t = 0 ∨ t = 9)
  else row' = row

theorem Row.same_executing (row : Row) (cycle : ℕ) (t : ℤ) :
    row.Same { row.executing cycle with remainingTime := t } := by
  obtain ⟨_, _, e⟩ := row.executing_eq cycle
  rw [e]
  exact ⟨rfl, rfl, rfl, rfl, fun _ => rfl, rfl, rfl, rfl⟩

/-- One row changes, to a row with the same instruction. -/
theorem sameBooks_update {row : Row} {i : Fin conf.scheduleQueueSize} {s' : Proc conf}
    (hsame : (s.scheduleQueue i).Same row) (hsrc : row.src = (s.scheduleQueue i).src)
    (hidle : (s.scheduleQueue i).occupied = false → row.fired = (s.scheduleQueue i).fired)
    (hbooks : SameBooks { s with scheduleQueue := s'.scheduleQueue } s')
    (hrows : s'.scheduleQueue = Function.update s.scheduleQueue i row) : SameBooks s s' := by
  have hrow : ∀ k, (s.scheduleQueue k).Same (s'.scheduleQueue k) ∧
      (s'.scheduleQueue k).src = (s.scheduleQueue k).src ∧
      ((s.scheduleQueue k).occupied = false →
        (s'.scheduleQueue k).fired = (s.scheduleQueue k).fired) := by
    intro k
    rw [hrows]
    rcases eq_or_ne k i with rfl | hk
    · rw [Function.update_self]
      exact ⟨hsame, hsrc, hidle⟩
    · rw [Function.update_of_ne hk]
      exact ⟨Row.Same.refl _, rfl, fun _ => rfl⟩
  exact { hbooks with
    rows := fun k => (hrow k).1
    src := fun k => (hrow k).2.1
    idle := fun k => (hrow k).2.2 }

theorem executeRow_same (i : Fin conf.scheduleQueueSize) (a : Proc conf) :
    SameBooks a (a.executeRow i) ∧
      (a.scheduleQueue i).Executed a.cycle ((a.executeRow i).scheduleQueue i) ∧
      ∀ k, k ≠ i → (a.executeRow i).scheduleQueue k = a.scheduleQueue k := by
  by_cases hguard : (a.scheduleQueue i).occupied = true ∧ (a.scheduleQueue i).fired = true
  · obtain ⟨t, history, l1Cache, cacheMisses, e, ht, -⟩ := a.executeRow_eq i hguard.1 hguard.2
    rw [e]
    refine ⟨?_, ?_, ?_⟩
    · exact sameBooks_update (Row.same_executing _ _ t) (by simp) (by simp [hguard.1])
        {} rfl
    · unfold Row.Executed
      rw [if_pos hguard]
      refine ⟨t, by simp, ?_, ?_⟩
      · intro hne
        rcases ht with ⟨-, ht, -⟩ | ⟨h11, -, -⟩
        · exact ht
        · exact absurd h11 hne
      · intro h11
        rcases ht with ⟨hne, -, -⟩ | ⟨-, ht, -⟩
        · exact absurd h11 hne
        · exact ht
    · intro k hk
      simp [hk]
  · rw [a.executeRow_eq_self i hguard]
    refine ⟨SameBooks.refl a, ?_, fun k _ => rfl⟩
    unfold Row.Executed
    rw [if_neg hguard]

/-- The pass of `execute_instr`. -/
theorem executeInstr_same (s : Proc conf) :
    SameBooks s s.executeInstr ∧
      ∀ k, (s.scheduleQueue k).Executed s.cycle (s.executeInstr.scheduleQueue k) := by
  apply sweep_rows
  intro i a ha
  obtain ⟨hsame, hrow, hothers⟩ := executeRow_same i a
  rw [ha.cycle] at hrow
  exact ⟨ha.trans hsame, hrow, hothers⟩

/-! ### `schedule_instr` -/

/-- A row before and after `schedule_instr`; the last case does not arise in a run. -/
inductive Row.Scheduled (cycle : ℕ) (row : Row) : Row → Prop
  | passes (h : row.occupied = false ∨ row.fired = true) : Scheduled cycle row row
  | waits (hocc : row.occupied = true) (hfired : row.fired = false) :
      Scheduled cycle row (row.scheduling cycle)
  | fires (t : ℤ) (u : ℕ) (hocc : row.occupied = true) (hfired : row.fired = false)
      (hready : ∀ k, (row.src k).ready = true) (ht : t = 1 ∨ t = 3 ∨ t = 11)
      (hls : t = 11 ↔ row.opcode.isLoadStore = true) :
      Scheduled cycle row
        { row.scheduling cycle with fired := true, remainingTime := t, fu := u }
  | leaks (hocc : row.occupied = true) (hfired : row.fired = false) :
      Scheduled cycle row { row.scheduling cycle with remainingTime := 11 }

theorem Row.same_scheduling (row : Row) (cycle : ℕ) (fired : Bool) (t : ℤ) (u : ℕ) :
    row.Same { row.scheduling cycle with fired := fired, remainingTime := t, fu := u } := by
  unfold Row.scheduling
  refine ⟨rfl, rfl, rfl, rfl, fun _ => rfl, ?_, ?_, ?_⟩ <;> dsimp only <;> split <;> rfl

theorem Row.Scheduled.same {cycle : ℕ} {row row' : Row} (h : row.Scheduled cycle row') :
    row.Same row' := by
  cases h with
  | passes => exact Row.Same.refl row
  | waits => exact row.same_scheduling cycle row.fired row.remainingTime row.fu
  | fires t u => exact row.same_scheduling cycle true t u
  | leaks => exact row.same_scheduling cycle row.fired 11 row.fu

theorem Row.Scheduled.src {cycle : ℕ} {row row' : Row} (h : row.Scheduled cycle row') :
    row'.src = row.src := by
  cases h <;> rfl

theorem Row.Scheduled.idle {cycle : ℕ} {row row' : Row} (h : row.Scheduled cycle row')
    (hocc : row.occupied = false) : row' = row := by
  cases h with
  | passes => rfl
  | waits hocc' => simp [hocc] at hocc'
  | fires _ _ hocc' => simp [hocc] at hocc'
  | leaks hocc' => simp [hocc] at hocc'

theorem Proc.Takes.time {row : Row} {t : ℤ} {u addUnit scheMulUnit lsUnit : ℕ}
    {lsFunctionalUnit : ℕ → Fu}
    (h : s.Takes row t u addUnit scheMulUnit lsUnit lsFunctionalUnit) :
    (t = 1 ∨ t = 3 ∨ t = 11) ∧ (t = 11 ↔ row.opcode.isLoadStore = true) := by
  cases h with
  | adder hop => simp [Opcode.isLoadStore_of_usesAdder hop]
  | multiplier hop => simp [hop, Opcode.isLoadStore]
  | loadStore u hop => simp [hop]

theorem scheduleRow_same (i : Fin conf.scheduleQueueSize) (a : Proc conf) :
    SameBooks a (a.scheduleRow i) ∧
      (a.scheduleQueue i).Scheduled a.cycle ((a.scheduleRow i).scheduleQueue i) ∧
      ∀ k, k ≠ i → (a.scheduleRow i).scheduleQueue k = a.scheduleQueue k := by
  have hupdate : ∀ {row : Row} {a' : Proc conf}, (a.scheduleQueue i).Scheduled a.cycle row →
      SameBooks { a with scheduleQueue := a'.scheduleQueue } a' →
      a'.scheduleQueue = Function.update a.scheduleQueue i row →
      SameBooks a a' ∧ (a.scheduleQueue i).Scheduled a.cycle (a'.scheduleQueue i) ∧
        ∀ k, k ≠ i → a'.scheduleQueue k = a.scheduleQueue k := by
    intro row a' hrow hbooks hrows
    refine ⟨sameBooks_update hrow.same hrow.src ?_ hbooks hrows, ?_, ?_⟩
    · intro hocc
      rw [hrow.idle hocc]
    · rw [hrows, Function.update_self]
      exact hrow
    · intro k hk
      rw [hrows, Function.update_of_ne hk]
  generalize ha' : a.scheduleRow i = a'
  have hcases := a.scheduleRow_cases i
  rw [ha'] at hcases
  cases hcases with
  | passes h => exact ⟨SameBooks.refl a, .passes h, fun k _ => rfl⟩
  | unready hocc hfired _ => exact hupdate (.waits hocc hfired) {} rfl
  | ready hocc hfired hready htries =>
      cases htries with
      | waits _ => exact hupdate (.waits hocc hfired) {} rfl
      | @fires t u _ _ _ _ htakes =>
          obtain ⟨ht, hls⟩ := htakes.time
          exact hupdate (.fires t u hocc hfired hready ht hls) {} (by simp [Proc.setRow])
      | leaks _ _ _ => exact hupdate (.leaks hocc hfired) {} (by simp [Proc.setRow])

/-- The pass of `schedule_instr`. -/
theorem scheduleInstr_same (s : Proc conf) :
    SameBooks s s.scheduleInstr ∧
      ∀ k, (s.scheduleQueue k).Scheduled s.cycle (s.scheduleInstr.scheduleQueue k) := by
  have hlocal : SameBooks s { s with scheMulUnit := 1 } := {}
  have hpass := sweep_rows (s := { s with scheMulUnit := 1 }) (f := Proc.scheduleRow)
    (R := Row.Scheduled s.cycle) (by
      intro i a ha
      obtain ⟨hsame, hrow, hothers⟩ := scheduleRow_same i a
      rw [ha.cycle] at hrow
      exact ⟨ha.trans hsame, hrow, hothers⟩)
  exact ⟨hlocal.trans hpass.1, hpass.2⟩

end ProjectArchive.Tomasulo
