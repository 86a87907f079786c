/-
ProjectArchive/Tomasulo/Marks.lean

The history agrees with the state.

An instruction is marked as completed, fired or accessed exactly when the
result and the rows say so, and never twice.  Claims about the order of events
are then claims about what has happened when a mark is added.
-/
import ProjectArchive.Tomasulo.Steps

namespace ProjectArchive.Tomasulo

open Sweep EventLog

variable {conf : ProcConf} {prog : List TraceInst} {s s' : Proc conf} {qsort : Qsort conf}

/-- The instruction `t` is a load or store. -/
def IsLoadStore (prog : List TraceInst) (t : ℕ) : Prop :=
  ∃ inst, prog[t]? = some inst ∧ inst.opcode.isLoadStore = true

theorem RowOk.isLoadStore_iff {head : ℕ} {row : Row} (h : RowOk prog head row) :
    IsLoadStore prog row.instr.sequentialTag ↔ row.opcode.isLoadStore = true := by
  unfold IsLoadStore
  rw [h.get, h.op]
  simp

/-- A row that has accessed the cache. -/
def Row.Accessed (row : Row) : Prop :=
  row.fired = true ∧ row.opcode.isLoadStore = true ∧ row.remainingTime ≠ 11

namespace Proc

/-- The instruction `t` is in a row with the property `p`. -/
def InRow (s : Proc conf) (p : Row → Prop) (t : ℕ) : Prop :=
  ∃ i, (s.scheduleQueue i).occupied = true ∧ p (s.scheduleQueue i) ∧ s.tag i = t

end Proc

/-- The marks in the history. -/
structure Marked (prog : List TraceInst) (s : Proc conf) : Prop where
  completed : ∀ t, Mark.completed t ∈ s.history ↔ s.Completed t
  fired : ∀ t, Mark.fired t ∈ s.history ↔ s.Completed t ∨ s.InRow (fun row => row.fired = true) t
  accessed : ∀ t, Mark.accessed t ∈ s.history ↔
    s.Completed t ∧ IsLoadStore prog t ∨ s.InRow Row.Accessed t
  nodup : s.history.Nodup
  time : ∀ i, (s.scheduleQueue i).occupied = true → (s.scheduleQueue i).fired = true →
    (s.scheduleQueue i).remainingTime ≤ 11 ∧
      ((s.scheduleQueue i).remainingTime = 11 → (s.scheduleQueue i).opcode.isLoadStore = true)
  done : ∀ i, (s.scheduleQueue i).occupied = true → s.Completed (s.tag i) →
    (s.scheduleQueue i).fired = true ∧ (s.scheduleQueue i).remainingTime ≤ 0

/-- Rows that agree in what the marks are about. -/
theorem inRow_congr {p : Row → Prop}
    (h : ∀ i, (s'.scheduleQueue i).occupied = (s.scheduleQueue i).occupied ∧
      (p (s'.scheduleQueue i) ↔ p (s.scheduleQueue i)) ∧ s'.tag i = s.tag i) (t : ℕ) :
    s'.InRow p t ↔ s.InRow p t := by
  unfold Proc.InRow
  refine exists_congr ?_
  intro i
  rw [(h i).1, (h i).2.1, (h i).2.2]

/-- The instruction `t` is in a row with the property `p` that is not the row `i`. -/
def Proc.InOtherRow (s : Proc conf) (i : Fin conf.scheduleQueueSize) (p : Row → Prop) (t : ℕ) :
    Prop :=
  ∃ k, k ≠ i ∧ (s.scheduleQueue k).occupied = true ∧ p (s.scheduleQueue k) ∧ s.tag k = t

/-- Only the row `i` changes, and it keeps its instruction. -/
theorem SameBooks.inRow_iff {i : Fin conf.scheduleQueueSize} (hsame : SameBooks s s')
    (hothers : ∀ k, k ≠ i → s'.scheduleQueue k = s.scheduleQueue k)
    (hocc : (s.scheduleQueue i).occupied = true) (p : Row → Prop) (t : ℕ) :
    s'.InRow p t ↔ p (s'.scheduleQueue i) ∧ t = s.tag i ∨ s.InOtherRow i p t := by
  constructor
  · rintro ⟨k, hk, hp, rfl⟩
    rcases eq_or_ne k i with rfl | hki
    · exact .inl ⟨hp, hsame.tag k⟩
    · rw [hothers k hki] at hk hp
      exact .inr ⟨k, hki, hk, hp, (hsame.tag k).symm⟩
  · rintro (⟨hp, rfl⟩ | ⟨k, hki, hk, hp, rfl⟩)
    · exact ⟨i, (hsame.rows i).occupied.trans hocc, hp, hsame.tag i⟩
    · exact ⟨k, by rwa [hothers k hki], by rwa [hothers k hki], hsame.tag k⟩

/-- The row `i` and the other rows. -/
theorem inRow_iff {i : Fin conf.scheduleQueueSize} (hocc : (s.scheduleQueue i).occupied = true)
    (p : Row → Prop) (t : ℕ) :
    s.InRow p t ↔ p (s.scheduleQueue i) ∧ t = s.tag i ∨ s.InOtherRow i p t :=
  (SameBooks.refl s).inRow_iff (fun _ _ => rfl) hocc p t

theorem marked_setup (trace : List TraceInst) : Marked trace (setupProc conf trace) where
  completed := by simp [setupProc, Proc.Completed]
  fired := by simp [setupProc, Proc.Completed, Proc.InRow, emptyRow]
  accessed := by simp [setupProc, Proc.Completed, Proc.InRow, emptyRow]
  nodup := List.nodup_nil
  time := by simp [setupProc, emptyRow]
  done := by simp [setupProc, emptyRow]

/-- Two rows that hold the same instruction are one. -/
theorem Books.eq_of_tag (h : Books prog s) {i j : Fin conf.scheduleQueueSize}
    (hi : (s.scheduleQueue i).occupied = true) (hj : (s.scheduleQueue j).occupied = true)
    (hij : s.tag i = s.tag j) : i = j :=
  h.rowsOk.distinct i j hi hj hij

/-- Rows change that have not been fired, and nothing is marked. -/
theorem Marked.of_unfired (h : Marked prog s) (hhistory : s'.history = s.history)
    (hcompleted : ∀ t, s'.Completed t ↔ s.Completed t)
    (hrows : ∀ k, s'.scheduleQueue k = s.scheduleQueue k ∨
      ((s.scheduleQueue k).occupied = true → (s.scheduleQueue k).fired = false) ∧
        (s'.scheduleQueue k).fired = false ∧
        ((s'.scheduleQueue k).occupied = true → ¬ s.Completed (s'.tag k))) :
    Marked prog s' := by
  -- the rows with a mark have been fired, so they are the same
  have hinRow : ∀ {p : Row → Prop}, (∀ row, p row → row.fired = true) →
      ∀ t, s'.InRow p t ↔ s.InRow p t := by
    intro p hp t
    constructor
    · rintro ⟨k, hk, hpk, rfl⟩
      rcases hrows k with heq | ⟨-, hunfired, -⟩
      · rw [heq] at hk hpk
        exact ⟨k, hk, hpk, (Proc.tag_congr heq).symm⟩
      · rw [hp _ hpk] at hunfired
        cases hunfired
    · rintro ⟨k, hk, hpk, rfl⟩
      rcases hrows k with heq | ⟨hunfired, -, -⟩
      · exact ⟨k, by rwa [heq], by rwa [heq], Proc.tag_congr heq⟩
      · have hfired := hunfired hk
        rw [hp _ hpk] at hfired
        cases hfired
  constructor
  case completed => simpa only [hhistory, hcompleted] using h.completed
  case fired => simpa only [hhistory, hcompleted, hinRow fun row hf => hf] using h.fired
  case accessed =>
    have hinAccessed := hinRow (p := Row.Accessed) fun row ha => ha.1
    simpa only [hhistory, hcompleted, hinAccessed] using h.accessed
  case nodup => simpa only [hhistory] using h.nodup
  case time =>
    intro k hk hf
    rcases hrows k with heq | ⟨-, hunfired, -⟩
    · rw [heq] at hk hf ⊢
      exact h.time k hk hf
    · rw [hf] at hunfired
      cases hunfired
  case done =>
    intro k hk hc
    rw [hcompleted] at hc
    rcases hrows k with heq | ⟨-, -, hnot⟩
    · rw [Proc.tag_congr heq] at hc
      rw [heq] at hk ⊢
      exact h.done k hk hc
    · exact absurd hc (hnot hk)

theorem Marked.congr (h : Marked prog s) (hhistory : s'.history = s.history)
    (hresult : s'.result = s.result) (hrows : s'.scheduleQueue = s.scheduleQueue) :
    Marked prog s' := by
  refine h.of_unfired hhistory (Proc.completed_congr hresult) ?_
  intro k
  rw [hrows]
  exact .inl rfl

/-! ### Completing -/

theorem Marked.completeRow (h : Marked prog s) (hs : Books prog s)
    {i : Fin conf.scheduleQueueSize} (hfin : s.finished i = true)
    (hnew : ¬ s.Completed (s.tag i)) : Marked prog (s.completeRow i) := by
  obtain ⟨hocc, hfired, htime⟩ := (finished_eq_true s i).mp hfin
  have hrow := completeRow_row s i
  have hcompleted := completeRow_completed s i
  have hhistory : (s.completeRow i).history = s.history ++ [Mark.completed (s.tag i)] := by
    obtain ⟨branchTable, ghr, e⟩ := s.completeRow_eq i
    rw [e]
    rfl
  have hinFired : ∀ t, (s.completeRow i).InRow (fun row => row.fired = true) t ↔
      s.InRow (fun row => row.fired = true) t :=
    inRow_congr fun k => ⟨(hrow k).1.occupied, by rw [(hrow k).2.1], (hrow k).1.tag⟩
  have hinAccessed : ∀ t, (s.completeRow i).InRow Row.Accessed t ↔ s.InRow Row.Accessed t := by
    refine inRow_congr fun k => ⟨(hrow k).1.occupied, ?_, (hrow k).1.tag⟩
    unfold Row.Accessed
    rw [(hrow k).2.1, (hrow k).2.2, (hrow k).1.opcode]
  constructor
  case completed =>
    intro t
    rw [hhistory, hcompleted]
    simp [h.completed]
  case fired =>
    intro t
    rw [hhistory, hcompleted, hinFired, List.mem_append, h.fired]
    constructor
    · rintro ((hc | hf) | hm)
      · exact .inl (.inl hc)
      · exact .inr hf
      · simp at hm
    · rintro ((hc | rfl) | hf)
      · exact .inl (.inl hc)
      · exact .inl (.inr ⟨i, hocc, hfired, rfl⟩)
      · exact .inl (.inr hf)
  case accessed =>
    intro t
    rw [hhistory, hcompleted, hinAccessed, List.mem_append, h.accessed]
    constructor
    · rintro ((⟨hc, hls⟩ | ha) | hm)
      · exact .inl ⟨.inl hc, hls⟩
      · exact .inr ha
      · simp at hm
    · rintro (⟨hc | rfl, hls⟩ | ha)
      · exact .inl (.inl ⟨hc, hls⟩)
      · -- the row has no time left, so it has accessed the cache before
        have hop := ((hs.rowsOk.row i hocc).isLoadStore_iff).mp hls
        exact .inl (.inr ⟨i, hocc, ⟨hfired, hop, by omega⟩, rfl⟩)
      · exact .inl (.inr ha)
  case nodup =>
    rw [hhistory, ← List.concat_eq_append]
    exact List.Nodup.concat (fun hm => hnew ((h.completed _).mp hm)) h.nodup
  case time =>
    intro k hk hf
    rw [(hrow k).1.occupied] at hk
    rw [(hrow k).2.1] at hf
    rw [(hrow k).2.2, (hrow k).1.opcode]
    exact h.time k hk hf
  case done =>
    intro k hk hc
    rw [(hrow k).1.occupied] at hk
    rw [hcompleted, show (s.completeRow i).tag k = s.tag k from (hrow k).1.tag] at hc
    rw [(hrow k).2.1, (hrow k).2.2]
    rcases hc with hc | hki
    · exact h.done k hk hc
    · obtain rfl := hs.eq_of_tag hk hocc hki
      exact ⟨hfired, Int.le_of_eq htime⟩

/-! ### Executing -/

/-- A row that still has to access the cache has not done so. -/
theorem Marked.not_accessed (h : Marked prog s) (hs : Books prog s)
    {i : Fin conf.scheduleQueueSize} (hocc : (s.scheduleQueue i).occupied = true)
    (h11 : (s.scheduleQueue i).remainingTime = 11) : Mark.accessed (s.tag i) ∉ s.history := by
  intro hmem
  rcases (h.accessed _).mp hmem with ⟨hc, -⟩ | ⟨k, hk, ha, hki⟩
  · have hdone := (h.done i hocc hc).2
    omega
  · obtain rfl := hs.eq_of_tag hk hocc hki
    exact ha.2.2 h11

theorem Marked.executeRow (h : Marked prog s) (hs : Books prog s)
    {i : Fin conf.scheduleQueueSize} (hocc : (s.scheduleQueue i).occupied = true)
    (hfired : (s.scheduleQueue i).fired = true) : Marked prog (s.executeRow i) := by
  obtain ⟨t₀, history, l1Cache, cacheMisses, e, ht, -⟩ := s.executeRow_eq i hocc hfired
  obtain ⟨hsame, -, hothers⟩ := executeRow_same i s
  have hself : (s.executeRow i).scheduleQueue i =
      { (s.scheduleQueue i).executing s.cycle with remainingTime := t₀ } := by
    rw [e]
    exact Function.update_self ..
  have hhistory : (s.executeRow i).history = history := by rw [e]
  obtain ⟨hle, h11⟩ := h.time i hocc hfired
  -- the time that is left is never 11 again
  have ht₀ : t₀ ≤ 10 := by
    rcases ht with ⟨hne, rfl, -⟩ | ⟨-, rfl | rfl, -⟩ <;> omega
  have hmem : ∀ m, m ∈ history ↔ m ∈ s.history ∨
      (s.scheduleQueue i).remainingTime = 11 ∧ m = .accessed (s.tag i) := by
    intro m
    rcases ht with ⟨hne, -, rfl⟩ | ⟨heq, -, rfl⟩
    · simp [hne]
    · simp [heq, Proc.tag]
  have hinRow := hsame.inRow_iff hothers hocc
  have hfired' : ((s.executeRow i).scheduleQueue i).fired = true := by
    rw [hself]
    simpa using hfired
  -- a row that has been executed has accessed the cache if its instruction does
  have haccessed : Row.Accessed ((s.executeRow i).scheduleQueue i) ↔
      Row.Accessed (s.scheduleQueue i) ∨ (s.scheduleQueue i).remainingTime = 11 := by
    have htime : ((s.executeRow i).scheduleQueue i).remainingTime ≠ 11 := by
      rw [hself]
      show t₀ ≠ 11
      omega
    unfold Row.Accessed
    rw [(hsame.rows i).opcode]
    constructor
    · rintro ⟨-, hop, -⟩
      rcases eq_or_ne (s.scheduleQueue i).remainingTime 11 with heq | hne
      · exact .inr heq
      · exact .inl ⟨hfired, hop, hne⟩
    · rintro (⟨-, hop, -⟩ | heq)
      · exact ⟨hfired', hop, htime⟩
      · exact ⟨hfired', h11 heq, htime⟩
  constructor
  case completed =>
    intro t
    rw [hhistory, hsame.completed, hmem, h.completed]
    simp
  case fired =>
    intro t
    rw [hhistory, hsame.completed, hmem, h.fired, hinRow, inRow_iff hocc, hfired, hfired']
    simp
  case accessed =>
    intro t
    rw [hhistory, hsame.completed, hmem, h.accessed, hinRow, inRow_iff hocc, haccessed,
      Mark.accessed.injEq, or_and_right, or_assoc, or_right_comm]
  case nodup =>
    rw [hhistory]
    rcases ht with ⟨-, -, rfl⟩ | ⟨heq, -, rfl⟩
    · exact h.nodup
    · rw [← List.concat_eq_append]
      exact List.Nodup.concat (h.not_accessed hs hocc heq) h.nodup
  case time =>
    intro k hk hf
    rcases eq_or_ne k i with rfl | hki
    · rw [hself]
      show t₀ ≤ 11 ∧ (t₀ = 11 → _)
      exact ⟨by omega, by omega⟩
    · rw [hothers k hki] at hk hf ⊢
      exact h.time k hk hf
  case done =>
    intro k hk hc
    rw [(hsame.rows k).occupied] at hk
    rw [hsame.completed, hsame.tag] at hc
    obtain ⟨hf, hle'⟩ := h.done k hk hc
    rcases eq_or_ne k i with rfl | hki
    · rw [hself]
      refine ⟨by simpa using hf, ?_⟩
      show t₀ ≤ 0
      rcases ht with ⟨-, rfl, -⟩ | ⟨heq, -, -⟩ <;> omega
    · rw [hothers k hki]
      exact ⟨hf, hle'⟩

/-! ### Firing -/

/-- A round of `schedule_instr` either fires its row and marks it, or neither. -/
theorem scheduleRow_marks (s : Proc conf) (i : Fin conf.scheduleQueueSize) :
    ((s.scheduleRow i).history = s.history ∧
        ((s.scheduleRow i).scheduleQueue i = s.scheduleQueue i ∨
          (s.scheduleQueue i).fired = false ∧
            ((s.scheduleRow i).scheduleQueue i).fired = false)) ∨
      ((s.scheduleRow i).history = s.history ++ [Mark.fired (s.tag i)] ∧
        (s.scheduleQueue i).occupied = true ∧ (s.scheduleQueue i).fired = false ∧
        (∀ k, ((s.scheduleQueue i).src k).ready = true) ∧
        ((s.scheduleRow i).scheduleQueue i).fired = true ∧
        ((s.scheduleRow i).scheduleQueue i).remainingTime ≤ 11 ∧
        (((s.scheduleRow i).scheduleQueue i).remainingTime = 11 ↔
          (s.scheduleQueue i).opcode.isLoadStore = true)) := by
  have hcases := s.scheduleRow_cases i
  generalize s.scheduleRow i = s' at hcases ⊢
  cases hcases with
  | passes => exact .inl ⟨rfl, .inl rfl⟩
  | unready _ hfired =>
      refine .inl ⟨rfl, .inr ⟨hfired, ?_⟩⟩
      simp [Proc.setRow, Row.scheduling, hfired]
  | ready hocc hfired hready htries =>
      cases htries with
      | waits =>
          refine .inl ⟨rfl, .inr ⟨hfired, ?_⟩⟩
          simp [Proc.setRow, Row.scheduling, hfired]
      | @fires t u _ _ _ _ htakes =>
          obtain ⟨ht, hls⟩ := htakes.time
          refine .inr ⟨?_, hocc, hfired, hready, by simp, ?_, ?_⟩
          · have htag := (Row.same_scheduling (s.scheduleQueue i) s.cycle true t u).tag
            exact congrArg (fun tag => s.history ++ [Mark.fired tag]) htag
          · simp only [Function.update_self]
            omega
          · simp only [Function.update_self]
            exact hls
      | leaks =>
          refine .inl ⟨rfl, .inr ⟨hfired, ?_⟩⟩
          simp [Row.scheduling, hfired]

/-- The row `i` is fired and marked. -/
theorem Marked.fires (h : Marked prog s) (hs : Books prog s) {i : Fin conf.scheduleQueueSize}
    (hsame : SameBooks s s')
    (hothers : ∀ k, k ≠ i → s'.scheduleQueue k = s.scheduleQueue k)
    (hhistory : s'.history = s.history ++ [Mark.fired (s.tag i)])
    (hocc : (s.scheduleQueue i).occupied = true) (hfired : (s.scheduleQueue i).fired = false)
    (hfired' : (s'.scheduleQueue i).fired = true)
    (hle : (s'.scheduleQueue i).remainingTime ≤ 11)
    (h11 : (s'.scheduleQueue i).remainingTime = 11 ↔
      (s.scheduleQueue i).opcode.isLoadStore = true) : Marked prog s' := by
  have hnew : ¬ s.Completed (s.tag i) := by
    intro hc
    rw [(h.done i hocc hc).1] at hfired
    cases hfired
  have hinRow := hsame.inRow_iff hothers hocc
  constructor
  case completed =>
    intro t
    rw [hhistory, hsame.completed, List.mem_append, h.completed]
    simp
  case fired =>
    intro t
    rw [hhistory, hsame.completed, List.mem_append, h.fired, hinRow, inRow_iff hocc, hfired,
      hfired', or_assoc]
    simp [or_comm]
  case accessed =>
    intro t
    rw [hhistory, hsame.completed, List.mem_append, h.accessed, hinRow, inRow_iff hocc]
    have haccessed : ¬ Row.Accessed (s.scheduleQueue i) := fun ha => by
      rw [ha.1] at hfired
      cases hfired
    -- a load or store that has just been fired has all its time left
    have haccessed' : ¬ Row.Accessed (s'.scheduleQueue i) := fun ha =>
      ha.2.2 (h11.mpr ((hsame.rows i).opcode ▸ ha.2.1))
    simp [haccessed, haccessed']
  case nodup =>
    rw [hhistory, ← List.concat_eq_append]
    refine List.Nodup.concat (fun hm => ?_) h.nodup
    rcases (h.fired _).mp hm with hc | ⟨k, hk, hf, hki⟩
    · exact hnew hc
    · obtain rfl := hs.eq_of_tag hk hocc hki
      rw [hf] at hfired
      cases hfired
  case time =>
    intro k hk hf
    rcases eq_or_ne k i with rfl | hki
    · refine ⟨hle, fun heq => ?_⟩
      rw [(hsame.rows k).opcode]
      exact h11.mp heq
    · rw [hothers k hki] at hk hf ⊢
      exact h.time k hk hf
  case done =>
    intro k hk hc
    rw [(hsame.rows k).occupied] at hk
    rw [hsame.completed, hsame.tag] at hc
    rcases eq_or_ne k i with rfl | hki
    · exact absurd hc hnew
    · rw [hothers k hki]
      exact h.done k hk hc

theorem Marked.scheduleRow (h : Marked prog s) (hs : Books prog s)
    (i : Fin conf.scheduleQueueSize) : Marked prog (s.scheduleRow i) := by
  obtain ⟨hsame, -, hothers⟩ := scheduleRow_same i s
  rcases scheduleRow_marks s i with ⟨hhistory, heq | ⟨hfired, hfired'⟩⟩ |
    ⟨hhistory, hocc, hfired, -, hfired', hle, h11⟩
  · -- the row is passed over
    refine h.of_unfired hhistory hsame.completed ?_
    intro k
    rcases eq_or_ne k i with rfl | hki
    · exact .inl heq
    · exact .inl (hothers k hki)
  · -- the row is looked at and waits
    refine h.of_unfired hhistory hsame.completed ?_
    intro k
    rcases eq_or_ne k i with rfl | hki
    · refine .inr ⟨fun _ => hfired, hfired', fun hocc hc => ?_⟩
      rw [(hsame.rows k).occupied] at hocc
      rw [hsame.tag] at hc
      rw [(h.done k hocc hc).1] at hfired
      cases hfired
    · exact .inl (hothers k hki)
  · exact h.fires hs hsame hothers hhistory hocc hfired hfired' hle h11

/-! ### Filling and freeing rows -/

theorem Marked.placeRow (h : Marked prog s) (hs : Books prog s)
    {i : Fin conf.scheduleQueueSize} {inst : Inst}
    (hfree : (s.scheduleQueue i).occupied = false)
    (hget : s.dispatchQueue[s.dispatchQueueHead]? = some inst) :
    Marked prog (s.placeRow i inst) := by
  have hhistory : (s.placeRow i inst).history = s.history := by rw [s.placeRow_eq]
  refine h.of_unfired hhistory (placeRow_completed s i inst) ?_
  intro k
  rcases eq_or_ne k i with rfl | hki
  · refine .inr ⟨fun hocc => ?_, ?_, fun _ hc => ?_⟩
    · rw [hfree] at hocc
      cases hocc
    · rw [s.placeRow_self]
      exact hs.rowsOk.idle k hfree
    · exact placeRow_not_completed hs hget ((placeRow_completed ..).mpr hc)
  · exact .inl (s.placeRow_of_ne inst hki)

/-- The rows that are freed are completed. -/
theorem inRow_endCycle (qsort : Qsort conf) (hs : Books prog s) (p : Row → Prop) (t : ℕ) :
    (s.endCycle qsort).InRow p t ↔ s.InRow p t ∧ ¬ s.Completed t := by
  obtain ⟨σ, hσ⟩ := endCycle_reorders qsort hs
  constructor
  · rintro ⟨k, hk, hp, rfl⟩
    obtain ⟨hk', hnot, heq⟩ := hσ.stayed hk
    rw [heq] at hp
    rw [hσ.tag hk]
    exact ⟨⟨σ k, hk', hp, rfl⟩, hnot⟩
  · rintro ⟨⟨k, hk, hp, rfl⟩, hnot⟩
    have heq := hσ.stays hk hnot
    exact ⟨σ.symm k, by rwa [heq], by rwa [heq], Proc.tag_congr heq⟩

theorem Marked.endCycle (h : Marked prog s) (hs : Books prog s) :
    Marked prog (s.endCycle qsort) := by
  obtain ⟨cumulativeSize, e⟩ := endCycle_eq qsort hs
  obtain ⟨σ, hσ⟩ := endCycle_reorders qsort hs
  have hinRow := inRow_endCycle qsort hs
  have hhistory : (s.endCycle qsort).history = s.history := by rw [e]
  have hcompleted : ∀ t, (s.endCycle qsort).Completed t ↔ s.Completed t := by
    intro t
    rw [e]
    rfl
  constructor
  case completed => simpa only [hhistory, hcompleted] using h.completed
  case fired =>
    intro t
    rw [hhistory, hcompleted, hinRow, h.fired]
    by_cases hc : s.Completed t <;> simp [hc]
  case accessed =>
    intro t
    rw [hhistory, hcompleted, hinRow, h.accessed]
    by_cases hc : s.Completed t
    · -- a completed instruction that accessed the cache is a load or store
      simp only [hc, true_and, not_true_eq_false, and_false, or_false]
      refine ⟨?_, .inl⟩
      rintro (hls | ⟨k, hk, ha, rfl⟩)
      · exact hls
      · exact (hs.rowsOk.row k hk).isLoadStore_iff.mpr ha.2.1
    · simp [hc]
  case nodup => simpa only [hhistory] using h.nodup
  case time =>
    intro k hk hf
    obtain ⟨hk', -, heq⟩ := hσ.stayed hk
    rw [heq] at hf ⊢
    exact h.time (σ k) hk' hf
  case done =>
    intro k hk hc
    rw [hcompleted, hσ.tag hk] at hc
    exact absurd hc (hσ.stayed hk).2.1

/-! ### Runs -/

theorem Marked.step (hs : Books prog s) (h : Marked prog s) (hstep : Step qsort s s') :
    Marked prog s' := by
  cases hstep with
  | locals e =>
      refine h.congr ?_ ?_ ?_ <;> rw [e]
  | completes i hfin hnew => exact h.completeRow hs hfin hnew
  | executes i hocc hfired => exact h.executeRow hs hocc hfired
  | schedules i => exact h.scheduleRow hs i
  | marks => exact h.congr rfl rfl rfl
  | skips k _ => exact h.congr rfl rfl rfl
  | places i inst hfree hget _ => exact h.placeRow hs hfree hget
  | fetches inst trace _ _ => exact h.congr rfl rfl rfl
  | releases => exact h.endCycle hs

theorem Reached.marked {trace : List TraceInst} {stage : Stage}
    (h : Reached conf qsort trace stage s) : Marked trace s :=
  h.step_invariant (marked_setup trace) fun _ _ hs hm hstep => hm.step hs hstep

end ProjectArchive.Tomasulo
