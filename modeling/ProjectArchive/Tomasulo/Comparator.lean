/-
ProjectArchive/Tomasulo/Comparator.lean

Whether `compare_sq` orders the rows that `update_state_2` sorts.

`qsort` may do anything with a comparison that is no order.  Tags are small, so
that nothing is lost in the truncation, and `compare_sq` fails on one kind of
rows only: a free row whose tag is zero is equal to every occupied row.  Rows
that have never been used are such rows, and the row that held the first
instruction of the program is one until it is filled again.
-/
import ProjectArchive.Tomasulo.SortedQueue

namespace ProjectArchive.Tomasulo

open Sweep

variable {conf : ProcConf} {prog : List TraceInst} {s s' : Proc conf} {qsort : Qsort conf}

/-- The rows that `qsort` is called for. -/
def Proc.toSort (s : Proc conf) : Fin conf.scheduleQueueSize → Row := (sweep Proc.freeRow s).scheduleQueue

/-- `compare_sq` is an order of the rows, with the occupied rows first, oldest first. -/
structure LegalOrdering {n : ℕ} (rows : Fin n → Row) : Prop where
  antisymm : ∀ i j, (compareSq (rows i) (rows j)).sign = -(compareSq (rows j) (rows i)).sign
  less_trans : ∀ i j k, compareSq (rows i) (rows j) < 0 → compareSq (rows j) (rows k) < 0 →
    compareSq (rows i) (rows k) < 0
  equal_trans : ∀ i j k, compareSq (rows i) (rows j) = 0 → compareSq (rows j) (rows k) = 0 →
    compareSq (rows i) (rows k) = 0
  occupied_first : ∀ i j, (rows i).occupied = true → (rows j).occupied = false →
    compareSq (rows i) (rows j) < 0
  oldest_first : ∀ i j, (rows i).occupied = true → (rows j).occupied = true →
    (rows i).instr.sequentialTag < (rows j).instr.sequentialTag → compareSq (rows i) (rows j) < 0
  /-- Whatever the rows are sorted with. -/
  sorted : ∀ σ : Equiv.Perm (Fin n),
    (∀ i j, i < j → compareSq (rows (σ i)) (rows (σ j)) ≤ 0) →
    ∀ i j, i < j → (rows (σ j)).occupied = true → (rows (σ i)).occupied = true ∧
      (rows (σ i)).instr.sequentialTag < (rows (σ j)).instr.sequentialTag

section Rows

variable {n : ℕ} {rows : Fin n → Row}

/-- No free row is equal to an occupied one. -/
def FreeRowsUsed (rows : Fin n → Row) : Prop :=
  (∀ i, (rows i).occupied = false) ∨
    ∀ i, (rows i).occupied = false → (rows i).instr.sequentialTag ≠ 0

/-- The place of a row: by its tag if it is occupied, else behind. -/
def rank (row : Row) : ℕ := if row.occupied then row.instr.sequentialTag else dqDataStructureSize + 1

theorem compareSq_swap {a b : Row} (ha : a.instr.sequentialTag ≤ dqDataStructureSize)
    (hb : b.instr.sequentialTag ≤ dqDataStructureSize) : compareSq b a = -compareSq a b := by
  rw [compareSq_eq hb ha, compareSq_eq ha hb, Int.neg_sub]

/-- `compare_sq` compares places, if it is given no free row with the tag zero. -/
theorem compareSq_lt_iff (hsmall : ∀ i, (rows i).instr.sequentialTag ≤ dqDataStructureSize)
    (h : FreeRowsUsed rows) (i j : Fin n) :
    compareSq (rows i) (rows j) < 0 ↔ rank (rows i) < rank (rows j) := by
  -- a free row has a tag, if there is an occupied one
  have htag : ∀ k l, (rows k).occupied = true → (rows l).occupied = false →
      (rows l).instr.sequentialTag ≠ 0 := by
    intro k l hk hl
    rcases h with hfree | hused
    · rw [hfree k] at hk
      cases hk
    · exact hused l hl
  have hi := hsmall i
  have hj := hsmall j
  rw [compareSq_eq hi hj]
  rcases ei : (rows i).occupied with - | - <;> rcases ej : (rows j).occupied with - | - <;>
    simp only [rank, ei, ej, Bool.false_eq_true, if_true, if_false]
  · omega
  · omega
  · have := htag i j ei ej
    omega
  · omega

theorem compareSq_eq_zero_iff (hsmall : ∀ i, (rows i).instr.sequentialTag ≤ dqDataStructureSize)
    (h : FreeRowsUsed rows) (i j : Fin n) :
    compareSq (rows i) (rows j) = 0 ↔ rank (rows i) = rank (rows j) := by
  have hlt := compareSq_lt_iff hsmall h i j
  have hgt := compareSq_lt_iff hsmall h j i
  rw [compareSq_swap (hsmall i) (hsmall j)] at hgt
  omega

/-- With small tags, `compare_sq` is an order iff no free row has the tag zero. -/
theorem legalOrdering_iff (hsmall : ∀ i, (rows i).instr.sequentialTag ≤ dqDataStructureSize)
    (hdistinct : ∀ i j, (rows i).occupied = true → (rows j).occupied = true →
      (rows i).instr.sequentialTag = (rows j).instr.sequentialTag → i = j) :
    LegalOrdering rows ↔ FreeRowsUsed rows := by
  constructor
  · intro h
    by_contra hnot
    unfold FreeRowsUsed at hnot
    push Not at hnot
    obtain ⟨⟨i, hi⟩, j, hj, h0⟩ := hnot
    have hi : (rows i).occupied = true := by simpa using hi
    have hlt := h.occupied_first i j hi hj
    rw [compareSq_eq (hsmall i) (hsmall j), hi, hj, h0] at hlt
    exact Int.lt_irrefl 0 hlt
  · intro h
    have hlt := compareSq_lt_iff hsmall h
    have heq := compareSq_eq_zero_iff hsmall h
    have hocc : ∀ {k}, (rows k).occupied = true → rank (rows k) = (rows k).instr.sequentialTag :=
      fun hk => if_pos hk
    have hfree : ∀ {k}, (rows k).occupied = false → rank (rows k) = dqDataStructureSize + 1 :=
      fun hk => if_neg (by simp [hk])
    refine ⟨?_, ?_, ?_, ?_, ?_, ?_⟩
    · intro i j
      rw [compareSq_swap (hsmall j) (hsmall i), Int.sign_neg]
    · intro i j k hij hjk
      rw [hlt] at hij hjk ⊢
      exact hij.trans hjk
    · intro i j k hij hjk
      rw [heq] at hij hjk ⊢
      exact hij.trans hjk
    · intro i j hi hj
      rw [hlt, hocc hi, hfree hj]
      exact Nat.lt_succ_of_le (hsmall i)
    · intro i j hi hj hij
      rwa [hlt, hocc hi, hocc hj]
    · intro σ hσ i j hij hj
      have hle : rank (rows (σ i)) ≤ rank (rows (σ j)) := by
        rw [← Nat.not_lt, ← hlt, compareSq_swap (hsmall (σ i)) (hsmall (σ j))]
        have := hσ i j hij
        omega
      rw [hocc hj] at hle
      rcases hi : (rows (σ i)).occupied with - | -
      · rw [hfree hi] at hle
        exact absurd (hle.trans (hsmall (σ j))) (Nat.not_succ_le_self _)
      · rw [hocc hi] at hle
        refine ⟨rfl, lt_of_le_of_ne hle ?_⟩
        intro htag
        exact hij.ne (σ.injective (hdistinct _ _ hi hj htag))

end Rows

/-! ### The rows of a run -/

/-- The tag in a row, free or not, is the place of an instruction that has been dispatched. -/
theorem Reached.tag_le {trace : List TraceInst} {stage : Stage} (h : Reached conf qsort trace stage s)
    (i : Fin conf.scheduleQueueSize) : s.tag i ≤ s.dispatchQueueHead := by
  refine h.step_invariant (P := fun s => ∀ i, s.tag i ≤ s.dispatchQueueHead)
    (fun _ => Nat.le_refl 0) ?_ i
  intro s s' hs htag hstep i
  cases hstep with
  | locals h =>
      rw [Proc.tag_congr (congrFun (congrArg Proc.scheduleQueue h) i),
        congrArg Proc.dispatchQueueHead h]
      exact htag i
  | completes k =>
      obtain ⟨branchTable, ghr, e⟩ := s.completeRow_eq k
      rw [completeRow_tag, show (s.completeRow k).dispatchQueueHead = _ from
        congrArg Proc.dispatchQueueHead e]
      exact htag i
  | executes k =>
      have hsame := (executeRow_same k s).1
      rw [hsame.tag, hsame.dispatchQueueHead]
      exact htag i
  | schedules k =>
      have hsame := (scheduleRow_same k s).1
      rw [hsame.tag, hsame.dispatchQueueHead]
      exact htag i
  | marks => exact htag i
  | skips k => exact (htag i).trans (Nat.le_add_right _ _)
  | places k inst _ hget =>
      rw [Proc.placeRow_head]
      rcases eq_or_ne i k with rfl | hik
      · rw [placeRow_tag hs.queueOk hget]
        exact Nat.le_succ _
      · rw [placeRow_tag_of_ne inst hik]
        exact Nat.le_succ_of_le (htag i)
  | fetches => exact htag i
  | releases =>
      obtain ⟨cumulativeSize, e⟩ := endCycle_eq qsort hs
      obtain ⟨σ, hσ⟩ := endCycle_reorders qsort hs
      have hrow : (s.endCycle qsort).tag i = (s.released (σ i)).instr.sequentialTag :=
        congrArg (fun row : Row => row.instr.sequentialTag) (hσ i)
      rw [hrow, released_tag, show (s.endCycle qsort).dispatchQueueHead = _ from
        congrArg Proc.dispatchQueueHead e]
      exact htag (σ i)

/-- **When `compare_sq` is a legal ordering.** -/
theorem toSort_legalOrdering_iff {trace : List TraceInst}
    (h : Reached conf qsort trace .updateState2 s) :
    LegalOrdering s.toSort ↔ FreeRowsUsed s.toSort := by
  have hs := h.ledger.books
  have hsize : s.dispatchQueueHead ≤ dqDataStructureSize :=
    hs.queueOk.size.1.trans hs.queueOk.tail_le
  rw [show s.toSort = s.released from hs.freed_rows]
  refine legalOrdering_iff ?_ ?_
  · intro i
    rw [released_tag]
    exact (h.tag_le i).trans hsize
  · intro i j hi hj hij
    rw [released_tag, released_tag] at hij
    exact hs.rowsOk.distinct i j (released_occupied.mp hi).1 (released_occupied.mp hj).1 hij

/-- One addition. -/
def oneAdd : List TraceInst := [⟨0, .add, none, fun _ => none, 0, false⟩]

/-- In the second cycle the addition, the first instruction, has been dispatched. -/
theorem toSort_legalOrdering_iff_oneAdd : ∃ s : Proc smallConf,
    (s.toSort ⟨0, by decide⟩).occupied = true ∧ (LegalOrdering s.toSort ↔ FreeRowsUsed s.toSort) := by
  have h₁ : Reached smallConf (keepOrder smallConf) oneAdd .updateState _ :=
    Reached.cycle .setup rfl rfl
  have h₂ : Reached _ _ _ .updateState2 _ := h₁.fetched rfl rfl
  exact ⟨_, rfl, toSort_legalOrdering_iff h₂⟩

/-- In that cycle the row of the addition is equal to the rows that have never been used. -/
theorem not_legalOrdering : ¬∀ (conf : ProcConf) (qsort : Qsort conf) (trace : List TraceInst)
    (s : Proc conf), Reached conf qsort trace .updateState2 s → LegalOrdering s.toSort := by
  intro h
  have h₁ : Reached smallConf (keepOrder smallConf) oneAdd .updateState _ :=
    Reached.cycle .setup rfl rfl
  have h₂ : Reached _ _ _ .updateState2 _ := h₁.fetched rfl rfl
  have hlt := (h _ _ _ _ h₂).occupied_first ⟨0, by decide⟩ ⟨1, by decide⟩ rfl rfl
  exact absurd hlt (by decide +kernel)

end ProjectArchive.Tomasulo
