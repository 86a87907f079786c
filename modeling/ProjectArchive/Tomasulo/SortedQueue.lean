/-
ProjectArchive/Tomasulo/SortedQueue.lean

The sort at the end of a cycle, when `qsort` is the merge sort of the C library.

`compare_sq` is no order.  It compares two occupied rows by their tags, puts an
occupied row before a free one, and takes two free rows to be equal; but a free
row whose last tag is zero, such as one that has never been used, is equal to
everything.  `Shape` says where such a row can stand: at the front, or behind
all rows that have been used.  Then `compare_sq` agrees with `sortKey` on every
pair of rows that the sort can ask about, and the rows that are occupied come
out in program order.
-/
import ProjectArchive.Library.MergeSort
import ProjectArchive.Tomasulo.Steps

namespace ProjectArchive.Tomasulo

open Sweep MergeSort

/-! ### `qsort` -/

/-- `compare_sq(a, b) <= 0`. -/
def sqLe (a b : Row) : Bool := decide (compareSq a b ≤ 0)

/-- `qsort` as a merge sort. -/
def glibcQsort (conf : ProcConf) : Qsort conf where
  run _ rows := arrange sqLe rows
  perm _ rows := ⟨arrangement sqLe rows, rfl⟩

/-! ### The order of the rows -/

section Rows

variable {n : ℕ} {rows rows' : Fin n → Row}

/-- Behind the first row, a row whose last tag is zero is free, and it is
followed by such rows only. -/
def Shape (rows : Fin n → Row) : Prop :=
  ∀ i j, 0 < i.val → i ≤ j → (rows i).instr.sequentialTag = 0 →
    (rows j).occupied = false ∧ (rows j).instr.sequentialTag = 0

/-- The occupied rows stand in program order. -/
def Sorted (rows : Fin n → Row) : Prop :=
  ∀ i j, i < j → (rows i).occupied = true → (rows j).occupied = true →
    (rows i).instr.sequentialTag < (rows j).instr.sequentialTag

theorem Shape.same (h : Shape rows) (hsame : ∀ i, (rows i).Same (rows' i)) : Shape rows' := by
  intro i j hi hij h0
  rw [(hsame i).tag] at h0
  rw [(hsame j).occupied, (hsame j).tag]
  exact h i j hi hij h0

theorem Sorted.same (h : Sorted rows) (hsame : ∀ i, (rows i).Same (rows' i)) : Sorted rows' := by
  intro i j hij hi hj
  rw [(hsame i).occupied] at hi
  rw [(hsame j).occupied] at hj
  rw [(hsame i).tag, (hsame j).tag]
  exact h i j hij hi hj

/-- What the rows are sorted by. -/
def sortKey (rows : Fin n → Row) (i : Fin n) : ℕ :=
  if (rows i).occupied then (rows i).instr.sequentialTag
  else if (rows i).instr.sequentialTag ≠ 0 then dqDataStructureSize
  else if i.val = 0 then 0
  else dqDataStructureSize + 1

/-- The tags are small: those of occupied rows are places in the dispatch queue. -/
def SmallTags (rows : Fin n → Row) : Prop :=
  ∀ i, (rows i).instr.sequentialTag ≤ dqDataStructureSize ∧
    ((rows i).occupied = true → (rows i).instr.sequentialTag < dqDataStructureSize)

/-- With small tags nothing is lost when the difference is returned. -/
theorem compareSq_eq {a b : Row} (ha : a.instr.sequentialTag ≤ dqDataStructureSize)
    (hb : b.instr.sequentialTag ≤ dqDataStructureSize) :
    compareSq a b = (if b.occupied then (a.instr.sequentialTag : ℤ) else 0) -
      if a.occupied then (b.instr.sequentialTag : ℤ) else 0 := by
  unfold dqDataStructureSize at ha hb
  unfold compareSq
  rcases a.occupied with - | - <;> rcases b.occupied with - | - <;>
    simp only [Bool.toNat_true, Bool.toNat_false, if_true, if_false, Bool.false_eq_true] <;>
    rw [Int.bmod_eq_of_le (by omega) (by omega)] <;> omega

theorem sortKey_of_occupied {i : Fin n} (h : (rows i).occupied = true) :
    sortKey rows i = (rows i).instr.sequentialTag := by
  unfold sortKey
  rw [if_pos h]

theorem sortKey_of_used {i : Fin n} (h : (rows i).occupied = false)
    (h0 : (rows i).instr.sequentialTag ≠ 0) : sortKey rows i = dqDataStructureSize := by
  unfold sortKey
  rw [if_neg (by simp [h]), if_pos h0]

theorem sortKey_of_unused {i : Fin n} (h : (rows i).occupied = false)
    (h0 : (rows i).instr.sequentialTag = 0) (hi : 0 < i.val) :
    sortKey rows i = dqDataStructureSize + 1 := by
  unfold sortKey
  rw [if_neg (by simp [h]), if_neg (by simp [h0]), if_neg (Nat.ne_of_gt hi)]

/-- A free row that is not the first one comes after the occupied rows. -/
theorem le_sortKey_of_free {i : Fin n} (h : (rows i).occupied = false) (hi : 0 < i.val) :
    dqDataStructureSize ≤ sortKey rows i := by
  rcases eq_or_ne (rows i).instr.sequentialTag 0 with h0 | h0
  · rw [sortKey_of_unused h h0 hi]
    exact Nat.le_succ _
  · rw [sortKey_of_used h h0]

theorem sortKey_of_first {i : Fin n} (hi : i.val = 0) (h0 : (rows i).instr.sequentialTag = 0) :
    sortKey rows i = 0 := by
  simp [sortKey, hi, h0]

/-- The row with the least key. -/
theorem first_of_sortKey (hshape : Shape rows) {i : Fin n} (h : sortKey rows i = 0) :
    i.val = 0 := by
  by_contra hi
  have hpos : 0 < i.val := Nat.pos_of_ne_zero hi
  rcases ei : (rows i).occupied with - | -
  · have hle := le_sortKey_of_free ei hpos
    rw [h] at hle
    exact absurd hle (by decide)
  · rw [sortKey_of_occupied ei] at h
    have hfree := (hshape i i hpos (Nat.le_refl _) h).1
    rw [ei] at hfree
    cases hfree

/-- The rows with the greatest key. -/
theorem unused_of_lt_sortKey (hsmall : SmallTags rows) {i : Fin n}
    (h : dqDataStructureSize < sortKey rows i) :
    (rows i).occupied = false ∧ (rows i).instr.sequentialTag = 0 := by
  rcases ei : (rows i).occupied with - | -
  · refine ⟨rfl, ?_⟩
    by_contra h0
    rw [sortKey_of_used ei h0] at h
    exact Nat.lt_irrefl _ h
  · rw [sortKey_of_occupied ei] at h
    exact absurd h (Nat.not_lt.mpr (hsmall i).1)

/-- `compare_sq` agrees with the key on every row and a later one. -/
theorem sqLe_eq_sortKey (hshape : Shape rows) (hsmall : SmallTags rows) {i j : Fin n} (hij : i < j) :
    sqLe (rows i) (rows j) = decide (sortKey rows i ≤ sortKey rows j) := by
  unfold sqLe
  rw [decide_eq_decide, compareSq_eq (hsmall i).1 (hsmall j).1]
  have hj : 0 < j.val := Nat.zero_lt_of_lt hij
  rcases ei : (rows i).occupied with - | - <;> rcases ej : (rows j).occupied with - | - <;>
    simp only [if_true, if_false, Bool.false_eq_true]
  · -- two free rows are equal
    refine iff_of_true (Int.le_refl 0) ?_
    rcases eq_or_ne (rows i).instr.sequentialTag 0 with h0 | h0
    · rcases Nat.eq_zero_or_pos i.val with hi | hi
      · rw [sortKey_of_first hi h0]
        exact Nat.zero_le _
      · rw [sortKey_of_unused ei h0 hi, sortKey_of_unused ej (hshape i j hi hij.le h0).2 hj]
    · rw [sortKey_of_used ei h0]
      exact le_sortKey_of_free ej hj
  · -- a free row and an occupied one
    have hlt := (hsmall j).2 ej
    rw [sortKey_of_occupied ej]
    rcases eq_or_ne (rows i).instr.sequentialTag 0 with h0 | h0
    · rcases Nat.eq_zero_or_pos i.val with hi | hi
      · rw [sortKey_of_first hi h0, h0]
        exact iff_of_true (Int.le_refl 0) (Nat.zero_le _)
      · have hfree := (hshape i j hi hij.le h0).1
        rw [ej] at hfree
        cases hfree
    · rw [sortKey_of_used ei h0]
      refine iff_of_false ?_ (Nat.not_le_of_lt hlt)
      omega
  · -- an occupied row and a free one
    have hlt := (hsmall i).2 ei
    rw [sortKey_of_occupied ei]
    exact iff_of_true (by omega) (hlt.le.trans (le_sortKey_of_free ej hj))
  · rw [sortKey_of_occupied ei, sortKey_of_occupied ej]
    omega

/-- The sort puts the occupied rows into program order, and keeps the shape. -/
theorem arrange_sorted (hshape : Shape rows) (hsmall : SmallTags rows)
    (hdistinct : ∀ i j, (rows i).occupied = true → (rows j).occupied = true →
      (rows i).instr.sequentialTag = (rows j).instr.sequentialTag → i = j) :
    Sorted (arrange sqLe rows) ∧ Shape (arrange sqLe rows) := by
  have hmono := arrangement_monotone fun i j hij => sqLe_eq_sortKey hshape hsmall hij
  show Sorted (rows ∘ arrangement sqLe rows) ∧ Shape (rows ∘ arrangement sqLe rows)
  generalize arrangement sqLe rows = σ at hmono ⊢
  constructor
  · intro k l hkl hk hl
    show (rows (σ k)).instr.sequentialTag < (rows (σ l)).instr.sequentialTag
    have hle : sortKey rows (σ k) ≤ sortKey rows (σ l) := hmono hkl.le
    rw [sortKey_of_occupied (i := σ k) hk, sortKey_of_occupied (i := σ l) hl] at hle
    refine Nat.lt_of_le_of_ne hle ?_
    intro heq
    exact hkl.ne (σ.injective (hdistinct _ _ hk hl heq))
  · intro k l hk hkl h0
    show (rows (σ l)).occupied = false ∧ (rows (σ l)).instr.sequentialTag = 0
    have h0' : (rows (σ k)).instr.sequentialTag = 0 := h0
    -- a row whose tag is zero comes from behind the first row: that one stays in front
    have hpos : 0 < (σ k).val := by
      refine Nat.pos_of_ne_zero ?_
      intro hzero
      have hle : sortKey rows (σ ⟨0, Fin.pos k⟩) ≤ sortKey rows (σ k) := hmono (Nat.zero_le k.val)
      rw [sortKey_of_first hzero h0', Nat.le_zero] at hle
      have hfirst := (first_of_sortKey hshape hle).trans hzero.symm
      have hk0 := congrArg Fin.val (σ.injective (Fin.ext hfirst))
      exact Nat.ne_of_gt hk hk0.symm
    have hfree := hshape (σ k) (σ k) hpos (Nat.le_refl _) h0'
    have hle : sortKey rows (σ k) ≤ sortKey rows (σ l) := hmono hkl
    rw [sortKey_of_unused hfree.1 h0' hpos] at hle
    exact unused_of_lt_sortKey hsmall hle

end Rows

/-! ### The order in a run -/

variable {conf : ProcConf} {prog : List TraceInst} {s s' : Proc conf}

/-- The stages before which the rows are in order: new instructions are put
wherever there is room. -/
def Stage.InOrder : Stage → Prop
  | .updateState | .executeInstr | .scheduleInstr => True
  | _ => False

/-- The rows before `stage`. -/
structure Lined (stage : Stage) (s : Proc conf) : Prop where
  shape : Shape s.scheduleQueue
  tag_le : ∀ i, s.tag i ≤ s.dispatchQueueHead
  sorted : stage.InOrder → Sorted s.scheduleQueue

theorem lined_setup (trace : List TraceInst) : Lined .updateState (setupProc conf trace) where
  shape := fun _ _ _ _ _ => ⟨rfl, rfl⟩
  tag_le := fun _ => Nat.le_refl 0
  sorted := by
    intro _ i _ _ hi
    cases hi

/-- The instructions stay in their rows. -/
theorem Lined.same {stage stage' : Stage} (h : Lined stage s)
    (hrows : ∀ i, (s.scheduleQueue i).Same (s'.scheduleQueue i))
    (hhead : s'.dispatchQueueHead = s.dispatchQueueHead) (horder : stage'.InOrder → stage.InOrder) :
    Lined stage' s' where
  shape := h.shape.same hrows
  tag_le := by
    intro i
    rw [hhead, show s'.tag i = s.tag i from (hrows i).tag]
    exact h.tag_le i
  sorted := fun hstage => (h.sorted (horder hstage)).same hrows

/-- A row that is filled while all rows before it are occupied. -/
theorem Shape.placeRow (h : Shape s.scheduleQueue) (hs : Books prog s)
    {i : Fin conf.scheduleQueueSize} {inst : Inst}
    (hfull : ∀ k < i, (s.scheduleQueue k).occupied = true)
    (hget : s.dispatchQueue[s.dispatchQueueHead]? = some inst) :
    Shape (s.placeRow i inst).scheduleQueue := by
  have htag : ((s.placeRow i inst).scheduleQueue i).instr.sequentialTag = s.dispatchQueueHead := by
    rw [s.placeRow_self]
    exact hs.queueOk.tags _ _ hget
  -- the tag is not zero behind the first row
  have hhead : 0 < i.val → s.dispatchQueueHead ≠ 0 := by
    intro hi
    have hocc := hfull ⟨0, Fin.pos i⟩ hi
    exact Nat.ne_of_gt (Nat.zero_lt_of_lt (hs.rowsOk.row _ hocc).lt)
  intro k l hk hkl h0
  rcases eq_or_ne k i with rfl | hki
  · rw [htag] at h0
    exact absurd h0 (hhead hk)
  · rw [s.placeRow_of_ne inst hki] at h0
    rcases eq_or_ne l i with rfl | hli
    · have hocc := hfull k (lt_of_le_of_ne hkl hki)
      rw [(h k k hk (Nat.le_refl _) h0).1] at hocc
      cases hocc
    · rw [s.placeRow_of_ne inst hli]
      exact h k l hk hkl h0

/-- The state in the loop of `dispatch_instr`, before the round `m`. -/
structure Filling (prog : List TraceInst) (m : ℕ) (s : Proc conf) : Prop where
  books : Books prog s
  shape : Shape s.scheduleQueue
  tag_le : ∀ i, s.tag i ≤ s.dispatchQueueHead
  full : s.dispatching = true → ∀ i : Fin conf.scheduleQueueSize, i.val < m →
    (s.scheduleQueue i).occupied = true

theorem Filling.dispatchRow {i : Fin conf.scheduleQueueSize} (h : Filling prog i s) :
    Filling prog (i + 1) (s.dispatchRow i) := by
  have hbooks : Books prog (s.dispatchRow i) :=
    (dispatchRow_induction (P := fun _ => True) (fun _ _ _ => trivial) (fun _ _ _ _ _ => trivial)
      (fun _ _ _ _ _ _ _ _ => trivial) i h.books trivial).1
  have hcases := s.dispatchRow_cases i h.books.queueOk.size
  generalize s.dispatchRow i = s' at hcases hbooks ⊢
  have hleft : ∀ {a : Proc conf} {k : ℕ}, a.dispatching = false →
      a.dispatching = true → ∀ j : Fin conf.scheduleQueueSize, j.val < k →
        (a.scheduleQueue j).occupied = true := by
    intro a k hfalse htrue
    rw [hfalse] at htrue
    cases htrue
  have hsucc : ∀ {j : Fin conf.scheduleQueueSize}, j.val < i.val + 1 → j ≠ i → j.val < i.val :=
    fun hj hne => lt_of_le_of_ne (Nat.le_of_lt_succ hj) (Fin.val_ne_of_ne hne)
  cases hcases with
  | stopped hstop => exact ⟨h.books, h.shape, h.tag_le, hleft hstop⟩
  | empty => exact ⟨hbooks, h.shape, h.tag_le, hleft rfl⟩
  | full hdisp _ hocc =>
      refine ⟨h.books, h.shape, h.tag_le, ?_⟩
      intro _ j hj
      rcases eq_or_ne j i with rfl | hji
      · exact hocc
      · exact h.full hdisp j (hsucc hj hji)
  | ends k =>
      exact ⟨hbooks, h.shape, fun j => (h.tag_le j).trans (Nat.le_add_right _ _), hleft rfl⟩
  | places k inst hdisp hfree hnops hget hop =>
      have hskip := h.books.skip hnops
      have hshape : Shape (s.skip k).scheduleQueue := h.shape
      refine ⟨hbooks, hshape.placeRow hskip (fun j hj => h.full hdisp j hj) hget, ?_, ?_⟩
      · intro j
        rw [Proc.placeRow_head]
        rcases eq_or_ne j i with rfl | hji
        · rw [placeRow_tag hskip.queueOk hget]
          exact Nat.le_succ _
        · rw [placeRow_tag_of_ne inst hji]
          exact Nat.le_succ_of_le ((h.tag_le j).trans (Nat.le_add_right _ _))
      · intro _ j hj
        rcases eq_or_ne j i with rfl | hji
        · rw [Proc.placeRow_self]
          rfl
        · rw [Proc.placeRow_of_ne _ inst hji]
          exact h.full hdisp j (hsucc hj hji)

theorem Lined.dispatchInstr (h : Lined .dispatchInstr s) (hs : Books prog s) :
    Lined .fetchInstr s.dispatchInstr := by
  unfold Proc.dispatchInstr
  dsimp only
  split
  · exact ⟨h.shape, h.tag_le, fun hstage => hstage.elim⟩
  · have hsame : SameBooks s.markDispatch { s.markDispatch with dispatching := true } := {}
    have hpass : Filling prog conf.scheduleQueueSize
        (sweep Proc.dispatchRow { s.markDispatch with dispatching := true }) :=
      sweep_induction (Filling prog)
        ⟨hsame.books hs.markDispatch, h.shape, h.tag_le,
          fun _ i hi => absurd hi (Nat.not_lt_zero i.val)⟩
        fun i a ha => ha.dispatchRow
    exact ⟨hpass.shape, hpass.tag_le, fun hstage => hstage.elim⟩

theorem Lined.fetchStage (h : Lined .fetchInstr s) (hfetch : s.fetchStage = .ok s') :
    Lined .updateState2 s' := by
  have hrows : s'.scheduleQueue = s.scheduleQueue ∧ s'.dispatchQueueHead = s.dispatchQueueHead :=
    Proc.fetchStage_induction (P := fun a : Proc conf => a.scheduleQueue = s.scheduleQueue ∧
      a.dispatchQueueHead = s.dispatchQueueHead) (fun _ _ _ ha _ _ => ha) (fun _ _ ha => ha)
      ⟨rfl, rfl⟩ hfetch
  refine h.same ?_ hrows.2 id
  intro i
  rw [hrows.1]
  exact Row.Same.refl _

theorem released_tag (s : Proc conf) (k : Fin conf.scheduleQueueSize) :
    (s.released k).instr.sequentialTag = s.tag k := by
  unfold Proc.released Proc.tag
  split
  · rfl
  · rfl

theorem Lined.endCycle (h : Lined .updateState2 s) (hs : Books prog s) :
    Lined .updateState (s.endCycle (glibcQsort conf)) := by
  obtain ⟨cumulativeSize, e⟩ := endCycle_eq (glibcQsort conf) hs
  have hhead : s.dispatchQueueHead ≤ dqDataStructureSize :=
    hs.queueOk.size.1.trans hs.queueOk.tail_le
  have hshape : Shape s.released := by
    intro i j hi hij h0
    rw [released_tag] at h0 ⊢
    obtain ⟨hfree, h0'⟩ := h.shape i j hi hij h0
    refine ⟨?_, h0'⟩
    by_contra hocc
    rw [(released_occupied.mp (Bool.eq_true_of_not_eq_false hocc)).1] at hfree
    cases hfree
  have hsmall : SmallTags s.released := by
    intro i
    rw [released_tag]
    refine ⟨(h.tag_le i).trans hhead, ?_⟩
    intro hocc
    exact (hs.rowsOk.row i (released_occupied.mp hocc).1).lt.trans_le hhead
  obtain ⟨hsorted, hshape'⟩ := arrange_sorted hshape hsmall (by
    intro i j hi hj hij
    rw [released_tag, released_tag] at hij
    exact hs.rowsOk.distinct i j (released_occupied.mp hi).1 (released_occupied.mp hj).1 hij)
  rw [e]
  refine ⟨hshape', ?_, fun _ => hsorted⟩
  intro i
  show (s.released (arrangement sqLe s.released i)).instr.sequentialTag ≤ s.dispatchQueueHead
  rw [released_tag]
  exact h.tag_le _

/-- Before every stage of a run the rows are lined up. -/
theorem Reached.lined {trace : List TraceInst} {stage : Stage}
    (h : Reached conf (glibcQsort conf) trace stage s) : Lined stage s := by
  refine h.invariant_of (Ledger trace) Lined Reached.ledger (lined_setup trace) ?_
  intro stage s s' hledger hs hrun
  cases stage with
  | updateState =>
      obtain rfl := Except.ok.inj hrun
      exact hs.same (beginCycle_updated s).rows (beginCycle_updated s).dispatchQueueHead id
  | executeInstr =>
      obtain rfl := Except.ok.inj hrun
      have hsame := (executeInstr_same s).1
      exact hs.same hsame.rows hsame.dispatchQueueHead id
  | scheduleInstr =>
      obtain rfl := Except.ok.inj hrun
      have hsame := (scheduleInstr_same s).1
      exact hs.same hsame.rows hsame.dispatchQueueHead False.elim
  | dispatchInstr =>
      obtain rfl := Except.ok.inj hrun
      exact hs.dispatchInstr hledger.books
  | fetchInstr => exact hs.fetchStage hrun
  | updateState2 =>
      obtain rfl := Except.ok.inj hrun
      exact hs.endCycle hledger.books

end ProjectArchive.Tomasulo
