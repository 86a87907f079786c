/-
ProjectArchive/Tomasulo/Counters.lean

The counters and the structures they count, at the end of a cycle.

An instruction that has been read is pending until it is completed or, for a
NOP, skipped.  The pending instructions are those in the rows and in the
dispatch queue, each in one place, and the loop of `run_proc` is left when there
is none and the trace is exhausted.  A trace that is exhausted is noticed one
cycle late, but then the instructions fetched last are still in the queue.
-/
import ProjectArchive.Tomasulo.Termination

namespace ProjectArchive.Tomasulo

open Sweep Loop

variable {conf : ProcConf} {prog : List TraceInst} {s s' : Proc conf} {qsort : Qsort conf}
  {stage : Stage}

/-! ### Pending instructions -/

/-- The instruction `t` has been read from the trace. -/
def Fetched (prog : List TraceInst) (s : Proc conf) (t : ℕ) : Prop :=
  t + s.trace.length < prog.length

/-- The instruction `t` is a NOP, and the head of the queue has passed it. -/
def Skipped (prog : List TraceInst) (s : Proc conf) (t : ℕ) : Prop :=
  t < s.dispatchQueueHead ∧ ∃ inst, prog[t]? = some inst ∧ inst.opcode = .nop

def Pending (prog : List TraceInst) (s : Proc conf) (t : ℕ) : Prop :=
  Fetched prog s t ∧ ¬ s.Completed t ∧ ¬ Skipped prog s t

/-- The instruction is the instruction `t` of the program. -/
def Inst.Is (inst : Inst) (prog : List TraceInst) (t : ℕ) : Prop :=
  inst.sequentialTag = t ∧ prog[t]? = some inst.toTraceInst

/-- An occupied row holds the instruction `t`. -/
def InRow (s : Proc conf) (t : ℕ) : Prop :=
  ∃ i, (s.scheduleQueue i).occupied = true ∧ s.tag i = t

/-- A slot from the head to the tail of the queue holds the instruction `t`. -/
def InQueue (s : Proc conf) (t : ℕ) : Prop :=
  ∃ k inst, s.dispatchQueueHead ≤ k ∧ k < s.dispatchQueueTail ∧
    s.dispatchQueue[k]? = some inst ∧ inst.sequentialTag = t

/-- The counters agree with the structures. -/
structure Agrees (prog : List TraceInst) (s : Proc conf) : Prop where
  size : s.dispatchQueueSize = (s.dispatchQueueTail : ℤ) - s.dispatchQueueHead
  size_nonneg : 0 ≤ s.dispatchQueueSize
  instCntSq : s.instCntSq = (Finset.univ.filter fun i => (s.scheduleQueue i).occupied = true).card
  finishedFu : ∀ m, s.finishedFu m = none
  row : ∀ i, (s.scheduleQueue i).occupied = true → (s.scheduleQueue i).instr.Is prog (s.tag i)
  slot : ∀ (k : ℕ) (inst : Inst), s.dispatchQueue[k]? = some inst → inst.Is prog k
  distinct : ∀ i j, (s.scheduleQueue i).occupied = true → (s.scheduleQueue j).occupied = true →
    s.tag i = s.tag j → i = j
  /-- The rows and the queue hold exactly the pending instructions. -/
  pending : ∀ t, InRow s t ∨ InQueue s t ↔ Pending prog s t
  older : ∀ t t', InRow s t → InQueue s t' → t < t'
  /-- `run_proc` leaves its loop when there is nothing left to read, complete or skip. -/
  leaves : s.continueBool = false ↔ s.trace = [] ∧ ∀ t, ¬ Pending prog s t

theorem Books.fetched_iff (h : Books prog s) (t : ℕ) : Fetched prog s t ↔ t < s.dispatchQueueTail := by
  have htail := h.tail_add
  unfold Fetched
  omega

theorem Books.inQueue_iff (h : Books prog s) (t : ℕ) :
    InQueue s t ↔ s.dispatchQueueHead ≤ t ∧ t < s.dispatchQueueTail := by
  constructor
  · rintro ⟨k, inst, hle, hlt, hget, htag⟩
    obtain rfl := (h.queueOk.tags k inst hget).symm.trans htag
    exact ⟨hle, hlt⟩
  · rintro ⟨hle, hlt⟩
    have hget : s.dispatchQueue[t]? = some s.dispatchQueue[t] := List.getElem?_eq_getElem hlt
    exact ⟨t, _, hle, hlt, hget, h.queueOk.tags t _ hget⟩

/-- A row at the end of a cycle holds an instruction that is neither completed nor a NOP. -/
theorem Ledger.pending_row (h : Ledger prog .updateState s) {t : ℕ} (ht : InRow s t) :
    t < s.dispatchQueueHead ∧ Pending prog s t := by
  obtain ⟨i, hocc, rfl⟩ := ht
  have hrow := h.books.rowsOk.row i hocc
  refine ⟨hrow.lt, ?_, fun hc => (h.phase.done i hocc).mp hc, ?_⟩
  · rw [h.books.fetched_iff]
    exact hrow.lt.trans_le h.books.queueOk.size.1
  · rintro ⟨-, inst, hget, hnop⟩
    obtain rfl := Option.some.inj (hrow.get.symm.trans hget)
    exact hrow.issued hnop

theorem Ledger.pending_iff (h : Ledger prog .updateState s) (t : ℕ) :
    InRow s t ∨ InQueue s t ↔ Pending prog s t := by
  constructor
  · rintro (hrow | hqueue)
    · exact (h.pending_row hrow).2
    · obtain ⟨hle, hlt⟩ := (h.books.inQueue_iff t).mp hqueue
      refine ⟨(h.books.fetched_iff t).mpr hlt, ?_, ?_⟩
      · intro hc
        exact Nat.not_lt.mpr hle (h.books.rowsOk.completed t hc).1
      · rintro ⟨hskipped, -⟩
        exact Nat.not_lt.mpr hle hskipped
  · rintro ⟨hfetched, hnot, hkept⟩
    have hlt := (h.books.fetched_iff t).mp hfetched
    rcases Nat.lt_or_ge t s.dispatchQueueHead with hpassed | hge
    · -- the head has passed it, so it is no NOP and has been dispatched
      have hread : t < prog.length := by
        have htail := h.books.tail_add
        omega
      have hget : prog[t]? = some prog[t] := List.getElem?_eq_getElem hread
      have hissues : Issues prog t := ⟨_, hget, fun hnop => hkept ⟨hpassed, _, hget, hnop⟩⟩
      exact .inl ((h.books.rowsOk.dispatched t hpassed hissues).resolve_left hnot)
    · exact .inr ((h.books.inQueue_iff t).mpr ⟨hge, hlt⟩)

/-! ### The end of the trace -/

/-- While `fetch_instr` reads on, the queue grows. -/
theorem fetchLoop_tail {iterations : ℕ} (h : Proc.fetchLoop iterations s = .ok (true, s')) :
    s'.dispatchQueueTail = s.dispatchQueueTail + iterations ∧
      s'.dispatchQueueHead = s.dispatchQueueHead := by
  induction iterations generalizing s with
  | zero =>
      obtain rfl : s = s' := by simpa [Proc.fetchLoop] using h
      exact ⟨rfl, rfl⟩
  | succ iterations ih =>
      rcases htrace : s.trace with - | ⟨inst, trace⟩
      · rw [Proc.fetchLoop_nil htrace] at h
        cases h
      · rw [Proc.fetchLoop_cons htrace] at h
        split at h
        · obtain ⟨htail, hhead⟩ := ih h
          have hone : (s.fetchOne inst trace).dispatchQueueTail = s.dispatchQueueTail + 1 := by
            show (s.dispatchQueue ++ [s.fetched inst]).length = _
            rw [List.length_append]
            rfl
          refine ⟨?_, hhead⟩
          rw [htail, hone]
          omega
        · cases h

/-- After a `fetch_instr` that has not come to the end of the trace, the queue is not empty. -/
theorem Reached.queue_of_continueFetch (h : Reached conf qsort prog stage s) :
    stage = .updateState2 → s.continueFetch = true → s.dispatchQueueHead < s.dispatchQueueTail := by
  refine h.invariant_of (Ledger prog) (fun stage s => stage = .updateState2 →
    s.continueFetch = true → s.dispatchQueueHead < s.dispatchQueueTail) Reached.ledger nofun ?_
  intro stage s s' hledger _ hrun hstage hmore
  obtain rfl : stage = .fetchInstr := by cases stage <;> first | rfl | cases hstage
  have hfetch : s.fetchStage = .ok s' := hrun
  unfold Proc.fetchStage at hfetch
  split at hfetch
  · obtain ⟨⟨more, s₁⟩, hloop, hend⟩ := Exec.bind_eq_ok hfetch
    obtain rfl := Except.ok.inj hend
    obtain rfl : more = true := hmore
    obtain ⟨htail, hhead⟩ := fetchLoop_tail hloop
    have hle := hledger.books.queueOk.size.1
    have hpos := conf.f_pos
    show s₁.dispatchQueueHead < s₁.dispatchQueueTail
    omega
  · rename_i hstopped
    obtain rfl := Except.ok.inj hfetch
    exact absurd hmore hstopped

/-! ### Runs -/

/-- The next cycle starts at the beginning of a run or where a cycle has ended. -/
theorem Reached.endsCycle (h : Reached conf qsort prog stage s) (hstage : stage = .updateState) :
    s = setupProc conf prog ∨
      ∃ s₀, Reached conf qsort prog .updateState2 s₀ ∧ s = s₀.endCycle qsort := by
  cases h with
  | setup => exact .inl rfl
  | @step stage s₀ _ h₀ _ hrun =>
      obtain rfl : stage = .updateState2 := by cases stage <;> first | rfl | cases hstage
      exact .inr ⟨s₀, h₀, (Except.ok.inj hrun).symm⟩

/-- With nothing left to do, nothing is pending, and conversely at the end of a cycle. -/
theorem Reached.busy_iff (h : Reached conf qsort prog .updateState2 s) :
    ¬ Busy (s.endCycle qsort) ↔
      (s.endCycle qsort).trace = [] ∧ ∀ t, ¬ Pending prog (s.endCycle qsort) t := by
  have hend : Reached conf qsort prog .updateState (s.endCycle qsort) := h.step nofun rfl
  have hledger := hend.ledger
  obtain ⟨cumulativeSize, e⟩ := endCycle_eq qsort h.ledger.books
  constructor
  · intro hidle
    unfold Busy at hidle
    simp only [not_or, not_exists, not_not] at hidle
    obtain ⟨hmore, hfree, hempty⟩ := hidle
    refine ⟨hend.fetching.drained (Bool.eq_false_of_not_eq_true hmore), ?_⟩
    intro t ht
    rcases (hledger.pending_iff t).mpr ht with ⟨i, hocc, -⟩ | hqueue
    · exact hfree i hocc
    · have hbounds := (hledger.books.inQueue_iff t).mp hqueue
      omega
  · rintro ⟨htrace, hnone⟩ hbusy
    -- the head of a queue that is not empty is pending
    have hempty : ¬ (s.endCycle qsort).dispatchQueueHead < (s.endCycle qsort).dispatchQueueTail :=
      fun hlt => hnone _ ((hledger.pending_iff _).mp
        (.inr ((hledger.books.inQueue_iff _).mpr ⟨le_rfl, hlt⟩)))
    rcases hbusy with hmore | ⟨i, hocc⟩ | hqueue
    · have hmore' : s.continueFetch = true := by
        rw [e] at hmore
        exact hmore
      have hlt := h.queue_of_continueFetch rfl hmore'
      rw [e] at hempty
      exact hempty hlt
    · exact hnone _ ((hledger.pending_iff _).mp (.inl ⟨i, hocc, rfl⟩))
    · exact hempty (Nat.lt_of_le_of_ne hledger.books.queueOk.size.1 hqueue)

/-- The counters agree at the end of every cycle. -/
theorem Reached.agrees (h : Reached conf qsort prog .updateState2 s) :
    Agrees prog (s.endCycle qsort) := by
  have hend : Reached conf qsort prog .updateState (s.endCycle qsort) := h.step nofun rfl
  have hledger := hend.ledger
  have hbooks := hledger.books
  constructor
  case size => exact hbooks.queueOk.size.2
  case size_nonneg =>
    obtain ⟨hle, hsize⟩ := hbooks.queueOk.size
    omega
  case instCntSq => exact hbooks.rowsOk.instCntSq
  case finishedFu =>
    intro m
    obtain ⟨cumulativeSize, e⟩ := endCycle_eq qsort h.ledger.books
    rw [e]
  case row =>
    intro i hocc
    exact ⟨rfl, (hbooks.rowsOk.row i hocc).get⟩
  case slot =>
    intro k inst hget
    exact ⟨hbooks.queueOk.tags k inst hget, hbooks.queueOk.get hget⟩
  case distinct => exact hbooks.rowsOk.distinct
  case pending => exact hledger.pending_iff
  case older =>
    -- rows lie before the head of the dispatch queue
    intro t t' hrow hqueue
    exact (hledger.pending_row hrow).1.trans_le ((hbooks.inQueue_iff t').mp hqueue).1
  case leaves =>
    -- the loop goes on as long as there is something to do
    rw [← h.busy_iff, ← hend.fetching.continues rfl, Bool.not_eq_true]

/-- **The counters agree with the structures** at the end of every cycle, and `run_proc`
returns when the trace is exhausted and nothing is left to complete or skip. -/
theorem counters_agree (conf : ProcConf) (qsort : Qsort conf) (prog : List TraceInst)
    (hlen : prog.length < dqDataStructureSize) :
    (∀ s, Reached conf qsort prog .updateState2 s → Agrees prog (s.endCycle qsort)) ∧
    ∃ s, (∃ N, ∀ fuel, N ≤ fuel → runProc conf qsort prog fuel = .ok (some s)) ∧
      s.trace = [] ∧ ∀ t, ¬ Pending prog s t := by
  refine ⟨fun s h => h.agrees, ?_⟩
  have hok : ∀ s, Reached conf qsort prog .fetchInstr s → ∃ s', s.fetchStage = .ok s' :=
    fun s hs => fetchStage_ok hlen hs.ledger.books
  obtain ⟨s, ⟨N, hN⟩, hreach, hidle⟩ := run_ends hok
  have hdone : s.trace = [] ∧ ∀ t, ¬ Pending prog s t := by
    rcases hreach.endsCycle rfl with rfl | ⟨s₀, h₀, rfl⟩
    · exact absurd (.inl rfl) hidle
    · exact h₀.busy_iff.mp hidle
  refine ⟨{ s with stats := { s.stats with cycleCount := s.stats.cycleCount - 1 } }, ⟨N, ?_⟩,
    hdone⟩
  intro fuel hfuel
  unfold runProc
  rw [hN fuel hfuel]
  rfl

/-- An addition, a load and a NOP. -/
def addLoadNop : List TraceInst :=
  [⟨0, .add, none, fun _ => none, 0, false⟩, ⟨4, .load, none, fun _ => none, 64, false⟩,
    ⟨8, .nop, none, fun _ => none, 0, false⟩]

/-- At the end of the third cycle, the addition and the load are on their units. -/
theorem counters_agree_addLoadNop : ∃ s : Proc smallConf,
    s.instCntSq = 2 ∧ s.addUnit = 0 ∧ s.lsUnit = 0 ∧ Agrees addLoadNop s := by
  have h₁ : Reached smallConf (keepOrder smallConf) addLoadNop .updateState _ :=
    Reached.cycle .setup rfl rfl
  have h₂ := h₁.cycle rfl rfl
  have h₃ := h₂.fetched rfl rfl
  exact ⟨_, rfl, rfl, rfl,
    (counters_agree smallConf (keepOrder smallConf) _ (by decide)).1 _ h₃⟩

end ProjectArchive.Tomasulo
