/-
ProjectArchive/Scheduler/Student.lean

The handlers of the CPU scheduler, as the critical sections they run.

Each handler locks a mutex, works on the ready queue or on `current[]`, and
unlocks it; what it does between two sections (the state it writes into a PCB,
the choice of a time slice) goes with the section next to it.  The sections are
functions on the variables of the scheduler.  In which order the CPU threads
and the simulator run them is said by the transition systems built on them.
-/
import ProjectArchive.Scheduler.ReadyQueue
import Mathlib.Algebra.Group.Int.Defs
import Mathlib.Algebra.Group.Nat.Defs
import Mathlib.Data.Int.Basic

namespace ProjectArchive.Scheduler

open Exec

/-- `process_state_t`. -/
inductive ProcessState
  | new | ready | running | waiting | terminated
  deriving DecidableEq, Repr

/-- `mode`. -/
inductive Mode
  | f | l | r
  deriving DecidableEq, Repr

/-- What is left of a number in an `unsigned int`. -/
def toUnsigned (x : ℕ) : ℕ := x % 2 ^ 32

/-- The cast of an `unsigned int` to `int`. -/
def toInt (x : ℕ) : ℤ := Int.bmod x (2 ^ 32)

theorem toUnsigned_of_lt {x : ℕ} (h : x < 2 ^ 32) : toUnsigned x = x := Nat.mod_eq_of_lt h

/-- Adding one commutes with the truncation. -/
theorem toUnsigned_succ (x : ℕ) : toUnsigned (toUnsigned x + 1) = toUnsigned (x + 1) := by
  unfold toUnsigned
  omega

/-- A value below `2 ^ 31` is kept by the cast. -/
theorem toInt_of_lt {x : ℕ} (h : x < 2 ^ 31) : toInt x = x := by
  unfold toInt
  exact Int.bmod_eq_of_le_mul_two (by omega) (by omega)

/-- The next one becomes the least `int`. -/
theorem toInt_two_pow : toInt (2 ^ 31) = -2 ^ 31 := rfl

/-- The variables of the scheduler, and the fields of the PCBs it uses. -/
structure Student (n : ℕ) where
  readyQueue : LinkedQueue
  current : Fin n → Option Pid
  state : Pid → ProcessState
  timeRemaining : Pid → ℕ

namespace Student

variable {n : ℕ}

/-- `process->state = st`. -/
def setState (s : Student n) (process : Pid) (st : ProcessState) : Student n :=
  { s with state := Function.update s.state process st }

/-- `schedule`, up to the call of `context_switch`. -/
def schedule (s : Student n) : Except Fault (Option Pid × Student n) := do
  let (readyProcess, queue) ← queuePop s.readyQueue
  let s := { s with readyQueue := queue }
  match readyProcess with
  | none => return (none, s)
  | some process => return (some process, s.setState process .running)

/-- The time slice `schedule` passes to `context_switch`. -/
def preemptionTime (mode : Mode) (timeslice : ℕ) (s : Student n) : Option Pid → ℤ
  | none => -1
  | some process =>
      match mode with
      | .f => -1
      | .l => toInt (s.timeRemaining process)
      | .r => toInt timeslice

/-- `schedule`, after the call of `context_switch`. -/
def setCurrent (s : Student n) (cpu : Fin n) (process : Pid) : Student n :=
  { s with current := Function.update s.current cpu (some process) }

/-- The loop condition of `idle`. -/
def isEmpty (s : Student n) : Bool := s.readyQueue.head.isNone

/-- `current[cpu_id]->state = st`; the process. -/
def mark (s : Student n) (cpu : Fin n) (st : ProcessState) : Except Fault (Pid × Student n) :=
  match s.current cpu with
  | none => .error .nullPointer
  | some process => .ok (process, s.setState process st)

/-- The first section of `preempt`. -/
def preempt (s : Student n) (cpu : Fin n) : Except Fault (Pid × Student n) := s.mark cpu .ready

/-- The second section of `preempt`. -/
def pushBack (s : Student n) (nowRunning : Pid) : Except Fault (Student n) := do
  let (_, queue) ← queueOrderedPush s.timeRemaining s.readyQueue nowRunning
  return { s with readyQueue := queue }

/-- `yield`, up to `schedule`. -/
def yield (s : Student n) (cpu : Fin n) : Except Fault (Pid × Student n) := s.mark cpu .waiting

/-- `terminate`, up to `schedule`. -/
def terminate (s : Student n) (cpu : Fin n) : Except Fault (Pid × Student n) :=
  s.mark cpu .terminated

/-- The first section of `wake_up`. -/
def wakeUp (mode : Mode) (s : Student n) (process : Pid) : Except Fault (Student n) := do
  let s := s.setState process .ready
  let (_, queue) ← match mode with
    | .l => queueOrderedPush s.timeRemaining s.readyQueue process
    | .f | .r => queuePush s.readyQueue process
  return { s with readyQueue := queue }

/-- The loop of `wake_up` over the CPUs: `force_empt`, `shortest_remaining_time`
and `shortest_cpuid`. -/
def shortest (s : Student n) : List (Fin n) → ℕ → Option (Fin n) → Bool × ℕ × Option (Fin n)
  | [], time, cpu => (true, time, cpu)
  | i :: is, time, cpu =>
      match s.current i with
      | none => (false, time, cpu)
      | some process =>
          if s.timeRemaining process < time ∨ time = 0 then
            shortest s is (s.timeRemaining process) (some i)
          else shortest s is time cpu

/-- The second section of `wake_up` in mode `l`: the CPU to preempt, if any. -/
def preempted (s : Student n) (process : Pid) : Option (Fin n) :=
  let (forceEmpt, time, cpu) := shortest s (List.finRange n) 0 none
  if forceEmpt ∧ time < s.timeRemaining process then cpu else none

/-! ### What the sections do -/

/-- The ready queue after `wake_up` has pushed. -/
def pushed (mode : Mode) (time : Pid → ℕ) (process : Pid) (queue : List Pid) : List Pid :=
  match mode with
  | .l => orderedInsert time process queue
  | .f | .r => queue ++ [process]

theorem pushed_perm (mode : Mode) (time : Pid → ℕ) (p : Pid) (ps : List Pid) :
    (pushed mode time p ps).Perm (p :: ps) := by
  cases mode with
  | f => exact List.perm_append_singleton p ps
  | r => exact List.perm_append_singleton p ps
  | l => exact orderedInsert_perm time p ps

section Specs

variable {s : Student n} {ps : List Pid} {p : Pid}

/-- `schedule` finds the ready queue empty. -/
theorem schedule_nil (h : Represents s.readyQueue []) :
    ∃ queue, Represents queue [] ∧ s.schedule = .ok (none, { s with readyQueue := queue }) := by
  obtain ⟨⟨q, queue⟩, he, hhead, hq⟩ := queuePop_represents h
  obtain rfl : q = none := hhead
  refine ⟨queue, hq, ?_⟩
  rw [schedule, he]
  rfl

/-- `schedule` pops a process. -/
theorem schedule_cons (h : Represents s.readyQueue (p :: ps)) :
    ∃ queue, Represents queue ps ∧
      s.schedule = .ok (some p, { s.setState p .running with readyQueue := queue }) := by
  obtain ⟨⟨q, queue⟩, he, hhead, hq⟩ := queuePop_represents h
  obtain rfl : q = some p := hhead
  refine ⟨queue, hq, ?_⟩
  rw [schedule, he]
  rfl

theorem mark_eq {cpu : Fin n} (h : s.current cpu = some p) (st : ProcessState) :
    s.mark cpu st = .ok (p, s.setState p st) := by
  rw [mark, h]

theorem pushBack_eq (h : Represents s.readyQueue ps) (p : Pid) :
    ∃ queue, Represents queue (orderedInsert s.timeRemaining p ps) ∧
      s.pushBack p = .ok { s with readyQueue := queue } := by
  obtain ⟨⟨c, queue⟩, he, hq⟩ := queueOrderedPush_represents s.timeRemaining h p
  refine ⟨queue, hq, ?_⟩
  rw [pushBack, he]
  rfl

theorem wakeUp_eq (mode : Mode) (h : Represents s.readyQueue ps) (p : Pid) :
    ∃ queue, Represents queue (pushed mode s.timeRemaining p ps) ∧
      wakeUp mode s p = .ok { s.setState p .ready with readyQueue := queue } := by
  -- both kinds of push leave a queue, and the rest of the section is the same
  have hpush : ∀ {x : Except Fault (ℕ × LinkedQueue)} {ps' : List Pid},
      (Ends x fun r => Represents r.2 ps') →
      ∃ queue, Represents queue ps' ∧
        (x >>= fun r => Except.ok { s.setState p .ready with readyQueue := r.2 }) =
          .ok { s.setState p .ready with readyQueue := queue } := by
    rintro x ps' ⟨⟨r, queue⟩, rfl, hq⟩
    exact ⟨queue, hq, rfl⟩
  cases mode with
  | f => exact hpush (queuePush_represents h p)
  | r => exact hpush (queuePush_represents h p)
  | l => exact hpush (queueOrderedPush_represents s.timeRemaining h p)

theorem isEmpty_iff (h : Represents s.readyQueue ps) : s.isEmpty = true ↔ ps = [] := by
  obtain ⟨l, hl, rfl⟩ := h
  cases l with
  | nil =>
      have hhead : s.readyQueue.head = none := hl.segment
      rw [isEmpty, hhead]
      exact iff_of_true rfl rfl
  | cons a l =>
      obtain ⟨hhead, nd, hnd, -⟩ := hl.segment
      rw [isEmpty, hhead, LinkedList.valuesAt_cons hnd]
      refine iff_of_false ?_ (List.cons_ne_nil _ _)
      exact Bool.false_ne_true

end Specs

/-! ### The remaining times -/

section Times

variable {s s' : Student n} {r : Option Pid × Student n} {q : Pid × Student n} {cpu : Fin n}
  {p : Pid}

/-- The sections of the handlers do not write the remaining times. -/
theorem schedule_time (h : s.schedule = .ok r) : r.2.timeRemaining = s.timeRemaining := by
  obtain ⟨⟨ready, queue⟩, -, hrest⟩ := bind_eq_ok h
  cases ready with
  | none =>
      obtain rfl := Except.ok.inj hrest
      rfl
  | some p =>
      obtain rfl := Except.ok.inj hrest
      rfl

theorem mark_time {st : ProcessState} (h : s.mark cpu st = .ok q) :
    q.2.timeRemaining = s.timeRemaining := by
  unfold mark at h
  split at h
  · cases h
  · obtain rfl := Except.ok.inj h
    rfl

theorem pushBack_time (h : s.pushBack p = .ok s') : s'.timeRemaining = s.timeRemaining := by
  obtain ⟨r, -, hrest⟩ := bind_eq_ok h
  obtain rfl := Except.ok.inj hrest
  rfl

theorem wakeUp_time {mode : Mode} (h : wakeUp mode s p = .ok s') :
    s'.timeRemaining = s.timeRemaining := by
  have hpush : ∀ {x : Except Fault (ℕ × LinkedQueue)},
      (x >>= fun r => Except.ok { s.setState p .ready with readyQueue := r.2 }) = .ok s' →
      s'.timeRemaining = s.timeRemaining := by
    intro x hx
    obtain ⟨r, -, hrest⟩ := bind_eq_ok hx
    obtain rfl := Except.ok.inj hrest
    rfl
  cases mode with
  | f => exact hpush h
  | l => exact hpush h
  | r => exact hpush h

end Times

end Student

end ProjectArchive.Scheduler
