/-
ProjectArchive/Scheduler/Places.lean

No process is lost or duplicated.

Any number of CPU threads run the handlers, and any number of calls of
`wake_up` are in progress; the critical sections of all of them interleave.
The simulator calls `preempt`, `yield` and `terminate` on a CPU that executes a
process, one at a time, and `wake_up` once for a process that is created or
whose I/O request completes.  A process is in the ready queue, held by a CPU,
waiting for I/O, or inside a `wake_up` that has not pushed it.  These places
are counted; `Inv` says that the count is one for a process that has been
created and has not terminated, and zero for the others, and that `current[]`
names the process a CPU executes.
-/
import ProjectArchive.Scheduler.Student
import ProjectArchive.Library.Counting
import Mathlib.Logic.Relation

namespace ProjectArchive.Scheduler

open Exec

namespace Places

/-! ### The system -/

/-- The point a CPU thread has reached.  The processes it is given with are
those it has popped; they are not variables of the code, except in `switch`,
`install`, and the second one of `pushBack`. -/
inductive CpuPoint
  /-- In `idle`, before the ready queue has been found non-empty. -/
  | idle
  /-- In `schedule`, before the pop. -/
  | schedule
  /-- In `schedule`, before `context_switch`. -/
  | switch (readyProcess : Option Pid)
  /-- In `schedule`, before the write to `current[]`. -/
  | install (readyProcess : Pid)
  /-- The simulator executes the process. -/
  | running (process : Pid)
  /-- In `preempt`, before its first section. -/
  | preempt (process : Pid)
  /-- In `preempt`, before its second section. -/
  | pushBack (process nowRunning : Pid)
  /-- In `yield`, before its section. -/
  | yield (process : Pid)
  /-- In `terminate`, before its section. -/
  | terminate (process : Pid)
  deriving DecidableEq, Repr

/-- The point a call of `wake_up` has reached: before the push, before the loop
over the CPUs, before `force_preempt`, or before the signal. -/
inductive WakePoint (n : ℕ)
  | push | scan | force (cpu : Fin n) | signal
  deriving DecidableEq, Repr

/-- A call of `wake_up`. -/
structure Wake (n : ℕ) where
  process : Pid
  point : WakePoint n
  deriving DecidableEq, Repr

/-- What the simulator knows of a process. -/
inductive Life
  | uncreated | active | io | terminated
  deriving DecidableEq, Repr

/-- The process has been created and has not terminated. -/
def Life.alive : Life → Bool
  | .active | .io => true
  | .uncreated | .terminated => false

/-- The scheduler, its threads, and the simulator. -/
structure System (n : ℕ) where
  student : Student n
  cpu : Fin n → CpuPoint
  wakes : List (Wake n)
  life : Pid → Life

/-- The steps: the sections of the handlers, and the calls of the simulator. -/
inductive Action (n : ℕ)
  | idle (cpu : Fin n) | schedule (cpu : Fin n) | contextSwitch (cpu : Fin n)
  | setCurrent (cpu : Fin n)
  | callPreempt (cpu : Fin n) | preempt (cpu : Fin n) | pushBack (cpu : Fin n)
  | callYield (cpu : Fin n) | yield (cpu : Fin n)
  | callTerminate (cpu : Fin n) | terminate (cpu : Fin n)
  | create (process : Pid) | completeIo (process : Pid) | wakeUp (k : ℕ)
  /-- The simulator changes the remaining times. -/
  | tick (timeRemaining : Pid → ℕ)

/-- Why there is no next state: the step is not possible, or it crashes. -/
inductive Stop
  | disabled
  | crash (fault : Fault)
  deriving DecidableEq, Repr

variable {n : ℕ}

/-- The thread of a CPU goes on. -/
def System.goto (s : System n) (cpu : Fin n) (point : CpuPoint) : System n :=
  { s with cpu := Function.update s.cpu cpu point }

/-- A section of a handler. -/
def section_ {α : Type} (x : Except Fault α) : Except Stop α := x.mapError .crash

/-- One step.  `idle_cond` may wake a thread spuriously, so that a signal adds
nothing to what a waiting CPU can do: test the queue again. -/
def step (mode : Mode) (s : System n) : Action n → Except Stop (System n)
  | .idle c =>
      match s.cpu c with
      | .idle => if s.student.isEmpty then .error .disabled else .ok (s.goto c .schedule)
      | _ => .error .disabled
  | .schedule c =>
      match s.cpu c with
      | .schedule => do
          let (readyProcess, student) ← section_ s.student.schedule
          return { s with student := student }.goto c (.switch readyProcess)
      | _ => .error .disabled
  | .contextSwitch c =>
      match s.cpu c with
      -- the idle process is selected
      | .switch none => .ok (s.goto c .idle)
      | .switch (some p) => .ok (s.goto c (.install p))
      | _ => .error .disabled
  | .setCurrent c =>
      match s.cpu c with
      | .install p => .ok ({ s with student := s.student.setCurrent c p }.goto c (.running p))
      | _ => .error .disabled
  | .callPreempt c =>
      match s.cpu c with
      | .running p => .ok (s.goto c (.preempt p))
      | _ => .error .disabled
  | .preempt c =>
      match s.cpu c with
      | .preempt p => do
          let (nowRunning, student) ← section_ (s.student.preempt c)
          return { s with student := student }.goto c (.pushBack p nowRunning)
      | _ => .error .disabled
  | .pushBack c =>
      match s.cpu c with
      | .pushBack _ nowRunning => do
          let student ← section_ (s.student.pushBack nowRunning)
          return { s with student := student }.goto c .schedule
      | _ => .error .disabled
  | .callYield c =>
      match s.cpu c with
      -- the I/O request of the process is outstanding from here on
      | .running p => .ok ({ s with life := Function.update s.life p .io }.goto c (.yield p))
      | _ => .error .disabled
  | .yield c =>
      match s.cpu c with
      | .yield _ => do
          let (_, student) ← section_ (s.student.yield c)
          return { s with student := student }.goto c .schedule
      | _ => .error .disabled
  | .callTerminate c =>
      match s.cpu c with
      | .running p =>
          .ok ({ s with life := Function.update s.life p .terminated }.goto c (.terminate p))
      | _ => .error .disabled
  | .terminate c =>
      match s.cpu c with
      | .terminate _ => do
          let (_, student) ← section_ (s.student.terminate c)
          return { s with student := student }.goto c .schedule
      | _ => .error .disabled
  | .create p =>
      if s.life p = .uncreated then
        .ok { s with life := Function.update s.life p .active, wakes := s.wakes ++ [⟨p, .push⟩] }
      else .error .disabled
  | .completeIo p =>
      if s.life p = .io then
        .ok { s with life := Function.update s.life p .active, wakes := s.wakes ++ [⟨p, .push⟩] }
      else .error .disabled
  | .wakeUp k =>
      match s.wakes[k]? with
      | some ⟨p, .push⟩ => do
          let student ← section_ (s.student.wakeUp mode p)
          let point := if mode = .l then .scan else .signal
          return { s with student := student, wakes := s.wakes.set k ⟨p, point⟩ }
      | some ⟨p, .scan⟩ =>
          let point := match s.student.preempted p with
            | some c => .force c
            | none => .signal
          .ok { s with wakes := s.wakes.set k ⟨p, point⟩ }
      -- the simulator may call `preempt` for it, which is a step of its own
      | some ⟨p, .force _⟩ => .ok { s with wakes := s.wakes.set k ⟨p, .signal⟩ }
      | some ⟨_, .signal⟩ => .ok { s with wakes := s.wakes.eraseIdx k }
      | none => .error .disabled
  | .tick timeRemaining =>
      .ok { s with student := { s.student with timeRemaining := timeRemaining } }

/-- The state in which the simulator starts the CPU threads.  `current[]` comes from
`malloc`, so it holds anything. -/
def start (current : Fin n → Option Pid) (timeRemaining : Pid → ℕ) : System n where
  student := {
    readyQueue := ⟨[], none, none⟩
    current := current
    state := fun _ => .new
    timeRemaining := timeRemaining }
  cpu := fun _ => .idle
  wakes := []
  life := fun _ => .uncreated

/-- Some steps. -/
def Reaches (mode : Mode) : System n → System n → Prop :=
  Relation.ReflTransGen fun s s' => ∃ a, step mode s a = .ok s'

/-! ### The places of a process -/

/-- The process a CPU has popped, and has not yet yielded, terminated or pushed back. -/
def CpuPoint.held : CpuPoint → Option Pid
  | .switch p => p
  | .install p | .running p | .preempt p | .pushBack p _ => some p
  | .idle | .schedule | .yield _ | .terminate _ => none

/-- The number of times the process is in the ready queue. -/
def System.inQueue (s : System n) (p : Pid) : ℕ := s.student.readyQueue.contents.count p

/-- The number of CPUs that hold the process. -/
def System.holders (s : System n) (p : Pid) : ℕ :=
  (Finset.univ.filter fun c => (s.cpu c).held = some p).card

/-- Whether the process waits for I/O. -/
def System.inIo (s : System n) (p : Pid) : ℕ := if s.life p = .io then 1 else 0

/-- The number of calls of `wake_up` that have the process still to push. -/
def System.waking (s : System n) (p : Pid) : ℕ := s.wakes.countP fun w => w = ⟨p, .push⟩

/-- The number of places of the process. -/
def System.places (s : System n) (p : Pid) : ℕ :=
  s.inQueue p + s.holders p + s.inIo p + s.waking p

/-! ### The invariant -/

/-- The process that `current[]` must name. -/
def CpuPoint.installed : CpuPoint → Option Pid
  | .running p | .preempt p | .pushBack p _ | .yield p | .terminate p => some p
  | .idle | .schedule | .switch _ | .install _ => none

/-- The number of a proposition. -/
def one (P : Prop) [Decidable P] : ℕ := if P then 1 else 0

/-- The invariant of the system. -/
structure Inv (s : System n) : Prop where
  queue : ∃ ps, Represents s.student.readyQueue ps
  places : ∀ p, s.places p = one ((s.life p).alive = true)
  current : ∀ c p, (s.cpu c).installed = some p → s.student.current c = some p
  /-- What `preempt` pushes back is what the CPU has popped. -/
  pushBack : ∀ c p q, s.cpu c = .pushBack p q → q = p

section Effects

variable {s s' : System n} {c : Fin n} {x : CpuPoint} {p q : Pid}

theorem inQueue_eq {ps : List Pid} (h : Represents s.student.readyQueue ps) (p : Pid) :
    s.inQueue p = ps.count p := by
  rw [System.inQueue, h.contents]

/-- The holders after a step of one CPU. -/
theorem holders_goto (s : System n) (c : Fin n) (x : CpuPoint) (p : Pid) :
    (s.goto c x).holders p + one ((s.cpu c).held = some p) =
      s.holders p + one (x.held = some p) :=
  Counting.number_update (fun x : CpuPoint => x.held = some p) s.cpu c x

theorem System.holders_pos (s : System n) (hc : (s.cpu c).held = some p) : 0 < s.holders p :=
  Counting.number_pos (P := fun x : CpuPoint => x.held = some p) hc

/-- A process held by a CPU is nowhere else. -/
theorem Inv.held (h : Inv s) (hc : (s.cpu c).held = some p) :
    (s.life p).alive = true ∧ s.life p ≠ .io := by
  have hplaces := h.places p
  have hholders : 1 ≤ s.holders p := s.holders_pos hc
  rw [System.places, one] at hplaces
  constructor
  · by_contra hdead
    rw [if_neg hdead] at hplaces
    omega
  · intro hio
    rw [System.inIo, if_pos hio] at hplaces
    split at hplaces <;> omega

/-- **The rule for a step of a CPU thread.** -/
theorem Inv.cpuStep (h : Inv s) (student : Student n) (life : Pid → Life)
    (hqueue : ∃ ps, Represents student.readyQueue ps)
    (hplaces : ∀ p, student.readyQueue.contents.count p + one (x.held = some p) +
        one (life p = .io) + one ((s.life p).alive = true) =
      s.inQueue p + one ((s.cpu c).held = some p) + s.inIo p + one ((life p).alive = true))
    (hothers : ∀ d, d ≠ c → student.current d = s.student.current d)
    (hself : ∀ p, x.installed = some p → student.current c = some p)
    (hpush : ∀ p q, x = .pushBack p q → q = p) :
    Inv ({ s with student := student, life := life }.goto c x) := by
  refine ⟨hqueue, ?_, ?_, ?_⟩
  · intro p
    have hbefore := h.places p
    have hholders := holders_goto s c x p
    have hstep := hplaces p
    rw [System.places] at hbefore
    show student.readyQueue.contents.count p + (s.goto c x).holders p + one (life p = .io) +
      s.waking p = one ((life p).alive = true)
    omega
  · intro d p hd
    have hd : (Function.update s.cpu c x d).installed = some p := hd
    rcases eq_or_ne d c with rfl | hne
    · rw [Function.update_self] at hd
      exact hself p hd
    · rw [Function.update_of_ne hne] at hd
      exact (hothers d hne).trans (h.current d p hd)
  · intro d p q hd
    have hd : Function.update s.cpu c x d = .pushBack p q := hd
    rcases eq_or_ne d c with rfl | hne
    · rw [Function.update_self] at hd
      exact hpush p q hd
    · rw [Function.update_of_ne hne] at hd
      exact h.pushBack d p q hd

/-- A CPU thread goes on with what it holds. -/
theorem Inv.goto (h : Inv s) (hheld : x.held = (s.cpu c).held)
    (hself : ∀ p, x.installed = some p → s.student.current c = some p)
    (hpush : ∀ p q, x = .pushBack p q → q = p) : Inv (s.goto c x) := by
  refine h.cpuStep s.student s.life h.queue ?_ (fun _ _ => rfl) hself hpush
  intro p
  rw [hheld]
  rfl

/-- **The rule for a step of the simulator or of a call of `wake_up`.** -/
theorem Inv.wakeStep (h : Inv s) (student : Student n) (wakes : List (Wake n)) (life : Pid → Life)
    (hqueue : ∃ ps, Represents student.readyQueue ps)
    (hplaces : ∀ p, student.readyQueue.contents.count p + one (life p = .io) +
        wakes.countP (fun w => w = ⟨p, .push⟩) + one ((s.life p).alive = true) =
      s.inQueue p + s.inIo p + s.waking p + one ((life p).alive = true))
    (hcurrent : student.current = s.student.current) :
    Inv { s with student := student, wakes := wakes, life := life } := by
  refine ⟨hqueue, ?_, ?_, h.pushBack⟩
  · intro p
    have hbefore := h.places p
    have hstep := hplaces p
    rw [System.places] at hbefore
    show student.readyQueue.contents.count p + s.holders p + one (life p = .io) +
      wakes.countP (fun w => w = ⟨p, .push⟩) = one ((life p).alive = true)
    omega
  · intro d p hd
    show student.current d = some p
    rw [hcurrent]
    exact h.current d p hd

end Effects

/-! ### What a step does -/

/-- The process that `preempt` has marked, and has not pushed yet. -/
def CpuPoint.pushes : CpuPoint → Option Pid
  | .pushBack _ nowRunning => some nowRunning
  | _ => none

/-- A thread goes on and leaves the scheduler's variables alone. -/
inductive CpuPoint.Passes : CpuPoint → CpuPoint → Prop
  | idle : Passes (.switch none) .idle
  | install (p : Pid) : Passes (.switch (some p)) (.install p)
  | preempt (p : Pid) : Passes (.running p) (.preempt p)

/-- The process of a CPU asks for I/O, or terminates. -/
inductive CpuPoint.Leaves : CpuPoint → Pid → Life → CpuPoint → Prop
  | yield (p : Pid) : Leaves (.running p) p .io (.yield p)
  | terminate (p : Pid) : Leaves (.running p) p .terminated (.terminate p)

/-- A handler marks the process of its CPU. -/
inductive CpuPoint.Marks : CpuPoint → Pid → ProcessState → CpuPoint → Prop
  | preempt (p : Pid) : Marks (.preempt p) p .ready (.pushBack p p)
  | yield (p : Pid) : Marks (.yield p) p .waiting .schedule
  | terminate (p : Pid) : Marks (.terminate p) p .terminated .schedule

/-- What a possible step does to a state of the invariant. -/
inductive Does (mode : Mode) (s : System n) : Action n → System n → Prop
  | idle {c : Fin n} (hc : s.cpu c = .idle) (hqueue : s.student.isEmpty = false) :
      Does mode s (.idle c) (s.goto c .schedule)
  /-- `schedule` finds the queue empty. -/
  | scheduleIdle {c : Fin n} {queue : LinkedQueue} (hc : s.cpu c = .schedule)
      (hps : Represents s.student.readyQueue []) (hq : Represents queue []) :
      Does mode s (.schedule c)
        ({ s with student := { s.student with readyQueue := queue } }.goto c (.switch none))
  | schedule {c : Fin n} {p : Pid} {ps : List Pid} {queue : LinkedQueue}
      (hc : s.cpu c = .schedule) (hps : Represents s.student.readyQueue (p :: ps))
      (hq : Represents queue ps) :
      Does mode s (.schedule c)
        ({ s with student := { s.student.setState p .running with readyQueue := queue } }.goto c
          (.switch (some p)))
  | pass {a : Action n} {c : Fin n} {x : CpuPoint} (hc : (s.cpu c).Passes x) :
      Does mode s a (s.goto c x)
  | setCurrent {c : Fin n} {p : Pid} (hc : s.cpu c = .install p) :
      Does mode s (.setCurrent c)
        ({ s with student := s.student.setCurrent c p }.goto c (.running p))
  | leave {a : Action n} {c : Fin n} {p : Pid} {l : Life} {x : CpuPoint}
      (hc : (s.cpu c).Leaves p l x) :
      Does mode s a ({ s with life := Function.update s.life p l }.goto c x)
  | mark {a : Action n} {c : Fin n} {p : Pid} {st : ProcessState} {x : CpuPoint}
      (hc : (s.cpu c).Marks p st x) :
      Does mode s a ({ s with student := s.student.setState p st }.goto c x)
  | pushBack {c : Fin n} {p : Pid} {ps : List Pid} {queue : LinkedQueue}
      (hc : s.cpu c = .pushBack p p) (hps : Represents s.student.readyQueue ps)
      (hq : Represents queue (orderedInsert s.student.timeRemaining p ps)) :
      Does mode s (.pushBack c)
        ({ s with student := { s.student with readyQueue := queue } }.goto c .schedule)
  /-- The simulator calls `wake_up`. -/
  | callWakeUp {a : Action n} {p : Pid} (hp : s.life p = .uncreated ∨ s.life p = .io) :
      Does mode s a
        { s with life := Function.update s.life p .active, wakes := s.wakes ++ [⟨p, .push⟩] }
  | wakePush {k : ℕ} {p : Pid} {point : WakePoint n} {ps : List Pid} {queue : LinkedQueue}
      (hk : s.wakes[k]? = some ⟨p, .push⟩) (hpoint : point ≠ .push)
      (hps : Represents s.student.readyQueue ps)
      (hq : Represents queue (Student.pushed mode s.student.timeRemaining p ps)) :
      Does mode s (.wakeUp k)
        { s with
          student := { s.student.setState p .ready with readyQueue := queue }
          wakes := s.wakes.set k ⟨p, point⟩ }
  /-- After the push, a call of `wake_up` goes on. -/
  | wakeRest {k : ℕ} {w w' : Wake n} (hk : s.wakes[k]? = some w) (hw : w.point ≠ .push)
      (hw' : w'.point ≠ .push) :
      Does mode s (.wakeUp k) { s with wakes := s.wakes.set k w' }
  | wakeReturn {k : ℕ} {p : Pid} (hk : s.wakes[k]? = some ⟨p, .signal⟩) :
      Does mode s (.wakeUp k) { s with wakes := s.wakes.eraseIdx k }
  | tick (time : Pid → ℕ) :
      Does mode s (.tick time) { s with student := { s.student with timeRemaining := time } }

/-- A step that is possible keeps the invariant, and none crashes. -/
def Safe (x : Except Stop (System n)) : Prop :=
  match x with
  | .ok s => Inv s
  | .error .disabled => True
  | .error (.crash _) => False

section Steps

variable {mode : Mode} {s s' : System n} {a : Action n} {c : Fin n} {x y : CpuPoint} {p q r : Pid}
  {l : Life} {st : ProcessState}

theorem CpuPoint.pushBack_of_none (h : x.pushes = none) (p q : Pid) (hx : x = .pushBack p q) :
    q = p := by
  rw [hx] at h
  cases h

theorem CpuPoint.Passes.held (h : x.Passes y) : y.held = x.held := by
  cases h <;> rfl

theorem CpuPoint.Passes.pushes (h : x.Passes y) : x.pushes = none ∧ y.pushes = none := by
  cases h <;> exact ⟨rfl, rfl⟩

theorem CpuPoint.Marks.installed (h : x.Marks p st y) : x.installed = some p := by
  cases h <;> rfl

theorem CpuPoint.Marks.stays (h : x.Marks p st y) (hy : y.installed = some q) :
    x.installed = some q := by
  cases h with
  | preempt => exact hy
  | yield => cases hy
  | terminate => cases hy

theorem CpuPoint.Marks.held (h : x.Marks p st y) : y.held = x.held := by
  cases h <;> rfl

theorem CpuPoint.Marks.pushBack (h : x.Marks r st (.pushBack p q)) : q = p := by
  cases h
  rfl

theorem CpuPoint.Marks.pushes (h : x.Marks p st y) :
    x.pushes = none ∧ (st = .ready → y.pushes = some p) := by
  cases h with
  | preempt => exact ⟨rfl, fun _ => rfl⟩
  | yield => exact ⟨rfl, fun hst => by cases hst⟩
  | terminate => exact ⟨rfl, fun hst => by cases hst⟩

theorem CpuPoint.Passes.installed (h : x.Passes y) (hy : y.installed = some p) :
    x.installed = some p := by
  cases h with
  | idle => cases hy
  | install => cases hy
  | preempt => exact hy

/-- The thread is not about to wait or to pop. -/
theorem CpuPoint.Passes.busy (h : x.Passes y) : x ≠ .idle ∧ x ≠ .schedule := by
  constructor <;> rintro rfl <;> cases h

theorem CpuPoint.busy_of_installed (h : x.installed = some p) : x ≠ .idle ∧ x ≠ .schedule := by
  constructor <;> rintro rfl <;> cases h

theorem CpuPoint.Leaves.installed (h : x.Leaves p l y) :
    x.installed = some p ∧ y.installed = some p := by
  cases h <;> exact ⟨rfl, rfl⟩

theorem CpuPoint.Leaves.held (h : x.Leaves p l y) : x.held = some p ∧ y.held = none := by
  cases h <;> exact ⟨rfl, rfl⟩

theorem CpuPoint.Leaves.life (h : x.Leaves p l y) :
    one (l = .io) + 1 = 1 + one (l.alive = true) := by
  cases h <;> rfl

theorem CpuPoint.Leaves.pushes (h : x.Leaves p l y) : x.pushes = none ∧ y.pushes = none := by
  cases h <;> exact ⟨rfl, rfl⟩

/-- The process of a CPU that executes a handler is the one in `current[]`. -/
theorem Inv.mark_eq (h : Inv s) (hc : (s.cpu c).installed = some p) (st : ProcessState) :
    s.student.mark c st = .ok (p, s.student.setState p st) :=
  Student.mark_eq (h.current c p hc) st

/-- **No step crashes, and a possible one does what `Does` says.** -/
theorem Inv.does (h : Inv s) (mode : Mode) (a : Action n) :
    Places.step mode s a = .error .disabled ∨
      ∃ s', Places.step mode s a = .ok s' ∧ Does mode s a s' := by
  obtain ⟨ps, hps⟩ := h.queue
  cases a with
  | idle c =>
      rw [Places.step]
      split
      · rename_i hc
        split
        · exact .inl rfl
        · exact .inr ⟨_, rfl, .idle hc (Bool.eq_false_iff.mpr ‹_›)⟩
      · exact .inl rfl
  | schedule c =>
      rw [Places.step]
      split
      · rename_i hc
        cases ps with
        | nil =>
            obtain ⟨queue, hq, he⟩ := Student.schedule_nil hps
            rw [he]
            exact .inr ⟨_, rfl, .scheduleIdle hc hps hq⟩
        | cons p ps =>
            obtain ⟨queue, hq, he⟩ := Student.schedule_cons hps
            rw [he]
            exact .inr ⟨_, rfl, .schedule hc hps hq⟩
      · exact .inl rfl
  | contextSwitch c =>
      rw [Places.step]
      split
      · rename_i hc
        exact .inr ⟨_, rfl, .pass (hc ▸ .idle)⟩
      · rename_i p hc
        exact .inr ⟨_, rfl, .pass (hc ▸ .install p)⟩
      · exact .inl rfl
  | setCurrent c =>
      rw [Places.step]
      split
      · exact .inr ⟨_, rfl, .setCurrent ‹_›⟩
      · exact .inl rfl
  | callPreempt c =>
      rw [Places.step]
      split
      · rename_i p hc
        exact .inr ⟨_, rfl, .pass (hc ▸ .preempt p)⟩
      · exact .inl rfl
  | preempt c =>
      rw [Places.step]
      split
      · rename_i p hc
        rw [Student.preempt, h.mark_eq (by rw [hc]; rfl)]
        exact .inr ⟨_, rfl, .mark (hc ▸ .preempt p)⟩
      · exact .inl rfl
  | pushBack c =>
      rw [Places.step]
      split
      · rename_i p q hc
        obtain rfl := h.pushBack c p q hc
        obtain ⟨queue, hq, he⟩ := Student.pushBack_eq hps q
        rw [he]
        exact .inr ⟨_, rfl, .pushBack hc hps hq⟩
      · exact .inl rfl
  | callYield c =>
      rw [Places.step]
      split
      · rename_i p hc
        exact .inr ⟨_, rfl, .leave (hc ▸ .yield p)⟩
      · exact .inl rfl
  | yield c =>
      rw [Places.step]
      split
      · rename_i p hc
        rw [Student.yield, h.mark_eq (by rw [hc]; rfl)]
        exact .inr ⟨_, rfl, .mark (hc ▸ .yield p)⟩
      · exact .inl rfl
  | callTerminate c =>
      rw [Places.step]
      split
      · rename_i p hc
        exact .inr ⟨_, rfl, .leave (hc ▸ .terminate p)⟩
      · exact .inl rfl
  | terminate c =>
      rw [Places.step]
      split
      · rename_i p hc
        rw [Student.terminate, h.mark_eq (by rw [hc]; rfl)]
        exact .inr ⟨_, rfl, .mark (hc ▸ .terminate p)⟩
      · exact .inl rfl
  | create p =>
      rw [Places.step]
      split
      · exact .inr ⟨_, rfl, .callWakeUp (.inl ‹_›)⟩
      · exact .inl rfl
  | completeIo p =>
      rw [Places.step]
      split
      · exact .inr ⟨_, rfl, .callWakeUp (.inr ‹_›)⟩
      · exact .inl rfl
  | wakeUp k =>
      rw [Places.step]
      split
      · rename_i p hk
        obtain ⟨queue, hq, he⟩ := Student.wakeUp_eq mode hps p
        rw [he]
        exact .inr ⟨_, rfl, .wakePush hk (by split <;> simp) hps hq⟩
      · rename_i p hk
        refine .inr ⟨_, rfl, .wakeRest hk (by simp) ?_⟩
        rcases s.student.preempted p with - | c <;> simp
      · rename_i p _ hk
        exact .inr ⟨_, rfl, .wakeRest hk (by simp) (by simp)⟩
      · rename_i p hk
        exact .inr ⟨_, rfl, .wakeReturn hk⟩
      · exact .inl rfl
  | tick time => exact .inr ⟨_, rfl, .tick time⟩

theorem Inv.does_of_step (h : Inv s) (hstep : Places.step mode s a = .ok s') :
    Does mode s a s' := by
  rcases h.does mode a with he | ⟨s₁, he, hdoes⟩
  · rw [he] at hstep
    cases hstep
  · rw [he] at hstep
    obtain rfl := Except.ok.inj hstep
    exact hdoes

/-- A process is popped. -/
theorem Inv.schedule (h : Inv s) (hc : s.cpu c = .schedule) {ps : List Pid} {queue : LinkedQueue}
    (hps : Represents s.student.readyQueue (p :: ps)) (hq : Represents queue ps) :
    Inv ({ s with student := { s.student.setState p .running with readyQueue := queue } }.goto c
      (.switch (some p))) := by
  refine h.cpuStep _ s.life ⟨ps, hq⟩ ?_ (fun _ _ => rfl) (fun q hx => by cases hx)
    (fun q r hx => by cases hx)
  intro q
  rw [inQueue_eq hps, hc, List.count_cons]
  show queue.contents.count q + one (some p = some q) + _ + _ = _ + one (none = some q) + _ + _
  rw [hq.contents]
  simp [one, System.inIo]

theorem Inv.setCurrent (h : Inv s) (hc : s.cpu c = .install p) :
    Inv ({ s with student := s.student.setCurrent c p }.goto c (.running p)) := by
  refine h.cpuStep _ s.life h.queue ?_ ?_ ?_ (fun p q hp => by cases hp)
  · intro q
    rw [hc]
    rfl
  · intro d hd
    exact Function.update_of_ne hd _ _
  · intro q hq
    show Function.update s.student.current c (some p) c = some q
    rw [Function.update_self]
    exact hq

/-- The process a CPU executes is marked. -/
theorem Inv.mark (h : Inv s) (hc : (s.cpu c).Marks p st x) :
    Inv ({ s with student := s.student.setState p st }.goto c x) := by
  refine h.cpuStep _ s.life h.queue ?_ (fun _ _ => rfl) ?_ ?_
  · intro q
    rw [hc.held]
    rfl
  · intro q hq
    exact h.current c q (hc.stays hq)
  · rintro q r rfl
    exact hc.pushBack

/-- A process is pushed back. -/
theorem Inv.push (h : Inv s) (hc : s.cpu c = .pushBack p p) {ps : List Pid} {queue : LinkedQueue}
    (hps : Represents s.student.readyQueue ps)
    (hq : Represents queue (orderedInsert s.student.timeRemaining p ps)) :
    Inv ({ s with student := { s.student with readyQueue := queue } }.goto c .schedule) := by
  refine h.cpuStep _ s.life ⟨_, hq⟩ ?_ (fun _ _ => rfl) (fun q hx => by cases hx)
    (fun q r hx => by cases hx)
  intro q
  rw [inQueue_eq hps, hc]
  show queue.contents.count q + one (none = some q) + _ + _ = _ + one (some p = some q) + _ + _
  rw [hq.contents, (orderedInsert_perm ..).count_eq, List.count_cons]
  simp [one, System.inIo]

/-- The process a CPU executes leaves it. -/
theorem Inv.leave (h : Inv s) (hc : (s.cpu c).Leaves p l x) :
    Inv ({ s with life := Function.update s.life p l }.goto c x) := by
  obtain ⟨halive, hio⟩ := h.held hc.held.1
  have hl := hc.life
  refine h.cpuStep s.student _ h.queue ?_ (fun _ _ => rfl) ?_
    (CpuPoint.pushBack_of_none hc.pushes.2)
  · intro q
    rw [hc.held.1, hc.held.2, System.inIo]
    rcases eq_or_ne q p with rfl | hne
    · rw [Function.update_self, if_neg hio]
      simp only [one, halive, if_true] at hl ⊢
      simp only [System.inQueue]
      simp
      omega
    · rw [Function.update_of_ne hne]
      simp [one, hne.symm, System.inQueue]
  · intro q hq
    rw [hc.installed.2] at hq
    exact h.current c q (hq ▸ hc.installed.1)

/-- The simulator calls `wake_up`. -/
theorem Inv.callWakeUp (h : Inv s) (hp : s.life p = .uncreated ∨ s.life p = .io) :
    Inv { s with life := Function.update s.life p .active, wakes := s.wakes ++ [⟨p, .push⟩] } := by
  refine h.wakeStep s.student _ _ h.queue ?_ rfl
  intro q
  rw [List.countP_append, System.inIo, System.waking]
  show s.inQueue q + _ + (_ + List.countP _ [_]) + _ = _
  rcases eq_or_ne q p with rfl | hne
  · rw [Function.update_self]
    rcases hp with hp | hp
    · simp [one, hp, Life.alive, Nat.add_assoc]
    · simp [one, hp, Life.alive]
      omega
  · rw [Function.update_of_ne hne]
    simp [one, hne.symm]

/-- One of the calls of `wake_up` goes on. -/
theorem waking_set {k : ℕ} {w : Wake n} (hw : s.wakes[k]? = some w) (w' : Wake n) (q : Pid) :
    (s.wakes.set k w').countP (fun w => w = ⟨q, .push⟩) + one (w = ⟨q, .push⟩) =
      s.waking q + one (w' = ⟨q, .push⟩) :=
  Counting.countP_set (P := fun w => w = ⟨q, .push⟩) hw w'

theorem Inv.wakePush (h : Inv s) {k : ℕ} (hk : s.wakes[k]? = some ⟨p, .push⟩)
    {point : WakePoint n} (hpoint : point ≠ .push) {ps : List Pid} {queue : LinkedQueue}
    (hps : Represents s.student.readyQueue ps)
    (hq : Represents queue (Student.pushed mode s.student.timeRemaining p ps)) :
    Inv { s with
      student := { s.student.setState p .ready with readyQueue := queue }
      wakes := s.wakes.set k ⟨p, point⟩ } := by
  refine h.wakeStep _ _ s.life ⟨_, hq⟩ ?_ rfl
  intro q
  have hset := waking_set hk ⟨p, point⟩ q
  have hnone : one ((⟨p, point⟩ : Wake n) = ⟨q, .push⟩) = 0 := by simp [one, hpoint]
  have hcount : queue.contents.count q = ps.count q + one ((⟨p, .push⟩ : Wake n) = ⟨q, .push⟩) := by
    rw [hq.contents, (Student.pushed_perm ..).count_eq, List.count_cons]
    simp [one]
  rw [hnone] at hset
  show queue.contents.count q + _ + _ + _ = _
  rw [inQueue_eq hps, hcount, System.inIo]
  simp only [one] at hset ⊢
  omega

/-- After the push, a call of `wake_up` does not touch a process. -/
theorem Inv.wakeRest (h : Inv s) {k : ℕ} {w w' : Wake n} (hk : s.wakes[k]? = some w)
    (hw : w.point ≠ .push) (hw' : w'.point ≠ .push) :
    Inv { s with wakes := s.wakes.set k w' } := by
  refine h.wakeStep s.student _ s.life h.queue ?_ rfl
  intro q
  have hset := waking_set hk w' q
  have hnone : one (w = ⟨q, .push⟩) = 0 := if_neg (by rintro rfl; exact hw rfl)
  have hnone' : one (w' = ⟨q, .push⟩) = 0 := if_neg (by rintro rfl; exact hw' rfl)
  rw [hnone, hnone'] at hset
  show s.inQueue q + s.inIo q + _ + _ = _
  omega

theorem Inv.wakeReturn (h : Inv s) {k : ℕ} {w : Wake n} (hk : s.wakes[k]? = some w)
    (hw : w.point ≠ .push) : Inv { s with wakes := s.wakes.eraseIdx k } := by
  refine h.wakeStep s.student _ s.life h.queue ?_ rfl
  intro q
  have herase := Counting.countP_eraseIdx (P := fun w => w = ⟨q, .push⟩) hk
  rw [Counting.one_false fun e => hw (by rw [e])] at herase
  rw [System.waking, ← herase]
  rfl

/-- What a step does keeps the invariant. -/
theorem Inv.of_does (h : Inv s) (hdoes : Does mode s a s') : Inv s' := by
  cases hdoes with
  | idle hc => exact h.goto (by rw [hc]; rfl) (fun p hp => by cases hp) fun p q hp => by cases hp
  | scheduleIdle hc hps hq =>
      refine h.cpuStep _ s.life ⟨_, hq⟩ ?_ (fun _ _ => rfl) (fun q hx => by cases hx)
        (fun q r hx => by cases hx)
      intro q
      rw [inQueue_eq hps, hc]
      show (LinkedQueue.contents _).count q + _ + _ + _ = _
      rw [hq.contents]
      rfl
  | schedule hc hps hq => exact h.schedule hc hps hq
  | pass hc =>
      exact h.goto hc.held (fun p hp => h.current _ p (hc.installed hp))
        (CpuPoint.pushBack_of_none hc.pushes.2)
  | setCurrent hc => exact h.setCurrent hc
  | leave hc => exact h.leave hc
  | mark hc => exact h.mark hc
  | pushBack hc hps hq => exact h.push hc hps hq
  | callWakeUp hp => exact h.callWakeUp hp
  | wakePush hk hpoint hps hq => exact h.wakePush hk hpoint hps hq
  | wakeRest hk hw hw' => exact h.wakeRest hk hw hw'
  | wakeReturn hk => exact h.wakeReturn hk (by simp)
  | tick time => exact h.wakeStep _ s.wakes s.life h.queue (fun _ => rfl) rfl

/-- **Every step keeps the invariant, and none crashes.** -/
theorem Inv.step (h : Inv s) (mode : Mode) (a : Action n) : Safe (Places.step mode s a) := by
  rcases h.does mode a with he | ⟨s', he, hdoes⟩
  · rw [he]
    trivial
  · rw [he]
    exact h.of_does hdoes

end Steps

theorem Inv.start (current : Fin n → Option Pid) (timeRemaining : Pid → ℕ) :
    Inv (start current timeRemaining) := by
  refine ⟨⟨[], represents_empty⟩, ?_, ?_, ?_⟩
  · intro p
    have hholders : (Places.start current timeRemaining).holders p = 0 :=
      (Counting.number_eq_zero_iff (P := fun x : CpuPoint => x.held = some p)).mpr fun c hc => by
        cases hc
    rw [System.places, inQueue_eq represents_empty, hholders]
    rfl
  · intro c p hc
    cases hc
  · intro c p q hc
    cases hc

/-- The invariant holds in every state of every run. -/
theorem Inv.reaches {mode : Mode} {s s' : System n} (h : Inv s) (hr : Reaches mode s s') :
    Inv s' := by
  induction hr with
  | refl => exact h
  | tail _ hstep ih =>
      obtain ⟨a, ha⟩ := hstep
      have hsafe := ih.step mode a
      rw [ha] at hsafe
      exact hsafe

/-- **No process is lost or duplicated.** -/
theorem places_eq_one (mode : Mode) (current : Fin n → Option Pid) (timeRemaining : Pid → ℕ)
    (s : System n) (hr : Reaches mode (start current timeRemaining) s) (p : Pid)
    (hp : s.life p = .active ∨ s.life p = .io) :
    s.inQueue p + s.holders p + (s.inIo p + s.waking p) = 1 := by
  have hplaces := ((Inv.start current timeRemaining).reaches hr).places p
  have halive : (s.life p).alive = true := by
    rcases hp with hp | hp <;> rw [hp] <;> rfl
  rw [one, if_pos halive, System.places] at hplaces
  omega

/-- One CPU, and a process that `wake_up` has pushed. -/
theorem places_eq_one_pushed :
    let s : System 1 :=
      { start (fun _ => none) (fun _ => 2) with
        student := {
          readyQueue := ⟨[⟨0, none⟩], some 0, some 0⟩
          current := fun _ => none
          state := Function.update (fun _ => .new) 0 .ready
          timeRemaining := fun _ => 2 }
        wakes := [⟨0, .signal⟩]
        life := Function.update (fun _ => .uncreated) 0 .active }
    s.inQueue 0 + s.holders 0 + (s.inIo 0 + s.waking 0) = 1 :=
  places_eq_one .f (fun _ => none) (fun _ => 2) _
    (.tail (.single ⟨.create 0, rfl⟩) ⟨.wakeUp 0, rfl⟩) 0 (.inl rfl)

end Places

end ProjectArchive.Scheduler
