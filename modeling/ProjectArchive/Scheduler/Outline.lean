/-
ProjectArchive/Scheduler/Outline.lean

The simulator in outline: what the threads of the CPUs and the supervisor do
to the processes, without what decides when they do it.

The ready queue is a list, in an order that is left open; the supervisor goes
from one stage of its round to the next, and whether it waits on the way is not
seen; a time slice may be of any length, and a preemption timer may expire at
any tick.  What is left is where every process is: in the ready queue, on a CPU,
in the hands of a thread, or in the I/O queue.
-/
import ProjectArchive.Scheduler.OsSim
import Mathlib.Logic.Relation

namespace ProjectArchive.Scheduler

namespace OsSim

variable {n : ℕ}

/-! ### Data -/

/-- A stage of the round of the supervisor. -/
inductive Stage
  | top
  /-- Before the CPU `cpu`. -/
  | cpus (cpu : ℕ)
  | io | creat
  /-- Before and after `wake_up` has pushed the process. -/
  | waking (process : Pid) (caller : Caller)
  | woke (caller : Caller)
  | exited

/-- A CPU: what the simulator knows of it, the point of its thread, and the process that the
scheduler has for it in `current[]`. -/
structure Desk where
  current : Option Pid
  state : CpuState
  thread : ThreadPoint
  executed : Option Pid

/-- The CPUs, the processes and the supervisor. -/
structure Outline (n : ℕ) where
  desk : Fin n → Desk
  ready : List Pid
  ops : Pid → List Op
  ioQueue : List (Pid × ℕ)
  time : ℕ
  rounds : ℕ
  terminated : ℕ
  created : ℕ
  stage : Stage

def Outline.setDesk (o : Outline n) (c : Fin n) (d : Desk) : Outline n :=
  { o with desk := Function.update o.desk c d }

theorem setDesk_self (o : Outline n) (c : Fin n) : o.setDesk c (o.desk c) = o := by
  rw [Outline.setDesk, Function.update_eq_self]

@[simp] theorem setDesk_setDesk (o : Outline n) (c : Fin n) (d d' : Desk) :
    (o.setDesk c d).setDesk c d' = o.setDesk c d' := by
  simp [Outline.setDesk]

@[simp] theorem setDesk_desk_self (o : Outline n) (c : Fin n) (d : Desk) :
    (o.setDesk c d).desk c = d := Function.update_self ..

@[simp] theorem setDesk_desk_ne (o : Outline n) {c e : Fin n} (h : e ≠ c) (d : Desk) :
    (o.setDesk c d).desk e = o.desk e := Function.update_of_ne h ..

/-! ### Steps -/

/-- The thread of a CPU is signalled. -/
def Desk.signal (d : Desk) : Desk :=
  { d with thread := if d.thread = .waiting then .woken else d.thread }

/-- An event is raised for a CPU. -/
def Desk.raise (d : Desk) (event : CpuState) : Desk := { d with state := event }.signal

/-- What the switch of `simulator_cpu_thread` leads to. -/
def CpuState.handler : CpuState → ThreadPoint
  | .idle => .idle
  | .preempt => .preempt
  | .yield => .yield
  | .terminate => .count
  | .running => .top

/-- Where `context_switch` leads to. -/
def afterSwitch : Option Pid → ThreadPoint
  | none => .top
  | some p => .install p

/-- What the thread of a CPU does to its desk and to the ready queue. -/
inductive Desk.Step (d : Desk) (ready : List Pid) : Desk → List Pid → Prop
  | idle (hthread : d.thread = .top) (hcurrent : d.current = none) :
      Step d ready { d with state := .idle, thread := .dispatch .idle } ready
  | run {p : Pid} (hthread : d.thread = .top) (hcurrent : d.current = some p) :
      Step d ready { d with state := .running, thread := .waiting } ready
  | wait (hthread : d.thread = .woken) (hstate : d.state = .running) :
      Step d ready { d with thread := .waiting } ready
  | leave (hthread : d.thread = .woken) (hstate : d.state ≠ .running) :
      Step d ready { d with thread := .dispatch d.state } ready
  | call {st : CpuState} (hthread : d.thread = .dispatch st) :
      Step d ready { d with thread := st.handler } ready
  | wake (hthread : d.thread = .idle) : Step d ready { d with thread := .schedule } ready
  | pop {time : ℤ} (hthread : d.thread = .schedule) :
      Step d ready { d with thread := .switch ready.head? time } ready.tail
  | switch {pcb : Option Pid} {time : ℤ} (hthread : d.thread = .switch pcb time) :
      Step d ready { d with current := pcb, thread := afterSwitch pcb } ready
  | install {p : Pid} (hthread : d.thread = .install p) :
      Step d ready { d with executed := some p, thread := .top } ready
  | preempt {p : Pid} (hthread : d.thread = .preempt) (hexecuted : d.executed = some p) :
      Step d ready { d with thread := .pushBack p } ready
  | pushBack {p : Pid} {ready' : List Pid} (hthread : d.thread = .pushBack p)
      (hready : ready'.Perm (p :: ready)) : Step d ready { d with thread := .schedule } ready'
  | release (hthread : d.thread = .yield ∨ d.thread = .terminate) :
      Step d ready { d with thread := .schedule } ready

/-- A step of the outline, with `N` processes in the table. -/
inductive Next (N : ℕ) (o : Outline n) : Outline n → Prop
  /-- The supervisor waits, is signalled or goes on within a stage. -/
  | still : Next N o o
  | thread {c : Fin n} {d : Desk} {ready : List Pid} (hd : (o.desk c).Step o.ready d ready) :
      Next N o { o.setDesk c d with ready := ready }
  | count {c : Fin n} (hthread : (o.desk c).thread = .count) :
      Next N o { o.setDesk c { o.desk c with thread := .terminate } with
        terminated := o.terminated + 1 }
  | exit (hstage : o.stage = .top) (hall : N ≤ o.terminated) :
      Next N o { o with stage := .exited }
  | round (hstage : o.stage = .top) (hleft : o.terminated < N) :
      Next N o { o with stage := .cpus 0 }
  /-- `simulate_process` is not called, or finds no CPU burst. -/
  | pass {k : ℕ} (hstage : o.stage = .cpus k) (hk : k < n) :
      Next N o { o with stage := .cpus (k + 1) }
  | tick {c : Fin n} {p : Pid} {time : ℕ} {rest : List Op} {d : Desk}
      (hstage : o.stage = .cpus c) (hcurrent : (o.desk c).current = some p)
      (hops : o.ops p = ⟨.cpu, time + 1⟩ :: rest)
      (hd : d = o.desk c ∨ d = (o.desk c).raise .preempt) :
      Next N o { o.setDesk c d with
        ops := Function.update o.ops p (⟨.cpu, time⟩ :: rest), stage := .cpus (c + 1) }
  | request {c : Fin n} {p : Pid} {time : ℕ} {rest : List Op}
      (hstage : o.stage = .cpus c) (hcurrent : (o.desk c).current = some p)
      (hops : o.ops p = ⟨.cpu, 0⟩ :: ⟨.io, time⟩ :: rest) :
      Next N o { o.setDesk c ((o.desk c).raise .yield) with
        ops := Function.update o.ops p (⟨.io, time⟩ :: rest)
        ioQueue := o.ioQueue ++ [(p, time)]
        stage := .cpus (c + 1) }
  | finish {c : Fin n} {p : Pid} {time : ℕ} {rest : List Op}
      (hstage : o.stage = .cpus c) (hcurrent : (o.desk c).current = some p)
      (hops : o.ops p = ⟨.cpu, 0⟩ :: ⟨.terminate, time⟩ :: rest) :
      Next N o { o.setDesk c ((o.desk c).raise .terminate) with
        ops := Function.update o.ops p (⟨.terminate, time⟩ :: rest), stage := .cpus (c + 1) }
  | burst {c : Fin n} {p : Pid} {time : ℕ} {rest : List Op}
      (hstage : o.stage = .cpus c) (hcurrent : (o.desk c).current = some p)
      (hops : o.ops p = ⟨.cpu, 0⟩ :: ⟨.cpu, time⟩ :: rest) :
      Next N o { o with
        ops := Function.update o.ops p (⟨.cpu, time⟩ :: rest), stage := .cpus (c + 1) }
  | device {k : ℕ} (hstage : o.stage = .cpus k) (hk : n ≤ k) : Next N o { o with stage := .io }
  | free (hstage : o.stage = .io) (hqueue : o.ioQueue = []) : Next N o { o with stage := .creat }
  | serve {p : Pid} {time : ℕ} {queue : List (Pid × ℕ)} (hstage : o.stage = .io)
      (hqueue : o.ioQueue = (p, time + 1) :: queue) :
      Next N o { o with ioQueue := (p, time) :: queue, stage := .creat }
  | complete {p : Pid} {queue : List (Pid × ℕ)} {done op : Op} {rest : List Op}
      (hstage : o.stage = .io) (hqueue : o.ioQueue = (p, 0) :: queue)
      (hops : o.ops p = done :: op :: rest) :
      Next N o { o with
        ops := Function.update o.ops p (op :: rest)
        ioQueue := queue
        stage := .waking p .simulateIo }
  | create (hstage : o.stage = .creat) (htime : o.time % 10 = 0) (hleft : o.created < N) :
      Next N o { o with stage := .waking o.created .simulateCreat }
  | advance (hstage : o.stage = .creat) (hnone : ¬(o.time % 10 = 0 ∧ o.created < N)) :
      Next N o { o with time := toUnsigned (o.time + 1), rounds := o.rounds + 1, stage := .top }
  | push {p : Pid} {caller : Caller} {ready : List Pid} (hstage : o.stage = .waking p caller)
      (hready : ready.Perm (p :: o.ready)) :
      Next N o { o with ready := ready, stage := .woke caller }
  | force {c : Fin n} {caller : Caller} (hstage : o.stage = .woke caller)
      (hstate : (o.desk c).state = .running) :
      Next N o (o.setDesk c ((o.desk c).raise .preempt))
  | completed (hstage : o.stage = .woke .simulateIo) : Next N o { o with stage := .creat }
  | created (hstage : o.stage = .woke .simulateCreat) :
      Next N o { o with
        created := o.created + 1
        time := toUnsigned (o.time + 1)
        rounds := o.rounds + 1
        stage := .top }

/-- A step of the thread of the CPU `c`. -/
inductive ThreadNext (o : Outline n) (c : Fin n) : Outline n → Prop
  | step {d : Desk} {ready : List Pid} (hd : (o.desk c).Step o.ready d ready) :
      ThreadNext o c { o.setDesk c d with ready := ready }
  | count (hthread : (o.desk c).thread = .count) :
      ThreadNext o c { o.setDesk c { o.desk c with thread := .terminate } with
        terminated := o.terminated + 1 }

theorem ThreadNext.next {N : ℕ} {o o' : Outline n} {c : Fin n} (h : ThreadNext o c o') :
    Next N o o' := by
  cases h with
  | step hd => exact .thread hd
  | count hthread => exact .count hthread

/-! ### Runs -/

/-- The outline of the state in which `start_simulator` starts the threads. -/
def begin_ (ops : Pid → List Op) (current : Fin n → Option Pid) : Outline n where
  desk := fun c => ⟨none, .idle, .top, current c⟩
  ready := []
  ops := ops
  ioQueue := []
  time := 0
  rounds := 0
  terminated := 0
  created := 0
  stage := .top

/-- The states of the outline that can be reached. -/
def Visits (N : ℕ) (ops : Pid → List Op) (current : Fin n → Option Pid) : Outline n → Prop :=
  Relation.ReflTransGen (Next N) (begin_ ops current)

/-- What holds at the start and is kept by every step holds of every state reached. -/
theorem Visits.invariant {N : ℕ} {ops : Pid → List Op} {current : Fin n → Option Pid}
    {o : Outline n} (h : Visits N ops current o) (Inv : Outline n → Prop)
    (hstart : Inv (begin_ ops current)) (hstep : ∀ o o', Inv o → Next N o o' → Inv o') : Inv o := by
  induction h with
  | refl => exact hstart
  | tail _ hnext ih => exact hstep _ _ ih hnext

end OsSim

end ProjectArchive.Scheduler
