/-
ProjectArchive/Scheduler/OsSim.lean

The simulator: a supervisor thread that advances time and raises events, and a
thread for every CPU that calls the handlers of the scheduler.

A step is a region protected by `simulator_mutex`, or a section of a handler.
The regions of the CPU threads are single steps; the supervisor holds the mutex
over several steps, in which the CPU threads cannot enter a region.  A waiting
thread has given up the mutex and goes on after a signal, never without one
(`pthread_cond_wait` may wake up spuriously, which is left out); `wakeup` is
shared by the thread of the CPU and the supervisor.  The history of a CPU
records the events that are raised for it, the handlers that are called, and the
moments at which its state becomes `CPU_RUNNING` or `CPU_IDLE`, and `rounds` the
rounds of the supervisor, since `simulator_time` wraps around.

What is only printed is left out, and with it the lock that keeps the
supervisor from printing while a handler runs.
-/
import ProjectArchive.Scheduler.Student

namespace ProjectArchive.Scheduler

namespace OsSim

/-! ### Data -/

/-- `op_type`. -/
inductive OpType
  | cpu | io | terminate
  deriving DecidableEq, Repr

/-- `op_t`.  The times of a table are below `2 ^ 32`. -/
structure Op where
  type : OpType
  time : ℕ
  deriving DecidableEq, Repr

/-- `simulator_cpu_state_t`. -/
inductive CpuState
  | idle | running | preempt | yield | terminate
  deriving DecidableEq, Repr

/-- `simulator_cpu_data_t`. -/
structure CpuData where
  current : Option Pid
  state : CpuState
  /-- An `int`.  C leaves undefined what counting it down below `-2 ^ 31` does; here it goes
  on. -/
  preemptionTimer : ℤ
  deriving DecidableEq, Repr

/-- What happens to a CPU: an event is raised, a handler is called, or the state
becomes `CPU_RUNNING` or `CPU_IDLE`. -/
inductive Mark
  | raised (event : CpuState)
  | called (event : CpuState)
  | resumed
  deriving DecidableEq, Repr

/-- The point the thread of a CPU has reached: in the loop of
`simulator_cpu_thread`, or in a handler of the scheduler. -/
inductive ThreadPoint
  /-- Before the region at the head of the loop. -/
  | top
  /-- In `pthread_cond_wait`. -/
  | waiting
  /-- Signalled, before the mutex has been locked again. -/
  | woken
  /-- Before the switch. -/
  | dispatch (state : CpuState)
  /-- Before `processes_terminated++`. -/
  | count
  | idle | preempt | pushBack (nowRunning : Pid) | yield | terminate
  | schedule
  /-- In `context_switch`, which has been called with a process and a time slice. -/
  | switch (readyProcess : Option Pid) (preemptionTime : ℤ)
  | install (readyProcess : Pid)
  deriving DecidableEq, Repr

/-- Where the supervisor calls `wake_up`. -/
inductive Caller
  | simulateIo | simulateCreat
  deriving DecidableEq, Repr

/-- The point a call of `wake_up` has reached. -/
inductive WakePoint (n : ℕ)
  | push | scan
  /-- Before the region of `force_preempt`, waiting in it, and signalled. -/
  | force (cpu : Fin n) | forceWaiting (cpu : Fin n) | forceWoken (cpu : Fin n)
  | signal
  deriving DecidableEq, Repr

/-- The point the supervisor has reached. -/
inductive SupPoint (n : ℕ)
  /-- Before the region of the loop. -/
  | top
  /-- In `simulate_cpus`, with the mutex, before the CPU `cpu`. -/
  | cpus (cpu : ℕ)
  /-- In `simulate_process`, waiting, and signalled. -/
  | waiting (cpu : Fin n) | woken (cpu : Fin n)
  /-- Before `simulate_io` and `simulate_creat`, with the mutex. -/
  | io | creat
  | wakeUp (process : Pid) (point : WakePoint n) (caller : Caller)
  /-- Before the mutex is locked again after `wake_up`. -/
  | relock (caller : Caller)
  | exited
  deriving DecidableEq, Repr

/-- The variables of the simulator and of the scheduler, the threads, and the histories. -/
structure Sim (n : ℕ) where
  cpu : Fin n → CpuData
  /-- The operations from the `pc` of a process on. -/
  ops : Pid → List Op
  ioQueue : List (Pid × ℕ)
  /-- An `unsigned int`. -/
  simulatorTime : ℕ
  processesTerminated : ℕ
  processesCreated : ℕ
  student : Student n
  thread : Fin n → ThreadPoint
  sup : SupPoint n
  history : Fin n → List Mark
  rounds : ℕ

/-- What does not change: `PROCESS_COUNT`, `mode` and `timeslice`. -/
structure Config where
  processCount : ℕ
  mode : Mode
  timeslice : ℕ

/-- Why there is no next state: a thread is blocked, or it reads past the end of
the operations of a process or through a null pointer. -/
inductive Stop
  | blocked | crash
  deriving DecidableEq, Repr

variable {n : ℕ}

namespace Sim

/-- The supervisor holds `simulator_mutex`. -/
def locked (s : Sim n) : Bool :=
  match s.sup with
  | .cpus _ | .io | .creat => true
  | _ => false

def goto (s : Sim n) (c : Fin n) (point : ThreadPoint) : Sim n :=
  { s with thread := Function.update s.thread c point }

def record (s : Sim n) (c : Fin n) (mark : Mark) : Sim n :=
  { s with history := Function.update s.history c (s.history c ++ [mark]) }

/-- `simulator_cpu_data[c].state = st`. -/
def setState (s : Sim n) (c : Fin n) (st : CpuState) : Sim n :=
  { s with cpu := Function.update s.cpu c { s.cpu c with state := st } }

/-- `simulator_cpu_data[c].preemption_timer--`. -/
def countDown (s : Sim n) (c : Fin n) : Sim n :=
  let data := { s.cpu c with preemptionTimer := (s.cpu c).preemptionTimer - 1 }
  { s with cpu := Function.update s.cpu c data }

/-- `pthread_cond_signal(&simulator_cpu_data[c].wakeup)`. -/
def signal (s : Sim n) (c : Fin n) : Sim n :=
  if s.thread c = .waiting then s.goto c .woken
  else if s.sup = .waiting c then { s with sup := .woken c }
  else
    match s.sup with
    | .wakeUp p (.forceWaiting d) caller =>
        if d = c then { s with sup := .wakeUp p (.forceWoken c) caller } else s
    | _ => s

/-- The supervisor raises an event and waits. -/
def raise (s : Sim n) (c : Fin n) (event : CpuState) (wait : SupPoint n) : Sim n :=
  { ((s.setState c event).record c (.raised event)).signal c with sup := wait }

end Sim

/-! ### The threads of the CPUs -/

/-- The region at the head of the loop of `simulator_cpu_thread`. -/
def head (s : Sim n) (c : Fin n) : Sim n :=
  let s := s.signal c
  match (s.cpu c).current with
  -- the idle process was selected
  | none => ((s.setState c .idle).record c .resumed).goto c (.dispatch .idle)
  -- a process was scheduled
  | some _ => ((s.setState c .running).record c .resumed).goto c .waiting

/-- The test of the loop around `pthread_cond_wait`, and what follows it. -/
def retest (s : Sim n) (c : Fin n) : Sim n :=
  match (s.cpu c).state with
  | .running => s.goto c .waiting
  | state => s.goto c (.dispatch state)

/-- The switch of `simulator_cpu_thread`. -/
def dispatch (s : Sim n) (c : Fin n) : CpuState → Sim n
  | .idle => s.goto c .idle
  | .preempt => (s.record c (.called .preempt)).goto c .preempt
  | .yield => (s.record c (.called .yield)).goto c .yield
  | .terminate => s.goto c .count
  | .running => s.goto c .top

/-- `processes_terminated++`, and the call of `terminate`. -/
def count (s : Sim n) (c : Fin n) : Sim n :=
  { (s.record c (.called .terminate)).goto c .terminate with
    processesTerminated := s.processesTerminated + 1 }

/-- `context_switch`, and the return to `schedule`. -/
def contextSwitch (s : Sim n) (c : Fin n) (pcb : Option Pid) (preemptionTime : ℤ) : Sim n :=
  let data := { s.cpu c with current := pcb, preemptionTimer := preemptionTime }
  let s := { s with cpu := Function.update s.cpu c data }
  match pcb with
  | none => s.goto c .top
  | some p => s.goto c (.install p)

/-- A section of a handler. -/
def section_ {α : Type} (x : Except Fault α) : Except Stop α := x.mapError fun _ => .crash

/-- The next step of the thread of a CPU. -/
def stepCpu (cfg : Config) (s : Sim n) (c : Fin n) : Except Stop (Sim n) :=
  match s.thread c with
  | .top => if s.locked then .error .blocked else .ok (head s c)
  | .waiting => .error .blocked
  | .woken => if s.locked then .error .blocked else .ok (retest s c)
  | .dispatch state => .ok (dispatch s c state)
  | .count => if s.locked then .error .blocked else .ok (count s c)
  | .idle => if s.student.isEmpty then .error .blocked else .ok (s.goto c .schedule)
  | .schedule => do
      let (readyProcess, student) ← section_ s.student.schedule
      -- the arguments of `context_switch` are read before it locks the mutex
      let time := student.preemptionTime cfg.mode cfg.timeslice readyProcess
      return { s with student := student }.goto c (.switch readyProcess time)
  | .switch pcb time => if s.locked then .error .blocked else .ok (contextSwitch s c pcb time)
  | .install p => .ok ({ s with student := s.student.setCurrent c p }.goto c .top)
  | .preempt => do
      let (nowRunning, student) ← section_ (s.student.preempt c)
      return { s with student := student }.goto c (.pushBack nowRunning)
  | .pushBack nowRunning => do
      let student ← section_ (s.student.pushBack nowRunning)
      return { s with student := student }.goto c .schedule
  | .yield => do
      let (_, student) ← section_ (s.student.yield c)
      return { s with student := student }.goto c .schedule
  | .terminate => do
      let (_, student) ← section_ (s.student.terminate c)
      return { s with student := student }.goto c .schedule

/-! ### The supervisor -/

/-- `process->time_remaining = time`, `process->pc = ops`. -/
def setOps (s : Sim n) (process : Pid) (ops : List Op) (time : ℕ) : Sim n :=
  { s with
    ops := Function.update s.ops process ops
    student := { s.student with
      timeRemaining := Function.update s.student.timeRemaining process time } }

/-- `simulate_process`, and the return to `simulate_cpus`. -/
def simulateProcess (s : Sim n) (c : Fin n) (pcb : Pid) : Except Stop (Sim n) :=
  match s.ops pcb with
  | ⟨.cpu, time + 1⟩ :: rest =>
      let s := (setOps s pcb (⟨.cpu, time⟩ :: rest) (time + 1)).countDown c
      if (s.cpu c).preemptionTimer = 0 then .ok (s.raise c .preempt (.waiting c))
      else .ok { s with sup := .cpus (c + 1) }
  | ⟨.cpu, 0⟩ :: op :: rest =>
      let s := setOps s pcb (op :: rest) (toUnsigned (op.time + 1))
      match op.type with
      | .io =>
          .ok ({ s with ioQueue := s.ioQueue ++ [(pcb, op.time)] }.raise c .yield (.waiting c))
      | .terminate => .ok (s.raise c .terminate (.waiting c))
      | .cpu => .ok { s with sup := .cpus (c + 1) }
  | ⟨.io, _⟩ :: _ | ⟨.terminate, _⟩ :: _ => .ok { s with sup := .cpus (c + 1) }
  | [⟨.cpu, 0⟩] | [] => .error .crash

/-- One round of the loop of `simulate_cpus`. -/
def simulateCpus (s : Sim n) (k : ℕ) : Except Stop (Sim n) :=
  if h : k < n then
    match (s.cpu ⟨k, h⟩).current with
    | none => .ok { s with sup := .cpus (k + 1) }
    | some pcb => simulateProcess s ⟨k, h⟩ pcb
  else .ok { s with sup := .io }

/-- `simulate_io`, up to the call of `wake_up`. -/
def simulateIo (s : Sim n) : Except Stop (Sim n) :=
  match s.ioQueue with
  | [] => .ok { s with sup := .creat }
  | (pcb, time + 1) :: queue => .ok { s with ioQueue := (pcb, time) :: queue, sup := .creat }
  | (pcb, 0) :: queue =>
      match s.ops pcb with
      | _ :: op :: rest =>
          .ok { setOps s pcb (op :: rest) (toUnsigned (op.time + 1)) with
            ioQueue := queue
            sup := .wakeUp pcb .push .simulateIo }
      | _ => .error .crash

/-- `simulator_time++`, and the end of the region. -/
def endRound (s : Sim n) : Sim n :=
  { s with
    simulatorTime := toUnsigned (s.simulatorTime + 1)
    rounds := s.rounds + 1
    sup := .top }

/-- `simulate_creat`, up to the call of `wake_up`, and what follows it. -/
def simulateCreat (cfg : Config) (s : Sim n) : Sim n :=
  if s.simulatorTime % 10 = 0 ∧ s.processesCreated < cfg.processCount then
    { s with sup := .wakeUp s.processesCreated .push .simulateCreat }
  else endRound s

/-- The region of `force_preempt`. -/
def forcePreempt (s : Sim n) (c : Fin n) (process : Pid) (caller : Caller) : Sim n :=
  if (s.cpu c).state = .running then
    s.raise c .preempt (.wakeUp process (.forceWaiting c) caller)
  else { s with sup := .wakeUp process .signal caller }

/-- A step of `wake_up`. -/
def stepWakeUp (cfg : Config) (s : Sim n) (process : Pid) (caller : Caller) :
    WakePoint n → Except Stop (Sim n)
  | .push => do
      let student ← section_ (s.student.wakeUp cfg.mode process)
      let point := if cfg.mode = .l then .scan else .signal
      return { s with student := student, sup := .wakeUp process point caller }
  | .scan =>
      let point := match s.student.preempted process with
        | some c => .force c
        | none => .signal
      .ok { s with sup := .wakeUp process point caller }
  | .force c => .ok (forcePreempt s c process caller)
  | .forceWaiting _ => .error .blocked
  | .forceWoken _ => .ok { s with sup := .wakeUp process .signal caller }
  | .signal => .ok { s with sup := .relock caller }

/-- The next step of the supervisor. -/
def stepSup (cfg : Config) (s : Sim n) : Except Stop (Sim n) :=
  match s.sup with
  | .top =>
      if cfg.processCount ≤ s.processesTerminated then .ok { s with sup := .exited }
      else .ok { s with sup := .cpus 0 }
  | .cpus k => simulateCpus s k
  | .waiting _ => .error .blocked
  | .woken c => .ok { s with sup := .cpus (c + 1) }
  | .io => simulateIo s
  | .creat => .ok (simulateCreat cfg s)
  | .wakeUp process point caller => stepWakeUp cfg s process caller point
  | .relock .simulateIo => .ok { s with sup := .creat }
  | .relock .simulateCreat =>
      .ok (endRound { s with processesCreated := s.processesCreated + 1 })
  | .exited => .error .blocked

/-! ### Runs -/

/-- Whose turn it is. -/
inductive Turn (n : ℕ)
  | cpu (c : Fin n)
  | sup
  deriving DecidableEq, Repr

/-- One step. -/
def step (cfg : Config) (s : Sim n) : Turn n → Except Stop (Sim n)
  | .cpu c => stepCpu cfg s c
  | .sup => stepSup cfg s

/-- The state in which `start_simulator` starts the threads.  `main` does not clear
`current[]`; an entry that is neither `NULL` nor a PCB is left out. -/
def start (ops : Pid → List Op) (current : Fin n → Option Pid) (timeRemaining : Pid → ℕ) :
    Sim n where
  cpu := fun _ => ⟨none, .idle, -1⟩
  ops := ops
  ioQueue := []
  simulatorTime := 0
  processesTerminated := 0
  processesCreated := 0
  student := {
    readyQueue := ⟨[], none, none⟩
    current := current
    state := fun _ => .new
    timeRemaining := timeRemaining }
  thread := fun _ => .top
  sup := .top
  history := fun _ => []
  rounds := 0

/-- Some steps. -/
def run (cfg : Config) : List (Turn n) → Sim n → Except Stop (Sim n)
  | [], s => .ok s
  | t :: ts, s => do run cfg ts (← step cfg s t)

end OsSim

end ProjectArchive.Scheduler
