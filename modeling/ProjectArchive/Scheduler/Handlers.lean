/-
ProjectArchive/Scheduler/Handlers.lean

The handlers of the scheduler, called one after another.

An event is handled to its end before the next one is raised; in mode `l`,
`wake_up` may have `preempt` run for another CPU before it returns.  Such a
history of events is one of the interleavings of the critical sections
(`step_reaches`), so that what holds of every interleaving holds here.  The
history records in which order processes become `PROCESS_READY`, and in which
order `schedule` pops them.
-/
import ProjectArchive.Scheduler.Places

namespace ProjectArchive.Scheduler

namespace Handlers

open Exec
open Places (Life Stop section_)

/-! ### The system -/

/-- A process becomes ready, or is popped. -/
inductive Mark
  | ready (process : Pid)
  | popped (process : Pid)
  deriving DecidableEq, Repr

/-- The scheduler, and what the simulator knows. -/
structure System (n : ℕ) where
  student : Student n
  /-- `simulator_cpu_data[c].current`: the process that the CPU executes. -/
  cpu : Fin n → Option Pid
  /-- `simulator_cpu_data[c].preemption_timer`. -/
  preemptionTimer : Fin n → ℤ
  life : Pid → Life
  history : List Mark

/-- The events: a process is created, its I/O request completes (and it has some time
remaining now), a blocked CPU finds the ready queue non-empty, the remaining time of a
process that is executed changes, or a CPU is preempted, yields or terminates. -/
inductive Event (n : ℕ)
  | create (process : Pid)
  | completeIo (process : Pid) (time : ℕ)
  | idle (cpu : Fin n)
  | run (cpu : Fin n) (time : ℕ)
  | preempt (cpu : Fin n)
  | yield (cpu : Fin n)
  | terminate (cpu : Fin n)
  deriving DecidableEq, Repr

variable {n : ℕ}

namespace System

def setLife (s : System n) (p : Pid) (l : Life) : System n :=
  { s with life := Function.update s.life p l }

/-- `process->time_remaining = time`. -/
def setTime (s : System n) (p : Pid) (time : ℕ) : System n :=
  { s with student := { s.student with
      timeRemaining := Function.update s.student.timeRemaining p time } }

def note (s : System n) (mark : Mark) : System n := { s with history := s.history ++ [mark] }

/-- `context_switch`. -/
def contextSwitch (s : System n) (c : Fin n) (pcb : Option Pid) (preemptionTime : ℤ) : System n :=
  { s with
    cpu := Function.update s.cpu c pcb
    preemptionTimer := Function.update s.preemptionTimer c preemptionTime }

end System

/-! ### The handlers -/

section Code

variable (mode : Mode) (timeslice : ℕ)

/-- `schedule`. -/
def schedule (s : System n) (c : Fin n) : Except Fault (System n) := do
  let (readyProcess, student) ← s.student.schedule
  match readyProcess with
  | none => return { s with student := student }.contextSwitch c none (-1)
  | some p =>
      let s := { s with student := student }.note (.popped p)
      let s := s.contextSwitch c (some p) (s.student.preemptionTime mode timeslice (some p))
      return { s with student := s.student.setCurrent c p }

/-- `preempt`. -/
def preempt (s : System n) (c : Fin n) : Except Fault (System n) := do
  let (nowRunning, student) ← s.student.preempt c
  let s := { s with student := student }.note (.ready nowRunning)
  let student ← s.student.pushBack nowRunning
  schedule mode timeslice { s with student := student } c

/-- `yield`. -/
def yield (s : System n) (c : Fin n) : Except Fault (System n) := do
  let (_, student) ← s.student.yield c
  schedule mode timeslice { s with student := student } c

/-- `terminate`. -/
def terminate (s : System n) (c : Fin n) : Except Fault (System n) := do
  let (_, student) ← s.student.terminate c
  schedule mode timeslice { s with student := student } c

/-- `force_preempt`, for a CPU that executes a process. -/
def forcePreempt (s : System n) (c : Fin n) : Except Fault (System n) :=
  match s.cpu c with
  | none => .ok s
  | some _ => preempt mode timeslice s c

/-- The CPU that `wake_up` preempts, if any. -/
def preempted (s : System n) (p : Pid) : Option (Fin n) :=
  if mode = .l then s.student.preempted p else none

/-- `wake_up`; the signal is received when the event `idle` is raised. -/
def wakeUp (s : System n) (p : Pid) : Except Fault (System n) := do
  let student ← s.student.wakeUp mode p
  let s := { s with student := student }.note (.ready p)
  match preempted mode s p with
  | none => return s
  | some c => forcePreempt mode timeslice s c

/-- The handling of one event. -/
def step (s : System n) : Event n → Except Stop (System n)
  | .create p =>
      if s.life p = .uncreated then section_ (wakeUp mode timeslice (s.setLife p .active) p)
      else .error .disabled
  | .completeIo p time =>
      if s.life p = .io then
        section_ (wakeUp mode timeslice ((s.setTime p time).setLife p .active) p)
      else .error .disabled
  | .idle c =>
      match s.cpu c with
      | none =>
          if s.student.isEmpty then .error .disabled else section_ (schedule mode timeslice s c)
      | some _ => .error .disabled
  | .run c time =>
      match s.cpu c with
      | none => .error .disabled
      | some p => .ok (s.setTime p time)
  | .preempt c =>
      match s.cpu c with
      | none => .error .disabled
      | some _ => section_ (preempt mode timeslice s c)
  | .yield c =>
      match s.cpu c with
      | none => .error .disabled
      | some p => section_ (yield mode timeslice (s.setLife p .io) c)
  | .terminate c =>
      match s.cpu c with
      | none => .error .disabled
      | some p => section_ (terminate mode timeslice (s.setLife p .terminated) c)

/-- Some events. -/
def run : List (Event n) → System n → Except Stop (System n)
  | [], s => .ok s
  | e :: es, s => do
      let s ← step mode timeslice s e
      run es s

end Code

/-- The state in which the simulator starts.  `current[]` comes from `malloc`, so it
holds anything. -/
def start (current : Fin n → Option Pid) (timeRemaining : Pid → ℕ) : System n where
  student := {
    readyQueue := ⟨[], none, none⟩
    current := current
    state := fun _ => .new
    timeRemaining := timeRemaining }
  cpu := fun _ => none
  preemptionTimer := fun _ => -1
  life := fun _ => .uncreated
  history := []

variable {mode : Mode} {timeslice : ℕ} {s s' : System n} {c : Fin n} {p : Pid}

theorem section_eq_ok {α : Type} {x : Except Fault α} {a : α} (h : section_ x = .ok a) :
    x = .ok a := by
  cases x with
  | error fault => cases h
  | ok b =>
      obtain rfl := Except.ok.inj h
      rfl

theorem run_concat {es : List (Event n)} {e : Event n}
    (h : run mode timeslice (es ++ [e]) s = .ok s') :
    ∃ s₁, run mode timeslice es s = .ok s₁ ∧ step mode timeslice s₁ e = .ok s' := by
  induction es generalizing s with
  | nil =>
      obtain ⟨s₁, hstep, hrest⟩ := bind_eq_ok h
      obtain rfl := Except.ok.inj hrest
      exact ⟨s, rfl, hstep⟩
  | cons e' es ih =>
      obtain ⟨s₁, hstep, hrest⟩ := bind_eq_ok h
      obtain ⟨s₂, hrun, hlast⟩ := ih hrest
      refine ⟨s₂, ?_, hlast⟩
      rw [run, hstep]
      exact hrun

/-- Every event of a history meets a condition in the state in which it is raised. -/
def Meets (mode : Mode) (timeslice : ℕ) (C : System n → Event n → Prop) :
    List (Event n) → System n → Prop
  | [], _ => True
  | e :: es, s => C s e ∧
      match step mode timeslice s e with
      | .ok s' => Meets mode timeslice C es s'
      | .error _ => True

/-- What holds at the start and is preserved by every event that meets the condition. -/
theorem meets_induction {P : System n → Prop} {C : System n → Event n → Prop} (h0 : P s)
    (hstep : ∀ s s' e, P s → C s e → step mode timeslice s e = .ok s' → P s')
    {es : List (Event n)} (hmeets : Meets mode timeslice C es s)
    (h : run mode timeslice es s = .ok s') : P s' := by
  induction es generalizing s with
  | nil =>
      obtain rfl := Except.ok.inj h
      exact h0
  | cons e es ih =>
      obtain ⟨s₁, hfirst, hrest⟩ := bind_eq_ok h
      obtain ⟨hC, hmeets⟩ := hmeets
      rw [hfirst] at hmeets
      exact ih (hstep s s₁ e h0 hC hfirst) hmeets hrest

/-! ### Histories are interleavings -/

/-- The point of a CPU thread between two events. -/
def point : Option Pid → Places.CpuPoint
  | none => .idle
  | some p => .running p

/-- The system between two events, with the calls of `wake_up` that are in progress. -/
def view (s : System n) (wakes : List (Places.Wake n)) : Places.System n where
  student := s.student
  cpu := fun c => point (s.cpu c)
  wakes := wakes
  life := s.life

theorem point_update (cpu : Fin n → Option Pid) (c : Fin n) (pcb : Option Pid) :
    (fun d => point (Function.update cpu c pcb d)) =
      Function.update (fun d => point (cpu d)) c (point pcb) := by
  funext d
  rcases eq_or_ne d c with rfl | hd
  · rw [Function.update_self, Function.update_self]
  · rw [Function.update_of_ne hd, Function.update_of_ne hd]

theorem goto_goto (t : Places.System n) (c : Fin n) (x y : Places.CpuPoint) :
    (t.goto c x).goto c y = t.goto c y := by
  unfold Places.System.goto
  dsimp only
  rw [Function.update_idem]

theorem goto_self (t : Places.System n) (c : Fin n) (x : Places.CpuPoint) :
    (t.goto c x).cpu c = x :=
  Function.update_self ..

variable {wakes : List (Places.Wake n)}

theorem view_contextSwitch (s : System n) (c : Fin n) (pcb : Option Pid) (time : ℤ) :
    view (s.contextSwitch c pcb time) wakes = (view s wakes).goto c (point pcb) := by
  unfold view System.contextSwitch Places.System.goto
  dsimp only
  rw [point_update]

theorem view_running (hc : s.cpu c = some p) : (view s wakes).cpu c = .running p := by
  show point (s.cpu c) = _
  rw [hc]
  rfl

/-- `schedule` is three sections. -/
theorem schedule_reaches (h : schedule mode timeslice s c = .ok s') :
    Places.Reaches mode ((view s wakes).goto c .schedule) (view s' wakes) := by
  obtain ⟨⟨readyProcess, student⟩, hpop, hrest⟩ := bind_eq_ok h
  have hschedule : Places.step mode ((view s wakes).goto c .schedule) (.schedule c) =
      .ok ((view { s with student := student } wakes).goto c (.switch readyProcess)) := by
    unfold Places.step
    dsimp only
    rw [goto_self]
    dsimp only
    rw [show ((view s wakes).goto c .schedule).student.schedule = _ from hpop]
    exact congrArg Except.ok (goto_goto (view { s with student := student } wakes) c _ _)
  refine .head ⟨_, hschedule⟩ ?_
  cases readyProcess with
  | none =>
      obtain rfl := Except.ok.inj hrest
      refine .single ⟨.contextSwitch c, ?_⟩
      unfold Places.step
      dsimp only
      rw [goto_self, view_contextSwitch, goto_goto]
      rfl
  | some p =>
      obtain rfl := Except.ok.inj hrest
      refine .head (b := (view { s with student := student } wakes).goto c (.install p))
        ⟨.contextSwitch c, ?_⟩ (.single ⟨.setCurrent c, ?_⟩)
      · unfold Places.step
        dsimp only
        rw [goto_self]
        exact congrArg Except.ok (goto_goto ..)
      · unfold Places.step
        dsimp only
        rw [goto_self]
        exact congrArg Except.ok ((goto_goto (view { s with student := student.setCurrent c p } wakes)
          c _ _).trans (view_contextSwitch { s with student := student.setCurrent c p } c (some p)
            0).symm)

/-- A handler is called, runs its sections, and goes on with `schedule`. -/
theorem preempt_reaches (hc : s.cpu c = some p) (h : preempt mode timeslice s c = .ok s') :
    Places.Reaches mode (view s wakes) (view s' wakes) := by
  obtain ⟨⟨nowRunning, student₁⟩, hmark, hrest⟩ := bind_eq_ok h
  obtain ⟨student₂, hpush, hschedule⟩ := bind_eq_ok hrest
  refine .head (b := (view s wakes).goto c (.preempt p)) ⟨.callPreempt c, ?_⟩
    (.head (b := (view { s with student := student₁ } wakes).goto c (.pushBack p nowRunning))
      ⟨.preempt c, ?_⟩
      (.head (b := (view { s with student := student₂ } wakes).goto c .schedule)
        ⟨.pushBack c, ?_⟩ ?_))
  · unfold Places.step
    dsimp only
    rw [view_running hc]
  · unfold Places.step
    dsimp only
    rw [goto_self]
    dsimp only
    rw [show ((view s wakes).goto c (.preempt p)).student.preempt c = _ from hmark]
    exact congrArg Except.ok (goto_goto (view { s with student := student₁ } wakes) c _ _)
  · unfold Places.step
    dsimp only
    rw [goto_self]
    dsimp only
    rw [show ((view { s with student := student₁ } wakes).goto c
      (.pushBack p nowRunning)).student.pushBack nowRunning = _ from hpush]
    exact congrArg Except.ok (goto_goto (view { s with student := student₂ } wakes) c _ _)
  · exact schedule_reaches (s := { s.note (.ready nowRunning) with student := student₂ }) hschedule

theorem forcePreempt_reaches (h : forcePreempt mode timeslice s c = .ok s') :
    Places.Reaches mode (view s wakes) (view s' wakes) := by
  unfold forcePreempt at h
  split at h
  · obtain rfl := Except.ok.inj h
    exact .refl
  · exact preempt_reaches ‹_› h

/-- The process of a CPU is called to leave it, a handler marks it, and goes on with
`schedule`. -/
theorem leave_reaches {a b : Places.Action n} {l : Life} {st : ProcessState}
    {x : Places.CpuPoint} (hc : s.cpu c = some p)
    (hcall : ∀ t : Places.System n, t.cpu c = .running p →
      Places.step mode t a = .ok ({ t with life := Function.update t.life p l }.goto c x))
    (hmark : ∀ (t : Places.System n) (q : Pid) (student : Student n), t.cpu c = x →
      t.student.mark c st = .ok (q, student) →
      Places.step mode t b = .ok ({ t with student := student }.goto c .schedule))
    (h : (do
      let (_, student) ← (s.setLife p l).student.mark c st
      schedule mode timeslice { s.setLife p l with student := student } c) = .ok s') :
    Places.Reaches mode (view s wakes) (view s' wakes) := by
  obtain ⟨⟨q, student⟩, hq, hschedule⟩ := bind_eq_ok h
  refine .head ⟨a, hcall _ (view_running hc)⟩ (.head ⟨b, hmark _ q student (goto_self ..) hq⟩ ?_)
  have hgoto : ({ ({ view s wakes with life := Function.update s.life p l } :
      Places.System n).goto c x with student := student } : Places.System n).goto c .schedule =
      (view { s.setLife p l with student := student } wakes).goto c .schedule :=
    goto_goto (view { s.setLife p l with student := student } wakes) c x .schedule
  exact hgoto ▸ schedule_reaches hschedule

theorem yield_reaches (hc : s.cpu c = some p)
    (h : yield mode timeslice (s.setLife p .io) c = .ok s') :
    Places.Reaches mode (view s wakes) (view s' wakes) := by
  refine leave_reaches (a := .callYield c) (b := .yield c) (x := .yield p) hc ?_ ?_ h
  · intro t ht
    rw [Places.step, ht]
  · intro t q student ht hq
    rw [Places.step, ht]
    dsimp only
    rw [Student.yield, hq]
    rfl

theorem terminate_reaches (hc : s.cpu c = some p)
    (h : terminate mode timeslice (s.setLife p .terminated) c = .ok s') :
    Places.Reaches mode (view s wakes) (view s' wakes) := by
  refine leave_reaches (a := .callTerminate c) (b := .terminate c) (x := .terminate p) hc ?_ ?_ h
  · intro t ht
    rw [Places.step, ht]
  · intro t q student ht hq
    rw [Places.step, ht]
    dsimp only
    rw [Student.terminate, hq]
    rfl

/-- `wake_up` pushes, looks for a CPU to preempt in mode `l`, and signals. -/
theorem wakeUp_reaches (h : wakeUp mode timeslice s p = .ok s') :
    Places.Reaches mode (view s [⟨p, .push⟩]) (view s' []) := by
  obtain ⟨student, hpush, hrest⟩ := bind_eq_ok h
  have hfirst : ∀ {point : Places.WakePoint n},
      point = (if mode = .l then .scan else .signal) →
      Places.step mode (view s [⟨p, .push⟩]) (.wakeUp 0) =
        .ok (view { s with student := student } [⟨p, point⟩]) := by
    rintro point rfl
    unfold Places.step
    dsimp only [view, List.getElem?_cons_zero]
    rw [hpush]
    rfl
  have hreturn : ∀ s : System n,
      Places.step mode (view s [⟨p, .signal⟩]) (.wakeUp 0) = .ok (view s []) := fun _ => rfl
  by_cases hmode : mode = .l
  · refine .head ⟨_, hfirst (if_pos hmode).symm⟩ ?_
    have hscan : Places.step mode (view { s with student := student } [⟨p, .scan⟩]) (.wakeUp 0) =
        .ok (view { s with student := student }
          [⟨p, (student.preempted p).elim .signal .force⟩]) := by
      unfold Places.step
      dsimp only [view, List.getElem?_cons_zero]
      cases student.preempted p <;> rfl
    have hpreempted : ∀ s : System n, preempted mode s p = s.student.preempted p :=
      fun _ => if_pos hmode
    dsimp only at hrest
    rw [hpreempted] at hrest
    dsimp only [System.note] at hrest
    rcases e : student.preempted p with - | c
    · rw [e] at hrest hscan
      obtain rfl := Except.ok.inj hrest
      exact .head ⟨_, hscan⟩ (.single ⟨_, hreturn _⟩)
    · rw [e] at hrest hscan
      -- the CPU runs `preempt` before `force_preempt` returns
      refine .head ⟨_, hscan⟩ ?_
      have hforce : Places.Reaches mode (view { s with student := student } [⟨p, .force c⟩])
          (view s' [⟨p, .force c⟩]) :=
        forcePreempt_reaches (s := { s.note (.ready p) with student := student }) hrest
      refine hforce.trans (.head (b := view s' [⟨p, .signal⟩]) ⟨.wakeUp 0, rfl⟩
        (.single ⟨_, hreturn _⟩))
  · refine .head ⟨_, hfirst (if_neg hmode).symm⟩ ?_
    have hpreempted : ∀ s : System n, preempted mode s p = none := fun _ => if_neg hmode
    dsimp only at hrest
    rw [hpreempted] at hrest
    obtain rfl := Except.ok.inj hrest
    exact .single ⟨_, hreturn _⟩

/-- **The handling of an event is an interleaving of sections.** -/
theorem step_reaches {e : Event n} (h : step mode timeslice s e = .ok s') :
    Places.Reaches mode (view s []) (view s' []) := by
  cases e with
  | create p =>
      rw [step] at h
      split at h
      · rename_i hlife
        refine .head (b := view (s.setLife p .active) [⟨p, .push⟩]) ⟨.create p, ?_⟩
          (wakeUp_reaches (section_eq_ok h))
        exact if_pos hlife
      · cases h
  | completeIo p time =>
      rw [step] at h
      split at h
      · rename_i hlife
        refine .head (b := view (s.setTime p time) []) ⟨.tick _, rfl⟩
          (.head (b := view ((s.setTime p time).setLife p .active) [⟨p, .push⟩])
            ⟨.completeIo p, ?_⟩ (wakeUp_reaches (section_eq_ok h)))
        exact if_pos hlife
      · cases h
  | idle c =>
      rw [step] at h
      split at h
      · rename_i hc
        split at h
        · cases h
        · rename_i hempty
          refine .head (b := (view s []).goto c .schedule) ⟨.idle c, ?_⟩
            (schedule_reaches (section_eq_ok h))
          have hpoint : (view s []).cpu c = .idle := by
            show point (s.cpu c) = _
            rw [hc]
            rfl
          unfold Places.step
          dsimp only
          rw [hpoint]
          exact if_neg hempty
      · cases h
  | run c time =>
      rw [step] at h
      split at h
      · cases h
      · obtain rfl := Except.ok.inj h
        exact .single ⟨.tick _, rfl⟩
  | preempt c =>
      rw [step] at h
      split at h
      · cases h
      · exact preempt_reaches ‹_› (section_eq_ok h)
  | yield c =>
      rw [step] at h
      split at h
      · cases h
      · exact yield_reaches ‹_› (section_eq_ok h)
  | terminate c =>
      rw [step] at h
      split at h
      · cases h
      · exact terminate_reaches ‹_› (section_eq_ok h)

/-! ### What the handlers do -/

/-- The queue of a system is replaced. -/
def System.setQueue (s : System n) (queue : LinkedQueue) : System n :=
  { s with student := { s.student with readyQueue := queue } }

def System.setState (s : System n) (p : Pid) (st : ProcessState) : System n :=
  { s with student := s.student.setState p st }

/-- The process `p` is executed on the CPU `c` from now on. -/
def System.install (s : System n) (mode : Mode) (timeslice : ℕ) (c : Fin n) (p : Pid) : System n :=
  let s' := ((s.setState p .running).note (.popped p)).contextSwitch c (some p)
    (s.student.preemptionTime mode timeslice (some p))
  { s' with student := s'.student.setCurrent c p }

/-- `schedule` selects the idle process, or pops the first process of the queue. -/
inductive Scheduled (mode : Mode) (timeslice : ℕ) (s : System n) (c : Fin n) :
    List Pid → System n → Prop
  | idle (queue : LinkedQueue) (hq : Represents queue []) :
      Scheduled mode timeslice s c [] ((s.setQueue queue).contextSwitch c none (-1))
  | pops (p : Pid) (ps : List Pid) (queue : LinkedQueue) (hq : Represents queue ps) :
      Scheduled mode timeslice s c (p :: ps) ((s.setQueue queue).install mode timeslice c p)

variable {ps : List Pid}

theorem schedule_spec (hq : Represents s.student.readyQueue ps)
    (h : schedule mode timeslice s c = .ok s') : Scheduled mode timeslice s c ps s' := by
  obtain ⟨⟨readyProcess, student⟩, hpop, hrest⟩ := bind_eq_ok h
  cases ps with
  | nil =>
      obtain ⟨queue, hq', he⟩ := Student.schedule_nil hq
      obtain ⟨rfl, rfl⟩ := Prod.mk.inj (Except.ok.inj (he.symm.trans hpop))
      obtain rfl := Except.ok.inj hrest
      exact .idle queue hq'
  | cons p ps =>
      obtain ⟨queue, hq', he⟩ := Student.schedule_cons hq
      obtain ⟨rfl, rfl⟩ := Prod.mk.inj (Except.ok.inj (he.symm.trans hpop))
      obtain rfl := Except.ok.inj hrest
      exact .pops p ps queue hq'

theorem preempt_spec (hq : Represents s.student.readyQueue ps) (hc : s.student.current c = some p)
    (h : preempt mode timeslice s c = .ok s') :
    ∃ queue, Represents queue (orderedInsert s.student.timeRemaining p ps) ∧
      Scheduled mode timeslice (((s.setState p .ready).note (.ready p)).setQueue queue) c
        (orderedInsert s.student.timeRemaining p ps) s' := by
  obtain ⟨⟨nowRunning, student₁⟩, hmark, hrest⟩ := bind_eq_ok h
  obtain ⟨student₂, hpush, hschedule⟩ := bind_eq_ok hrest
  have hready := Student.mark_eq hc .ready
  obtain ⟨rfl, rfl⟩ := Prod.mk.inj (Except.ok.inj (hready.symm.trans hmark))
  obtain ⟨queue, hq', he⟩ := Student.pushBack_eq (s := s.student.setState p .ready) hq p
  obtain rfl := Except.ok.inj (he.symm.trans hpush)
  exact ⟨queue, hq', schedule_spec hq' hschedule⟩

/-- The process of a CPU leaves it. -/
theorem leave_spec {st : ProcessState} (hq : Represents s.student.readyQueue ps)
    (hc : s.student.current c = some p)
    (h : (do
      let (_, student) ← s.student.mark c st
      schedule mode timeslice { s with student := student } c) = .ok s') :
    Scheduled mode timeslice (s.setState p st) c ps s' := by
  rw [Student.mark_eq hc] at h
  exact schedule_spec (s := s.setState p st) hq h

theorem yield_spec (hq : Represents s.student.readyQueue ps) (hc : s.student.current c = some p)
    (h : yield mode timeslice s c = .ok s') :
    Scheduled mode timeslice (s.setState p .waiting) c ps s' := leave_spec hq hc h

theorem terminate_spec (hq : Represents s.student.readyQueue ps) (hc : s.student.current c = some p)
    (h : terminate mode timeslice s c = .ok s') :
    Scheduled mode timeslice (s.setState p .terminated) c ps s' := leave_spec hq hc h

/-- The loop of `wake_up` reads `current[]` and the remaining times only. -/
theorem shortest_congr {student student' : Student n} (hcurrent : student'.current = student.current)
    (htime : student'.timeRemaining = student.timeRemaining) (l : List (Fin n)) (time : ℕ)
    (cpu : Option (Fin n)) : student'.shortest l time cpu = student.shortest l time cpu := by
  induction l generalizing time cpu with
  | nil => rfl
  | cons i l ih =>
      unfold Student.shortest
      rw [hcurrent, htime]
      rcases student.current i with - | q
      · rfl
      · dsimp only
        rw [ih, ih]

theorem preempted_congr {s s' : System n} (hcurrent : s'.student.current = s.student.current)
    (htime : s'.student.timeRemaining = s.student.timeRemaining) (mode : Mode) (p : Pid) :
    preempted mode s' p = preempted mode s p := by
  unfold preempted Student.preempted
  rw [shortest_congr hcurrent htime, htime]

theorem wakeUp_spec (hq : Represents s.student.readyQueue ps)
    (h : wakeUp mode timeslice s p = .ok s') :
    ∃ queue, Represents queue (Student.pushed mode s.student.timeRemaining p ps) ∧
      match preempted mode s p with
      | none => s' = ((s.setState p .ready).note (.ready p)).setQueue queue
      | some c => forcePreempt mode timeslice
          (((s.setState p .ready).note (.ready p)).setQueue queue) c = .ok s' := by
  obtain ⟨student, hpush, hrest⟩ := bind_eq_ok h
  obtain ⟨queue, hq', he⟩ := Student.wakeUp_eq mode hq p
  obtain rfl := Except.ok.inj (he.symm.trans hpush)
  refine ⟨queue, hq', ?_⟩
  -- the push and the mark do not change which CPU is preempted
  have hsame : preempted mode ({ s with
      student := { s.student.setState p .ready with readyQueue := queue } }.note (.ready p)) p =
      preempted mode s p := by
    apply preempted_congr
    · rfl
    · rfl
  dsimp only at hrest
  rw [hsame] at hrest
  split at hrest
  · exact (Except.ok.inj hrest).symm
  · exact hrest

end Handlers

end ProjectArchive.Scheduler
