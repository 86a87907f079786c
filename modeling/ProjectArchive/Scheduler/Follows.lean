/-
ProjectArchive/Scheduler/Follows.lean

The simulator follows its outline.

Every step of the simulator is a step of the outline, with the list that the
ready queue holds (`Follows.step`): what a step writes is computed once in the
outline, for the updates that the threads and the supervisor are made of, and
the rest is the case split of the source.  So an invariant of the outline is one
of the simulator, in every order of the steps, whether or not events are lost
(`Reaches.visits`).
-/
import ProjectArchive.Scheduler.Outline
import ProjectArchive.Scheduler.Timers

namespace ProjectArchive.Scheduler

namespace OsSim

open Exec (bind_eq_ok)

variable {n : ℕ}

/-! ### The outline of a state -/

/-- After an event, the supervisor goes on with the next CPU. -/
def SupPoint.stage : SupPoint n → Stage
  | .top => .top
  | .cpus k => .cpus k
  | .waiting c | .woken c => .cpus (c + 1)
  | .io => .io
  | .creat => .creat
  | .wakeUp process .push caller => .waking process caller
  | .wakeUp _ _ caller | .relock caller => .woke caller
  | .exited => .exited

/-- The outline of a state with the ready queue `ready`. -/
def Sim.outline (s : Sim n) (ready : List Pid) : Outline n where
  desk := fun c => ⟨(s.cpu c).current, (s.cpu c).state, s.thread c, s.student.current c⟩
  ready := ready
  ops := s.ops
  ioQueue := s.ioQueue
  time := s.simulatorTime
  rounds := s.rounds
  terminated := s.processesTerminated
  created := s.processesCreated
  stage := s.sup.stage

/-! ### The state after a step, in outline -/

section Outlines

variable {s s' : Sim n} {c : Fin n} {ps : List Pid} {x : ThreadPoint}

theorem outline_goto : (s.goto c x).outline ps =
    (s.outline ps).setDesk c { (s.outline ps).desk c with thread := x } := by
  have hdesk : ((s.goto c x).outline ps).desk =
      Function.update (s.outline ps).desk c { (s.outline ps).desk c with thread := x } := by
    funext d
    rcases eq_or_ne d c with rfl | hne
    · simp [Sim.outline, Sim.goto]
    · simp [Sim.outline, Sim.goto, hne]
  exact congrArg (fun desk => { s.outline ps with desk := desk }) hdesk

theorem outline_record (m : Mark) : (s.record c m).outline ps = s.outline ps := rfl

/-- What the simulator knows of a CPU is written. -/
theorem outline_setCpu (data : CpuData) :
    ({ s with cpu := Function.update s.cpu c data } : Sim n).outline ps =
      (s.outline ps).setDesk c
        { (s.outline ps).desk c with current := data.current, state := data.state } := by
  have hdesk : (({ s with cpu := Function.update s.cpu c data } : Sim n).outline ps).desk =
      Function.update (s.outline ps).desk c
        { (s.outline ps).desk c with current := data.current, state := data.state } := by
    funext d
    rcases eq_or_ne d c with rfl | hne
    · simp [Sim.outline]
    · simp [Sim.outline, hne]
  exact congrArg (fun desk => { s.outline ps with desk := desk }) hdesk

theorem outline_setState (st : CpuState) : (s.setState c st).outline ps =
    (s.outline ps).setDesk c { (s.outline ps).desk c with state := st } :=
  outline_setCpu _

theorem outline_countDown : (s.countDown c).outline ps = s.outline ps := by
  refine (outline_setCpu _).trans ?_
  exact setDesk_self (s.outline ps) c

/-- A signal moves the supervisor within its stage. -/
theorem outline_signal : (s.signal c).outline ps =
    (s.outline ps).setDesk c ((s.outline ps).desk c).signal := by
  rw [Sim.signal]
  split
  · rename_i hwaiting
    rw [outline_goto, Desk.signal, if_pos (show ((s.outline ps).desk c).thread = .waiting from
      hwaiting)]
  · rename_i hwaiting
    have hsame : (s.outline ps).setDesk c ((s.outline ps).desk c).signal = s.outline ps := by
      rw [Desk.signal, if_neg (show ((s.outline ps).desk c).thread ≠ .waiting from hwaiting)]
      exact setDesk_self (s.outline ps) c
    rw [hsame]
    -- the supervisor may be signalled
    have hstage : ∀ point : SupPoint n, point.stage = s.sup.stage →
        ({ s with sup := point } : Sim n).outline ps = s.outline ps := by
      intro point hpoint
      exact congrArg (fun stage => { s.outline ps with stage := stage }) hpoint
    split
    · rename_i hsup
      refine hstage _ ?_
      rw [hsup]
      rfl
    · split
      · rename_i p d caller hsup
        split
        · refine hstage _ ?_
          rw [hsup]
          rfl
        · rfl
      · rfl

theorem outline_raise (event : CpuState) (wait : SupPoint n) :
    (s.raise c event wait).outline ps =
      { (s.outline ps).setDesk c (((s.outline ps).desk c).raise event) with
        stage := wait.stage } := by
  have hraised : (((s.setState c event).record c (.raised event)).signal c).outline ps =
      (s.outline ps).setDesk c (((s.outline ps).desk c).raise event) := by
    rw [outline_signal, outline_record, outline_setState, setDesk_setDesk, setDesk_desk_self]
    rfl
  exact congrArg (fun o : Outline n => { o with stage := wait.stage }) hraised

end Outlines

/-! ### The simulator follows the outline -/

section Steps

variable {cfg : Config} {s s' : Sim n} {c : Fin n} {ps : List Pid}

/-- The ready queue is well formed after the step, and the step is one of the outline. -/
def Follows (cfg : Config) (o : Outline n) (s' : Sim n) : Prop :=
  ∃ ps', Represents s'.student.readyQueue ps' ∧ Next cfg.processCount o (s'.outline ps')

/-- The ready queue is well formed after the step, and the step is one of the thread of the CPU
`c` in the outline. -/
def Works (o : Outline n) (c : Fin n) (s' : Sim n) : Prop :=
  ∃ ps', Represents s'.student.readyQueue ps' ∧ ThreadNext o c (s'.outline ps')

theorem Works.follows {o : Outline n} (h : Works o c s') : Follows cfg o s' := by
  obtain ⟨ps', hps', hnext⟩ := h
  exact ⟨ps', hps', hnext.next⟩

/-- The thread goes on to another point. -/
theorem Works.goto {x : ThreadPoint} (h : Represents s.student.readyQueue ps)
    (hd : ((s.outline ps).desk c).Step ps { (s.outline ps).desk c with thread := x } ps) :
    Works (s.outline ps) c (s.goto c x) := by
  refine ⟨ps, h, ?_⟩
  rw [outline_goto]
  exact .step hd

theorem Works.head (h : Represents s.student.readyQueue ps) (hthread : s.thread c = .top) :
    Works (s.outline ps) c (head s c) := by
  have hqueue : Represents (s.signal c).student.readyQueue ps := by
    rw [(signal_keeps s c).2.2]
    exact h
  have hsignal : (s.signal c).outline ps = s.outline ps := by
    have hne : ((s.outline ps).desk c).thread ≠ .waiting := by
      show s.thread c ≠ .waiting
      rw [hthread]
      exact ThreadPoint.noConfusion
    rw [outline_signal, Desk.signal, if_neg hne]
    exact setDesk_self (s.outline ps) c
  have hcurrent : ((s.signal c).cpu c).current = ((s.outline ps).desk c).current := by
    rw [(signal_keeps s c).1]
    rfl
  rw [OsSim.head]
  split
  · rename_i hnone
    refine ⟨ps, hqueue, ?_⟩
    rw [outline_goto, outline_record, outline_setState, setDesk_setDesk, setDesk_desk_self, hsignal]
    exact .step (.idle hthread (hcurrent.symm.trans hnone))
  · rename_i p hsome
    refine ⟨ps, hqueue, ?_⟩
    rw [outline_goto, outline_record, outline_setState, setDesk_setDesk, setDesk_desk_self, hsignal]
    exact .step (.run hthread (hcurrent.symm.trans hsome))

theorem Works.retest (h : Represents s.student.readyQueue ps) (hthread : s.thread c = .woken) :
    Works (s.outline ps) c (retest s c) := by
  rw [OsSim.retest]
  split
  · rename_i hstate
    exact .goto h (.wait hthread hstate)
  · rename_i hstate
    exact .goto h (.leave hthread hstate)

theorem Works.dispatch {st : CpuState} (h : Represents s.student.readyQueue ps)
    (hthread : s.thread c = .dispatch st) : Works (s.outline ps) c (dispatch s c st) := by
  have hcall : Works (s.outline ps) c (s.goto c st.handler) := .goto h (.call hthread)
  -- the call of a handler is only recorded
  cases st with
  | idle => exact hcall
  | running => exact hcall
  | preempt => exact hcall
  | yield => exact hcall
  | terminate => exact hcall

theorem Works.count (h : Represents s.student.readyQueue ps) (hthread : s.thread c = .count) :
    Works (s.outline ps) c (count s c) := by
  refine ⟨ps, h, ?_⟩
  have hgoto : ((s.record c (.called .terminate)).goto c .terminate).outline ps =
      (s.outline ps).setDesk c { (s.outline ps).desk c with thread := .terminate } := outline_goto
  have hcount : (OsSim.count s c).outline ps =
      { (s.outline ps).setDesk c { (s.outline ps).desk c with thread := .terminate } with
        terminated := (s.outline ps).terminated + 1 } :=
    congrArg (fun o : Outline n => { o with terminated := s.processesTerminated + 1 }) hgoto
  rw [hcount]
  exact .count hthread

theorem Works.contextSwitch {pcb : Option Pid} {time : ℤ}
    (h : Represents s.student.readyQueue ps) (hthread : s.thread c = .switch pcb time) :
    Works (s.outline ps) c (contextSwitch s c pcb time) := by
  cases pcb with
  | none =>
      refine ⟨ps, h, ?_⟩
      rw [OsSim.contextSwitch, outline_goto, outline_setCpu, setDesk_setDesk, setDesk_desk_self]
      exact .step (.switch hthread)
  | some p =>
      refine ⟨ps, h, ?_⟩
      rw [OsSim.contextSwitch, outline_goto, outline_setCpu, setDesk_setDesk, setDesk_desk_self]
      exact .step (.switch hthread)

/-- `current[c] = p`, and the return to the head of the loop. -/
theorem Works.install {p : Pid} (h : Represents s.student.readyQueue ps)
    (hthread : s.thread c = .install p) :
    Works (s.outline ps) c
      ({ s with student := s.student.setCurrent c p }.goto c .top) := by
  refine ⟨ps, h, ?_⟩
  have hset : ({ s with student := s.student.setCurrent c p } : Sim n).outline ps =
      (s.outline ps).setDesk c { (s.outline ps).desk c with executed := some p } := by
    have hdesk : (({ s with student := s.student.setCurrent c p } : Sim n).outline ps).desk =
        Function.update (s.outline ps).desk c
          { (s.outline ps).desk c with executed := some p } := by
      funext d
      rcases eq_or_ne d c with rfl | hne
      · simp [Sim.outline, Student.setCurrent]
      · simp [Sim.outline, Student.setCurrent, hne]
    exact congrArg (fun desk => { s.outline ps with desk := desk }) hdesk
  rw [outline_goto, hset, setDesk_setDesk, setDesk_desk_self]
  exact .step (.install hthread)

/-- A section of a handler that changes the ready queue only. -/
theorem Works.of_student {student : Student n} {x : ThreadPoint} {ps' : List Pid}
    (h : Represents student.readyQueue ps') (hcurrent : student.current = s.student.current)
    (hd : ((s.outline ps).desk c).Step ps { (s.outline ps).desk c with thread := x } ps') :
    Works (s.outline ps) c ({ s with student := student }.goto c x) := by
  refine ⟨ps', h, ?_⟩
  have hstudent : ({ s with student := student } : Sim n).outline ps' =
      { s.outline ps with ready := ps' } := by
    unfold Sim.outline
    rw [hcurrent]
  rw [outline_goto, hstudent]
  exact .step hd

theorem Works.mark {st : ProcessState} {x : Pid → ThreadPoint}
    (h : Represents s.student.readyQueue ps)
    (hs : (do
      let r ← section_ (s.student.mark c st)
      return { s with student := r.2 }.goto c (x r.1)) = .ok s')
    (hd : ∀ p, s.student.current c = some p →
      ((s.outline ps).desk c).Step ps { (s.outline ps).desk c with thread := x p } ps) :
    Works (s.outline ps) c s' := by
  obtain ⟨⟨p, student⟩, hr, hrest⟩ := bind_eq_ok hs
  obtain rfl := Except.ok.inj hrest
  cases hp : s.student.current c with
  | none =>
      rw [Student.mark, hp] at hr
      cases hr
  | some q =>
      rw [Student.mark_eq hp] at hr
      cases hr
      exact .of_student h rfl (hd p hp)

/-- **A step of the thread of a CPU is one of the outline.** -/
theorem Works.stepCpu (h : Represents s.student.readyQueue ps)
    (hs : stepCpu cfg s c = .ok s') : Works (s.outline ps) c s' := by
  rw [OsSim.stepCpu] at hs
  split at hs
  · rename_i hthread
    obtain rfl := eq_of_unlocked hs
    exact .head h hthread
  · cases hs
  · rename_i hthread
    obtain rfl := eq_of_unlocked hs
    exact .retest h hthread
  · rename_i hthread
    obtain rfl := Except.ok.inj hs
    exact .dispatch h hthread
  · rename_i hthread
    obtain rfl := eq_of_unlocked hs
    exact .count h hthread
  · rename_i hthread
    obtain rfl := eq_of_unlocked hs
    exact .goto h (.wake hthread)
  · -- `schedule` pops the head of the ready queue, if there is one
    rename_i hthread
    cases ps with
    | nil =>
        obtain ⟨queue, hqueue, hschedule⟩ := Student.schedule_nil h
        rw [hschedule] at hs
        obtain rfl := Except.ok.inj hs
        exact .of_student hqueue rfl (.pop hthread)
    | cons p ps =>
        obtain ⟨queue, hqueue, hschedule⟩ := Student.schedule_cons h
        rw [hschedule] at hs
        obtain rfl := Except.ok.inj hs
        exact .of_student hqueue rfl (.pop hthread)
  · rename_i hthread
    obtain rfl := eq_of_unlocked hs
    exact .contextSwitch h hthread
  · rename_i hthread
    obtain rfl := Except.ok.inj hs
    exact .install h hthread
  · rename_i hthread
    exact .mark h hs fun p hp => .preempt hthread hp
  · -- the process is inserted by its time, which the outline does not see
    rename_i p hthread
    obtain ⟨queue, hqueue, hpush⟩ := Student.pushBack_eq h p
    rw [hpush] at hs
    obtain rfl := Except.ok.inj hs
    exact .of_student hqueue rfl (.pushBack hthread (orderedInsert_perm _ _ _))
  · rename_i hthread
    exact Works.mark (x := fun _ => .schedule) h hs fun _ _ => .release (.inl hthread)
  · rename_i hthread
    exact Works.mark (x := fun _ => .schedule) h hs fun _ _ => .release (.inr hthread)

/-- The supervisor goes on within its stage. -/
theorem Follows.within {point : SupPoint n} (h : Represents s.student.readyQueue ps)
    (hstage : point.stage = s.sup.stage) :
    Follows cfg (s.outline ps) { s with sup := point } := by
  refine ⟨ps, h, ?_⟩
  have hsame : ({ s with sup := point } : Sim n).outline ps = s.outline ps :=
    congrArg (fun stage => { s.outline ps with stage := stage }) hstage
  rw [hsame]
  exact .still

/-- An event leaves the ready queue alone. -/
theorem raise_represents {event : CpuState} {wait : SupPoint n}
    (h : Represents s.student.readyQueue ps) :
    Represents (s.raise c event wait).student.readyQueue ps := by
  show Represents (((s.setState c event).record c (.raised event)).signal c).student.readyQueue ps
  rw [(signal_keeps _ c).2.2]
  exact h

theorem Follows.simulateProcess {p : Pid} (h : Represents s.student.readyQueue ps)
    (hsup : s.sup = .cpus c) (hcurrent : (s.cpu c).current = some p)
    (hs : simulateProcess s c p = .ok s') : Follows cfg (s.outline ps) s' := by
  have hstage : (s.outline ps).stage = .cpus c := congrArg SupPoint.stage hsup
  have hpass : Next cfg.processCount (s.outline ps)
      { s.outline ps with stage := .cpus (c + 1) } := .pass hstage c.isLt
  rw [OsSim.simulateProcess] at hs
  split at hs
  · rename_i time rest hops
    -- the process after the tick
    have hticked : ((setOps s p (⟨.cpu, time⟩ :: rest) (time + 1)).countDown c).outline ps =
        { s.outline ps with ops := Function.update s.ops p (⟨.cpu, time⟩ :: rest) } :=
      outline_countDown
    dsimp only at hs
    split at hs
    · obtain rfl := Except.ok.inj hs
      refine ⟨ps, raise_represents h, ?_⟩
      rw [outline_raise, hticked]
      exact .tick hstage hcurrent hops (.inr rfl)
    · obtain rfl := Except.ok.inj hs
      refine ⟨ps, h, ?_⟩
      have htick : Next cfg.processCount (s.outline ps)
          { (s.outline ps).setDesk c ((s.outline ps).desk c) with
            ops := Function.update s.ops p (⟨.cpu, time⟩ :: rest), stage := .cpus (c + 1) } :=
        .tick hstage hcurrent hops (.inl rfl)
      rw [setDesk_self] at htick
      refine Eq.subst ?_ htick
      exact (congrArg (fun o : Outline n => { o with stage := .cpus (c + 1) }) hticked).symm
  · rename_i op rest hops
    obtain ⟨type, time⟩ := op
    cases type with
    | io =>
        obtain rfl := Except.ok.inj hs
        refine ⟨ps, raise_represents h, ?_⟩
        rw [outline_raise]
        exact .request hstage hcurrent hops
    | terminate =>
        obtain rfl := Except.ok.inj hs
        refine ⟨ps, raise_represents h, ?_⟩
        rw [outline_raise]
        exact .finish hstage hcurrent hops
    | cpu =>
        obtain rfl := Except.ok.inj hs
        exact ⟨ps, h, .burst hstage hcurrent hops⟩
  · obtain rfl := Except.ok.inj hs
    exact ⟨ps, h, hpass⟩
  · obtain rfl := Except.ok.inj hs
    exact ⟨ps, h, hpass⟩
  · cases hs
  · cases hs

theorem Follows.simulateCpus {k : ℕ} (h : Represents s.student.readyQueue ps)
    (hsup : s.sup = .cpus k) (hs : simulateCpus s k = .ok s') :
    Follows cfg (s.outline ps) s' := by
  have hstage : (s.outline ps).stage = .cpus k := congrArg SupPoint.stage hsup
  rw [OsSim.simulateCpus] at hs
  split at hs
  · rename_i hk
    split at hs
    · obtain rfl := Except.ok.inj hs
      exact ⟨ps, h, .pass hstage hk⟩
    · rename_i p hcurrent
      exact .simulateProcess h hsup hcurrent hs
  · rename_i hk
    obtain rfl := Except.ok.inj hs
    exact ⟨ps, h, .device hstage (Nat.le_of_not_lt hk)⟩

theorem Follows.simulateIo (h : Represents s.student.readyQueue ps) (hsup : s.sup = .io)
    (hs : simulateIo s = .ok s') : Follows cfg (s.outline ps) s' := by
  have hstage : (s.outline ps).stage = .io := congrArg SupPoint.stage hsup
  rw [OsSim.simulateIo] at hs
  split at hs
  · rename_i hqueue
    obtain rfl := Except.ok.inj hs
    exact ⟨ps, h, .free hstage hqueue⟩
  · rename_i hqueue
    obtain rfl := Except.ok.inj hs
    exact ⟨ps, h, .serve hstage hqueue⟩
  · rename_i hqueue
    split at hs
    · rename_i hops
      obtain rfl := Except.ok.inj hs
      exact ⟨ps, h, .complete hstage hqueue hops⟩
    · cases hs

theorem Follows.simulateCreat (h : Represents s.student.readyQueue ps) (hsup : s.sup = .creat) :
    Follows cfg (s.outline ps) (simulateCreat cfg s) := by
  have hstage : (s.outline ps).stage = .creat := congrArg SupPoint.stage hsup
  rw [OsSim.simulateCreat]
  split
  · rename_i hcreate
    exact ⟨ps, h, .create hstage hcreate.1 hcreate.2⟩
  · rename_i hnone
    exact ⟨ps, h, .advance hstage hnone⟩

theorem Follows.forcePreempt {p : Pid} {caller : Caller} (h : Represents s.student.readyQueue ps)
    (hsup : s.sup = .wakeUp p (.force c) caller) :
    Follows cfg (s.outline ps) (forcePreempt s c p caller) := by
  have hstage : (s.outline ps).stage = .woke caller := congrArg SupPoint.stage hsup
  rw [OsSim.forcePreempt]
  split
  · rename_i hstate
    refine ⟨ps, raise_represents h, ?_⟩
    have hforce : Next cfg.processCount (s.outline ps)
        ((s.outline ps).setDesk c (((s.outline ps).desk c).raise .preempt)) :=
      .force hstage hstate
    rw [outline_raise]
    refine Eq.subst ?_ hforce
    -- the supervisor stays in its stage
    exact congrArg (fun stage =>
      { (s.outline ps).setDesk c (((s.outline ps).desk c).raise .preempt) with stage := stage })
      hstage
  · refine .within h ?_
    rw [hsup]
    rfl

theorem Follows.wakeUp {p : Pid} {caller : Caller} {point : WakePoint n}
    (h : Represents s.student.readyQueue ps) (hsup : s.sup = .wakeUp p point caller)
    (hs : stepWakeUp cfg s p caller point = .ok s') : Follows cfg (s.outline ps) s' := by
  have hstage : (s.outline ps).stage = (SupPoint.wakeUp p point caller).stage :=
    congrArg SupPoint.stage hsup
  cases point with
  | push =>
      obtain ⟨queue, hqueue, hpush⟩ := Student.wakeUp_eq cfg.mode h p
      rw [stepWakeUp, hpush] at hs
      obtain rfl := Except.ok.inj hs
      refine ⟨_, hqueue, ?_⟩
      have hnext : Next cfg.processCount (s.outline ps)
          { s.outline ps with
            ready := Student.pushed cfg.mode s.student.timeRemaining p ps
            stage := .woke caller } := .push hstage (Student.pushed_perm _ _ p ps)
      refine Eq.subst ?_ hnext
      -- the second section follows in mode `l` only
      rcases em (cfg.mode = .l) with hmode | hmode
      · rw [if_pos hmode]
        rfl
      · rw [if_neg hmode]
        rfl
  | scan =>
      obtain rfl := Except.ok.inj hs
      refine .within h ?_
      rw [hsup]
      cases s.student.preempted p with
      | none => rfl
      | some c => rfl
  | force c =>
      obtain rfl := Except.ok.inj hs
      exact .forcePreempt h hsup
  | forceWaiting c => cases hs
  | forceWoken c =>
      obtain rfl := Except.ok.inj hs
      refine .within h ?_
      rw [hsup]
      rfl
  | signal =>
      obtain rfl := Except.ok.inj hs
      refine .within h ?_
      rw [hsup]
      rfl

/-- **A step of the supervisor is one of the outline.** -/
theorem Follows.stepSup (h : Represents s.student.readyQueue ps)
    (hs : stepSup cfg s = .ok s') : Follows cfg (s.outline ps) s' := by
  rw [OsSim.stepSup] at hs
  split at hs
  · rename_i hsup
    have hstage : (s.outline ps).stage = .top := congrArg SupPoint.stage hsup
    -- the supervisor exits when it has counted as many processes as there are
    split at hs
    · rename_i hall
      obtain rfl := Except.ok.inj hs
      exact ⟨ps, h, .exit hstage hall⟩
    · rename_i hleft
      obtain rfl := Except.ok.inj hs
      exact ⟨ps, h, .round hstage (Nat.lt_of_not_le hleft)⟩
  · rename_i hsup
    exact .simulateCpus h hsup hs
  · cases hs
  · rename_i hsup
    obtain rfl := Except.ok.inj hs
    refine .within h ?_
    rw [hsup]
    rfl
  · rename_i hsup
    exact .simulateIo h hsup hs
  · rename_i hsup
    obtain rfl := Except.ok.inj hs
    exact .simulateCreat h hsup
  · rename_i hsup
    exact .wakeUp h hsup hs
  -- back from `wake_up`, to the caller
  · rename_i hsup
    obtain rfl := Except.ok.inj hs
    exact ⟨ps, h, .completed (congrArg SupPoint.stage hsup)⟩
  · rename_i hsup
    obtain rfl := Except.ok.inj hs
    exact ⟨ps, h, .created (congrArg SupPoint.stage hsup)⟩
  · cases hs

theorem Follows.step {t : Turn n} (h : Represents s.student.readyQueue ps)
    (hs : step cfg s t = .ok s') : Follows cfg (s.outline ps) s' := by
  cases t with
  | cpu c => exact (Works.stepCpu h hs).follows
  | sup => exact .stepSup h hs

end Steps

/-! ### Runs -/

/-- **Every state that the simulator reaches is reached by the outline.** -/
theorem Reaches.visits {cfg : Config} {ops : Pid → List Op} {current : Fin n → Option Pid}
    {time : Pid → ℕ} {s : Sim n} (h : Reaches cfg (start ops current time) s) :
    ∃ ps, Represents s.student.readyQueue ps ∧
      Visits cfg.processCount ops current (s.outline ps) := by
  induction h with
  | refl => exact ⟨[], represents_empty, .refl⟩
  | tail _ hstep ih =>
      obtain ⟨t, hs⟩ := hstep
      obtain ⟨ps, hps, hvisits⟩ := ih
      obtain ⟨ps', hps', hnext⟩ := Follows.step hps hs
      exact ⟨ps', hps', hvisits.tail hnext⟩

end OsSim

end ProjectArchive.Scheduler
