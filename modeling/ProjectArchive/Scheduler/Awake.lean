/-
ProjectArchive/Scheduler/Awake.lean

The thread that the supervisor waits for is awake.

Events may be lost.  Still, an event is only raised for a CPU that executes a
process: its thread is in `pthread_cond_wait`, and is woken up, or it is on its
way to the head of its loop, where it signals the supervisor.  So while the
supervisor waits for a CPU, there is an event for it, and its thread is neither
asleep nor in `idle` (`Reaches.awake`).
-/
import ProjectArchive.Scheduler.Requests

namespace ProjectArchive.Scheduler

namespace OsSim

open Exec (bind_eq_ok)

variable {n : ℕ}

/-! ### Whom the supervisor waits for -/

/-- The CPU that the supervisor waits for. -/
def SupPoint.awaits : SupPoint n → Option (Fin n)
  | .waiting c => some c
  | .wakeUp _ (.forceWaiting c) _ => some c
  | _ => none

/-- The thread is in `pthread_cond_wait`, or in `idle` or on its way to it. -/
def ThreadPoint.asleep : ThreadPoint → Bool
  | .waiting | .dispatch .idle | .idle => true
  | _ => false

/-- What the outline knows of a CPU. -/
def Sim.desk (s : Sim n) (c : Fin n) : Desk := (s.outline []).desk c

/-- What a thread that is asleep has told of itself. -/
structure Desk.Attentive (d : Desk) : Prop where
  idling : d.thread = .dispatch .idle ∨ d.thread = .idle → d.current = none ∧ d.state = .idle
  executing : d.thread = .waiting ∨ d.thread = .woken → d.state ≠ .idle

/-- There is an event for the CPU, and its thread will see it, or has seen an earlier one. -/
structure Desk.Awake (d : Desk) : Prop where
  event : d.state.isEvent = true
  awake : d.thread.asleep = false

section Desk

variable {d d' : Desk} {ready ready' : List Pid} {event : CpuState}

theorem Desk.Attentive.step (h : d.Attentive) (hd : d.Step ready d' ready') : d'.Attentive := by
  cases hd with
  | idle _ hcurrent => exact ⟨fun _ => ⟨hcurrent, rfl⟩, by simp⟩
  | run _ _ => exact ⟨by simp, by simp⟩
  | wait hthread _ => exact ⟨by simp, fun _ => h.executing (.inr hthread)⟩
  | leave hthread _ =>
      refine ⟨?_, by simp⟩
      rintro (hidle | hidle)
      · exact absurd (ThreadPoint.dispatch.inj hidle) (h.executing (.inr hthread))
      · cases hidle
  | @call st hthread =>
      cases st with
      | idle => exact ⟨fun _ => h.idling (.inl hthread), by simp [CpuState.handler]⟩
      | _ => exact ⟨by simp [CpuState.handler], by simp [CpuState.handler]⟩
  | wake _ => exact ⟨by simp, by simp⟩
  | pop _ => exact ⟨by simp, by simp⟩
  | @switch pcb _ => cases pcb <;> exact ⟨by simp [afterSwitch], by simp [afterSwitch]⟩
  | install _ => exact ⟨by simp, by simp⟩
  | preempt _ _ => exact ⟨by simp, by simp⟩
  | pushBack _ _ => exact ⟨by simp, by simp⟩
  | release _ => exact ⟨by simp, by simp⟩

/-- The event finds a thread that does not sleep, or wakes it up. -/
theorem Desk.Attentive.raise (h : d.Attentive) (hevent : event.isEvent = true)
    (hd : d.current ≠ none ∨ d.state = .running) :
    (d.raise event).Attentive ∧ (d.raise event).Awake := by
  have hidle : ¬(d.thread = .dispatch .idle ∨ d.thread = .idle) := by
    intro hthread
    obtain ⟨hcurrent, hstate⟩ := h.idling hthread
    rcases hd with hd | hd
    · exact hd hcurrent
    · rw [hstate] at hd
      cases hd
  have hne : event ≠ .idle := by
    rintro rfl
    cases hevent
  by_cases hwaiting : d.thread = .waiting
  · have hraise : d.raise event = { d with state := event, thread := .woken } := by
      unfold Desk.raise Desk.signal
      rw [if_pos hwaiting]
    rw [hraise]
    exact ⟨⟨by simp, fun _ => hne⟩, hevent, rfl⟩
  · have hraise : d.raise event = { d with state := event } := by
      unfold Desk.raise Desk.signal
      rw [if_neg hwaiting]
    rw [hraise]
    refine ⟨⟨fun hthread => absurd hthread hidle, fun _ => hne⟩, hevent, ?_⟩
    show d.thread.asleep = false
    cases hthread : d.thread with
    | waiting => exact absurd hthread hwaiting
    | idle => exact absurd (.inr hthread) hidle
    | dispatch st =>
        cases st with
        | idle => exact absurd (.inl hthread) hidle
        | _ => rfl
    | _ => rfl

/-- A thread that is awake stays awake until it gets to the head of its loop. -/
theorem Desk.Awake.step (h : d.Awake) (hd : d.Step ready d' ready') (htop : d.thread ≠ .top) :
    d'.Awake := by
  have hevent := h.event
  have hawake := h.awake
  cases hd with
  | idle hthread _ => exact absurd hthread htop
  | run hthread _ => exact absurd hthread htop
  | wait _ hstate =>
      rw [hstate] at hevent
      cases hevent
  | leave _ _ =>
      refine ⟨hevent, ?_⟩
      show ThreadPoint.asleep (.dispatch d.state) = false
      cases hstate : d.state with
      | idle =>
          rw [hstate] at hevent
          cases hevent
      | _ => rfl
  | @call st hthread =>
      refine ⟨hevent, ?_⟩
      rw [hthread] at hawake
      cases st with
      | idle => cases hawake
      | _ => rfl
  | wake hthread =>
      rw [hthread] at hawake
      cases hawake
  | pop _ => exact ⟨hevent, rfl⟩
  | @switch pcb _ => exact ⟨hevent, by cases pcb <;> rfl⟩
  | install _ => exact ⟨hevent, rfl⟩
  | preempt _ _ => exact ⟨hevent, rfl⟩
  | pushBack _ _ => exact ⟨hevent, rfl⟩
  | release _ => exact ⟨hevent, rfl⟩

end Desk

/-- Every CPU of an outline is attentive. -/
theorem Visits.attentive {N : ℕ} {ops : Pid → List Op} {current : Fin n → Option Pid}
    {o : Outline n} (h : Visits N ops current o) : ∀ c, (o.desk c).Attentive := by
  refine h.invariant (fun o => ∀ c, (o.desk c).Attentive) ?_ ?_
  · exact fun c => ⟨by simp [begin_], by simp [begin_]⟩
  · intro o o' ho hnext
    have hdesk : ∀ {e : Fin n} {d : Desk}, d.Attentive →
        ∀ c, ((o.setDesk e d).desk c).Attentive := by
      intro e d hd c
      rcases eq_or_ne c e with rfl | hne
      · rw [setDesk_desk_self]
        exact hd
      · rw [setDesk_desk_ne o hne]
        exact ho c
    have hraise : ∀ {e : Fin n} {p : Pid} {event : CpuState}, (o.desk e).current = some p →
        event.isEvent = true → ∀ c, ((o.setDesk e ((o.desk e).raise event)).desk c).Attentive := by
      intro e p event hcurrent hevent
      refine hdesk ((ho e).raise hevent (.inl ?_)).1
      rw [hcurrent]
      exact Option.some_ne_none p
    cases hnext with
    | thread hd => exact hdesk ((ho _).step hd)
    | count _ => exact hdesk ⟨by simp, by simp⟩
    | tick _ hcurrent _ hd =>
        rcases hd with rfl | rfl
        · exact hdesk (ho _)
        · exact hraise hcurrent rfl
    | request _ hcurrent _ => exact hraise hcurrent rfl
    | finish _ hcurrent _ => exact hraise hcurrent rfl
    | force _ hstate => exact hdesk ((ho _).raise rfl (.inr hstate)).1
    | still => exact ho
    | exit => exact ho
    | round => exact ho
    | pass => exact ho
    | burst => exact ho
    | device => exact ho
    | free => exact ho
    | serve => exact ho
    | complete => exact ho
    | create => exact ho
    | advance => exact ho
    | push => exact ho
    | completed => exact ho
    | created => exact ho

/-! ### The steps, and the supervisor -/

section Signals

variable {s : Sim n} {c : Fin n} {x : SupPoint n}

/-- The supervisor, when the thread of the CPU signals `wakeup`. -/
def SupPoint.signalled (c : Fin n) : SupPoint n → SupPoint n
  | .waiting d => if d = c then .woken d else .waiting d
  | .wakeUp p (.forceWaiting d) caller =>
      if d = c then .wakeUp p (.forceWoken d) caller else .wakeUp p (.forceWaiting d) caller
  | x => x

theorem signal_sup (h : s.thread c ≠ .waiting) : (s.signal c).sup = s.sup.signalled c := by
  rw [Sim.signal, if_neg h]
  cases hsup : s.sup with
  | waiting d =>
      rcases eq_or_ne d c with rfl | hne
      · rw [if_pos rfl]
        exact (if_pos rfl).symm
      · rw [if_neg fun heq => hne (SupPoint.waiting.inj heq)]
        exact hsup.trans (if_neg hne).symm
  | wakeUp p point caller =>
      rw [if_neg (by simp)]
      cases point with
      | forceWaiting d =>
          rcases eq_or_ne d c with rfl | hne
          · exact (congrArg Sim.sup (if_pos rfl)).trans (if_pos rfl).symm
          · exact ((congrArg Sim.sup (if_neg hne)).trans hsup).trans (if_neg hne).symm
      | _ => exact hsup
  | _ => exact hsup

/-- The supervisor is where it may hold the writer lock. -/
def SupPoint.waking : SupPoint n → Bool
  | .wakeUp _ .push _ | .wakeUp _ .scan _ | .wakeUp _ (.force _) _ | .wakeUp _ .signal _ => true
  | .relock _ => true
  | _ => false

/-- A signal moves the supervisor on within its stage if it waits for the CPU. -/
theorem signalled_cases (x : SupPoint n) (c : Fin n) :
    (x.awaits = some c ∧ (x.signalled c).awaits = none ∧ (x.signalled c).stage = x.stage ∧
      (x.signalled c).waking = x.waking) ∨
    x.awaits ≠ some c ∧ x.signalled c = x := by
  cases x with
  | waiting d =>
      rcases eq_or_ne d c with rfl | hne
      · left
        simp [SupPoint.signalled, SupPoint.awaits, SupPoint.stage, SupPoint.waking]
      · right
        simp [SupPoint.signalled, SupPoint.awaits, hne]
  | wakeUp p point caller =>
      cases point with
      | forceWaiting d =>
          rcases eq_or_ne d c with rfl | hne
          · left
            simp [SupPoint.signalled, SupPoint.awaits, SupPoint.stage, SupPoint.waking]
          · right
            simp [SupPoint.signalled, SupPoint.awaits, hne]
      | _ =>
          right
          simp [SupPoint.signalled, SupPoint.awaits]
  | _ =>
      right
      simp [SupPoint.signalled, SupPoint.awaits]

theorem signalled_awaits :
    (x.signalled c).awaits = if x.awaits = some c then none else x.awaits := by
  rcases signalled_cases x c with ⟨hawaits, hnone, -, -⟩ | ⟨hne, hsame⟩
  · rw [if_pos hawaits, hnone]
  · rw [if_neg hne, hsame]

theorem signalled_stage : (x.signalled c).stage = x.stage := by
  rcases signalled_cases x c with ⟨-, -, hstage, -⟩ | ⟨-, hsame⟩
  · exact hstage
  · rw [hsame]

theorem signalled_waking : (x.signalled c).waking = x.waking := by
  rcases signalled_cases x c with ⟨-, -, -, hwaking⟩ | ⟨-, hsame⟩
  · exact hwaking
  · rw [hsame]

theorem stage_eq_exited : x.stage = .exited ↔ x = .exited := by
  cases x with
  | wakeUp p point caller => cases point <;> simp [SupPoint.stage]
  | _ => simp [SupPoint.stage]

end Signals

section Steps

variable {cfg : Config} {s s' : Sim n} {c e : Fin n}

/-- A thread changes the supervisor only by a signal, at the head of its loop. -/
theorem stepCpu_sup (hs : stepCpu cfg s c = .ok s') :
    s'.sup = if s.thread c = .top then s.sup.signalled c else s.sup := by
  have hother : ∀ {point : ThreadPoint}, s.thread c = point → point ≠ .top → s'.sup = s.sup →
      s'.sup = if s.thread c = .top then s.sup.signalled c else s.sup := by
    rintro point rfl hpoint hsup
    rw [if_neg hpoint]
    exact hsup
  have hsection : ∀ {α : Type} {x : Except Fault α} {f : α → Sim n},
      (do let a ← section_ x; return f a) = .ok s' → (∀ a, (f a).sup = s.sup) → s'.sup = s.sup := by
    intro α x f h hf
    obtain ⟨a, -, ha⟩ := bind_eq_ok h
    obtain rfl := Except.ok.inj ha
    exact hf a
  rw [OsSim.stepCpu] at hs
  split at hs
  · rename_i hthread
    obtain rfl := eq_of_unlocked hs
    rw [if_pos hthread]
    have hhead : (head s c).sup = (s.signal c).sup := by
      unfold OsSim.head
      dsimp only
      split
      · rfl
      · rfl
    rw [hhead]
    apply signal_sup
    rw [hthread]
    exact ThreadPoint.noConfusion
  · cases hs
  · rename_i hthread
    obtain rfl := eq_of_unlocked hs
    refine hother hthread (by simp) ?_
    unfold OsSim.retest
    split
    · rfl
    · rfl
  · rename_i st hthread
    obtain rfl := Except.ok.inj hs
    refine hother hthread (by simp) ?_
    cases st <;> rfl
  · rename_i hthread
    obtain rfl := eq_of_unlocked hs
    exact hother hthread (by simp) rfl
  · rename_i hthread
    split at hs
    · cases hs
    · obtain rfl := Except.ok.inj hs
      exact hother hthread (by simp) rfl
  · rename_i hthread
    exact hother hthread (by simp) (hsection hs fun _ => rfl)
  · rename_i pcb time hthread
    obtain rfl := eq_of_unlocked hs
    refine hother hthread (by simp) ?_
    cases pcb with
    | none => rfl
    | some p => rfl
  · rename_i hthread
    obtain rfl := Except.ok.inj hs
    exact hother hthread (by simp) rfl
  · rename_i hthread
    exact hother hthread (by simp) (hsection hs fun _ => rfl)
  · rename_i hthread
    exact hother hthread (by simp) (hsection hs fun _ => rfl)
  · rename_i hthread
    exact hother hthread (by simp) (hsection hs fun _ => rfl)
  · rename_i hthread
    exact hother hthread (by simp) (hsection hs fun _ => rfl)

/-- While the supervisor waits for a thread, that thread does not get to the head of its loop. -/
theorem stepCpu_awaits (hs : stepCpu cfg s c = .ok s') (hawaits : s'.sup.awaits = some e) :
    s.sup.awaits = some e ∧ (c = e → s.thread c ≠ .top) := by
  rw [stepCpu_sup hs] at hawaits
  split at hawaits
  · rw [signalled_awaits] at hawaits
    split at hawaits
    · cases hawaits
    · rename_i hne
      refine ⟨hawaits, ?_⟩
      rintro rfl
      exact absurd hawaits hne
  · rename_i htop
    exact ⟨hawaits, fun _ => htop⟩

/-- An event is raised for a CPU that was executing a process. -/
def Raised (s : Sim n) (c : Fin n) (s' : Sim n) : Prop :=
  ∃ event : CpuState, event.isEvent = true ∧
    ((s.desk c).current ≠ none ∨ (s.desk c).state = .running) ∧
    s'.desk = Function.update s.desk c ((s.desk c).raise event)

/-- The supervisor raises an event and waits, or it changes no CPU and does not wait. -/
def Decides (s s' : Sim n) : Prop :=
  (∃ c, s'.sup.awaits = some c ∧ Raised s c s') ∨ s'.sup.awaits = none ∧ s'.desk = s.desk

theorem raise_desk (s : Sim n) (c : Fin n) (event : CpuState) (wait : SupPoint n) :
    (s.raise c event wait).desk = Function.update s.desk c ((s.desk c).raise event) := by
  have houtline : (s.raise c event wait).outline [] =
      { (s.outline []).setDesk c (((s.outline []).desk c).raise event) with
        stage := wait.stage } := outline_raise event wait
  exact congrArg Outline.desk houtline

theorem countDown_desk (s : Sim n) (c : Fin n) : (s.countDown c).desk = s.desk := by
  have houtline : (s.countDown c).outline [] = s.outline [] := outline_countDown
  exact congrArg Outline.desk houtline

theorem Decides.raise {s₁ : Sim n} {p : Pid} {event : CpuState}
    (hcurrent : (s.cpu c).current = some p) (hdesk : s₁.desk = s.desk)
    (hevent : event.isEvent = true) : Decides s (s₁.raise c event (.waiting c)) := by
  refine .inl ⟨c, rfl, event, hevent, .inl ?_, ?_⟩
  · show (s.cpu c).current ≠ none
    rw [hcurrent]
    exact Option.some_ne_none p
  · rw [raise_desk, hdesk]

theorem Decides.simulateProcess {p : Pid} (hcurrent : (s.cpu c).current = some p)
    (hs : simulateProcess s c p = .ok s') : Decides s s' := by
  rw [OsSim.simulateProcess] at hs
  split at hs
  · dsimp only at hs
    split at hs
    · obtain rfl := Except.ok.inj hs
      exact .raise hcurrent (countDown_desk _ c) rfl
    · obtain rfl := Except.ok.inj hs
      exact .inr ⟨rfl, countDown_desk _ c⟩
  · rename_i op rest hops
    obtain ⟨type, time⟩ := op
    cases type with
    | io =>
        obtain rfl := Except.ok.inj hs
        exact .raise hcurrent rfl rfl
    | terminate =>
        obtain rfl := Except.ok.inj hs
        exact .raise hcurrent rfl rfl
    | cpu =>
        obtain rfl := Except.ok.inj hs
        exact .inr ⟨rfl, rfl⟩
  · obtain rfl := Except.ok.inj hs
    exact .inr ⟨rfl, rfl⟩
  · obtain rfl := Except.ok.inj hs
    exact .inr ⟨rfl, rfl⟩
  · cases hs
  · cases hs

theorem Decides.forcePreempt (s : Sim n) (c : Fin n) (p : Pid) (caller : Caller) :
    Decides s (forcePreempt s c p caller) := by
  unfold OsSim.forcePreempt
  split
  · rename_i hrunning
    exact .inl ⟨c, rfl, .preempt, rfl, .inr hrunning, raise_desk s c .preempt _⟩
  · exact .inr ⟨rfl, rfl⟩

/-- **The supervisor waits when it has raised an event, and then only.** -/
theorem Decides.stepSup {ps : List Pid} (h : Represents s.student.readyQueue ps)
    (hs : stepSup cfg s = .ok s') : Decides s s' := by
  rw [OsSim.stepSup] at hs
  split at hs
  · split at hs
    · obtain rfl := Except.ok.inj hs
      exact .inr ⟨rfl, rfl⟩
    · obtain rfl := Except.ok.inj hs
      exact .inr ⟨rfl, rfl⟩
  · rw [OsSim.simulateCpus] at hs
    split at hs
    · split at hs
      · obtain rfl := Except.ok.inj hs
        exact .inr ⟨rfl, rfl⟩
      · rename_i p hcurrent
        exact .simulateProcess hcurrent hs
    · obtain rfl := Except.ok.inj hs
      exact .inr ⟨rfl, rfl⟩
  · cases hs
  · obtain rfl := Except.ok.inj hs
    exact .inr ⟨rfl, rfl⟩
  · rw [OsSim.simulateIo] at hs
    split at hs
    · obtain rfl := Except.ok.inj hs
      exact .inr ⟨rfl, rfl⟩
    · obtain rfl := Except.ok.inj hs
      exact .inr ⟨rfl, rfl⟩
    · split at hs
      · obtain rfl := Except.ok.inj hs
        exact .inr ⟨rfl, rfl⟩
      · cases hs
  · obtain rfl := Except.ok.inj hs
    unfold OsSim.simulateCreat
    split
    · exact .inr ⟨rfl, rfl⟩
    · exact .inr ⟨rfl, rfl⟩
  · rename_i p point caller hsup
    cases point with
    | push =>
        obtain ⟨queue, -, hpush⟩ := Student.wakeUp_eq cfg.mode h p
        rw [stepWakeUp, hpush] at hs
        obtain rfl := Except.ok.inj hs
        refine .inr ⟨?_, rfl⟩
        dsimp only
        split
        · rfl
        · rfl
    | scan =>
        obtain rfl := Except.ok.inj hs
        refine .inr ⟨?_, rfl⟩
        dsimp only
        split
        · rfl
        · rfl
    | force c =>
        obtain rfl := Except.ok.inj hs
        exact .forcePreempt s c p caller
    | forceWaiting c => cases hs
    | forceWoken c =>
        obtain rfl := Except.ok.inj hs
        exact .inr ⟨rfl, rfl⟩
    | signal =>
        obtain rfl := Except.ok.inj hs
        exact .inr ⟨rfl, rfl⟩
  · obtain rfl := Except.ok.inj hs
    exact .inr ⟨rfl, rfl⟩
  · obtain rfl := Except.ok.inj hs
    exact .inr ⟨rfl, rfl⟩
  · cases hs

/-- A thread changes its own CPU, and no other. -/
theorem stepCpu_desk {ps : List Pid} (h : Represents s.student.readyQueue ps)
    (hs : stepCpu cfg s c = .ok s') :
    ∃ d, s'.desk = Function.update s.desk c d ∧
      ((s.thread c = .count ∧ d = { s.desk c with thread := .terminate }) ∨
        ∃ ready', (s.desk c).Step ps d ready') := by
  obtain ⟨ps', -, hnext⟩ := Works.stepCpu h hs
  have hdesk : (s'.outline ps').desk = s'.desk := rfl
  generalize s'.outline ps' = o at hnext hdesk
  cases hnext with
  | step hd => exact ⟨_, hdesk.symm, .inr ⟨_, hd⟩⟩
  | count hthread => exact ⟨_, hdesk.symm, .inl ⟨hthread, rfl⟩⟩

/-- **The thread that the supervisor waits for is awake.** -/
theorem Reaches.awake {ops : Pid → List Op} {current : Fin n → Option Pid} {time : Pid → ℕ}
    (hr : Reaches cfg (start ops current time) s) (hawaits : s.sup.awaits = some e) :
    (s.desk e).Awake := by
  induction hr generalizing e with
  | refl => cases hawaits
  | @tail s s' hr hstep ih =>
      have hr : Reaches cfg (start ops current time) s := hr
      obtain ⟨t, hs⟩ := hstep
      obtain ⟨ps, hps, hvisits⟩ := hr.visits
      cases t with
      | cpu c =>
          obtain ⟨hbefore, htop⟩ := stepCpu_awaits hs hawaits
          have hawake := ih hbefore
          obtain ⟨d, hdesk, hd⟩ := stepCpu_desk hps hs
          rw [hdesk]
          rcases eq_or_ne e c with rfl | hne
          · rw [Function.update_self]
            rcases hd with ⟨-, rfl⟩ | ⟨ready', hd⟩
            · exact ⟨hawake.event, rfl⟩
            · exact hawake.step hd (htop rfl)
          · rw [Function.update_of_ne hne]
            exact hawake
      | sup =>
          rcases Decides.stepSup hps hs with ⟨c, hc, event, hevent, hexecutes, hdesk⟩ | ⟨hnone, -⟩
          · obtain rfl := Option.some.inj (hc.symm.trans hawaits)
            rw [hdesk, Function.update_self]
            exact ((hvisits.attentive c).raise hevent hexecutes).2
          · rw [hnone] at hawaits
            cases hawaits

/-! ### Blocked threads -/

theorem region_blocked {locked : Bool} {s : Sim n}
    (h : (if locked then .error .blocked else .ok s : Except Stop (Sim n)) = .error .blocked) :
    locked = true := by
  cases locked with
  | true => rfl
  | false => cases h

/-- While it waits, the supervisor has given up the mutex. -/
theorem unlocked_of_awaits (h : s.sup.awaits = some c) : s.locked = false := by
  have hnot : ∀ {x : SupPoint n}, s.sup = x → x.awaits = none → False := by
    rintro x rfl hnone
    rw [hnone] at h
    cases h
  unfold Sim.locked
  split
  · exact (hnot ‹_› rfl).elim
  · exact (hnot ‹_› rfl).elim
  · exact (hnot ‹_› rfl).elim
  · rfl

theorem section_not_blocked {α : Type} {x : Except Fault α} {f : α → Sim n} :
    (do let a ← section_ x; return f a) ≠ .error .blocked := by
  cases x with
  | ok a => exact fun h => by cases h
  | error e => exact fun h => by cases h

/-- A thread is blocked if it waits, or if there is no process, or if the supervisor has the
mutex. -/
theorem stepCpu_blocked (hs : stepCpu cfg s c = .error .blocked) :
    s.thread c = .waiting ∨ s.thread c = .idle ∨
      s.locked = true ∧ (s.thread c = .top ∨ s.thread c = .woken ∨ s.thread c = .count ∨
        ∃ pcb time, s.thread c = .switch pcb time) := by
  rw [OsSim.stepCpu] at hs
  split at hs
  · exact .inr (.inr ⟨region_blocked hs, .inl ‹_›⟩)
  · exact .inl ‹_›
  · exact .inr (.inr ⟨region_blocked hs, .inr (.inl ‹_›)⟩)
  · cases hs
  · exact .inr (.inr ⟨region_blocked hs, .inr (.inr (.inl ‹_›))⟩)
  · exact .inr (.inl ‹_›)
  · exact absurd hs section_not_blocked
  · exact .inr (.inr ⟨region_blocked hs, .inr (.inr (.inr ⟨_, _, ‹_›⟩))⟩)
  · cases hs
  · exact absurd hs section_not_blocked
  · exact absurd hs section_not_blocked
  · exact absurd hs section_not_blocked
  · exact absurd hs section_not_blocked

theorem simulateProcess_not_blocked {p : Pid} : simulateProcess s c p ≠ .error .blocked := by
  intro hs
  rw [OsSim.simulateProcess] at hs
  split at hs
  · dsimp only at hs
    split at hs
    · cases hs
    · cases hs
  · dsimp only at hs
    split at hs
    · cases hs
    · cases hs
    · cases hs
  · cases hs
  · cases hs
  · cases hs
  · cases hs

/-- The supervisor is blocked if it waits, or if it has exited. -/
theorem stepSup_blocked (hs : stepSup cfg s = .error .blocked) :
    s.sup = .exited ∨ ∃ c, s.sup.awaits = some c := by
  rw [OsSim.stepSup] at hs
  split at hs
  · split at hs
    · cases hs
    · cases hs
  · rw [OsSim.simulateCpus] at hs
    split at hs
    · split at hs
      · cases hs
      · exact absurd hs simulateProcess_not_blocked
    · cases hs
  · rename_i c hsup
    refine .inr ⟨c, ?_⟩
    rw [hsup]
    rfl
  · cases hs
  · rw [OsSim.simulateIo] at hs
    split at hs
    · cases hs
    · cases hs
    · split at hs
      · cases hs
      · cases hs
  · cases hs
  · rename_i p point caller hsup
    cases point with
    | push => exact absurd hs section_not_blocked
    | forceWaiting c =>
        refine .inr ⟨c, ?_⟩
        rw [hsup]
        rfl
    | _ => cases hs
  · cases hs
  · cases hs
  · exact .inl ‹_›

end Steps

end OsSim

end ProjectArchive.Scheduler
