/-
ProjectArchive/Scheduler/Events.lean

Which events of the simulator reach a handler.

An event that is raised for a CPU whose state is `CPU_RUNNING` finds the thread
of the CPU in `pthread_cond_wait`, and the handler runs before the thread gets
back to the head of its loop.  `force_preempt` tests for that state;
`simulate_process` does not.  A process that `idle` has installed can reach an
event while the thread of its CPU is still on the way to the head of the loop,
where it overwrites the event with `CPU_RUNNING` (`yield_lost`).  In a run in
which `simulate_process` raises events for running CPUs only, none is lost
(`none_lost`).
-/
import ProjectArchive.Scheduler.OsSim
import Mathlib.Logic.Relation

namespace ProjectArchive.Scheduler

namespace OsSim

variable {n : ℕ}

/-! ### Histories -/

/-- Between the moment an event is raised and the moment the state of the CPU
becomes `CPU_RUNNING` or `CPU_IDLE` again, its handler is called exactly once. -/
def NoneLost (history : List Mark) : Prop :=
  ∀ before event after, history = before ++ .raised event :: after → .resumed ∈ after →
    (after.takeWhile fun m => m ≠ .resumed).count (.called event) = 1

/-- A history in which no event is open. -/
inductive Settled : List Mark → Prop
  | nil : Settled []
  | resumed {l} (h : Settled l) : Settled (.resumed :: l)
  | event {e l} (h : Settled l) : Settled (.raised e :: .called e :: .resumed :: l)

theorem Settled.append {l l' : List Mark} (h : Settled l) (h' : Settled l') : Settled (l ++ l') := by
  induction h with
  | nil => exact h'
  | resumed _ ih => exact .resumed ih
  | event _ ih => exact .event ih

theorem Settled.noneLost {l seg : List Mark} (h : Settled l) (hseg : NoneLost seg) :
    NoneLost (l ++ seg) := by
  induction h with
  | nil => exact hseg
  | resumed _ ih =>
      intro before event after e hafter
      rcases before with - | ⟨m, before⟩
      · cases e
      · exact ih before event after (List.cons.inj e).2 hafter
  | @event ev l _ ih =>
      intro before event after e hafter
      rcases before with - | ⟨m, before⟩
      · -- the event of this block
        obtain ⟨hev, rfl⟩ := List.cons.inj e
        cases hev
        simp
      · obtain ⟨-, e⟩ := List.cons.inj e
        rcases before with - | ⟨m, before⟩
        · cases e
        · obtain ⟨-, e⟩ := List.cons.inj e
          rcases before with - | ⟨m, before⟩
          · cases e
          · exact ih before event after (List.cons.inj e).2 hafter

theorem noneLost_of_notMem {seg : List Mark} (h : .resumed ∉ seg) : NoneLost seg := by
  intro before event after e hafter
  refine (h ?_).elim
  rw [e]
  exact List.mem_append_right _ (List.mem_cons_of_mem _ hafter)

/-! ### The invariant -/

/-- `CPU_PREEMPT`, `CPU_YIELD` and `CPU_TERMINATE`. -/
def CpuState.isEvent : CpuState → Bool
  | .preempt | .yield | .terminate => true
  | .idle | .running => false

/-- The thread is in a handler, or on its way back to the head of the loop. -/
def ThreadPoint.handling : ThreadPoint → Bool
  | .preempt | .pushBack _ | .yield | .terminate | .schedule | .switch .. | .install _ | .top =>
      true
  | .waiting | .woken | .dispatch _ | .count | .idle => false

/-- The thread is in `idle`, or on its way to it or back to the head of the loop. -/
def ThreadPoint.idling : ThreadPoint → Bool
  | .dispatch .idle | .idle | .schedule | .switch .. | .install _ | .top => true
  | _ => false

/-- The state of a CPU, the point of its thread, and what has happened since the
state last became `CPU_RUNNING` or `CPU_IDLE`. -/
inductive Phase : CpuState → ThreadPoint → List Mark → Prop
  | executing : Phase .running .waiting []
  | raised {e point} (he : e.isEvent = true) (hp : point = .woken ∨ point = .dispatch e) :
      Phase e point [.raised e]
  | counting : Phase .terminate .count [.raised .terminate]
  | handling {e point} (he : e.isEvent = true) (hp : point.handling = true) :
      Phase e point [.raised e, .called e]
  | idling {point} (hp : point.idling = true) : Phase .idle point []

section Phase

variable {st e : CpuState} {point x : ThreadPoint} {seg : List Mark}

theorem Phase.open_ (h : Phase st point seg) : .resumed ∉ seg := by
  cases h <;> simp

/-- The thread goes on in a handler. -/
theorem Phase.goto (h : Phase st point seg) (hin : point.handling = true ∨ point = .idle)
    (hhandling : point.handling = true → x.handling = true)
    (hidling : point.idling = true → x.idling = true) : Phase st x seg := by
  cases h with
  | executing => rcases hin with hin | hin <;> cases hin
  | raised he hp =>
      rcases hp with rfl | rfl <;> rcases hin with hin | hin <;> cases hin
  | counting => rcases hin with hin | hin <;> cases hin
  | handling he hp => exact .handling he (hhandling hp)
  | idling hp => exact .idling (hidling hp)

/-- At the head of the loop, the event has been handled. -/
theorem Phase.top (h : Phase st .top seg) : Settled (seg ++ [Mark.resumed]) := by
  cases h with
  | raised _ hp => rcases hp with hp | hp <;> cases hp
  | handling => exact .event .nil
  | idling => exact .resumed .nil

theorem Phase.woken (h : Phase st .woken seg) : st.isEvent = true ∧ Phase st (.dispatch st) seg := by
  cases h with
  | raised he _ => exact ⟨he, .raised he (.inr rfl)⟩
  | handling _ hp => cases hp
  | idling hp => cases hp

/-- The switch. -/
theorem Phase.dispatch (h : Phase st (.dispatch e) seg) :
    st = e ∧ (e.isEvent = true ∧ seg = [.raised e] ∨ e = .idle ∧ seg = []) := by
  cases h with
  | raised he hp =>
      rcases hp with hp | hp
      · cases hp
      · cases hp
        exact ⟨rfl, .inl ⟨he, rfl⟩⟩
  | handling _ hp => cases hp
  | idling hp =>
      cases e with
      | idle => exact ⟨rfl, .inr ⟨rfl, rfl⟩⟩
      | running => cases hp
      | preempt => cases hp
      | yield => cases hp
      | terminate => cases hp

theorem Phase.count (h : Phase st .count seg) : st = .terminate ∧ seg = [.raised .terminate] := by
  cases h with
  | raised _ hp => rcases hp with hp | hp <;> cases hp
  | counting => exact ⟨rfl, rfl⟩
  | handling _ hp => cases hp
  | idling hp => cases hp

theorem Phase.running (h : Phase .running point seg) : point = .waiting ∧ seg = [] := by
  cases h with
  | executing => exact ⟨rfl, rfl⟩
  | raised he _ => cases he
  | handling he _ => cases he

end Phase

/-! ### The steps -/

/-- What the invariant says of a CPU. -/
structure View where
  state : CpuState
  thread : ThreadPoint
  history : List Mark

/-- A CPU, for the invariant. -/
def Sim.view (s : Sim n) (c : Fin n) : View := ⟨(s.cpu c).state, s.thread c, s.history c⟩

/-- The invariant of a CPU: past events have been handled, and one may be open. -/
def Good (v : View) : Prop := ∃ l seg, v.history = l ++ seg ∧ Settled l ∧ Phase v.state v.thread seg

/-- A step concerns one CPU, and keeps its invariant. -/
structure Advances (s : Sim n) (c : Fin n) (s' : Sim n) : Prop where
  others : ∀ d, d ≠ c → s'.view d = s.view d
  good : Good (s'.view c)

theorem Good.noneLost {v : View} (h : Good v) : NoneLost v.history := by
  obtain ⟨l, seg, e, hl, hp⟩ := h
  rw [e]
  exact hl.noneLost (noneLost_of_notMem hp.open_)

section Views

variable {s s₁ : Sim n} {c d : Fin n} {x : ThreadPoint} {st : CpuState} {m : Mark}

@[simp] theorem view_goto_self : (s.goto c x).view c = { s.view c with thread := x } := by
  simp [Sim.view, Sim.goto]

@[simp] theorem view_goto_ne (h : d ≠ c) : (s.goto c x).view d = s.view d := by
  simp [Sim.view, Sim.goto, h]

@[simp] theorem view_record_self :
    (s.record c m).view c = { s.view c with history := s.history c ++ [m] } := by
  simp [Sim.view, Sim.record]

@[simp] theorem view_record_ne (h : d ≠ c) : (s.record c m).view d = s.view d := by
  simp [Sim.view, Sim.record, h]

@[simp] theorem view_setState_self : (s.setState c st).view c = { s.view c with state := st } := by
  simp [Sim.view, Sim.setState]

@[simp] theorem view_setState_ne (h : d ≠ c) : (s.setState c st).view d = s.view d := by
  simp [Sim.view, Sim.setState, h]

/-- A signal wakes the thread of its own CPU only. -/
theorem view_signal_ne (h : d ≠ c) : (s.signal c).view d = s.view d := by
  unfold Sim.signal
  split
  · exact view_goto_ne h
  · split
    · rfl
    · split
      · split <;> rfl
      · rfl

theorem view_signal_of_ne (h : s.thread c ≠ .waiting) : (s.signal c).view c = s.view c := by
  unfold Sim.signal
  rw [if_neg h]
  split
  · rfl
  · split
    · split <;> rfl
    · rfl

theorem view_signal_waiting (h : s.thread c = .waiting) :
    (s.signal c).view c = { s.view c with thread := .woken } := by
  unfold Sim.signal
  rw [if_pos h]
  exact view_goto_self

/-- The invariant does not see the process of a CPU nor its timer. -/
theorem view_setCpu {data : CpuData} (h : data.state = (s.cpu c).state) (d : Fin n) :
    ({ s with cpu := Function.update s.cpu c data } : Sim n).view d = s.view d := by
  rcases eq_or_ne d c with rfl | hne
  · simp [Sim.view, h]
  · simp [Sim.view, hne]

theorem view_countDown (d : Fin n) : (s.countDown c).view d = s.view d := by
  apply view_setCpu
  rfl

/-- The thread goes on in a handler. -/
theorem Good.goto (h : Good (s.view c)) (hs : ∀ d, s₁.view d = s.view d)
    (hin : (s.thread c).handling = true ∨ s.thread c = .idle)
    (hhandling : (s.thread c).handling = true → x.handling = true)
    (hidling : (s.thread c).idling = true → x.idling = true) : Advances s c (s₁.goto c x) := by
  refine ⟨?_, ?_⟩
  · intro d hd
    rw [view_goto_ne hd, hs]
  · obtain ⟨l, seg, e, hl, hp⟩ := h
    rw [view_goto_self, hs]
    exact ⟨l, seg, e, hl, hp.goto hin hhandling hidling⟩

/-- The region at the head of the loop. -/
theorem Good.head (h : Good (s.view c)) (ht : s.thread c = .top) : Advances s c (head s c) := by
  obtain ⟨l, seg, e, hl, hp⟩ := h
  have hne : s.thread c ≠ .waiting := by
    rw [ht]
    simp
  have hsignal := view_signal_of_ne hne
  have hhistory : (s.signal c).history c = l ++ seg := by
    have := congrArg View.history hsignal
    exact this.trans e
  have hp : Phase (s.cpu c).state .top seg := ht ▸ hp
  have hsettled : Settled (l ++ (seg ++ [Mark.resumed])) := hl.append hp.top
  rw [OsSim.head]
  split
  · refine ⟨?_, l ++ (seg ++ [Mark.resumed]), [], ?_, hsettled, ?_⟩
    · intro d hd
      rw [view_goto_ne hd, view_record_ne hd, view_setState_ne hd, view_signal_ne hd]
    · rw [view_goto_self, view_record_self]
      show (s.signal c).history c ++ [Mark.resumed] = _
      rw [hhistory, List.append_nil, List.append_assoc]
    · rw [view_goto_self, view_record_self, view_setState_self]
      exact .idling rfl
  · refine ⟨?_, l ++ (seg ++ [Mark.resumed]), [], ?_, hsettled, ?_⟩
    · intro d hd
      rw [view_goto_ne hd, view_record_ne hd, view_setState_ne hd, view_signal_ne hd]
    · rw [view_goto_self, view_record_self]
      show (s.signal c).history c ++ [Mark.resumed] = _
      rw [hhistory, List.append_nil, List.append_assoc]
    · rw [view_goto_self, view_record_self, view_setState_self]
      exact .executing

/-- The test after a signal. -/
theorem Good.retest (h : Good (s.view c)) (ht : s.thread c = .woken) :
    Advances s c (retest s c) := by
  obtain ⟨l, seg, e, hl, hp⟩ := h
  have hp : Phase (s.cpu c).state .woken seg := ht ▸ hp
  obtain ⟨he, hp⟩ := hp.woken
  have hgoto : Advances s c (s.goto c (.dispatch (s.cpu c).state)) := by
    refine ⟨fun d hd => view_goto_ne hd, l, seg, ?_, hl, ?_⟩
    · rw [view_goto_self]
      exact e
    · rw [view_goto_self]
      exact hp
  rw [OsSim.retest]
  split
  · rename_i hr
    rw [hr] at he
    cases he
  · exact hgoto

/-- The switch. -/
theorem Good.dispatch (h : Good (s.view c)) (ht : s.thread c = .dispatch st) :
    Advances s c (dispatch s c st) := by
  obtain ⟨l, seg, e, hl, hp⟩ := h
  have hp : Phase (s.cpu c).state (.dispatch st) seg := ht ▸ hp
  obtain ⟨hst, hseg⟩ := hp.dispatch
  have e : s.history c = l ++ seg := e
  -- the handler of an event is called
  have hcall : ∀ point : ThreadPoint, point.handling = true → seg = [.raised st] →
      st.isEvent = true → Advances s c ((s.record c (.called st)).goto c point) := by
    rintro point hpoint rfl hev
    refine ⟨?_, l, [.raised st, .called st], ?_, hl, ?_⟩
    · intro d hd
      rw [view_goto_ne hd, view_record_ne hd]
    · rw [view_goto_self, view_record_self]
      show s.history c ++ [Mark.called st] = _
      rw [e, List.append_assoc]
      rfl
    · rw [view_goto_self, view_record_self]
      show Phase (s.cpu c).state point _
      rw [hst]
      exact .handling hev hpoint
  rcases hseg with ⟨hev, hseg⟩ | ⟨rfl, rfl⟩
  · cases st with
    | idle => cases hev
    | running => cases hev
    | preempt => exact hcall .preempt rfl hseg hev
    | yield => exact hcall .yield rfl hseg hev
    | terminate =>
        refine ⟨fun d hd => view_goto_ne hd, l, seg, ?_, hl, ?_⟩
        · rw [OsSim.dispatch, view_goto_self]
          exact e
        · rw [OsSim.dispatch, view_goto_self]
          show Phase (s.cpu c).state .count seg
          rw [hst, hseg]
          exact .counting
  · refine ⟨fun d hd => view_goto_ne hd, l, [], ?_, hl, ?_⟩
    · rw [OsSim.dispatch, view_goto_self]
      exact e
    · rw [OsSim.dispatch, view_goto_self]
      show Phase (s.cpu c).state .idle []
      rw [hst]
      exact .idling rfl

/-- `terminate` is called. -/
theorem Good.count (h : Good (s.view c)) (ht : s.thread c = .count) : Advances s c (count s c) := by
  obtain ⟨l, seg, e, hl, hp⟩ := h
  have hp : Phase (s.cpu c).state .count seg := ht ▸ hp
  obtain ⟨hst, rfl⟩ := hp.count
  have e : s.history c = l ++ [Mark.raised .terminate] := e
  have hview : ∀ d, (OsSim.count s c).view d =
      ((s.record c (.called .terminate)).goto c .terminate).view d := fun _ => rfl
  refine ⟨?_, l, [.raised .terminate, .called .terminate], ?_, hl, ?_⟩
  · intro d hd
    rw [hview, view_goto_ne hd, view_record_ne hd]
  · rw [hview, view_goto_self, view_record_self]
    show s.history c ++ [Mark.called .terminate] = _
    rw [e, List.append_assoc]
    rfl
  · rw [hview, view_goto_self, view_record_self]
    show Phase (s.cpu c).state .terminate _
    rw [hst]
    exact .handling rfl rfl

/-- A section of a handler that returns. -/
theorem Advances.of_section {α : Type} {y : Except Fault α} {f : α → Sim n} {s' : Sim n}
    (h : (do let a ← section_ y; return f a) = .ok s') (hf : ∀ a, Advances s c (f a)) :
    Advances s c s' := by
  obtain ⟨a, -, ha⟩ := Exec.bind_eq_ok h
  cases ha
  exact hf a

/-- A region that is entered. -/
theorem eq_of_unlocked {locked : Bool} {x s' : Sim n}
    (h : (if locked then .error .blocked else .ok x : Except Stop (Sim n)) = .ok s') : x = s' := by
  cases locked with
  | true => cases h
  | false => exact Except.ok.inj h

/-- **A step of the thread of a CPU keeps the invariant.** -/
theorem Good.stepCpu {cfg : Config} {s' : Sim n} (h : Good (s.view c))
    (hs : stepCpu cfg s c = .ok s') : Advances s c s' := by
  have hgoto : ∀ {s₁ : Sim n} {x : ThreadPoint}, (∀ d, s₁.view d = s.view d) →
      (s.thread c).handling = true ∨ s.thread c = .idle →
      ((s.thread c).handling = true → x.handling = true) →
      ((s.thread c).idling = true → x.idling = true) → Advances s c (s₁.goto c x) := by
    intro s₁ x hv hin hh hi
    exact h.goto hv hin hh hi
  rw [OsSim.stepCpu] at hs
  cases ht : s.thread c with
  | top =>
      rw [ht] at hs
      obtain rfl := eq_of_unlocked hs
      exact h.head ht
  | waiting =>
      rw [ht] at hs
      cases hs
  | woken =>
      rw [ht] at hs
      obtain rfl := eq_of_unlocked hs
      exact h.retest ht
  | dispatch state =>
      rw [ht] at hs
      cases hs
      exact h.dispatch ht
  | count =>
      rw [ht] at hs
      obtain rfl := eq_of_unlocked hs
      exact h.count ht
  | idle =>
      rw [ht] at hs hgoto
      obtain rfl := eq_of_unlocked hs
      exact hgoto (fun _ => rfl) (.inr rfl) (fun _ => rfl) fun _ => rfl
  | switch pcb time =>
      rw [ht] at hs hgoto
      obtain rfl := eq_of_unlocked hs
      cases pcb with
      | none => exact hgoto (view_setCpu rfl) (.inl rfl) (fun _ => rfl) fun _ => rfl
      | some p => exact hgoto (view_setCpu rfl) (.inl rfl) (fun _ => rfl) fun _ => rfl
  | install p =>
      rw [ht] at hs hgoto
      cases hs
      exact hgoto (fun _ => rfl) (.inl rfl) (fun _ => rfl) fun _ => rfl
  | schedule =>
      rw [ht] at hs hgoto
      exact Advances.of_section hs fun _ => hgoto (fun _ => rfl) (.inl rfl) (fun _ => rfl) fun _ => rfl
  | preempt =>
      rw [ht] at hs hgoto
      exact Advances.of_section hs fun _ =>
        hgoto (fun _ => rfl) (.inl rfl) (fun _ => rfl) fun hi => by cases hi
  | pushBack q =>
      rw [ht] at hs hgoto
      exact Advances.of_section hs fun _ => hgoto (fun _ => rfl) (.inl rfl) (fun _ => rfl) fun _ => rfl
  | yield =>
      rw [ht] at hs hgoto
      exact Advances.of_section hs fun _ => hgoto (fun _ => rfl) (.inl rfl) (fun _ => rfl) fun _ => rfl
  | terminate =>
      rw [ht] at hs hgoto
      exact Advances.of_section hs fun _ => hgoto (fun _ => rfl) (.inl rfl) (fun _ => rfl) fun _ => rfl

/-- **Raising an event for a running CPU keeps the invariant.** -/
theorem Good.raise (h : Good (s.view c)) (hs : ∀ d, s₁.view d = s.view d)
    (hstate : (s.cpu c).state = .running) {event : CpuState} (he : event.isEvent = true)
    (wait : SupPoint n) : Advances s c (s₁.raise c event wait) := by
  obtain ⟨l, seg, e, hl, hp⟩ := h
  have hp : Phase (s.cpu c).state (s.thread c) seg := hp
  rw [hstate] at hp
  obtain ⟨ht, rfl⟩ := hp.running
  have e : s.history c = l ++ [] := e
  -- the thread waits, so that the signal reaches it
  have ht : ((s₁.setState c event).record c (.raised event)).thread c = .waiting :=
    (congrArg View.thread (hs c)).trans ht
  have hhistory : s₁.history c = l := by
    rw [List.append_nil] at e
    exact (congrArg View.history (hs c)).trans e
  have hview : ∀ d, (s₁.raise c event wait).view d =
      (((s₁.setState c event).record c (.raised event)).signal c).view d := fun _ => rfl
  refine ⟨?_, l, [.raised event], ?_, hl, ?_⟩
  · intro d hd
    rw [hview, view_signal_ne hd, view_record_ne hd, view_setState_ne hd, hs]
  · rw [hview, view_signal_waiting ht, view_record_self]
    show s₁.history c ++ [Mark.raised event] = _
    rw [hhistory]
  · rw [hview, view_signal_waiting ht, view_record_self, view_setState_self]
    exact .raised he (.inl rfl)

end Views

/-! ### Runs -/

/-- The invariant of the system. -/
def Inv (s : Sim n) : Prop := ∀ c, Good (s.view c)

/-- `simulate_process` raises an event when it runs the process. -/
def Due (s : Sim n) (c : Fin n) (pcb : Pid) : Prop :=
  (∃ time rest, s.ops pcb = ⟨.cpu, time + 1⟩ :: rest ∧ (s.cpu c).preemptionTimer = 1) ∨
    ∃ op rest, s.ops pcb = ⟨.cpu, 0⟩ :: op :: rest ∧ op.type ≠ .cpu

/-- `simulate_process` raises an event only for a CPU whose state is `CPU_RUNNING`. -/
def Guarded (s : Sim n) : Turn n → Prop
  | .cpu _ => True
  | .sup => ∀ (c : Fin n) pcb, s.sup = .cpus c → (s.cpu c).current = some pcb → Due s c pcb →
      (s.cpu c).state = .running

/-- An event is due with this timer and these operations. -/
def due (timer : ℤ) : List Op → Bool
  | ⟨.cpu, _ + 1⟩ :: _ => timer = 1
  | ⟨.cpu, 0⟩ :: op :: _ => op.type ≠ .cpu
  | _ => false

theorem due_iff {s : Sim n} {c : Fin n} {pcb : Pid} :
    due (s.cpu c).preemptionTimer (s.ops pcb) = true ↔ Due s c pcb := by
  unfold Due
  rcases s.ops pcb with _ | ⟨⟨_ | _ | _, _ | time⟩, _ | ⟨op, rest⟩⟩
  all_goals simp [due]

instance (s : Sim n) (c : Fin n) (pcb : Pid) : Decidable (Due s c pcb) := decidable_of_iff _ due_iff

instance (s : Sim n) : (t : Turn n) → Decidable (Guarded s t)
  | .cpu _ => .isTrue trivial
  | .sup => decidable_of_iff
      (∀ c : Fin n, s.sup = .cpus c → ∀ pcb ∈ (s.cpu c).current, Due s c pcb →
        (s.cpu c).state = .running)
      ⟨fun h c pcb hsup hcurrent => h c hsup pcb hcurrent,
        fun h c hsup pcb hcurrent => h c pcb hsup hcurrent⟩

/-- Some steps. -/
def Reaches (cfg : Config) : Sim n → Sim n → Prop :=
  Relation.ReflTransGen fun s s' => ∃ t, step cfg s t = .ok s'

/-- Some steps that all meet the condition. -/
def ReachesGuarded (cfg : Config) : Sim n → Sim n → Prop :=
  Relation.ReflTransGen fun s s' => ∃ t, Guarded s t ∧ step cfg s t = .ok s'

section Runs

variable {s s' : Sim n} {c : Fin n} {cfg : Config}

theorem Inv.advances (h : Inv s) (ha : Advances s c s') : Inv s' := by
  intro d
  rcases eq_or_ne d c with rfl | hne
  · exact ha.good
  · rw [ha.others d hne]
    exact h d

/-- A step of the supervisor that raises no event. -/
theorem Inv.of_view (h : Inv s) (hv : ∀ d, s'.view d = s.view d) : Inv s' := by
  intro d
  rw [hv]
  exact h d

theorem Inv.simulateProcess {pcb : Pid} (h : Inv s)
    (hg : Due s c pcb → (s.cpu c).state = .running) (hs : simulateProcess s c pcb = .ok s') :
    Inv s' := by
  unfold OsSim.simulateProcess at hs
  split at hs
  · rename_i time rest hops
    simp only at hs
    split at hs
    · -- the timer has expired
      rename_i htimer
      cases hs
      have htimer : (s.cpu c).preemptionTimer - 1 = 0 := by
        simpa [Sim.countDown, setOps] using htimer
      have hdue : Due s c pcb := .inl ⟨time, rest, hops, by omega⟩
      refine h.advances ((h c).raise ?_ (hg hdue) rfl _)
      exact fun d => view_countDown d
    · cases hs
      apply h.of_view
      intro d
      show (Sim.countDown _ c).view d = _
      exact view_countDown d
  · rename_i op rest hops
    have hdue : op.type ≠ .cpu → Due s c pcb := fun hne => .inr ⟨op, rest, hops, hne⟩
    simp only at hs
    -- the event depends on the next operation
    split at hs
    · rename_i hio
      cases hs
      refine h.advances ((h c).raise ?_ (hg (hdue (by rw [hio]; simp))) rfl _)
      exact fun _ => rfl
    · rename_i hterminate
      cases hs
      refine h.advances ((h c).raise ?_ (hg (hdue (by rw [hterminate]; simp))) rfl _)
      exact fun _ => rfl
    · cases hs
      exact h.of_view fun _ => rfl
  -- no burst is executed
  · cases hs
    exact h.of_view fun _ => rfl
  · cases hs
    exact h.of_view fun _ => rfl
  -- there is no operation to go to
  · cases hs
  · cases hs

/-- `force_preempt` tests the state itself. -/
theorem Inv.forcePreempt (h : Inv s) (process : Pid) (caller : Caller) :
    Inv (forcePreempt s c process caller) := by
  unfold OsSim.forcePreempt
  split
  · exact h.advances ((h c).raise (fun _ => rfl) ‹_› rfl _)
  · exact h.of_view fun _ => rfl

/-- **A step of the supervisor keeps the invariant, when it meets the condition.** -/
theorem Inv.stepSup (h : Inv s) (hg : Guarded s .sup) (hs : stepSup cfg s = .ok s') : Inv s' := by
  unfold OsSim.stepSup at hs
  split at hs
  · split at hs <;> cases hs <;> exact h.of_view fun _ => rfl
  · rename_i k hsup
    unfold simulateCpus at hs
    split at hs
    · split at hs
      · cases hs
        exact h.of_view fun _ => rfl
      · -- the only call that may lose an event
        rename_i pcb hcurrent
        exact h.simulateProcess (hg ⟨k, ‹_›⟩ pcb hsup hcurrent) hs
    · cases hs
      exact h.of_view fun _ => rfl
  · cases hs
  · cases hs
    exact h.of_view fun _ => rfl
  · -- the I/O queue is not seen by a CPU
    unfold simulateIo at hs
    split at hs
    · cases hs
      exact h.of_view fun _ => rfl
    · cases hs
      exact h.of_view fun _ => rfl
    · split at hs
      · cases hs
        exact h.of_view fun _ => rfl
      · cases hs
  · cases hs
    unfold simulateCreat
    split <;> exact h.of_view fun _ => rfl
  · -- in `wake_up`, `force_preempt` may raise an event
    rename_i process point caller hsup
    cases point with
    | push =>
        obtain ⟨a, -, ha⟩ := Exec.bind_eq_ok hs
        cases ha
        exact h.of_view fun _ => rfl
    | scan =>
        cases hs
        exact h.of_view fun _ => rfl
    | force c =>
        cases hs
        exact h.forcePreempt process caller
    | forceWaiting c => cases hs
    | forceWoken c =>
        cases hs
        exact h.of_view fun _ => rfl
    | signal =>
        cases hs
        exact h.of_view fun _ => rfl
  · cases hs
    exact h.of_view fun _ => rfl
  · cases hs
    exact h.of_view fun _ => rfl
  · cases hs

theorem Inv.step {t : Turn n} (h : Inv s) (hg : Guarded s t) (hs : step cfg s t = .ok s') :
    Inv s' := by
  cases t with
  | cpu c => exact h.advances ((h c).stepCpu hs)
  | sup => exact h.stepSup hg hs

theorem Inv.start (ops : Pid → List Op) (current : Fin n → Option Pid) (timeRemaining : Pid → ℕ) :
    Inv (start ops current timeRemaining) :=
  fun _ => ⟨[], [], rfl, .nil, .idling rfl⟩

/-- The invariant holds in every state of a run whose steps meet the condition. -/
theorem Inv.reaches (h : Inv s) (hr : ReachesGuarded cfg s s') : Inv s' := by
  induction hr with
  | refl => exact h
  | tail _ hstep ih =>
      obtain ⟨t, hg, hs⟩ := hstep
      exact ih.step hg hs

end Runs

/-! ### Runs that are checked -/

/-- Some steps, each of which meets the condition `G`. -/
def runIf (G : Sim n → Turn n → Prop) [∀ s t, Decidable (G s t)] (cfg : Config) :
    List (Turn n) → Sim n → Except Stop (Sim n)
  | [], s => .ok s
  | t :: ts, s => if G s t then do runIf G cfg ts (← step cfg s t) else .error .blocked

theorem reaches_of_runIf {G : Sim n → Turn n → Prop} [∀ s t, Decidable (G s t)] {cfg : Config}
    {ts : List (Turn n)} {s s' : Sim n} (h : runIf G cfg ts s = .ok s') :
    Relation.ReflTransGen (fun s s' => ∃ t, G s t ∧ step cfg s t = .ok s') s s' := by
  induction ts generalizing s with
  | nil =>
      obtain rfl := Except.ok.inj h
      exact .refl
  | cons t ts ih =>
      rw [runIf] at h
      split at h
      · obtain ⟨s₁, hs, hrest⟩ := Exec.bind_eq_ok h
        exact .head ⟨t, ‹_›, hs⟩ (ih hrest)
      · cases h

/-- A burst, a request and a burst, on CPU `c` from the start to the exit. -/
def lifetime (c : Fin n) : List (Turn n) :=
  -- the process is created and scheduled, and moves to the request
  List.replicate 2 (.cpu c) ++ List.replicate 6 .sup ++
  List.replicate 5 (.cpu c) ++ List.replicate 4 .sup ++
  -- `yield` leaves the CPU to `idle`, and the request is completed
  List.replicate 7 (.cpu c) ++ List.replicate 4 .sup ++
  -- `idle` schedules the process again, and it comes to its end
  List.replicate 5 (.cpu c) ++ List.replicate 5 .sup ++
  -- `terminate`, and the supervisor exits
  List.replicate 8 (.cpu c) ++ List.replicate 5 .sup

/-- **No event is lost in a run whose steps meet the condition.** -/
theorem none_lost (cfg : Config) (ops : Pid → List Op) (current : Fin n → Option Pid)
    (timeRemaining : Pid → ℕ) (s : Sim n)
    (hr : ReachesGuarded cfg (start ops current timeRemaining) s) (c : Fin n) :
    NoneLost (s.history c) :=
  (((Inv.start ops current timeRemaining).reaches hr) c).noneLost

/-- A process that executes a burst, an I/O request and a burst: `yield` and `terminate` are
called for the events of its CPU. -/
theorem none_lost_lifetime : ∃ s : Sim 1, s.history 0 =
      [.resumed, .resumed, .raised .yield, .called .yield, .resumed, .resumed,
        .raised .terminate, .called .terminate, .resumed] ∧ NoneLost (s.history 0) := by
  obtain ⟨s, hs, hhistory⟩ : ∃ s : Sim 1, runIf Guarded ⟨1, .f, 0⟩ (lifetime 0)
      (start (fun _ => [⟨.cpu, 0⟩, ⟨.io, 0⟩, ⟨.cpu, 0⟩, ⟨.terminate, 0⟩]) (fun _ => none)
        fun _ => 0) = .ok s ∧ s.history 0 =
      [.resumed, .resumed, .raised .yield, .called .yield, .resumed, .resumed,
        .raised .terminate, .called .terminate, .resumed] := ⟨_, rfl, rfl⟩
  exact ⟨s, hhistory, none_lost _ _ _ _ s (reaches_of_runIf hs) 0⟩

/-! ### A lost event -/

theorem reaches_of_run {cfg : Config} {ts : List (Turn n)} {s s' : Sim n}
    (h : run cfg ts s = .ok s') : Reaches cfg s s' := by
  induction ts generalizing s with
  | nil =>
      cases h
      exact .refl
  | cons t ts ih =>
      obtain ⟨s₁, hs, hrest⟩ := Exec.bind_eq_ok h
      exact .head ⟨t, hs⟩ (ih hrest)

/-- One CPU and one process, which runs for no time and then asks for I/O. -/
def window : List (Turn 1) :=
  -- the thread of the CPU finds no process and enters `idle`
  [Turn.cpu 0, .cpu 0] ++
  -- the supervisor creates the process, and `wake_up` pushes it
  [Turn.sup, .sup, .sup, .sup, .sup, .sup, .sup, .sup] ++
  -- `idle` schedules it: `context_switch` has been called, and the thread is delayed
  [Turn.cpu 0, .cpu 0, .cpu 0] ++
  -- in the next round, the supervisor raises `CPU_YIELD` and waits
  [Turn.sup, .sup] ++
  -- the thread gets to the head of its loop
  [Turn.cpu 0, .cpu 0]

/-- **`CPU_YIELD` is lost when the thread of the CPU is still on its way out of `idle`.** -/
theorem yield_lost : ¬ ∀ (n : ℕ) (cfg : Config) (ops : Pid → List Op)
    (current : Fin n → Option Pid) (timeRemaining : Pid → ℕ) (s : Sim n),
    Reaches cfg (start ops current timeRemaining) s → ∀ c, NoneLost (s.history c) := by
  intro h
  obtain ⟨s, hs, hhistory⟩ : ∃ s, run ⟨1, .f, 0⟩ window
      (start (fun _ => [⟨.cpu, 0⟩, ⟨.io, 0⟩, ⟨.cpu, 0⟩, ⟨.terminate, 0⟩]) (fun _ => none)
        fun _ => 0) = .ok s ∧ s.history 0 = [.resumed, .raised .yield, .resumed] :=
    ⟨_, rfl, rfl⟩
  have hlost := h 1 _ _ _ _ s (reaches_of_run hs) 0
  rw [hhistory] at hlost
  have := hlost [.resumed] .yield [.resumed] rfl (List.mem_cons_self ..)
  simp at this

end OsSim

end ProjectArchive.Scheduler
