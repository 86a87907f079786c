/-
ProjectArchive/Scheduler/Deadlock.lean

The simulator does not deadlock, and its lock is never contended.

A handler of a CPU thread runs only while the supervisor waits for that CPU
(`Sound.busy`).  So no two handlers run at a time, and none while the supervisor
prints a line or is in a part of `wake_up` that locks: `print_gantt_line` never
waits for a writer (`lock_uncontended`).  The supervisor waits for CPUs only; the
thread of the CPU is not blocked, and is a bounded number of its own steps away
from the head of its loop (`rank`), where it signals the supervisor.

Main results: the wait for a CPU ends after at most twelve steps of its thread
(`waits_end`), and in every order of the steps the supervisor can be brought to
its next step until it exits (`never_deadlocks`).
-/
import ProjectArchive.Scheduler.Awake
import ProjectArchive.Scheduler.StudentLock

namespace ProjectArchive.Scheduler

namespace StudentLock

open Exec (bind_eq_ok)
open OsSim (Sim Config Turn Stop ThreadPoint SupPoint Desk CpuState Program Safe)

variable {n : ℕ}

/-! ### How far a thread is from the head of its loop -/

/-- The steps of the simulator that a thread is away from the head of its loop, at most. -/
@[simp] def base : ThreadPoint → ℕ
  | .waiting => 0
  | .top => 1
  | .install _ => 2
  | .switch _ _ => 3
  | .schedule => 4
  | .pushBack _ | .yield | .terminate | .idle => 5
  | .preempt | .count => 6
  | .dispatch _ => 7
  | .woken => 8

/-- The macros of the lock that it runs until it is ready for the head of its loop. -/
@[simp] def Phase.macros : Phase → ThreadPoint → ℕ
  | .out, .top | .out, .install _ => 0
  | .out, .switch _ _ | .out, .schedule | .out, .idle => 2
  | .out, _ => 4
  | .inside, .top | .inside, .install _ => 1
  | .inside, _ => 3
  | .dropped, _ => 2
  | .owing, _ => 1

/-- The thread serves an event: it is on its way to a handler, or it is in one. -/
@[simp] def serving : ThreadPoint → Bool
  | .woken | .dispatch .preempt | .dispatch .yield | .dispatch .terminate => true
  | .preempt | .pushBack _ | .yield | .count | .terminate => true
  | _ => false

/-- The point `x` is nearer to the head of the loop than `y`. -/
structure Nearer (x y : ThreadPoint) : Prop where
  base : base x < base y
  macros : ∀ phase : Phase, phase.macros x ≤ phase.macros y

theorem Nearer.intro {x y : ThreadPoint} (hbase : StudentLock.base x < StudentLock.base y)
    (hout : Phase.out.macros x ≤ Phase.out.macros y)
    (hinside : Phase.inside.macros x ≤ Phase.inside.macros y) : Nearer x y := by
  refine ⟨hbase, fun phase => ?_⟩
  cases phase with
  | out => exact hout
  | inside => exact hinside
  | dropped => exact Nat.le_refl 2
  | owing => exact Nat.le_refl 1

section Desk

variable {d d' : Desk} {ready ready' : List Pid}

theorem Nearer.of_step (hd : d.Step ready d' ready') (htop : d.thread ≠ .top) :
    Nearer d'.thread d.thread := by
  cases hd with
  | idle hthread _ => exact absurd hthread htop
  | run hthread _ => exact absurd hthread htop
  | @call st hthread =>
      rw [hthread]
      cases st <;> apply Nearer.intro <;> simp [CpuState.handler]
  | @switch pcb _ hthread =>
      rw [hthread]
      cases pcb <;> apply Nearer.intro <;> simp [OsSim.afterSwitch]
  | release hthread =>
      rcases hthread with hthread | hthread
      · rw [hthread]
        apply Nearer.intro <;> simp
      · rw [hthread]
        apply Nearer.intro <;> simp
  | wait hthread _ | leave hthread _ | preempt hthread _ | pushBack hthread _ =>
      rw [hthread]
      apply Nearer.intro <;> simp
  | wake hthread | pop hthread | install hthread =>
      rw [hthread]
      apply Nearer.intro <;> simp

/-- Only a signal makes a thread serve an event. -/
theorem serving_of_step (hd : d.Step ready d' ready') (h : serving d'.thread = true) :
    serving d.thread = true := by
  cases hd with
  | @call st hthread =>
      rw [hthread]
      cases st with
      | idle => cases h
      | running => cases h
      | _ => rfl
  | @switch pcb _ => cases pcb <;> cases h
  | leave hthread _ | preempt hthread _ =>
      rw [hthread]
      rfl
  | idle | run | wait | wake | pop | install | pushBack | release => cases h

end Desk

/-- A step of a thread of the simulator. -/
theorem stepCpu_thread {cfg : Config} {s s' : Sim n} {c : Fin n} {ps : List Pid}
    (h : Represents s.student.readyQueue ps) (hs : OsSim.stepCpu cfg s c = .ok s') :
    (∀ e, e ≠ c → s'.thread e = s.thread e) ∧
      (s.thread c ≠ .top → Nearer (s'.thread c) (s.thread c)) ∧
      (serving (s'.thread c) = true → serving (s.thread c) = true) := by
  obtain ⟨d, hdesk, hd⟩ := OsSim.stepCpu_desk h hs
  have hthread : ∀ e, s'.thread e = (s'.desk e).thread := fun _ => rfl
  refine ⟨?_, ?_⟩
  · intro e hne
    rw [hthread, hdesk, Function.update_of_ne hne]
    rfl
  · rw [hthread, hdesk, Function.update_self]
    rcases hd with ⟨hcount, rfl⟩ | ⟨ready', hd⟩
    · rw [hcount]
      refine ⟨fun _ => ?_, fun _ => rfl⟩
      apply Nearer.intro <;> simp
    · exact ⟨Nearer.of_step hd, serving_of_step hd⟩

/-! ### The steps of the system -/

/-- The thread serves an event, or it has locked as a writer and has not unlocked for good. -/
def Busy (s : System n) (c : Fin n) : Prop :=
  serving (s.sim.thread c) = true ∨ s.phase (.cpu c) = .inside ∨ s.phase (.cpu c) = .dropped

/-- The thread has locked or unlocked as a writer, and is in the phase `x`. -/
structure Macro (s : System n) (t : Turn n) (x : Phase) (s' : System n) : Prop where
  sim : s'.sim = s.sim
  phase : s'.phase = Function.update s.phase t x
  holds : s'.reader ≠ .holds
  waiting : s'.reader = .waiting → s.reader = .waiting

section System

variable {cfg : Config} {s s' : System n} {t : Turn n} {c : Fin n} {x : Phase} {ps : List Pid}

theorem Macro.of_lock (hs : s.lock t x = .ok s') : Macro s t x s' := by
  rw [System.lock] at hs
  split at hs
  · cases hs
  · rename_i hreader
    obtain rfl := Except.ok.inj hs
    exact ⟨rfl, rfl, hreader, id⟩

theorem Macro.of_unlock (hs : s.unlock t x = .ok s') : Macro s t x s' := by
  rw [System.unlock] at hs
  split at hs
  · cases hs
  · rename_i hreader
    obtain rfl := Except.ok.inj hs
    refine ⟨rfl, rfl, ?_, ?_⟩
    · dsimp only
      split
      · exact Reader.noConfusion
      · exact hreader
    · dsimp only
      split
      · exact fun hwoken => by cases hwoken
      · exact id

/-- A thread runs a macro, or it takes a step of the simulator. -/
theorem stepCpu_cases (hs : stepCpu cfg s c = .ok s') :
    (∃ x, Macro s (.cpu c) x s' ∧ (x = .inside ∨ x = .dropped → Busy s c) ∧
      x.macros (s.sim.thread c) < (s.phase (.cpu c)).macros (s.sim.thread c)) ∨
    (s.sim.thread c = .top → s.phase (.cpu c) = .out) ∧
      ∃ sim, OsSim.stepCpu cfg s.sim c = .ok sim ∧ s' = { s with sim := sim } := by
  have hcase : ∀ {x y : Phase} {point : ThreadPoint}, Macro s (.cpu c) x s' →
      s.phase (.cpu c) = y → s.sim.thread c = point →
      (x = .inside ∨ x = .dropped → serving point = true ∨ y = .inside ∨ y = .dropped) →
      x.macros point < y.macros point →
      ∃ x, Macro s (.cpu c) x s' ∧ (x = .inside ∨ x = .dropped → Busy s c) ∧
        x.macros (s.sim.thread c) < (s.phase (.cpu c)).macros (s.sim.thread c) := by
    rintro x y point hm rfl rfl hbusy hlt
    exact ⟨x, hm, hbusy, hlt⟩
  rw [StudentLock.stepCpu] at hs
  split at hs
  · exact .inl (hcase (.of_lock hs) ‹_› ‹_› (by simp) (by simp))
  · exact .inl (hcase (.of_lock hs) ‹_› ‹_› (by simp) (by simp))
  · exact .inl (hcase (.of_lock hs) ‹_› ‹_› (by simp) (by simp))
  · exact .inl (hcase (.of_unlock hs) ‹_› ‹_› (by simp) (by simp))
  · exact .inl (hcase (.of_unlock hs) ‹_› ‹_› (by simp) (by simp))
  · exact .inl (hcase (.of_lock hs) ‹_› ‹_› (by simp) (by simp))
  · exact .inl (hcase (.of_lock hs) ‹_› ‹_› (by simp) (by simp))
  · exact .inl (hcase (.of_lock hs) ‹_› ‹_› (by simp) (by simp))
  · exact .inl (hcase (.of_lock hs) ‹_› ‹_› (by simp) (by simp))
  · exact .inl (hcase (.of_unlock hs) ‹_› ‹_› (by simp) (by simp))
  · rename_i hdropped _ howing hinside
    refine .inr ⟨?_, ?_⟩
    · intro htop
      cases hphase : s.phase (.cpu c) with
      | out => rfl
      | inside => exact (hinside hphase htop).elim
      | dropped => exact (hdropped hphase htop).elim
      | owing => exact (howing hphase htop).elim
    · obtain ⟨sim, hsim, hrest⟩ := bind_eq_ok hs
      exact ⟨sim, hsim, (Except.ok.inj hrest).symm⟩

/-- A thread is not busy before it has been signalled. -/
theorem busy_stepCpu (hps : Represents s.sim.student.readyQueue ps)
    (hs : stepCpu cfg s c = .ok s') {e : Fin n} (hbusy : Busy s' e) : Busy s e := by
  rcases stepCpu_cases hs with ⟨x, hm, hx, -⟩ | ⟨-, sim, hsim, rfl⟩
  · unfold Busy at hbusy
    rw [hm.sim, hm.phase] at hbusy
    rcases eq_or_ne e c with rfl | hne
    · rw [Function.update_self] at hbusy
      rcases hbusy with hserving | hphase
      · exact .inl hserving
      · exact hx hphase
    · rw [Function.update_of_ne fun h => hne (Turn.cpu.inj h)] at hbusy
      exact hbusy
  · obtain ⟨hothers, -, hserving⟩ := stepCpu_thread hps hsim
    refine hbusy.imp_left fun h => ?_
    rcases eq_or_ne e c with rfl | hne
    · exact hserving h
    · rw [← hothers e hne]
      exact h

/-! ### What holds of the lock -/

/-- The supervisor waits for the busy threads.  It holds the writer lock in `wake_up` only, and
the reader lock in `print_gantt_line`, where it does not wait. -/
structure Sound (s : System n) : Prop where
  busy : ∀ c, Busy s c → s.sim.sup.awaits = some c
  waking : s.phase .sup = .inside → s.sim.sup.waking = true
  holds : s.reader = .holds → s.sim.sup = .cpus 0
  waiting : s.reader ≠ .waiting

theorem awaits_of_waking {x : SupPoint n} (h : x.waking = true) : x.awaits = none := by
  cases x with
  | waiting c => cases h
  | wakeUp p point caller =>
      cases point with
      | forceWaiting c => cases h
      | _ => rfl
  | _ => rfl

/-- At most one thread is between the two macros. -/
theorem Sound.eq_of_inside (h : Sound s) {t u : Turn n} (ht : s.phase t = .inside)
    (hu : s.phase u = .inside) : t = u := by
  have hsup : ∀ {c}, s.phase (.cpu c) = .inside → s.phase .sup ≠ .inside := by
    intro c hc hinside
    have hawaits := h.busy c (.inr (.inl hc))
    rw [awaits_of_waking (h.waking hinside)] at hawaits
    cases hawaits
  cases t with
  | sup =>
      cases u with
      | sup => rfl
      | cpu d => exact absurd ht (hsup hu)
  | cpu c =>
      cases u with
      | sup => exact absurd hu (hsup ht)
      | cpu d =>
          have hc := h.busy c (.inr (.inl ht))
          have hd := h.busy d (.inr (.inl hu))
          rw [Option.some.inj (hc.symm.trans hd)]

/-- No writer holds the lock while the supervisor prints a line. -/
theorem Sound.not_inside (h : Sound s) (hsup : s.sim.sup = .cpus 0) (t : Turn n) :
    s.phase t ≠ .inside := by
  intro ht
  cases t with
  | sup =>
      have hwaking := h.waking ht
      rw [hsup] at hwaking
      cases hwaking
  | cpu c =>
      have hawaits := h.busy c (.inr (.inl ht))
      rw [hsup] at hawaits
      cases hawaits

theorem Sound.stepCpu (h : Sound s) (hps : Represents s.sim.student.readyQueue ps)
    (hs : stepCpu cfg s c = .ok s') : Sound s' := by
  have hbusy : ∀ e, Busy s' e → s.sim.sup.awaits = some e :=
    fun e he => h.busy e (busy_stepCpu hps hs he)
  rcases stepCpu_cases hs with ⟨x, hm, -, -⟩ | ⟨htop, sim, hsim, rfl⟩
  · refine ⟨?_, ?_, ?_, fun hwaiting => h.waiting (hm.waiting hwaiting)⟩
    · rw [hm.sim]
      exact hbusy
    · rw [hm.sim, hm.phase, Function.update_of_ne (by simp)]
      exact h.waking
    · exact fun hholds => absurd hholds hm.holds
  · have hsup := OsSim.stepCpu_sup hsim
    refine ⟨?_, ?_, ?_, h.waiting⟩
    · intro e he
      show sim.sup.awaits = some e
      rw [hsup]
      split
      · -- a thread at the head of its loop is not busy
        rename_i hthread
        have hne : e ≠ c := by
          rintro rfl
          obtain hserving | hphase := busy_stepCpu hps hs he
          · rw [hthread] at hserving
            cases hserving
          · rw [htop hthread] at hphase
            rcases hphase with hphase | hphase <;> cases hphase
        rw [OsSim.signalled_awaits, hbusy e he, if_neg fun heq => hne (Option.some.inj heq)]
      · exact hbusy e he
    · intro hinside
      show sim.sup.waking = true
      rw [hsup]
      split
      · rw [OsSim.signalled_waking]
        exact h.waking hinside
      · exact h.waking hinside
    · intro hholds
      show sim.sup = .cpus 0
      rw [hsup, h.holds hholds]
      split
      · rfl
      · rfl

/-- The supervisor unlocks before it leaves the part of `wake_up` that locks. -/
theorem stepSup_waking {s s' : Sim n} (hwaking : s.sup.waking = true)
    (hforce : ∀ p c caller, s.sup ≠ .wakeUp p (.force c) caller)
    (hrelock : ∀ caller, s.sup ≠ .relock caller) (hs : OsSim.stepSup cfg s = .ok s') :
    s'.sup.waking = true := by
  rw [OsSim.stepSup] at hs
  cases hsup : s.sup with
  | wakeUp p point caller =>
      rw [hsup] at hs
      cases point with
      | push =>
          obtain ⟨student, -, hrest⟩ := bind_eq_ok hs
          obtain rfl := Except.ok.inj hrest
          dsimp only
          split
          · rfl
          · rfl
      | scan =>
          obtain rfl := Except.ok.inj hs
          dsimp only
          split
          · rfl
          · rfl
      | force c => exact absurd hsup (hforce p c caller)
      | forceWaiting c => cases hs
      | forceWoken c =>
          rw [hsup] at hwaking
          cases hwaking
      | signal =>
          obtain rfl := Except.ok.inj hs
          rfl
  | relock caller => exact absurd hsup (hrelock caller)
  | _ =>
      rw [hsup] at hwaking
      cases hwaking

/-- A step of the supervisor that is one of the simulator: nobody was busy, and whoever is has
been woken up by the event for which the supervisor waits now. -/
theorem Sound.busy_stepSup (h : Sound s) (hps : Represents s.sim.student.readyQueue ps)
    {sim : Sim n} {reader : Reader} (hsim : OsSim.stepSup cfg s.sim = .ok sim) :
    ∀ c, Busy { s with sim := sim, reader := reader } c → sim.sup.awaits = some c := by
  have hidle : ∀ c, ¬Busy s c := by
    intro c hc
    have hawaits := h.busy c hc
    rw [OsSim.stepSup] at hsim
    cases hsup : s.sim.sup with
    | waiting d =>
        rw [hsup] at hsim
        cases hsim
    | wakeUp p point caller =>
        cases point with
        | forceWaiting d =>
            rw [hsup] at hsim
            cases hsim
        | _ =>
            rw [hsup] at hawaits
            cases hawaits
    | _ =>
        rw [hsup] at hawaits
        cases hawaits
  have hthread : ∀ c, sim.thread c = (sim.desk c).thread := fun _ => rfl
  intro c hbusy
  rcases OsSim.Decides.stepSup hps hsim with ⟨e, he, event, -, -, hdesk⟩ | ⟨-, hdesk⟩
  · rcases eq_or_ne c e with rfl | hne
    · exact he
    · refine absurd (hbusy.imp_left fun hserving => ?_) (hidle c)
      have hserving : serving (sim.thread c) = true := hserving
      rw [hthread, hdesk, Function.update_of_ne hne] at hserving
      exact hserving
  · refine absurd (hbusy.imp_left fun hserving => ?_) (hidle c)
    have hserving : serving (sim.thread c) = true := hserving
    rw [hthread, hdesk] at hserving
    exact hserving

/-- A macro of the supervisor. -/
theorem Sound.macro_sup (h : Sound s) (hm : Macro s .sup x s')
    (hx : x = .inside → s.sim.sup.waking = true) : Sound s' := by
  refine ⟨?_, ?_, ?_, fun hwaiting => h.waiting (hm.waiting hwaiting)⟩
  · intro c hbusy
    unfold Busy at hbusy
    rw [hm.sim, hm.phase, Function.update_of_ne (by simp)] at hbusy
    rw [hm.sim]
    exact h.busy c hbusy
  · rw [hm.sim, hm.phase, Function.update_self]
    exact hx
  · exact fun hholds => absurd hholds hm.holds

/-- The loop of `IRWL_READER_LOCK` is not entered. -/
theorem Sound.readerLock (h : Sound s) (hinv : Inv s) (hsup : s.sim.sup = .cpus 0) :
    Sound s.readerLock := by
  have hholders : s.holders = 0 := Counting.number_eq_zero_iff.mpr (h.not_inside hsup)
  have hwriters : ¬s.writers > 0 := by
    have hcount := hinv.count
    omega
  refine ⟨h.busy, h.waking, fun _ => hsup, ?_⟩
  have hreader : s.readerLock.reader = .holds := if_neg hwriters
  rw [hreader]
  exact Reader.noConfusion

theorem Sound.stepSup (h : Sound s) (hinv : Inv s) (hps : Represents s.sim.student.readyQueue ps)
    (hs : stepSup cfg s = .ok s') : Sound s' := by
  rw [StudentLock.stepSup] at hs
  split at hs
  · -- a round begins
    rename_i hsup
    obtain ⟨sim, hsim, hrest⟩ := bind_eq_ok hs
    obtain rfl := Except.ok.inj hrest
    refine ⟨h.busy_stepSup hps hsim, ?_, Reader.noConfusion, Reader.noConfusion⟩
    intro hinside
    have hwaking := h.waking hinside
    rw [hsup] at hwaking
    cases hwaking
  · obtain rfl := Except.ok.inj hs
    exact h.readerLock hinv ‹_›
  · obtain rfl := Except.ok.inj hs
    exact h.readerLock hinv ‹_›
  · cases hs
  · obtain rfl := Except.ok.inj hs
    exact ⟨h.busy, h.waking, Reader.noConfusion, Reader.noConfusion⟩
  · rename_i hsup _
    refine h.macro_sup (.of_lock hs) fun _ => ?_
    rw [hsup]
    rfl
  · exact h.macro_sup (.of_unlock hs) fun hinside => by cases hinside
  · rename_i hsup _
    refine h.macro_sup (.of_lock hs) fun _ => ?_
    rw [hsup]
    rfl
  · exact h.macro_sup (.of_unlock hs) fun hinside => by cases hinside
  · rename_i hforce _ hrelock _ _ _ hholds
    obtain ⟨sim, hsim, hrest⟩ := bind_eq_ok hs
    obtain rfl := Except.ok.inj hrest
    refine ⟨h.busy_stepSup hps hsim, ?_, ?_, h.waiting⟩
    · intro hinside
      refine stepSup_waking (h.waking hinside) ?_ ?_ hsim
      · exact fun p c caller hsup => hforce p c caller hsup hinside
      · exact fun caller hsup => hrelock caller hsup hinside
    · exact fun hreader => (hholds (h.holds hreader) hreader).elim

/-! ### Threads that can go on -/

theorem lock_goes (hreader : s.reader ≠ .holds) : ∃ s', s.lock t x = .ok s' :=
  ⟨_, if_neg hreader⟩

theorem unlock_goes (hreader : s.reader ≠ .holds) : ∃ s', s.unlock t x = .ok s' :=
  ⟨_, if_neg hreader⟩

/-- A step of the simulator that does not crash, and whose thread is not blocked. -/
theorem simulate_goes {y : Except Stop (Sim n)} (hsafe : Safe y) (hblocked : y ≠ .error .blocked) :
    ∃ s', s.simulate y = .ok s' := by
  cases y with
  | ok sim => exact ⟨{ s with sim := sim }, rfl⟩
  | error e =>
      cases e with
      | blocked => exact absurd rfl hblocked
      | crash => exact absurd rfl hsafe

theorem stepCpu_goes (hreader : s.reader ≠ .holds) (hsafe : Safe (OsSim.stepCpu cfg s.sim c))
    (hblocked : OsSim.stepCpu cfg s.sim c = .error .blocked → s.phase (.cpu c) = .inside ∧
      (s.sim.thread c = .top ∨ ∃ pcb time, s.sim.thread c = .switch pcb time)) :
    ∃ s', stepCpu cfg s c = .ok s' := by
  rw [StudentLock.stepCpu]
  split
  · exact lock_goes hreader
  · exact lock_goes hreader
  · exact lock_goes hreader
  · exact unlock_goes hreader
  · exact unlock_goes hreader
  · exact lock_goes hreader
  · exact lock_goes hreader
  · exact lock_goes hreader
  · exact lock_goes hreader
  · exact unlock_goes hreader
  · rename_i hswitch _ _ _ _ _ htop
    refine simulate_goes hsafe fun h => ?_
    obtain ⟨hinside, hthread | ⟨pcb, time, hthread⟩⟩ := hblocked h
    · exact htop hinside hthread
    · exact hswitch pcb time hinside hthread

theorem stepSup_goes (h : Sound s) (hsafe : Safe (OsSim.stepSup cfg s.sim))
    (hexited : s.sim.sup ≠ .exited) (hawaits : s.sim.sup.awaits = none) :
    ∃ s', stepSup cfg s = .ok s' := by
  have hblocked : OsSim.stepSup cfg s.sim ≠ .error .blocked := by
    intro hs
    rcases OsSim.stepSup_blocked hs with hsup | ⟨c, hc⟩
    · exact hexited hsup
    · rw [hawaits] at hc
      cases hc
  -- outside `print_gantt_line` the reader does not hold the mutex
  have hreader : ∀ {x}, s.sim.sup = x → x ≠ .cpus 0 → s.reader ≠ .holds := by
    rintro x rfl hne hholds
    exact hne (h.holds hholds)
  rw [StudentLock.stepSup]
  split
  · exact simulate_goes hsafe hblocked
  · exact ⟨_, rfl⟩
  · exact ⟨_, rfl⟩
  · exact absurd ‹_› h.waiting
  · exact ⟨_, rfl⟩
  · exact lock_goes (hreader ‹_› (by simp))
  · exact unlock_goes (hreader ‹_› (by simp))
  · exact lock_goes (hreader ‹_› (by simp))
  · exact unlock_goes (hreader ‹_› (by simp))
  · exact simulate_goes hsafe hblocked

/-- **The thread that the supervisor waits for is not blocked.** -/
theorem awaited_goes (h : Sound s) (hsafe : Safe (OsSim.stepCpu cfg s.sim c))
    (hawaits : s.sim.sup.awaits = some c) (hawake : (s.sim.desk c).Awake) :
    ∃ s', stepCpu cfg s c = .ok s' := by
  have hlocked := OsSim.unlocked_of_awaits hawaits
  have hawake : (s.sim.thread c).asleep = false := hawake.awake
  refine stepCpu_goes ?_ hsafe ?_
  · intro hholds
    rw [h.holds hholds] at hawaits
    cases hawaits
  · intro hblocked
    rcases OsSim.stepCpu_blocked hblocked with hthread | hthread | ⟨hlock, -⟩
    · rw [hthread] at hawake
      cases hawake
    · rw [hthread] at hawake
      cases hawake
    · rw [hlocked] at hlock
      cases hlock

/-! ### How long it takes -/

/-- How far the thread of a CPU is from the head of its loop, with the macros. -/
def System.rank (s : System n) (c : Fin n) : ℕ :=
  base (s.sim.thread c) + (s.phase (.cpu c)).macros (s.sim.thread c)

theorem rank_le (s : System n) (c : Fin n) : s.rank c ≤ 12 := by
  have hbase : ∀ x, base x ≤ 8 := by
    intro x
    cases x <;> simp
  have hcases : ∀ (phase : Phase) x, phase.macros x ≤ 4 := by
    intro phase x
    cases phase <;> cases x <;> simp
  exact Nat.add_le_add (hbase _) (hcases _ _)

theorem rank_pos (h : (s.sim.desk c).Awake) : 0 < s.rank c := by
  have hawake : (s.sim.thread c).asleep = false := h.awake
  apply Nat.add_pos_left
  cases hthread : s.sim.thread c with
  | waiting =>
      rw [hthread] at hawake
      cases hawake
  | _ => simp

theorem rank_others {ps : List Pid} (hps : Represents s.sim.student.readyQueue ps)
    (hs : stepCpu cfg s c = .ok s') {e : Fin n} (hne : e ≠ c) : s'.rank e = s.rank e := by
  unfold System.rank
  rcases stepCpu_cases hs with ⟨x, hm, -, -⟩ | ⟨-, sim, hsim, rfl⟩
  · rw [hm.sim, hm.phase, Function.update_of_ne fun h => hne (Turn.cpu.inj h)]
  · rw [(stepCpu_thread hps hsim).1 e hne]

/-- **A thread that does not pass the head of its loop gets nearer to it.** -/
theorem rank_lt {ps : List Pid} (hps : Represents s.sim.student.readyQueue ps)
    (hs : stepCpu cfg s c = .ok s')
    (htop : OsSim.stepCpu cfg s.sim c = .ok s'.sim → s.sim.thread c ≠ .top) :
    s'.rank c < s.rank c := by
  unfold System.rank
  rcases stepCpu_cases hs with ⟨x, hm, -, hcases⟩ | ⟨-, sim, hsim, rfl⟩
  · rw [hm.sim, hm.phase, Function.update_self]
    exact Nat.add_lt_add_left hcases _
  · have hnearer := (stepCpu_thread hps hsim).2.1 (htop hsim)
    exact Nat.add_lt_add_of_lt_of_le hnearer.base (hnearer.macros _)

/-- While the supervisor waits for a thread, that thread gets nearer to the head of its loop. -/
theorem awaits_stepCpu {ps : List Pid} {e : Fin n}
    (hps : Represents s.sim.student.readyQueue ps) (hs : stepCpu cfg s e = .ok s')
    (hawaits : s'.sim.sup.awaits = some c) :
    s.sim.sup.awaits = some c ∧ (e = c → s'.rank c < s.rank c) := by
  constructor
  · rcases stepCpu_cases hs with ⟨x, hm, -, -⟩ | ⟨-, sim, hsim, rfl⟩
    · rw [hm.sim] at hawaits
      exact hawaits
    · exact (OsSim.stepCpu_awaits hsim hawaits).1
  · rintro rfl
    exact rank_lt hps hs fun hsim => (OsSim.stepCpu_awaits hsim hawaits).2 rfl

theorem stage_stepCpu (hs : stepCpu cfg s c = .ok s') :
    s'.sim.sup.stage = s.sim.sup.stage := by
  rcases stepCpu_cases hs with ⟨x, hm, -, -⟩ | ⟨-, sim, hsim, rfl⟩
  · rw [hm.sim]
  · show sim.sup.stage = s.sim.sup.stage
    rw [OsSim.stepCpu_sup hsim]
    split
    · exact OsSim.signalled_stage
    · rfl

end System

/-! ### Whole runs -/

section Runs

variable {cfg : Config} {ops : Pid → List OsSim.Op} {current : Fin n → Option Pid}
  {time : Pid → ℕ} {s s' : System n} {c : Fin n}

theorem Sound.start : Sound (start ops current time) := by
  refine ⟨?_, Phase.noConfusion, Reader.noConfusion, Reader.noConfusion⟩
  rintro c (hserving | hphase | hphase)
  · cases hserving
  · cases hphase
  · cases hphase

theorem Sound.reaches (hr : Reaches cfg (StudentLock.start ops current time) s) :
    Sound s ∧ OsSim.Reaches cfg (OsSim.start ops current time) s.sim := by
  induction hr with
  | refl => exact ⟨.start, .refl⟩
  | tail hr hstep ih =>
      obtain ⟨t, hs⟩ := hstep
      obtain ⟨hsound, hreaches⟩ := ih
      obtain ⟨ps, hps, -⟩ := hreaches.visits
      constructor
      · cases t with
        | cpu c => exact hsound.stepCpu hps hs
        | sup => exact hsound.stepSup ((Inv.start ops current time).reaches hr) hps hs
      · rcases step_sim hs with hsame | hsim
        · rw [hsame]
          exact hreaches
        · exact hreaches.tail ⟨t, hsim⟩

theorem Reaches.represents (hr : Reaches cfg (start ops current time) s) :
    ∃ ps, Represents s.sim.student.readyQueue ps := by
  obtain ⟨ps, hps, -⟩ := (Sound.reaches hr).2.visits
  exact ⟨ps, hps⟩

/-- **There is a next step**, of the supervisor or of the thread that it waits for. -/
theorem Reaches.goes (hprogram : ∀ p, p < cfg.processCount → Program (ops p))
    (hr : Reaches cfg (start ops current time) s) (hexited : s.sim.sup ≠ .exited) :
    (∃ s', stepSup cfg s = .ok s') ∨
      ∃ c s', s.sim.sup.awaits = some c ∧ stepCpu cfg s c = .ok s' := by
  obtain ⟨hsound, hreaches⟩ := Sound.reaches hr
  obtain ⟨ps, hps, hvisits⟩ := hreaches.visits
  cases hc : s.sim.sup.awaits with
  | some c =>
      obtain ⟨s', hs⟩ := awaited_goes hsound (.stepCpu hps hvisits.known) hc (hreaches.awake hc)
      exact .inr ⟨c, s', rfl, hs⟩
  | none =>
      have hsafe : Safe (OsSim.stepSup cfg s.sim) :=
        .stepSup hps hvisits.known (hvisits.requests hprogram)
      exact .inl (stepSup_goes hsound hsafe hexited hc)

/-- While the supervisor waits for a thread, every step of that thread brings it nearer to the
head of its loop. -/
theorem awaits_run {ts : List (Fin n)} (hr : Reaches cfg (start ops current time) s)
    (hs : run cfg (ts.map .cpu) s = .ok s') (hawaits : s'.sim.sup.awaits = some c) :
    s.sim.sup.awaits = some c ∧ ts.count c + s'.rank c ≤ s.rank c := by
  induction ts generalizing s with
  | nil =>
      obtain rfl := Except.ok.inj hs
      refine ⟨hawaits, ?_⟩
      rw [List.count_nil, Nat.zero_add]
  | cons e ts ih =>
      obtain ⟨s₁, hs₁, hrest⟩ := bind_eq_ok hs
      obtain ⟨hafter, hcount⟩ := ih (hr.tail ⟨.cpu e, hs₁⟩) hrest
      obtain ⟨ps, hps⟩ := hr.represents
      obtain ⟨hbefore, hlt⟩ := awaits_stepCpu hps hs₁ hafter
      refine ⟨hbefore, ?_⟩
      rcases eq_or_ne e c with rfl | hne
      · have hlt := hlt rfl
        rw [List.count_cons_self]
        omega
      · rw [List.count_cons_of_ne hne, ← rank_others hps hs₁ hne.symm]
        exact hcount

/-- The supervisor can be brought to its next step, if its wait is not longer than this. -/
theorem supervisor_goes {k : ℕ} (hprogram : ∀ p, p < cfg.processCount → Program (ops p))
    (hr : Reaches cfg (start ops current time) s) (hexited : s.sim.sup ≠ .exited)
    (hawaited : ∀ c, s.sim.sup.awaits = some c → s.rank c < k) :
    ∃ (ts : List (Fin n)) (s₁ s₂ : System n), run cfg (ts.map .cpu) s = .ok s₁ ∧
      step cfg s₁ .sup = .ok s₂ := by
  induction k generalizing s with
  | zero =>
      rcases hr.goes hprogram hexited with ⟨s₂, hs₂⟩ | ⟨c, s₁, hc, -⟩
      · exact ⟨[], s, s₂, rfl, hs₂⟩
      · exact absurd (hawaited c hc) (Nat.not_lt_zero _)
  | succ k ih =>
      rcases hr.goes hprogram hexited with ⟨s₂, hs₂⟩ | ⟨c, s₁, hc, hs₁⟩
      · exact ⟨[], s, s₂, rfl, hs₂⟩
      · obtain ⟨ps, hps⟩ := hr.represents
        -- the step leaves the supervisor in its stage
        have hexited₁ : s₁.sim.sup ≠ .exited := by
          intro hsup
          rw [← OsSim.stage_eq_exited, stage_stepCpu hs₁, OsSim.stage_eq_exited] at hsup
          exact hexited hsup
        have hawaited₁ : ∀ e, s₁.sim.sup.awaits = some e → s₁.rank e < k := by
          intro e he
          obtain ⟨hbefore, hlt⟩ := awaits_stepCpu hps hs₁ he
          obtain rfl := Option.some.inj (hc.symm.trans hbefore)
          exact Nat.lt_of_lt_of_le (hlt rfl) (Nat.le_of_lt_succ (hawaited c hc))
        obtain ⟨ts, s₂, s₃, hs₂, hs₃⟩ := ih (hr.tail ⟨.cpu c, hs₁⟩) hexited₁ hawaited₁
        refine ⟨c :: ts, s₂, s₃, ?_, hs₃⟩
        show (do let s ← stepCpu cfg s c; run cfg (ts.map .cpu) s) = .ok s₂
        rw [hs₁]
        exact hs₂

end Runs

/-- A process that terminates at once, up to the handler. -/
def toTerminate {n : ℕ} (c : Fin n) : List (Turn n) :=
  creation c ++
  -- the supervisor leaves `wake_up`, and `idle` schedules the process
  List.replicate 3 .sup ++ List.replicate 7 (.cpu c) ++
  -- the supervisor prints a line, raises the event and waits
  List.replicate 4 .sup ++
  -- the thread of the CPU locks before it calls `terminate`
  List.replicate 4 (.cpu c)

theorem toTerminate_reaches : ∃ s : System 1,
    Reaches ⟨1, .f, 0⟩ (start (fun _ => [⟨.cpu, 0⟩, ⟨.terminate, 0⟩]) (fun _ => none) fun _ => 0) s ∧
      s.phase (.cpu 0) = .inside ∧ s.sim.sup = .waiting 0 := by
  obtain ⟨s, hs, hphase, hsup⟩ : ∃ s : System 1, run ⟨1, .f, 0⟩ (toTerminate (0 : Fin 1))
      (start (fun _ => [⟨.cpu, 0⟩, ⟨.terminate, 0⟩]) (fun _ => none) fun _ => 0) = .ok s ∧
      s.phase (.cpu 0) = .inside ∧ s.sim.sup = .waiting 0 := ⟨_, rfl, rfl, rfl⟩
  exact ⟨s, reaches_of_run hs, hphase, hsup⟩

/-- **The lock is never contended**, even where its count is wrong: `print_gantt_line` does not
wait, no writer holds the lock while it prints, no two writers hold it at a time, and a handler
holds it only while the supervisor waits for its CPU. -/
theorem lock_uncontended (cfg : Config) (ops : Pid → List OsSim.Op) (current : Fin n → Option Pid)
    (time : Pid → ℕ) (s : System n) (hr : Reaches cfg (start ops current time) s) :
    s.reader ≠ .waiting ∧ (s.reader = .holds → ∀ t, s.phase t ≠ .inside) ∧
      (∀ t u, s.phase t = .inside → s.phase u = .inside → t = u) ∧
      ∀ c, s.phase (.cpu c) = .inside → s.sim.sup.awaits = some c := by
  obtain ⟨hsound, -⟩ := Sound.reaches hr
  refine ⟨hsound.waiting, ?_, ?_, ?_⟩
  · exact fun hholds => hsound.not_inside (hsound.holds hholds)
  · exact fun t u => hsound.eq_of_inside
  · exact fun c hinside => hsound.busy c (.inr (.inl hinside))

/-- A handler runs. -/
theorem lock_uncontended_terminate : ∃ s : System 1, s.phase (.cpu 0) = .inside ∧
    s.reader ≠ .waiting ∧ s.phase .sup ≠ .inside := by
  obtain ⟨s, hr, hphase, -⟩ := toTerminate_reaches
  obtain ⟨hwaiting, -, hone, -⟩ := lock_uncontended _ _ _ _ s hr
  refine ⟨s, hphase, hwaiting, fun hsup => ?_⟩
  cases hone _ _ hphase hsup

/-- **A wait of the supervisor ends.**  It waits for CPUs only; the thread of the CPU is not
blocked, and has signalled it after twelve of its steps, whatever the other threads do. -/
theorem waits_end (cfg : Config) (ops : Pid → List OsSim.Op) (current : Fin n → Option Pid)
    (time : Pid → ℕ) (s : System n) (hr : Reaches cfg (start ops current time) s) (c : Fin n)
    (hawaits : s.sim.sup.awaits = some c) :
    (∃ s', step cfg s (.cpu c) = .ok s') ∧
      ∀ (ts : List (Fin n)) (s' : System n), run cfg (ts.map .cpu) s = .ok s' →
        s'.sim.sup.awaits = some c → ts.count c < 12 := by
  obtain ⟨hsound, hreaches⟩ := Sound.reaches hr
  obtain ⟨ps, hps, hvisits⟩ := hreaches.visits
  have hawake := hreaches.awake hawaits
  refine ⟨awaited_goes hsound (.stepCpu hps hvisits.known) hawaits hawake, ?_⟩
  intro ts s' hs hafter
  have hcount := (awaits_run hr hs hafter).2
  have hrank := rank_le s c
  have hpos := rank_pos ((Sound.reaches (hr.trans (reaches_of_run hs))).2.awake hafter)
  omega

/-- The supervisor waits for the handler. -/
theorem waits_end_terminate : ∃ s : System 1, s.sim.sup = .waiting 0 ∧
    ∀ (ts : List (Fin 1)) (s' : System 1), run ⟨1, .f, 0⟩ (ts.map .cpu) s = .ok s' →
      s'.sim.sup.awaits = some 0 → ts.count 0 < 12 := by
  obtain ⟨s, hr, -, hsup⟩ := toTerminate_reaches
  refine ⟨s, hsup, (waits_end _ _ _ _ s hr 0 ?_).2⟩
  rw [hsup]
  rfl

/-- **The simulator does not deadlock.**  Until the supervisor exits, some steps of the CPU
threads always lead to its next step. -/
theorem never_deadlocks (cfg : Config) (ops : Pid → List OsSim.Op) (current : Fin n → Option Pid)
    (time : Pid → ℕ) (s : System n) (hprogram : ∀ p, p < cfg.processCount → Program (ops p))
    (hr : Reaches cfg (start ops current time) s) (hexited : s.sim.sup ≠ .exited) :
    ∃ (ts : List (Fin n)) (s₁ s₂ : System n), run cfg (ts.map .cpu) s = .ok s₁ ∧
      step cfg s₁ .sup = .ok s₂ :=
  supervisor_goes (k := 13) hprogram hr hexited fun c _ => Nat.lt_succ_of_le (rank_le s c)

/-- The handler returns, and the supervisor goes on. -/
theorem never_deadlocks_terminate : ∃ s : System 1, s.sim.sup = .waiting 0 ∧
    ∃ (ts : List (Fin 1)) (s₁ s₂ : System 1), run ⟨1, .f, 0⟩ (ts.map .cpu) s = .ok s₁ ∧
      step ⟨1, .f, 0⟩ s₁ .sup = .ok s₂ := by
  obtain ⟨s, hr, -, hsup⟩ := toTerminate_reaches
  refine ⟨s, hsup, never_deadlocks _ _ _ _ s (fun p _ => ?_) hr ?_⟩
  · exact .last 0 0
  · rw [hsup]
    exact fun h => by cases h

end StudentLock

end ProjectArchive.Scheduler
