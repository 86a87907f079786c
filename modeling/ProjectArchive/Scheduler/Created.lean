/-
ProjectArchive/Scheduler/Created.lean

Only processes that have been created are in the system.

A process is created by the `wake_up` of `simulate_creat`, every ten units of
time.  Nothing holds a process before that, not the ready queue, a CPU, a thread
or the I/O queue, in no order of the steps (`only_created`); so the assertion of
`context_switch` on its argument never fails.  It is an invariant of the
outline, with what a thread must know when it calls a handler: `current[]` is
not initialized, and `preempt`, `yield` and `terminate` read the entry of their
CPU only after `schedule` has written it.  The loop of `wake_up` reads every
entry; one that has changed since the start holds a process that has been
created.  `simulator_time` is the number of rounds until it wraps around.
-/
import ProjectArchive.Scheduler.Follows

namespace ProjectArchive.Scheduler

namespace OsSim

variable {n N : ℕ}

/-! ### The processes that exist -/

/-- The number of processes created, with the one that `simulate_creat` is waking up. -/
def Outline.born (o : Outline n) : ℕ :=
  match o.stage with
  | .waking _ .simulateCreat | .woke .simulateCreat => o.created + 1
  | _ => o.created

/-- The process that a thread has in a local variable. -/
def ThreadPoint.process : ThreadPoint → Option Pid
  | .pushBack p | .install p => some p
  | .switch pcb _ => pcb
  | _ => none

/-- The thread has been given a process, which a handler finds in `current[]`. -/
def Desk.Serves (d : Desk) : Prop :=
  match d.thread with
  | .waiting | .woken | .count | .preempt | .yield | .terminate => True
  | .dispatch st => st ≠ .idle
  | .top => d.current ≠ none
  | _ => False

/-- A CPU has only processes below `k`. -/
structure Desk.Known (d : Desk) (k : ℕ) : Prop where
  current : ∀ p, d.current = some p → p < k
  thread : ∀ p, d.thread.process = some p → p < k
  executed : d.Serves → ∃ p, d.executed = some p ∧ p < k

/-- Only processes that have been created are in the system, and the others are as they are in
the table; the process `p` is created at the time `10 * p`. -/
structure Outline.Known (N : ℕ) (ops : Pid → List Op) (o : Outline n) : Prop where
  ready : ∀ p ∈ o.ready, p < o.born
  ioQueue : ∀ r ∈ o.ioQueue, r.1 < o.born
  waking : ∀ p caller, o.stage = .waking p caller → p < o.born
  desk : ∀ c, (o.desk c).Known o.born
  time : o.time = toUnsigned o.rounds
  bounded : o.created ≤ N
  created : o.rounds < 2 ^ 32 → o.created = min N ((o.rounds + 9) / 10)
  creating : o.born = o.created + 1 → o.time % 10 = 0 ∧ o.created < N
  untouched : ∀ p, o.born ≤ p → o.ops p = ops p

section Known

variable {ops : Pid → List Op} {o o' : Outline n} {d d' : Desk} {ready ready' : List Pid} {k l : ℕ}

theorem Desk.Known.mono (h : d.Known k) (hkl : k ≤ l) : d.Known l where
  current p hp := Nat.lt_of_lt_of_le (h.current p hp) hkl
  thread p hp := Nat.lt_of_lt_of_le (h.thread p hp) hkl
  executed hd := by
    obtain ⟨p, hp, hlt⟩ := h.executed hd
    exact ⟨p, hp, Nat.lt_of_lt_of_le hlt hkl⟩

/-- A thread that has no process in a local variable. -/
theorem Desk.Known.goto (h : d.Known k) {x : ThreadPoint} (hprocess : x.process = none)
    (hserves : ({ d with thread := x } : Desk).Serves → d.Serves) :
    ({ d with thread := x } : Desk).Known k where
  current := h.current
  thread p hp := by
    rw [show x.process = some p from hp] at hprocess
    cases hprocess
  executed hd := h.executed (hserves hd)

theorem Desk.Known.raise (h : d.Known k) (event : CpuState) : (d.raise event).Known k := by
  unfold Desk.raise Desk.signal
  dsimp only
  split
  · rename_i hwaiting
    have hserves : d.Serves := by
      rw [Desk.Serves, hwaiting]
      trivial
    refine ⟨h.current, fun p hp => ?_, fun _ => h.executed hserves⟩
    cases hp
  · exact ⟨h.current, h.thread, h.executed⟩

/-- **A step of the thread of a CPU.** -/
theorem Desk.Known.step (h : d.Known k) (hready : ∀ p ∈ ready, p < k)
    (hs : d.Step ready d' ready') : d'.Known k ∧ ∀ p ∈ ready', p < k := by
  cases hs with
  | idle hthread hcurrent =>
      refine ⟨⟨h.current, fun p hp => ?_, fun hd => ?_⟩, hready⟩
      · cases hp
      · exact absurd rfl hd
  | run hthread hcurrent =>
      refine ⟨⟨h.current, fun p hp => ?_, fun _ => h.executed ?_⟩, hready⟩
      · cases hp
      · rw [Desk.Serves, hthread]
        show d.current ≠ none
        rw [hcurrent]
        exact Option.some_ne_none _
  | wait hthread _ =>
      refine ⟨h.goto rfl fun _ => ?_, hready⟩
      rw [Desk.Serves, hthread]
      trivial
  | leave hthread _ =>
      refine ⟨h.goto rfl fun _ => ?_, hready⟩
      rw [Desk.Serves, hthread]
      trivial
  | @call st hthread =>
      refine ⟨h.goto ?_ fun hd => ?_, hready⟩
      · cases st <;> rfl
      · rw [Desk.Serves, hthread]
        rintro rfl
        exact hd
  | wake hthread => exact ⟨h.goto rfl fun hd => hd.elim, hready⟩
  | pop hthread =>
      -- the head of the ready queue becomes the local variable
      refine ⟨⟨h.current, fun p hp => ?_, fun hd => hd.elim⟩, fun p hp => ?_⟩
      · exact hready p (List.mem_of_mem_head? hp)
      · exact hready p (List.mem_of_mem_tail hp)
  | @switch pcb _ hthread =>
      -- the argument of `context_switch` is the local variable
      have hpcb : ∀ p, pcb = some p → p < k := by
        intro p hp
        refine h.thread p ?_
        rw [hthread]
        exact hp
      cases pcb with
      | none =>
          refine ⟨⟨fun p hp => ?_, fun p hp => ?_, fun hd => ?_⟩, hready⟩
          · cases hp
          · cases hp
          · exact absurd rfl hd
      | some q => exact ⟨⟨hpcb, hpcb, fun hd => hd.elim⟩, hready⟩
  | @install p hthread =>
      -- from now on the thread serves the process
      refine ⟨⟨h.current, fun q hq => ?_, fun _ => ⟨p, rfl, h.thread p ?_⟩⟩, hready⟩
      · cases hq
      · rw [hthread]
        rfl
  | @preempt p hthread hexecuted =>
      -- the entry of `current[]` is read, which the thread serves
      have hserves : d.Serves := by
        rw [Desk.Serves, hthread]
        trivial
      obtain ⟨q, hq, hlt⟩ := h.executed hserves
      obtain rfl : p = q := Option.some.inj (hexecuted.symm.trans hq)
      refine ⟨⟨h.current, fun r hr => ?_, fun hd => hd.elim⟩, hready⟩
      obtain rfl := Option.some.inj hr
      exact hlt
  | @pushBack p _ hthread hperm =>
      refine ⟨h.goto rfl fun hd => hd.elim, fun q hq => ?_⟩
      rcases List.mem_cons.mp (hperm.mem_iff.mp hq) with rfl | hmem
      · refine h.thread q ?_
        rw [hthread]
        rfl
      · exact hready q hmem
  | release _ => exact ⟨h.goto rfl fun hd => hd.elim, hready⟩

/-- A CPU is written, and it has only known processes still. -/
theorem Outline.Known.setDesk (h : o.Known N ops) {c : Fin n} (hd : d.Known o.born) (e : Fin n) :
    ((o.setDesk c d).desk e).Known o.born := by
  rcases eq_or_ne e c with rfl | hne
  · rw [setDesk_desk_self]
    exact hd
  · rw [setDesk_desk_ne o hne]
    exact h.desk e

/-- A step that creates no process. -/
theorem Outline.Known.kept (h : o.Known N ops) (hborn : o'.born = o.born)
    (hready : ∀ p ∈ o'.ready, p < o.born) (hqueue : ∀ r ∈ o'.ioQueue, r.1 < o.born)
    (hwaking : ∀ p caller, o'.stage = .waking p caller → p < o.born)
    (hdesk : ∀ c, (o'.desk c).Known o.born) (hcreated : o'.created = o.created)
    (htime : o'.time = o.time) (hrounds : o'.rounds = o.rounds)
    (hops : ∀ p, o.born ≤ p → o'.ops p = o.ops p) : o'.Known N ops where
  ready := by rwa [hborn]
  ioQueue := by rwa [hborn]
  waking := by rwa [hborn]
  desk := by rwa [hborn]
  time := by rw [htime, hrounds, h.time]
  bounded := by
    rw [hcreated]
    exact h.bounded
  created := by
    rw [hcreated, hrounds]
    exact h.created
  creating := by
    rw [hborn, hcreated, htime]
    exact h.creating
  untouched p hp := by
    rw [hborn] at hp
    rw [hops p hp, h.untouched p hp]

/-- The supervisor goes on to another stage, outside `wake_up`. -/
theorem Outline.Known.goto (h : o.Known N ops) {s : Stage}
    (hborn : ({ o with stage := s } : Outline n).born = o.born)
    (hwaking : ∀ p caller, s ≠ .waking p caller) :
    ({ o with stage := s } : Outline n).Known N ops :=
  h.kept hborn h.ready h.ioQueue (fun p caller hp => absurd hp (hwaking p caller))
    h.desk rfl rfl rfl fun _ _ => rfl

/-- `simulate_process` works on a known process. -/
theorem Outline.Known.works (h : o.Known N ops) {c : Fin n} {p : Pid} {l : List Op}
    {queue : List (Pid × ℕ)} {k : ℕ} (hborn : o.born = o.created) (hp : p < o.born)
    (hd : d.Known o.born) (hqueue : ∀ r ∈ queue, r.1 < o.born) :
    ({ o.setDesk c d with
      ops := Function.update o.ops p l, ioQueue := queue, stage := .cpus k } : Outline n).Known
        N ops := by
  refine h.kept hborn.symm h.ready hqueue ?_ (h.setDesk hd) rfl rfl rfl ?_
  · intro q caller hq
    cases hq
  · intro q hq
    refine Function.update_of_ne ?_ ..
    rintro rfl
    exact Nat.not_le_of_lt hp hq

/-- **Every step keeps the processes known.** -/
theorem Outline.Known.next (h : o.Known N ops) (hn : Next N o o') : o'.Known N ops := by
  cases hn with
  | still => exact h
  | thread hd =>
      obtain ⟨hdesk, hready⟩ := (h.desk _).step h.ready hd
      exact h.kept rfl hready h.ioQueue h.waking (h.setDesk hdesk) rfl rfl rfl fun _ _ => rfl
  | @count c hthread =>
      have hserves : (o.desk c).Serves := by
        rw [Desk.Serves, hthread]
        trivial
      exact h.kept rfl h.ready h.ioQueue h.waking
        (h.setDesk ((h.desk c).goto rfl fun _ => hserves)) rfl rfl rfl fun _ _ => rfl
  | exit hstage _ =>
      refine h.goto ?_ ?_
      · simp [Outline.born, hstage]
      · simp
  | round hstage _ =>
      refine h.goto ?_ ?_
      · simp [Outline.born, hstage]
      · simp
  | pass hstage _ =>
      refine h.goto ?_ ?_
      · simp [Outline.born, hstage]
      · simp
  | @tick c p _ _ d hstage hcurrent _ hd =>
      refine h.works ?_ ((h.desk c).current p hcurrent) ?_ h.ioQueue
      · simp [Outline.born, hstage]
      · rcases hd with rfl | rfl
        · exact h.desk c
        · exact (h.desk c).raise _
  | @request c p time _ hstage hcurrent _ =>
      have hp := (h.desk c).current p hcurrent
      refine h.works ?_ hp ((h.desk c).raise _) ?_
      · simp [Outline.born, hstage]
      · intro r hr
        rcases List.mem_append.mp hr with hr | hr
        · exact h.ioQueue r hr
        · obtain rfl := List.mem_singleton.mp hr
          exact hp
  | @finish c p _ _ hstage hcurrent _ =>
      refine h.works ?_ ((h.desk c).current p hcurrent) ((h.desk c).raise _) h.ioQueue
      simp [Outline.born, hstage]
  | @burst c p time rest hstage hcurrent _ =>
      have hsame : ({ o with
          ops := Function.update o.ops p (⟨.cpu, time⟩ :: rest), stage := .cpus (c + 1) } :
          Outline n) = { o.setDesk c (o.desk c) with
            ops := Function.update o.ops p (⟨.cpu, time⟩ :: rest), stage := .cpus (c + 1) } := by
        rw [setDesk_self]
      rw [hsame]
      refine h.works ?_ ((h.desk c).current p hcurrent) (h.desk c) h.ioQueue
      simp [Outline.born, hstage]
  | device hstage _ =>
      refine h.goto ?_ ?_
      · simp [Outline.born, hstage]
      · simp
  | free hstage _ =>
      refine h.goto ?_ ?_
      · simp [Outline.born, hstage]
      · simp
  | @serve p time queue hstage hqueue =>
      refine h.kept ?_ h.ready ?_ ?_ h.desk rfl rfl rfl fun _ _ => rfl
      · simp [Outline.born, hstage]
      · intro r hr
        -- the process of the request is the same
        rcases List.mem_cons.mp hr with rfl | hr
        · exact h.ioQueue (p, time + 1) (hqueue ▸ List.mem_cons_self)
        · exact h.ioQueue r (hqueue ▸ List.mem_cons_of_mem _ hr)
      · intro q caller hq
        cases hq
  | @complete p queue _ _ _ hstage hqueue _ =>
      have hp : p < o.born := h.ioQueue (p, 0) (hqueue ▸ List.mem_cons_self)
      refine h.kept ?_ h.ready ?_ ?_ h.desk rfl rfl rfl ?_
      · simp [Outline.born, hstage]
      · intro r hr
        exact h.ioQueue r (hqueue ▸ List.mem_cons_of_mem _ hr)
      · intro q caller hq
        cases hq
        exact hp
      · intro q hq
        refine Function.update_of_ne ?_ ..
        rintro rfl
        exact Nat.not_le_of_lt hp hq
  | create hstage htime hleft =>
      have hborn : o.born = o.created := by simp [Outline.born, hstage]
      have hmono : ∀ {p}, p < o.born → p < o.created + 1 := fun hp => by omega
      exact {
        ready := fun p hp => hmono (h.ready p hp)
        ioQueue := fun r hr => hmono (h.ioQueue r hr)
        waking := fun p caller hp => by
          cases hp
          exact Nat.lt_succ_self _
        desk := fun c => (h.desk c).mono (by rw [hborn]; exact Nat.le_succ _)
        time := h.time
        bounded := h.bounded
        created := h.created
        creating := fun _ => ⟨htime, hleft⟩
        untouched := fun p hp => h.untouched p (by rw [hborn]; exact Nat.le_of_succ_le hp) }
  | advance hstage hnone =>
      have hborn : o.born = o.created := by simp [Outline.born, hstage]
      exact {
        ready := fun p hp => hborn ▸ h.ready p hp
        ioQueue := fun r hr => hborn ▸ h.ioQueue r hr
        waking := fun p caller hp => by cases hp
        desk := fun c => hborn ▸ h.desk c
        time := by
          show toUnsigned (o.time + 1) = toUnsigned (o.rounds + 1)
          rw [h.time, toUnsigned_succ]
        bounded := h.bounded
        created := fun hlt => by
          have hlt : o.rounds < 2 ^ 32 := Nat.lt_of_succ_lt hlt
          have hcreated := h.created hlt
          rw [h.time, toUnsigned_of_lt hlt] at hnone
          show o.created = min N ((o.rounds + 1 + 9) / 10)
          omega
        creating := fun hlt => absurd hlt (Nat.succ_ne_self _).symm
        untouched := fun p hp => h.untouched p (hborn.symm ▸ hp) }
  | @push p caller ready hstage hready =>
      refine h.kept ?_ ?_ h.ioQueue ?_ h.desk rfl rfl rfl fun _ _ => rfl
      · cases caller with
        | simulateIo => simp [Outline.born, hstage]
        | simulateCreat => simp [Outline.born, hstage]
      · intro q hq
        rcases List.mem_cons.mp (hready.mem_iff.mp hq) with rfl | hmem
        · exact h.waking q caller hstage
        · exact h.ready q hmem
      · intro q caller hq
        cases hq
  | @force c caller hstage _ =>
      exact h.kept rfl h.ready h.ioQueue h.waking (h.setDesk ((h.desk c).raise _)) rfl rfl rfl
        fun _ _ => rfl
  | completed hstage =>
      refine h.goto ?_ ?_
      · simp [Outline.born, hstage]
      · simp
  | created hstage =>
      have hborn : o.born = o.created + 1 := by simp [Outline.born, hstage]
      obtain ⟨htime, hleft⟩ := h.creating hborn
      exact {
        ready := fun p hp => hborn ▸ h.ready p hp
        ioQueue := fun r hr => hborn ▸ h.ioQueue r hr
        waking := fun p caller hp => by cases hp
        desk := fun c => hborn ▸ h.desk c
        time := by
          show toUnsigned (o.time + 1) = toUnsigned (o.rounds + 1)
          rw [h.time, toUnsigned_succ]
        bounded := hleft
        created := fun hlt => by
          have hlt : o.rounds < 2 ^ 32 := Nat.lt_of_succ_lt hlt
          have hcreated := h.created hlt
          rw [h.time, toUnsigned_of_lt hlt] at htime
          show o.created + 1 = min N ((o.rounds + 1 + 9) / 10)
          omega
        creating := fun hlt => absurd hlt (Nat.succ_ne_self _).symm
        untouched := fun p hp => h.untouched p (hborn.symm ▸ hp) }

theorem Outline.Known.begin_ (ops : Pid → List Op) (current : Fin n → Option Pid) :
    (begin_ ops current).Known N ops where
  ready p hp := by cases hp
  ioQueue r hr := by cases hr
  waking p caller hp := by cases hp
  desk c := {
    current := fun p hp => by cases hp
    thread := fun p hp => by cases hp
    executed := fun hd => absurd rfl hd }
  time := rfl
  bounded := Nat.zero_le N
  created _ := by
    show 0 = min N ((0 + 9) / 10)
    omega
  creating h := absurd h (Nat.succ_ne_self _).symm
  untouched _ _ := rfl

theorem Visits.known {current : Fin n → Option Pid} (h : Visits N ops current o) :
    o.Known N ops :=
  h.invariant (Outline.Known N ops) (.begin_ ops current) fun _ _ => Outline.Known.next

/-- A step of a thread writes no other entry of `current[]`, and its own with its process. -/
theorem Desk.Step.executed (h : d.Step ready d' ready') :
    d'.executed = d.executed ∨ d'.executed = d.thread.process := by
  cases h with
  | install hthread =>
      right
      rw [hthread]
      rfl
  | _ => exact .inl rfl

theorem setDesk_executed (c : Fin n) (hd : d.executed = (o.desk c).executed) (e : Fin n) :
    ((o.setDesk c d).desk e).executed = (o.desk e).executed := by
  rcases eq_or_ne e c with rfl | hne
  · rw [setDesk_desk_self, hd]
  · rw [setDesk_desk_ne o hne]

theorem Next.executed (hn : Next N o o') (e : Fin n) :
    (o'.desk e).executed = (o.desk e).executed ∨
      (o'.desk e).executed = (o.desk e).thread.process := by
  cases hn with
  | @thread c d _ hd =>
      show ((o.setDesk c d).desk e).executed = _ ∨ ((o.setDesk c d).desk e).executed = _
      rcases eq_or_ne e c with rfl | hne
      · rw [setDesk_desk_self]
        exact hd.executed
      · rw [setDesk_desk_ne o hne]
        exact .inl rfl
  -- the other steps write to a CPU, but not to `current[]`
  | @count c _ =>
      exact .inl (setDesk_executed c (d := { o.desk c with thread := .terminate }) rfl e)
  | @tick c _ _ _ _ _ _ _ hd =>
      left
      rcases hd with rfl | rfl
      · exact setDesk_executed c (d := o.desk c) rfl e
      · exact setDesk_executed c (d := (o.desk c).raise .preempt) rfl e
  | @request c _ _ _ _ _ _ => exact .inl (setDesk_executed c (d := (o.desk c).raise .yield) rfl e)
  | @finish c _ _ _ _ _ _ =>
      exact .inl (setDesk_executed c (d := (o.desk c).raise .terminate) rfl e)
  | @force c _ _ _ => exact .inl (setDesk_executed c (d := (o.desk c).raise .preempt) rfl e)
  | _ => exact .inl rfl

/-- No process is taken away. -/
theorem Next.born_le (hn : Next N o o') : o.born ≤ o'.born := by
  cases hn with
  | still => exact Nat.le_refl _
  | thread _ => exact Nat.le_refl _
  | count _ => exact Nat.le_refl _
  | force _ _ => exact Nat.le_refl _
  | @push p caller _ hstage _ =>
      cases caller with
      | simulateIo => simp [Outline.born, hstage]
      | simulateCreat => simp [Outline.born, hstage]
  -- the supervisor goes from one stage to another
  | _ => simp [Outline.born, Outline.setDesk, *]

/-- An entry of `current[]` is what it was at the start, or a process that has been created. -/
def Outline.Written (current : Fin n → Option Pid) (o : Outline n) : Prop :=
  ∀ c p, (o.desk c).executed = some p → current c = some p ∨ p < o.born

theorem Visits.written {current : Fin n → Option Pid} (h : Visits N ops current o) :
    o.Written current := by
  induction h with
  | refl => exact fun c p hp => .inl hp
  | tail hvisits hnext ih =>
      intro c p hp
      rcases hnext.executed c with hsame | hprocess
      · rcases ih c p (hsame.symm.trans hp) with hstart | hlt
        · exact .inl hstart
        · exact .inr (Nat.lt_of_lt_of_le hlt hnext.born_le)
      · -- the process comes from a local variable of the thread
        have hlt := ((Visits.known hvisits).desk c).thread p (hprocess.symm.trans hp)
        exact .inr (Nat.lt_of_lt_of_le hlt hnext.born_le)

theorem Outline.Known.born_le (h : o.Known N ops) : o.born ≤ N := by
  have hborn : o.born = o.created ∨ o.born = o.created + 1 := by
    unfold Outline.born
    split
    · exact .inr rfl
    · exact .inr rfl
    · exact .inl rfl
  rcases hborn with hborn | hborn
  · rw [hborn]
    exact h.bounded
  · rw [hborn]
    exact (h.creating hborn).2

end Known

/-! ### The simulator -/

/-- The number of processes created, with the one that `simulate_creat` is waking up. -/
def Sim.born (s : Sim n) : ℕ :=
  match s.sup with
  | .wakeUp _ _ .simulateCreat | .relock .simulateCreat => s.processesCreated + 1
  | _ => s.processesCreated

/-- Where a process can be, if `current[]` was `current` at the start. -/
inductive Sim.Holds (current : Fin n → Option Pid) (s : Sim n) (p : Pid) : Prop
  | ready (h : p ∈ s.student.readyQueue.contents)
  | ioQueue (time : ℕ) (h : (p, time) ∈ s.ioQueue)
  | waking (caller : Caller) (h : s.sup = .wakeUp p .push caller)
  | current (c : Fin n) (h : (s.cpu c).current = some p)
  /-- In a local variable of a handler, or the argument of `context_switch`. -/
  | thread (c : Fin n) (h : (s.thread c).process = some p)
  /-- In `current[]`, and `preempt`, `yield` or `terminate` reads it. -/
  | executed (c : Fin n) (h : s.student.current c = some p)
      (hthread : s.thread c = .preempt ∨ s.thread c = .yield ∨ s.thread c = .terminate)
  /-- In `current[]`, but not at the start; the loop of `wake_up` reads every entry. -/
  | written (c : Fin n) (h : s.student.current c = some p) (hstart : current c ≠ some p)

theorem born_outline (s : Sim n) (ps : List Pid) : (s.outline ps).born = s.born := by
  unfold Outline.born Sim.born Sim.outline
  dsimp only
  rcases s.sup with _ | _ | _ | _ | _ | _ | ⟨p, point, caller⟩ | caller | _
  all_goals try rfl
  · cases point <;> cases caller <;> rfl
  · cases caller <;> rfl

/-- A thread at the start of a handler has been given a process. -/
theorem serves_of_handler {s : Sim n} {ps : List Pid} {c : Fin n}
    (hthread : s.thread c = .preempt ∨ s.thread c = .yield ∨ s.thread c = .terminate) :
    ((s.outline ps).desk c).Serves := by
  show ({ (s.outline ps).desk c with thread := s.thread c } : Desk).Serves
  rcases hthread with hthread | hthread | hthread
  · rw [hthread]
    trivial
  · rw [hthread]
    trivial
  · rw [hthread]
    trivial

theorem Outline.Known.holds {s : Sim n} {ps : List Pid} {ops : Pid → List Op}
    {current : Fin n → Option Pid} {p : Pid} (h : (s.outline ps).Known N ops)
    (hwritten : (s.outline ps).Written current) (hps : Represents s.student.readyQueue ps)
    (hp : s.Holds current p) : p < s.born := by
  rw [← born_outline s ps]
  cases hp with
  | ready hmem =>
      rw [hps.contents] at hmem
      exact h.ready p hmem
  | ioQueue time hmem => exact h.ioQueue (p, time) hmem
  | waking caller hsup => exact h.waking p caller (congrArg SupPoint.stage hsup)
  | current c hc => exact (h.desk c).current p hc
  | thread c hc => exact (h.desk c).thread p hc
  | executed c hc hthread =>
      obtain ⟨q, hq, hlt⟩ := (h.desk c).executed (serves_of_handler hthread)
      obtain rfl : p = q := Option.some.inj (hc.symm.trans hq)
      exact hlt
  | written c hc hstart =>
      rcases hwritten c p hc with hsame | hlt
      · exact absurd hsame hstart
      · exact hlt

/-- `simulator_time` is the number of rounds, as an `unsigned int`. -/
theorem simulatorTime_eq {cfg : Config} {ops : Pid → List Op} {current : Fin n → Option Pid}
    {time : Pid → ℕ} {s : Sim n} (hr : Reaches cfg (start ops current time) s) :
    s.simulatorTime = toUnsigned s.rounds := by
  obtain ⟨ps, -, hvisits⟩ := hr.visits
  exact hvisits.known.time

/-- **Only processes that have been created are in the system**, the process `p` is created at
the time `10 * p`, and until then it is as it is in the table. -/
theorem only_created (cfg : Config) (ops : Pid → List Op) (current : Fin n → Option Pid)
    (time : Pid → ℕ) (s : Sim n) (hr : Reaches cfg (start ops current time) s) :
    (s.rounds < 2 ^ 32 → s.simulatorTime = s.rounds ∧
        s.processesCreated = min cfg.processCount ((s.simulatorTime + 9) / 10)) ∧
      s.born ≤ cfg.processCount ∧ (∀ p, s.Holds current p → p < s.born) ∧
      ∀ p, s.born ≤ p → s.ops p = ops p := by
  obtain ⟨ps, hps, hvisits⟩ := hr.visits
  have hknown := hvisits.known
  have hborn := hknown.born_le
  have huntouched := hknown.untouched
  rw [born_outline] at hborn huntouched
  refine ⟨fun hlt => ?_, hborn, fun p hp => hknown.holds hvisits.written hps hp, huntouched⟩
  have htime : s.simulatorTime = s.rounds := by
    rw [simulatorTime_eq hr, toUnsigned_of_lt hlt]
  rw [htime]
  exact ⟨rfl, hknown.created hlt⟩

/-- One CPU and one of two processes, which is executed. -/
theorem only_created_first : ∃ s : Sim 1, (s.cpu 0).current = some 0 ∧ s.born = 1 ∧
    ∀ p, s.Holds (fun _ => none) p → p < s.born := by
  obtain ⟨s, hs, hcurrent, hborn⟩ : ∃ s : Sim 1, run ⟨2, .l, 0⟩ (firstBurst 0)
      (start (fun _ => [⟨.cpu, 2⟩, ⟨.terminate, 0⟩]) (fun _ => none) fun _ => 2) = .ok s ∧
      (s.cpu 0).current = some 0 ∧ s.born = 1 := by
    refine ⟨_, rfl, rfl, ?_⟩
    rfl
  exact ⟨s, hcurrent, hborn, (only_created _ _ _ _ s (reaches_of_run hs)).2.2.1⟩

end OsSim

end ProjectArchive.Scheduler
