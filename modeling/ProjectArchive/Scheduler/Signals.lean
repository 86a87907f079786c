/-
ProjectArchive/Scheduler/Signals.lean

No process is stranded in the ready queue while a CPU sleeps in `idle`.

`idle` waits for `idle_cond` as long as the ready queue is empty, and `wake_up`
signals it, after the push and outside of the mutex.  `preempt` pushes without
a signal, and a thread that has been signalled may find that its process has
been popped by another CPU; it waits again then.  The system is that of
`Places`, with what happens at `idle_cond`.  The invariant counts: as long as
some thread is blocked, there are not more processes in the queue than threads
that are about to pop one and calls of `wake_up` that are about to signal.  A
pop takes one of both; a push adds one of both.
-/
import ProjectArchive.Scheduler.Places

namespace ProjectArchive.Scheduler

open Exec

/-! ### The balance of the ready queue -/

namespace Places

open Counting (countP_set)

variable {n : ℕ} {s s' : System n} {mode : Mode} {c : Fin n} {x : CpuPoint}

/-- The number of processes in the ready queue. -/
def System.length (s : System n) : ℕ := s.student.readyQueue.contents.length

/-- The number of calls of `wake_up` that have pushed and have not signalled. -/
def System.signals (s : System n) : ℕ := s.wakes.countP fun w => w.point ≠ .push

/-- The step is about `idle_cond`. -/
def System.usesCond (s : System n) : Action n → Bool
  | .idle _ => true
  | .wakeUp k =>
      match s.wakes[k]? with
      | some ⟨_, .signal⟩ => true
      | _ => false
  | _ => false

theorem signal_of_usesCond {k : ℕ} (h : s.usesCond (.wakeUp k) = true) :
    ∃ p, s.wakes[k]? = some ⟨p, .signal⟩ := by
  rw [System.usesCond] at h
  split at h
  · exact ⟨_, ‹_›⟩
  · cases h

/-- A thread that is not in `idle` goes on, and if the queue grows, the thread goes to its
pop; or a call of `wake_up` goes on, and if the queue grows, the call goes to its signal. -/
inductive Balanced (s s' : System n) : Prop
  | thread (c : Fin n) (x : CpuPoint) (hc : s.cpu c ≠ .idle)
      (hcpu : s'.cpu = Function.update s.cpu c x) (hwakes : s'.wakes = s.wakes)
      (hlength : s'.length = 0 ∨
        s'.length + one (s.cpu c = .schedule) ≤ s.length + one (x = .schedule))
  | wake (hcpu : s'.cpu = s.cpu) (hlength : s'.length + s.signals ≤ s.length + s'.signals)

/-- A thread goes on, and leaves the queue alone. -/
theorem Balanced.goto {s₁ : System n} (hc : s.cpu c ≠ .idle ∧ s.cpu c ≠ .schedule)
    (hlength : s₁.length = s.length) (hcpu : s₁.cpu = s.cpu) (hwakes : s₁.wakes = s.wakes) :
    Balanced s (s₁.goto c x) := by
  refine .thread c x hc.1 ?_ hwakes (.inr ?_)
  · show Function.update s₁.cpu c x = _
    rw [hcpu]
  · show s₁.length + _ ≤ _
    rw [hlength, one, if_neg hc.2]
    exact Nat.add_le_add_left (Nat.zero_le _) _

/-- A call of `wake_up` goes on. -/
theorem Balanced.call {k : ℕ} {w w' : Wake n} (hk : s.wakes[k]? = some w) (hw' : w'.point ≠ .push)
    (hcpu : s'.cpu = s.cpu) (hwakes : s'.wakes = s.wakes.set k w')
    (hlength : s'.length ≤ s.length + one (w.point = .push)) : Balanced s s' := by
  refine .wake hcpu ?_
  have hcount := countP_set (P := fun w : Wake n => w.point ≠ .push) hk w'
  rw [← hwakes, Counting.one_true hw'] at hcount
  show s'.length + s.wakes.countP (fun w => w.point ≠ .push) ≤
    s.length + s'.wakes.countP (fun w => w.point ≠ .push)
  by_cases hpush : w.point = .push
  · rw [one, if_pos hpush] at hlength
    rw [Counting.one_false (not_not_intro hpush)] at hcount
    omega
  · rw [one, if_neg hpush] at hlength
    rw [Counting.one_true hpush] at hcount
    omega

/-- The simulator calls `wake_up`. -/
theorem Balanced.callWakeUp (p : Pid) (life : Pid → Life) :
    Balanced s { s with life := life, wakes := s.wakes ++ [⟨p, .push⟩] } := by
  refine .wake rfl ?_
  show s.length + s.signals ≤ s.length + List.countP _ (s.wakes ++ [⟨p, .push⟩])
  rw [List.countP_append]
  exact Nat.add_le_add_left (Nat.le_add_right _ _) _

/-- **Every step that is not about `idle_cond` keeps the balance.** -/
theorem step_balanced (hi : Inv s) {a : Action n} (ha : s.usesCond a = false)
    (hstep : step mode s a = .ok s') : Balanced s s' := by
  cases hi.does_of_step hstep with
  | idle hc => cases ha
  | @scheduleIdle c queue hc hps hq =>
      refine .thread c _ (by rw [hc]; simp) rfl rfl (.inl ?_)
      show queue.contents.length = 0
      rw [hq.contents]
      rfl
  | @schedule c p ps queue hc hps hq =>
      refine .thread c _ (by rw [hc]; simp) rfl rfl (.inr ?_)
      show queue.contents.length + _ ≤ s.student.readyQueue.contents.length + _
      rw [hq.contents, hps.contents, hc, one, if_pos rfl]
      exact Nat.le_add_right _ _
  | pass hc => exact .goto hc.busy rfl rfl rfl
  | setCurrent hc => exact .goto (by rw [hc]; simp) rfl rfl rfl
  | leave hc => exact .goto (CpuPoint.busy_of_installed hc.installed.1) rfl rfl rfl
  | mark hc => exact .goto (CpuPoint.busy_of_installed hc.installed) rfl rfl rfl
  | @pushBack c p ps queue hc hps hq =>
      refine .thread c .schedule (by rw [hc]; simp) rfl rfl (.inr ?_)
      show queue.contents.length + _ ≤ s.student.readyQueue.contents.length + _
      rw [hq.contents, (orderedInsert_perm ..).length_eq, List.length_cons, hps.contents, hc]
      exact Nat.le_refl _
  | callWakeUp hp => exact .callWakeUp _ _
  | @wakePush k p point ps queue hk hpoint hps hq =>
      refine .call hk hpoint rfl rfl ?_
      show queue.contents.length ≤ s.student.readyQueue.contents.length + 1
      rw [hq.contents, (Student.pushed_perm ..).length_eq, List.length_cons, hps.contents]
  | wakeRest hk hw hw' => exact .call hk hw' rfl rfl (Nat.le_add_right _ _)
  | wakeReturn hk =>
      rw [System.usesCond, hk] at ha
      cases ha
  | tick time => exact .wake rfl (Nat.le_refl _)

end Places

namespace Signals

open Places (CpuPoint Stop)
open Counting (one number number_update)

/-! ### The system with `idle_cond` -/

/-- Where a thread is in `idle`: before the test of the queue, blocked in
`pthread_cond_wait`, or signalled, before it tests the queue again. -/
inductive Wait
  | testing | blocked | signalled
  deriving DecidableEq, Repr

/-- The system of `Places`, and the threads at `idle_cond`. -/
structure System (n : ℕ) where
  places : Places.System n
  wait : Fin n → Wait

/-- The section of `idle`, a signal of a call of `wake_up` with the thread that it wakes,
and the other steps. -/
inductive Action (n : ℕ)
  | idle (cpu : Fin n)
  | signal (k : ℕ) (woken : Option (Fin n))
  | other (action : Places.Action n)

variable {n : ℕ}

/-- The thread is blocked in `idle`, and has not been signalled. -/
def Blocked (s : System n) (c : Fin n) : Prop := s.places.cpu c = .idle ∧ s.wait c = .blocked

instance (s : System n) (c : Fin n) : Decidable (Blocked s c) :=
  inferInstanceAs (Decidable (_ ∧ _))

/-- A signal wakes one thread that is blocked, if there is one. -/
def Wakes (s : System n) : Option (Fin n) → Prop
  | some c => Blocked s c
  | none => ∀ c, ¬Blocked s c

instance (s : System n) : DecidablePred (Wakes s)
  | some c => inferInstanceAs (Decidable (Blocked s c))
  | none => inferInstanceAs (Decidable (∀ c, ¬Blocked s c))

/-- `idle_cond` after the signal. -/
def wake (wait : Fin n → Wait) : Option (Fin n) → Fin n → Wait
  | some c => Function.update wait c .signalled
  | none => wait

/-- One step. -/
def step (mode : Mode) (s : System n) : Action n → Except Stop (System n)
  | .idle c =>
      if s.places.cpu c = .idle ∧ s.wait c ≠ .blocked then
        if s.places.student.isEmpty then
          -- `pthread_cond_wait`
          .ok { s with wait := Function.update s.wait c .blocked }
        else do
          let places ← Places.step mode s.places (.idle c)
          return ⟨places, Function.update s.wait c .testing⟩
      else .error .disabled
  | .signal k woken =>
      if s.places.usesCond (.wakeUp k) ∧ Wakes s woken then do
        let places ← Places.step mode s.places (.wakeUp k)
        return ⟨places, wake s.wait woken⟩
      else .error .disabled
  | .other a =>
      if s.places.usesCond a then .error .disabled
      else do
        let places ← Places.step mode s.places a
        return { s with places := places }

/-- The state in which the simulator starts the CPU threads. -/
def start (current : Fin n → Option Pid) (timeRemaining : Pid → ℕ) : System n where
  places := Places.start current timeRemaining
  wait := fun _ => .testing

/-- Some steps. -/
def Reaches (mode : Mode) : System n → System n → Prop :=
  Relation.ReflTransGen fun s s' => ∃ a, step mode s a = .ok s'

/-! ### Pops and signals to come -/

/-- The thread is in `preempt`, `yield` or `terminate` and has not popped, or it is in
`idle`, signalled or past the test, and has not popped. -/
def Pops : CpuPoint × Wait → Prop
  | (.preempt _, _) | (.pushBack _ _, _) | (.yield _, _) | (.terminate _, _) | (.schedule, _) => True
  | (.idle, .signalled) => True
  | _ => False

instance : DecidablePred Pops := fun x => by
  unfold Pops
  split <;> infer_instance

/-- The point of a thread. -/
def System.point (s : System n) (c : Fin n) : CpuPoint × Wait := (s.places.cpu c, s.wait c)

/-- The pops that are to come. -/
def System.pops (s : System n) : ℕ := number Pops s.point

/-- The signals that are to come. -/
def System.signals (s : System n) : ℕ := s.places.signals

/-! ### The invariant -/

/-- The next section of the thread is its pop, or a test of the queue after a signal. -/
def PopsNext (x : CpuPoint × Wait) : Prop := x.1 = .schedule ∨ x = (.idle, .signalled)

instance : DecidablePred PopsNext := fun _ => inferInstanceAs (Decidable (_ ∨ _))

theorem PopsNext.pops {x : CpuPoint × Wait} (h : PopsNext x) : Pops x := by
  obtain ⟨point, wait⟩ := x
  rcases h with h | h
  · obtain rfl : point = .schedule := h
    trivial
  · obtain ⟨rfl, rfl⟩ := Prod.mk.inj h
    trivial

/-- The invariant.  Threads outside of `idle` are not at `idle_cond`; and if a thread is
blocked, every process in the queue has a pop or a signal to come. -/
structure Inv (s : System n) : Prop where
  places : Places.Inv s.places
  testing : ∀ c, s.places.cpu c ≠ .idle → s.wait c = .testing
  enough : (∃ c, Blocked s c) → s.places.length ≤ number PopsNext s.point + s.signals

section Steps

variable {mode : Mode} {s s' : System n} {c : Fin n}

/-- The points after a thread has moved. -/
theorem point_update {places : Places.System n} {wait : Fin n → Wait} {x : CpuPoint} {w : Wait}
    (hcpu : places.cpu = Function.update s.places.cpu c x)
    (hwait : wait = Function.update s.wait c w) :
    System.point ⟨places, wait⟩ = Function.update s.point c (x, w) := by
  funext d
  show (places.cpu d, wait d) = Function.update (fun e => (s.places.cpu e, s.wait e)) c (x, w) d
  rw [hcpu, hwait]
  rcases eq_or_ne d c with rfl | hd
  · rw [Function.update_self, Function.update_self, Function.update_self]
  · rw [Function.update_of_ne hd, Function.update_of_ne hd, Function.update_of_ne hd]

/-- A step of `Places` that is not about `idle_cond`. -/
theorem Inv.other (h : Inv s) {places : Places.System n} {a : Places.Action n}
    (ha : s.places.usesCond a = false) (hstep : Places.step mode s.places a = .ok places) :
    Inv { s with places := places } := by
  have hplaces : Places.Inv places := h.places.reaches (.single ⟨a, hstep⟩)
  cases Places.step_balanced h.places ha hstep with
  | thread c x hc hcpu hwakes hlength =>
      have hwait : s.wait c = .testing := h.testing c hc
      have hpoint : System.point { s with places := places } =
          Function.update s.point c (x, .testing) := by
        apply point_update hcpu
        rw [← hwait, Function.update_eq_self]
      refine ⟨hplaces, ?_, ?_⟩
      · intro d hd
        have hd : places.cpu d ≠ .idle := hd
        rw [hcpu] at hd
        rcases eq_or_ne d c with rfl | hne
        · exact hwait
        · rw [Function.update_of_ne hne] at hd
          exact h.testing d hd
      · rintro ⟨d, hd⟩
        -- the thread that moves is not the one that is blocked
        have hne : d ≠ c := by
          rintro rfl
          have hblocked : s.wait d = .blocked := hd.2
          rw [hwait] at hblocked
          cases hblocked
        have hblocked : Blocked s d := by
          refine ⟨?_, hd.2⟩
          have hidle : places.cpu d = .idle := hd.1
          rw [hcpu, Function.update_of_ne hne] at hidle
          exact hidle
        have henough := h.enough ⟨d, hblocked⟩
        have hnumber := number_update PopsNext s.point c (x, .testing)
        have hbefore : one (PopsNext (s.point c)) = Places.one (s.places.cpu c = .schedule) := by
          unfold System.point PopsNext
          rw [hwait]
          simp [Places.one, one]
        have hafter : one (PopsNext (x, .testing)) = Places.one (x = .schedule) := by
          unfold PopsNext
          simp [Places.one, one]
        have hsignals : places.signals = s.places.signals := by
          unfold Places.System.signals
          rw [hwakes]
        rw [hpoint]
        show places.length ≤ _ + places.signals
        rw [hbefore, hafter] at hnumber
        rw [hsignals]
        have henough : s.places.length ≤ number PopsNext s.point + s.places.signals := henough
        omega
  | wake hcpu hlength =>
      refine ⟨hplaces, ?_, ?_⟩
      · intro d hd
        have hd : places.cpu d ≠ .idle := hd
        rw [hcpu] at hd
        exact h.testing d hd
      · rintro ⟨d, hd⟩
        have hblocked : Blocked s d := ⟨hcpu ▸ hd.1, hd.2⟩
        have henough : s.places.length ≤ number PopsNext s.point + s.places.signals :=
          h.enough ⟨d, hblocked⟩
        have hpoint : System.point { s with places := places } = s.point := by
          funext d
          unfold System.point
          rw [hcpu]
        rw [hpoint]
        show places.length ≤ _ + places.signals
        omega

/-- The section of `idle`. -/
theorem Inv.idle (h : Inv s) (hstep : step mode s (.idle c) = .ok s') : Inv s' := by
  rw [step] at hstep
  split at hstep
  · rename_i hc
    obtain ⟨hidle, hwait⟩ := hc
    split at hstep
    · -- the queue is empty, and the thread is blocked
      rename_i hempty
      obtain rfl := Except.ok.inj hstep
      obtain ⟨ps, hps⟩ := h.places.queue
      have hlength : s.places.length = 0 := by
        rw [Places.System.length, hps.contents, (Student.isEmpty_iff hps).mp hempty]
        rfl
      refine ⟨h.places, ?_, ?_⟩
      · intro d hd
        have hne : d ≠ c := by
          rintro rfl
          exact hd hidle
        show Function.update s.wait c .blocked d = _
        rw [Function.update_of_ne hne]
        exact h.testing d hd
      · intro _
        show s.places.length ≤ _
        rw [hlength]
        exact Nat.zero_le _
    · -- the thread goes to its pop
      rename_i hempty
      obtain ⟨places, hplaces, hrest⟩ := bind_eq_ok hstep
      obtain rfl := Except.ok.inj hrest
      have hinv : Places.Inv places := h.places.reaches (.single ⟨_, hplaces⟩)
      rw [Places.step, hidle] at hplaces
      dsimp only at hplaces
      rw [if_neg hempty] at hplaces
      obtain rfl := Except.ok.inj hplaces
      have hpoint : System.point ⟨s.places.goto c .schedule, Function.update s.wait c .testing⟩ =
          Function.update s.point c (.schedule, .testing) := point_update rfl rfl
      refine ⟨hinv, ?_, ?_⟩
      · intro d hd
        show Function.update s.wait c .testing d = _
        rcases eq_or_ne d c with rfl | hne
        · exact Function.update_self ..
        · have hd : Function.update s.places.cpu c .schedule d ≠ .idle := hd
          rw [Function.update_of_ne hne] at hd
          rw [Function.update_of_ne hne]
          exact h.testing d hd
      · rintro ⟨d, hd, hblocked⟩
        have hne : d ≠ c := by
          rintro rfl
          have hd : Function.update s.places.cpu d .schedule d = .idle := hd
          rw [Function.update_self] at hd
          cases hd
        have hd : Function.update s.places.cpu c .schedule d = .idle := hd
        have hblocked : Function.update s.wait c .testing d = .blocked := hblocked
        rw [Function.update_of_ne hne] at hd hblocked
        have henough : s.places.length ≤ number PopsNext s.point + s.signals :=
          h.enough ⟨d, hd, hblocked⟩
        have hnumber := number_update PopsNext s.point c (.schedule, .testing)
        rw [Counting.one_true (P := PopsNext (.schedule, .testing)) (.inl rfl)] at hnumber
        have hle : one (PopsNext (s.point c)) ≤ 1 := Counting.one_le
        rw [hpoint]
        show s.places.length ≤ _ + s.signals
        omega
  · cases hstep

/-- The signal of `wake_up`. -/
theorem Inv.signal (h : Inv s) {k : ℕ} {woken : Option (Fin n)}
    (hstep : step mode s (.signal k woken) = .ok s') : Inv s' := by
  rw [step] at hstep
  split at hstep
  · rename_i hk
    obtain ⟨hpoint, hwakes⟩ := hk
    obtain ⟨places, hplaces, hrest⟩ := bind_eq_ok hstep
    obtain rfl := Except.ok.inj hrest
    have hinv : Places.Inv places := h.places.reaches (.single ⟨_, hplaces⟩)
    obtain ⟨p, hw⟩ := Places.signal_of_usesCond hpoint
    rw [Places.step, hw] at hplaces
    obtain rfl := Except.ok.inj hplaces
    have hsignals : (s.places.wakes.eraseIdx k).countP (fun w => w.point ≠ .push) + 1 =
        s.signals := by
      have herase := Counting.countP_eraseIdx (P := fun w => w.point ≠ .push) hw
      rw [Counting.one_true (by simp)] at herase
      exact herase
    cases woken with
    | none =>
        refine ⟨hinv, h.testing, ?_⟩
        rintro ⟨d, hd⟩
        exact absurd hd (hwakes d)
    | some c =>
        obtain ⟨hidle, hblocked⟩ : Blocked s c := hwakes
        refine ⟨hinv, ?_, ?_⟩
        · intro d hd
          have hne : d ≠ c := by
            rintro rfl
            exact hd hidle
          show Function.update s.wait c .signalled d = _
          rw [Function.update_of_ne hne]
          exact h.testing d hd
        · rintro ⟨d, hd, hwait⟩
          have hwait : Function.update s.wait c .signalled d = .blocked := hwait
          have hne : d ≠ c := by
            rintro rfl
            rw [Function.update_self] at hwait
            cases hwait
          rw [Function.update_of_ne hne] at hwait
          have henough : s.places.length ≤ number PopsNext s.point + s.signals :=
            h.enough ⟨d, hd, hwait⟩
          -- the thread that is woken pops next, and it did not before
          have hnumber := number_update PopsNext s.point c (.idle, .signalled)
          have hbefore : ¬PopsNext (s.point c) := by
            unfold System.point PopsNext
            rw [hidle, hblocked]
            simp
          rw [Counting.one_true (P := PopsNext (.idle, .signalled)) (.inr rfl),
            Counting.one_false hbefore] at hnumber
          have hafter : System.point ⟨{ s.places with wakes := s.places.wakes.eraseIdx k },
              Function.update s.wait c .signalled⟩ =
              Function.update s.point c (.idle, .signalled) := by
            apply point_update
            · rw [← hidle, Function.update_eq_self]
            · rfl
          show s.places.length ≤ number PopsNext (System.point ⟨_, wake s.wait (some c)⟩) +
            (s.places.wakes.eraseIdx k).countP (fun w => w.point ≠ .push)
          rw [wake, hafter]
          omega
  · cases hstep

/-- **Every step keeps the invariant.** -/
theorem Inv.step (h : Inv s) {a : Action n} (hstep : Signals.step mode s a = .ok s') :
    Inv s' := by
  cases a with
  | idle c => exact h.idle hstep
  | signal k woken => exact h.signal hstep
  | other a =>
      rw [Signals.step] at hstep
      split at hstep
      · cases hstep
      · rename_i ha
        obtain ⟨places, hplaces, hrest⟩ := bind_eq_ok hstep
        obtain rfl := Except.ok.inj hrest
        exact h.other (Bool.eq_false_iff.mpr ha) hplaces

theorem Inv.start (current : Fin n → Option Pid) (time : Pid → ℕ) : Inv (start current time) := by
  refine ⟨Places.Inv.start current time, fun _ _ => rfl, ?_⟩
  rintro ⟨c, -, hblocked⟩
  cases hblocked

theorem Inv.reaches (h : Inv s) (hr : Reaches mode s s') : Inv s' := by
  induction hr with
  | refl => exact h
  | tail _ hstep ih =>
      obtain ⟨a, ha⟩ := hstep
      exact ih.step ha

end Steps

/-- **No process is stranded.**  If a CPU is blocked in `idle` and has not been signalled,
there are at least as many pops and signals to come as there are processes in the ready
queue. -/
theorem none_stranded {mode : Mode} {current : Fin n → Option Pid} {time : Pid → ℕ}
    {s : System n} (hr : Reaches mode (start current time) s) {c : Fin n} (hc : Blocked s c) :
    s.places.student.readyQueue.contents.length ≤ s.pops + s.signals := by
  have henough := ((Inv.start current time).reaches hr).enough ⟨c, hc⟩
  refine Nat.le_trans henough (Nat.add_le_add_right ?_ _)
  exact Counting.number_mono fun _ h => h.pops

/-- The only CPU is blocked, and `wake_up` has pushed a process. -/
theorem none_stranded_pushed :
    ∃ s : System 1, Blocked s 0 ∧ s.places.student.readyQueue.contents = [0] ∧
      s.places.student.readyQueue.contents.length ≤ s.pops + s.signals := by
  have hr := Relation.ReflTransGen.refl (r := fun s s' : System 1 => ∃ a, step .f s a = .ok s')
    (a := start (fun _ => none) fun _ => 2)
  have hr := ((hr.tail ⟨.idle 0, rfl⟩).tail ⟨.other (.create 0), rfl⟩).tail
    ⟨.other (.wakeUp 0), rfl⟩
  exact ⟨_, ⟨rfl, rfl⟩, rfl, none_stranded (c := 0) hr ⟨rfl, rfl⟩⟩

end Signals

end ProjectArchive.Scheduler
