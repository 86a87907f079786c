/-
ProjectArchive/Scheduler/StudentLock.lean

The inverted readers-writers lock of the simulator.

`student_lock` is there to keep `print_gantt_line` from reading the states of
the processes while a handler writes them: the handlers of the CPU threads and
`wake_up` run between `IRWL_WRITER_LOCK` and `IRWL_WRITER_UNLOCK`, and
`context_switch` and `force_preempt` give the lock back in between.  Every
macro is a region protected by the mutex of the lock, and one step; the steps
between them are those of the simulator (`step_sim`).

`idle` is called without the lock, but it calls `context_switch` as well, which
unlocks what has not been locked: until it locks again, `writers` is one too
small.  This is the only way in which the count goes wrong (`lock_right`).
-/
import ProjectArchive.Scheduler.Events
import ProjectArchive.Library.Counting

namespace ProjectArchive.Scheduler

namespace StudentLock

open Exec (bind_eq_ok)
open OsSim (Sim Config Turn Stop)
open Counting (one number number_update)

/-! ### The threads -/

instance (n : ℕ) : Fintype (Turn n) where
  elems := insert .sup (Finset.univ.image .cpu)
  complete := by
    rintro (c | _)
    · exact Finset.mem_insert_of_mem (Finset.mem_image_of_mem _ (Finset.mem_univ c))
    · exact Finset.mem_insert_self _ _

/-- Where a thread is with respect to the writer lock. -/
inductive Phase
  /-- It has not locked it. -/
  | out
  /-- Between `IRWL_WRITER_LOCK` and the matching `IRWL_WRITER_UNLOCK`. -/
  | inside
  /-- In `context_switch` or `force_preempt`, having given the lock back. -/
  | dropped
  /-- In the `context_switch` of `idle`, having given back what it has not locked.  The
  lock that it takes after that has no matching unlock. -/
  | owing
  deriving DecidableEq, Repr

/-- Where `print_gantt_line` is: before `IRWL_READER_LOCK`, waiting for `no_writers`,
signalled, before `IRWL_READER_UNLOCK`, or after it. -/
inductive Reader
  | before | waiting | woken | holds | done
  deriving DecidableEq, Repr

/-- The simulator, `student_lock`, and the threads with respect to it.  The supervisor is
a writer in `wake_up` and the reader in `print_gantt_line`. -/
structure System (n : ℕ) where
  sim : Sim n
  writers : ℤ
  phase : Turn n → Phase
  reader : Reader

variable {n : ℕ}

/-! ### The steps -/

namespace System

/-- `IRWL_WRITER_LOCK`.  The reader holds the mutex. -/
def lock (s : System n) (t : Turn n) (phase : Phase) : Except Stop (System n) :=
  if s.reader = .holds then .error .blocked
  else .ok { s with writers := s.writers + 1, phase := Function.update s.phase t phase }

/-- `IRWL_WRITER_UNLOCK`. -/
def unlock (s : System n) (t : Turn n) (phase : Phase) : Except Stop (System n) :=
  if s.reader = .holds then .error .blocked
  else .ok { s with
    writers := s.writers - 1
    phase := Function.update s.phase t phase
    reader := if s.writers - 1 = 0 ∧ s.reader = .waiting then .woken else s.reader }

/-- The loop of `IRWL_READER_LOCK`. -/
def readerLock (s : System n) : System n :=
  { s with reader := if s.writers > 0 then .waiting else .holds }

/-- A step of the simulator. -/
def simulate (s : System n) (x : Except Stop (Sim n)) : Except Stop (System n) := do
  let sim ← x
  return { s with sim := sim }

end System

/-- The next step of the thread of a CPU. -/
def stepCpu (cfg : Config) (s : System n) (c : Fin n) : Except Stop (System n) :=
  match s.phase (.cpu c), s.sim.thread c with
  -- before `preempt`, `yield` and `terminate`
  | .out, .preempt | .out, .yield | .out, .terminate => s.lock (.cpu c) .inside
  -- in `context_switch`, before the mutex of the simulator is locked
  | .inside, .switch _ _ => s.unlock (.cpu c) .dropped
  | .out, .switch _ _ => s.unlock (.cpu c) .owing
  -- and after it has been unlocked
  | .dropped, .install _ | .dropped, .top => s.lock (.cpu c) .inside
  | .owing, .install _ | .owing, .top => s.lock (.cpu c) .out
  -- after the handler
  | .inside, .top => s.unlock (.cpu c) .out
  | _, _ => s.simulate (OsSim.stepCpu cfg s.sim c)

/-- The next step of the supervisor. -/
def stepSup (cfg : Config) (s : System n) : Except Stop (System n) :=
  match s.sim.sup, s.phase .sup, s.reader with
  | .top, _, _ => { s with reader := .before }.simulate (OsSim.stepSup cfg s.sim)
  -- `print_gantt_line`
  | .cpus 0, _, .before | .cpus 0, _, .woken => .ok s.readerLock
  | .cpus 0, _, .waiting => .error .blocked
  | .cpus 0, _, .holds => .ok { s with reader := .done }
  -- around `wake_up`, and in `force_preempt`
  | .wakeUp _ .push _, .out, _ => s.lock .sup .inside
  | .wakeUp _ (.force _) _, .inside, _ => s.unlock .sup .dropped
  | .wakeUp _ .signal _, .dropped, _ => s.lock .sup .inside
  | .relock _, .inside, _ => s.unlock .sup .out
  | _, _, _ => s.simulate (OsSim.stepSup cfg s.sim)

/-- One step. -/
def step (cfg : Config) (s : System n) : Turn n → Except Stop (System n)
  | .cpu c => stepCpu cfg s c
  | .sup => stepSup cfg s

/-- The state in which `start_simulator` starts the threads. -/
def start (ops : Pid → List OsSim.Op) (current : Fin n → Option Pid) (timeRemaining : Pid → ℕ) :
    System n where
  sim := OsSim.start ops current timeRemaining
  writers := 0
  phase := fun _ => .out
  reader := .done

/-- Some steps. -/
def run (cfg : Config) : List (Turn n) → System n → Except Stop (System n)
  | [], s => .ok s
  | t :: ts, s => do
      let s ← step cfg s t
      run cfg ts s

/-! ### What is wanted of the lock -/

/-- The number of threads that hold the writer lock. -/
def System.holders (s : System n) : ℕ := number (fun x => x = Phase.inside) s.phase

/-- The count is right, and the reader does not hold the lock while a writer does. -/
structure Right (s : System n) : Prop where
  count : s.writers = s.holders
  nonneg : 0 ≤ s.writers
  exclusive : s.reader = .holds → ∀ t, s.phase t ≠ .inside

/-- The number of threads that have given back what they have not locked. -/
def System.owing (s : System n) : ℕ := number (fun x => x = Phase.owing) s.phase

/-- What a thread in this phase adds to the count. -/
def Phase.weight : Phase → ℤ
  | .inside => 1
  | .owing => -1
  | .out | .dropped => 0

/-- The thread is about to run the `IRWL_WRITER_UNLOCK` of a `context_switch` that `idle`
has led to. -/
def Unlocks (s : System n) (t : Turn n) : Prop :=
  ∃ c pcb time, t = .cpu c ∧ s.sim.thread c = .switch pcb time ∧ s.phase t = .out

/-- A writer locks or unlocks, `print_gantt_line` goes on, or the simulator does. -/
inductive Moves (cfg : Config) (s : System n) : Turn n → System n → Prop
  | lock {t : Turn n} {x : Phase} (hx : x.weight = (s.phase t).weight + 1) (hne : x ≠ .owing)
      (hreader : s.reader ≠ .holds) :
      Moves cfg s t { s with
        writers := s.writers + 1, phase := Function.update s.phase t x }
  | unlock {t : Turn n} {x : Phase} {reader : Reader} (hx : x.weight = (s.phase t).weight - 1)
      (howing : x = .owing → Unlocks s t) (hreader : reader ≠ .holds) :
      Moves cfg s t { s with
        writers := s.writers - 1, phase := Function.update s.phase t x, reader := reader }
  | reads {reader : Reader} (hreader : reader = .holds → s.writers ≤ 0) :
      Moves cfg s .sup { s with reader := reader }
  | simulates {t : Turn n} {sim : Sim n} {reader : Reader} (hsim : OsSim.step cfg s.sim t = .ok sim)
      (hreader : reader = .holds → s.reader = .holds) :
      Moves cfg s t { s with sim := sim, reader := reader }

section Steps

variable {cfg : Config} {s s' : System n} {t : Turn n}

theorem Moves.of_lock {x : Phase} (hs : s.lock t x = .ok s')
    (hx : x.weight = (s.phase t).weight + 1) (hne : x ≠ .owing) : Moves cfg s t s' := by
  rw [System.lock] at hs
  split at hs
  · cases hs
  · obtain rfl := Except.ok.inj hs
    exact .lock hx hne ‹_›

theorem Moves.of_unlock {x : Phase} (hs : s.unlock t x = .ok s')
    (hx : x.weight = (s.phase t).weight - 1) (howing : x = .owing → Unlocks s t) :
    Moves cfg s t s' := by
  rw [System.unlock] at hs
  split at hs
  · cases hs
  · rename_i hreader
    obtain rfl := Except.ok.inj hs
    refine .unlock hx howing ?_
    split
    · exact fun hwoken => by cases hwoken
    · exact hreader

theorem Moves.of_simulate (hs : s.simulate (OsSim.step cfg s.sim t) = .ok s') :
    Moves cfg s t s' := by
  obtain ⟨sim, hsim, hrest⟩ := bind_eq_ok hs
  obtain rfl := Except.ok.inj hrest
  exact .simulates hsim id

/-- The thread of a CPU. -/
theorem Moves.stepCpu {c : Fin n} (hs : stepCpu cfg s c = .ok s') : Moves cfg s (.cpu c) s' := by
  -- a lock whose phase before it is known
  have hlock : ∀ {x y : Phase}, s.phase (.cpu c) = y → s.lock (.cpu c) x = .ok s' →
      x.weight = y.weight + 1 → x ≠ .owing → Moves cfg s (.cpu c) s' := by
    rintro x y rfl hs hx hne
    exact .of_lock hs hx hne
  have hunlock : ∀ {x y : Phase}, s.phase (.cpu c) = y → s.unlock (.cpu c) x = .ok s' →
      x.weight = y.weight - 1 → (x = .owing → Unlocks s (.cpu c)) → Moves cfg s (.cpu c) s' := by
    rintro x y rfl hs hx howing
    exact .of_unlock hs hx howing
  rw [StudentLock.stepCpu] at hs
  split at hs
  · exact hlock ‹_› hs rfl (by decide)
  · exact hlock ‹_› hs rfl (by decide)
  · exact hlock ‹_› hs rfl (by decide)
  · exact hunlock ‹_› hs rfl fun howing => by cases howing
  · rename_i hphase hthread
    exact hunlock hphase hs rfl fun _ => ⟨c, _, _, rfl, hthread, hphase⟩
  · exact hlock ‹_› hs rfl (by decide)
  · exact hlock ‹_› hs rfl (by decide)
  · exact hlock ‹_› hs rfl (by decide)
  · exact hlock ‹_› hs rfl (by decide)
  · exact hunlock ‹_› hs rfl fun howing => by cases howing
  · exact .of_simulate hs

theorem Moves.readerLock (s : System n) : Moves cfg s .sup s.readerLock := by
  apply Moves.reads
  intro hholds
  split at hholds
  · cases hholds
  · exact Int.not_lt.mp ‹_›

/-- The supervisor. -/
theorem Moves.stepSup (hs : stepSup cfg s = .ok s') : Moves cfg s .sup s' := by
  have hlock : ∀ {x y : Phase}, s.phase .sup = y → s.lock .sup x = .ok s' →
      x.weight = y.weight + 1 → x ≠ .owing → Moves cfg s .sup s' := by
    rintro x y rfl hs hx hne
    exact .of_lock hs hx hne
  have hunlock : ∀ {x y : Phase}, s.phase .sup = y → s.unlock .sup x = .ok s' →
      x.weight = y.weight - 1 → (x = .owing → Unlocks s .sup) → Moves cfg s .sup s' := by
    rintro x y rfl hs hx howing
    exact .of_unlock hs hx howing
  rw [StudentLock.stepSup] at hs
  split at hs
  · -- a round begins
    obtain ⟨sim, hsim, hrest⟩ := bind_eq_ok hs
    obtain rfl := Except.ok.inj hrest
    exact .simulates hsim fun hholds => by cases hholds
  · obtain rfl := Except.ok.inj hs
    exact .readerLock s
  · obtain rfl := Except.ok.inj hs
    exact .readerLock s
  · cases hs
  · obtain rfl := Except.ok.inj hs
    exact .reads fun hholds => by cases hholds
  · exact hlock ‹_› hs rfl (by decide)
  · exact hunlock ‹_› hs rfl fun howing => by cases howing
  · exact hlock ‹_› hs rfl (by decide)
  · exact hunlock ‹_› hs rfl fun howing => by cases howing
  · exact .of_simulate hs

/-- **What a step does to the lock.** -/
theorem Moves.step (hs : step cfg s t = .ok s') : Moves cfg s t s' := by
  cases t with
  | cpu c => exact .stepCpu hs
  | sup => exact .stepSup hs

/-- **A step is one of the simulator, or leaves it alone.** -/
theorem step_sim (hs : step cfg s t = .ok s') :
    s'.sim = s.sim ∨ OsSim.step cfg s.sim t = .ok s'.sim := by
  cases Moves.step hs with
  | lock => exact .inl rfl
  | unlock => exact .inl rfl
  | reads => exact .inl rfl
  | simulates hsim => exact .inr hsim

/-! ### The invariant -/

/-- The invariant. -/
structure Inv (s : System n) : Prop where
  count : s.writers + s.owing = s.holders
  reader : s.reader = .holds → s.writers ≤ 0

theorem weight_eq (x : Phase) : x.weight = (one (x = .inside) : ℤ) - one (x = .owing) := by
  cases x <;> rfl

/-- A thread goes from one phase to another. -/
theorem count_update (h : s.writers + s.owing = s.holders) (t : Turn n) (x : Phase) :
    s.writers + (x.weight - (s.phase t).weight) +
        number (fun x => x = Phase.owing) (Function.update s.phase t x) =
      number (fun x => x = Phase.inside) (Function.update s.phase t x) := by
  have hinside := number_update (fun x => x = Phase.inside) s.phase t x
  have howing := number_update (fun x => x = Phase.owing) s.phase t x
  have h : s.writers + number (fun x => x = Phase.owing) s.phase =
      (number (fun x => x = Phase.inside) s.phase : ℤ) := h
  rw [weight_eq, weight_eq]
  omega

/-- **Every step keeps the invariant.** -/
theorem Inv.moves (h : Inv s) (hm : Moves cfg s t s') : Inv s' := by
  cases hm with
  | @lock _ x hx _ hreader =>
      refine ⟨?_, fun hholds => absurd hholds hreader⟩
      have hcount := count_update h.count t x
      rw [hx, add_sub_cancel_left] at hcount
      exact hcount
  | @unlock _ x _ hx _ hreader =>
      refine ⟨?_, fun hholds => absurd hholds hreader⟩
      have hcount := count_update h.count t x
      rw [hx, sub_sub_cancel_left] at hcount
      exact hcount
  | reads hreader => exact ⟨h.count, hreader⟩
  | simulates _ hreader => exact ⟨h.count, fun hholds => h.reader (hreader hholds)⟩

theorem Inv.start (ops : Pid → List OsSim.Op) (current : Fin n → Option Pid)
    (timeRemaining : Pid → ℕ) : Inv (start ops current timeRemaining) := by
  have hzero : ∀ x : Phase, x ≠ .out →
      number (fun y => y = x) (fun _ : Turn n => Phase.out) = 0 := by
    intro x hx
    rw [Counting.number_eq_zero_iff]
    exact fun _ hout => hx hout.symm
  refine ⟨?_, fun hholds => by cases hholds⟩
  show (0 : ℤ) + number (fun y => y = Phase.owing) (fun _ : Turn n => Phase.out) =
    number (fun y => y = Phase.inside) (fun _ : Turn n => Phase.out)
  rw [hzero .owing (by decide), hzero .inside (by decide)]
  rfl

/-- **The lock is right if and only if no thread has given back what it has not locked.** -/
theorem Inv.right_iff (h : Inv s) : Right s ↔ ∀ t, s.phase t ≠ .owing := by
  have howing : s.owing = 0 ↔ ∀ t, s.phase t ≠ .owing := Counting.number_eq_zero_iff
  have hcount := h.count
  rw [← howing]
  constructor
  · intro hright
    have hright := hright.count
    omega
  · intro hzero
    refine ⟨by omega, by omega, ?_⟩
    intro hholds
    have hwriters := h.reader hholds
    have hnone : s.holders = 0 := by omega
    exact Counting.number_eq_zero_iff.mp hnone

/-- A thread that gives back what it has not locked has come from `idle`. -/
theorem Moves.not_owing (hm : Moves cfg s t s') (hg : ¬Unlocks s t)
    (h : ∀ u, s.phase u ≠ .owing) : ∀ u, s'.phase u ≠ .owing := by
  have hupdate : ∀ {x : Phase}, x ≠ .owing → ∀ u, Function.update s.phase t x u ≠ .owing := by
    intro x hx u
    rcases eq_or_ne u t with rfl | hne
    · rw [Function.update_self]
      exact hx
    · rw [Function.update_of_ne hne]
      exact h u
  cases hm with
  | lock _ hne => exact hupdate hne
  | unlock _ howing => exact hupdate fun hx => hg (howing hx)
  | reads => exact h
  | simulates => exact h

/-! ### Whole runs -/

/-- Some steps. -/
def Reaches (cfg : Config) : System n → System n → Prop :=
  Relation.ReflTransGen fun s s' => ∃ t, step cfg s t = .ok s'

/-- Some steps, none of which is an `IRWL_WRITER_UNLOCK` that `idle` has led to. -/
def ReachesGuarded (cfg : Config) : System n → System n → Prop :=
  Relation.ReflTransGen fun s s' => ∃ t, ¬Unlocks s t ∧ step cfg s t = .ok s'

theorem Inv.reaches (h : Inv s) (hr : Reaches cfg s s') : Inv s' := by
  induction hr with
  | refl => exact h
  | tail _ hstep ih =>
      obtain ⟨t, ht⟩ := hstep
      exact ih.moves (.step ht)

theorem not_owing_reaches (h : ∀ t, s.phase t ≠ .owing) (hr : ReachesGuarded cfg s s') :
    ∀ t, s'.phase t ≠ .owing := by
  induction hr with
  | refl => exact h
  | tail _ hstep ih =>
      obtain ⟨t, hg, ht⟩ := hstep
      exact (Moves.step ht).not_owing hg ih

theorem reaches_of_run {ts : List (Turn n)} (h : run cfg ts s = .ok s') : Reaches cfg s s' := by
  induction ts generalizing s with
  | nil =>
      obtain rfl := Except.ok.inj h
      exact .refl
  | cons t ts ih =>
      obtain ⟨s₁, hs, hrest⟩ := bind_eq_ok h
      exact .head ⟨t, hs⟩ (ih hrest)

end Steps

/-- **The lock is right in a state that is reached if and only if no thread is in the
`context_switch` of `idle` between the two macros; so it is right in every state of a run
in which no thread gets there.** -/
theorem lock_right (cfg : Config) (ops : Pid → List OsSim.Op) (current : Fin n → Option Pid)
    (timeRemaining : Pid → ℕ) (s : System n)
    (hr : Reaches cfg (start ops current timeRemaining) s) :
    (Right s ↔ ∀ t, s.phase t ≠ .owing) ∧
      (ReachesGuarded cfg (start ops current timeRemaining) s → Right s) := by
  have hiff := ((Inv.start ops current timeRemaining).reaches hr).right_iff
  refine ⟨hiff, fun hguarded => hiff.mpr ?_⟩
  exact not_owing_reaches (fun _ howing => by cases howing) hguarded

/-- The creation of a process, with CPU `c` idle. -/
def creation {n : ℕ} (c : Fin n) : List (Turn n) :=
  -- the thread of the CPU finds no process and enters `idle`
  [Turn.cpu c, .cpu c] ++
  -- the supervisor prints a line, and goes on to `simulate_creat`
  [Turn.sup, .sup, .sup, .sup, .sup, .sup, .sup] ++
  -- it locks, and `wake_up` pushes the process
  [Turn.sup, .sup]

/-- The supervisor is in `wake_up`. -/
theorem lock_right_wakeUp :
    ∃ s : System 1, s.writers = 1 ∧ s.sim.student.readyQueue.contents = [0] ∧
      (Right s ↔ ∀ t, s.phase t ≠ .owing) := by
  obtain ⟨s, hs, hwriters, hqueue⟩ : ∃ s, run ⟨1, .f, 0⟩ (creation (0 : Fin 1))
      (start (fun _ => [⟨.cpu, 2⟩, ⟨.terminate, 0⟩]) (fun _ => none) fun _ => 2) = .ok s ∧
      s.writers = 1 ∧ s.sim.student.readyQueue.contents = [0] := ⟨_, rfl, rfl, rfl⟩
  exact ⟨s, hwriters, hqueue, (lock_right _ _ _ _ s (reaches_of_run hs)).1⟩

/-- **`idle` brings `writers` down to -1.** -/
theorem not_lock_right : ¬∀ (n : ℕ) (cfg : Config) (ops : Pid → List OsSim.Op)
    (current : Fin n → Option Pid) (timeRemaining : Pid → ℕ) (s : System n),
    Reaches cfg (start ops current timeRemaining) s → Right s := by
  intro h
  obtain ⟨s, hs, hwriters⟩ : ∃ s, run ⟨1, .f, 0⟩
      (creation (0 : Fin 1) ++
        -- the supervisor leaves `wake_up`, and `idle` schedules the process
        [Turn.sup, .sup, .cpu 0, .cpu 0, .cpu 0])
      (start (fun _ => [⟨.cpu, 2⟩, ⟨.terminate, 0⟩]) (fun _ => none) fun _ => 2) = .ok s ∧
      s.writers = -1 := ⟨_, rfl, rfl⟩
  have hright := h 1 _ _ _ _ s (reaches_of_run hs)
  have hnonneg := hright.nonneg
  omega

end StudentLock

end ProjectArchive.Scheduler
