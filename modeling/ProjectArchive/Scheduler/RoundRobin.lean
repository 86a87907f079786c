/-
ProjectArchive/Scheduler/RoundRobin.lean

The order in which processes run in mode `r`.

`wake_up` puts a process at the end of the ready queue, but `preempt` inserts it
by remaining time, in every mode.  As long as this puts the process at the end
too (`GoesLast`), the processes that have become ready are the ones that have
been popped, followed by the queue, and so they are popped in the order in
which they have become ready.
-/
import ProjectArchive.Scheduler.Handlers

namespace ProjectArchive.Scheduler

namespace Handlers

open Exec

variable {n : ℕ} {timeslice : ℕ} {s s' : System n} {c : Fin n} {p : Pid} {ps : List Pid}

/-- The process that a mark says has become ready. -/
def Mark.readied : Mark → Option Pid
  | .ready p => some p
  | .popped _ => none

/-- The process that a mark says has been popped. -/
def Mark.taken : Mark → Option Pid
  | .ready _ => none
  | .popped p => some p

/-- The processes in the order in which they have become ready. -/
def System.readied (s : System n) : List Pid := s.history.filterMap Mark.readied

/-- The processes in the order in which `schedule` has popped them. -/
def System.taken (s : System n) : List Pid := s.history.filterMap Mark.taken

/-! ### Insertion at the end -/

/-- `queue_ordered_push` puts the process at the end: the first process of the queue
does not have less time remaining than it, and the others have more. -/
def GoesLast (time : Pid → ℕ) (p : Pid) : List Pid → Prop
  | [] => True
  | q :: ps => time p ≤ time q ∧ ∀ r ∈ ps, time p < time r

theorem insertAfter_eq_append {time : Pid → ℕ} (h : ∀ r ∈ ps, time p < time r) :
    insertAfter time p ps = ps ++ [p] := by
  induction ps with
  | nil => rfl
  | cons q ps ih =>
      rw [insertAfter, if_pos (h q (List.mem_cons_self ..)),
        ih fun r hr => h r (List.mem_cons_of_mem _ hr)]
      rfl

theorem GoesLast.orderedInsert {time : Pid → ℕ} (h : GoesLast time p ps) :
    orderedInsert time p ps = ps ++ [p] := by
  cases ps with
  | nil => rfl
  | cons q ps =>
      rw [Scheduler.orderedInsert, if_neg (Nat.not_lt.mpr h.1), insertAfter_eq_append h.2]
      rfl

/-! ### The invariant -/

/-- The processes that have become ready are those that have been popped, and then `ps`. -/
def InOrder (s : System n) (ps : List Pid) : Prop := s.readied = s.taken ++ ps

/-- A process becomes ready, and is put at the end of the queue. -/
theorem InOrder.ready (h : InOrder s ps) (hhistory : s'.history = s.history ++ [Mark.ready p]) :
    InOrder s' (ps ++ [p]) := by
  unfold InOrder System.readied System.taken at h ⊢
  rw [hhistory, List.filterMap_append, List.filterMap_append, h]
  show (s.taken ++ ps) ++ [p] = (s.taken ++ []) ++ (ps ++ [p])
  rw [List.append_nil, List.append_assoc]

/-- The first process of the queue is popped. -/
theorem InOrder.popped (h : InOrder s (p :: ps))
    (hhistory : s'.history = s.history ++ [Mark.popped p]) : InOrder s' ps := by
  unfold InOrder System.readied System.taken at h ⊢
  rw [hhistory, List.filterMap_append, List.filterMap_append, h]
  show (s.taken ++ p :: ps) ++ [] = (s.taken ++ [p]) ++ ps
  rw [List.append_nil, List.append_assoc]
  rfl

/-- The queue is in the order in which its processes have become ready. -/
def Fifo (s : System n) : Prop :=
  ∃ ps, Represents s.student.readyQueue ps ∧ InOrder s ps

theorem Scheduled.fifo (h : Scheduled .r timeslice s c ps s') (ho : InOrder s ps) : Fifo s' := by
  cases h with
  | idle queue hq => exact ⟨[], hq, ho⟩
  | pops p ps queue hq => exact ⟨ps, hq, ho.popped rfl⟩

theorem Fifo.schedule (h : Fifo s) (hrun : schedule .r timeslice s c = .ok s') : Fifo s' := by
  obtain ⟨ps, hq, ho⟩ := h
  exact (schedule_spec hq hrun).fifo ho

theorem Fifo.wakeUp (h : Fifo s) (hrun : wakeUp .r timeslice s p = .ok s') : Fifo s' := by
  obtain ⟨ps, hq, ho⟩ := h
  obtain ⟨queue, hq', hpushed⟩ := wakeUp_spec hq hrun
  -- in mode `r` no CPU is preempted
  obtain rfl : s' = ((s.setState p .ready).note (.ready p)).setQueue queue := hpushed
  exact ⟨ps ++ [p], hq', ho.ready rfl⟩

/-- When a CPU is preempted, its process goes to the end of the queue. -/
def PushesLast (s : System n) : Event n → Prop
  | .preempt c => ∀ p, s.cpu c = some p →
      GoesLast s.student.timeRemaining p s.student.readyQueue.contents
  | _ => True

theorem Fifo.step (h : Fifo s) (hi : Places.Inv (view s [])) {e : Event n} (he : PushesLast s e)
    (hstep : step .r timeslice s e = .ok s') : Fifo s' := by
  have hcurrent : ∀ {c p}, s.cpu c = some p → s.student.current c = some p := by
    intro c p hc
    refine hi.current c p ?_
    show (point (s.cpu c)).installed = some p
    rw [hc]
    rfl
  cases e with
  | create p =>
      rw [Handlers.step] at hstep
      split at hstep
      · have hlife : Fifo (s.setLife p .active) := h
        exact hlife.wakeUp (section_eq_ok hstep)
      · cases hstep
  | completeIo p time =>
      rw [Handlers.step] at hstep
      split at hstep
      · have hlife : Fifo ((s.setTime p time).setLife p .active) := h
        exact hlife.wakeUp (section_eq_ok hstep)
      · cases hstep
  | idle c =>
      rw [Handlers.step] at hstep
      split at hstep
      · split at hstep
        · cases hstep
        · exact h.schedule (section_eq_ok hstep)
      · cases hstep
  | run c time =>
      rw [Handlers.step] at hstep
      split at hstep
      · cases hstep
      · obtain rfl := Except.ok.inj hstep
        exact h
  | preempt c =>
      rw [Handlers.step] at hstep
      split at hstep
      · cases hstep
      · rename_i p hc
        obtain ⟨ps, hq, ho⟩ := h
        obtain ⟨queue, -, hscheduled⟩ := preempt_spec hq (hcurrent hc) (section_eq_ok hstep)
        have hlast : GoesLast s.student.timeRemaining p ps := by
          rw [← hq.contents]
          exact he p hc
        rw [hlast.orderedInsert] at hscheduled
        exact hscheduled.fifo (ho.ready rfl)
  | yield c =>
      rw [Handlers.step] at hstep
      split at hstep
      · cases hstep
      · rename_i p hc
        obtain ⟨ps, hq, ho⟩ := h
        have hleft : InOrder ((s.setLife p .io).setState p .waiting) ps := ho
        exact (yield_spec (s := s.setLife p .io) hq (hcurrent hc) (section_eq_ok hstep)).fifo hleft
  | terminate c =>
      rw [Handlers.step] at hstep
      split at hstep
      · cases hstep
      · rename_i p hc
        obtain ⟨ps, hq, ho⟩ := h
        have hleft : InOrder ((s.setLife p .terminated).setState p .terminated) ps := ho
        exact (terminate_spec (s := s.setLife p .terminated) hq (hcurrent hc)
          (section_eq_ok hstep)).fifo hleft

/-! ### Runs -/

/-- **In mode `r`, processes are popped in the order in which they have become ready**, as
long as every process that is preempted goes to the end of the queue. -/
theorem taken_prefix_readied {current : Fin n → Option Pid} {time : Pid → ℕ}
    {es : List (Event n)} (hmeets : Meets .r timeslice PushesLast es (start current time))
    (h : run .r timeslice es (start current time) = .ok s') : s'.taken <+: s'.readied := by
  have hall : Places.Inv (view s' []) ∧ Fifo s' := by
    have hstart : Places.Inv (view (start current time) []) ∧ Fifo (start current time) :=
      ⟨Places.Inv.start current time, [], represents_empty, rfl⟩
    refine meets_induction (P := fun s => Places.Inv (view s []) ∧ Fifo s) hstart ?_ hmeets h
    rintro s s' e ⟨hi, hf⟩ he hstep
    exact ⟨hi.reaches (step_reaches hstep), hf.step hi he hstep⟩
  obtain ⟨-, ps, -, ho⟩ := hall
  exact ⟨ps, ho.symm⟩

/-- A process with two ticks left is preempted, and goes behind one with five. -/
theorem taken_prefix_readied_long :
    (∃ s' : System 1, run .r 1 [.create 0, .idle 0, .create 1, .run 0 2, .preempt 0]
      (start (fun _ => none) fun p => if p = 0 then 2 else 5) = .ok s' ∧
      s'.taken = [0, 1] ∧ s'.taken <+: s'.readied) := by
  have hmeets : Meets .r 1 PushesLast [.create 0, .idle 0, .create 1, .run 0 2, .preempt 0]
      (start (fun _ : Fin 1 => none) fun p => if p = 0 then 2 else 5) := by
    refine ⟨trivial, trivial, trivial, trivial, ?_, trivial⟩
    rintro p hp
    obtain rfl := Option.some.inj hp
    exact ⟨by decide, fun r hr => by cases hr⟩
  exact ⟨_, rfl, rfl, taken_prefix_readied hmeets rfl⟩

/-- Process 0 has three ticks left when it is preempted, and overtakes process 1, which
has one and has become ready before it. -/
theorem not_taken_prefix_readied :
    ¬∀ (n timeslice : ℕ) (current : Fin n → Option Pid) (time : Pid → ℕ) (es : List (Event n))
      (s' : System n), run .r timeslice es (start current time) = .ok s' →
      s'.taken <+: s'.readied := by
  intro h
  have hprefix := h 1 1 (fun _ => none) (fun p => if p = 0 then 3 else 1)
    [.create 0, .idle 0, .create 1, .run 0 3, .preempt 0] _ rfl
  have hlists : ¬[0, 0] <+: [0, 1, 0] := by decide
  exact hlists hprefix

end Handlers

end ProjectArchive.Scheduler
