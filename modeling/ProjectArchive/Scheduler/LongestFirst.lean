/-
ProjectArchive/Scheduler/LongestFirst.lean

In mode `l`, the process with the longest remaining time comes first.

The ready queue is sorted by `queue_ordered_push`, which reads the remaining
times of the processes that are in it at that moment.  The simulator writes to
them while the CPU threads run the handlers, but only for a process that a CPU
executes or that waits for I/O; such a process is not in the queue, since it is
in one place only (`Places.Inv`).  So the queue stays sorted under every
interleaving of the handlers, and `schedule` pops a process with the maximal
remaining time of all ready ones (`longest_first`).
-/
import ProjectArchive.Scheduler.Places
import Mathlib.Data.List.Sort

namespace ProjectArchive.Scheduler

open Exec

/-! ### Insertion -/

section Insertion

variable (time : Pid → ℕ)

/-- The first of two processes has at least as much time remaining. -/
def Longer (p q : Pid) : Prop := time q ≤ time p

instance : DecidableRel (Longer time) := fun p q => inferInstanceAs (Decidable (time q ≤ time p))

instance : Std.Total (Longer time) := ⟨fun p q => Nat.le_total (time q) (time p)⟩

instance : IsTrans Pid (Longer time) := ⟨fun _ _ _ hpq hqr => Nat.le_trans hqr hpq⟩

theorem insertAfter_eq (p : Pid) (l : List Pid) :
    insertAfter time p l = l.orderedInsert (Longer time) p := by
  induction l with
  | nil => rfl
  | cons q l ih =>
      by_cases h : time q > time p
      · have hnot : ¬Longer time p q := Nat.not_le.mpr h
        rw [insertAfter, if_pos h, ih, List.orderedInsert_cons, if_neg hnot]
      · have hlonger : Longer time p q := Nat.not_lt.mp h
        rw [insertAfter, if_neg h, List.orderedInsert_cons, if_pos hlonger]

/-- A sorted queue stays sorted. -/
theorem orderedInsert_sorted {l : List Pid} (h : l.Pairwise (Longer time)) (p : Pid) :
    (orderedInsert time p l).Pairwise (Longer time) := by
  cases l with
  | nil => exact List.pairwise_singleton ..
  | cons q l =>
      obtain ⟨hq, hl⟩ := List.pairwise_cons.mp h
      by_cases hlt : time q < time p
      · -- before the first process
        rw [orderedInsert, if_pos hlt]
        refine List.pairwise_cons.mpr ⟨?_, h⟩
        intro r hr
        rcases List.mem_cons.mp hr with rfl | hr
        · exact Nat.le_of_lt hlt
        · exact Nat.le_trans (hq r hr) (Nat.le_of_lt hlt)
      · -- after it
        rw [orderedInsert, if_neg hlt]
        refine List.pairwise_cons.mpr ⟨?_, ?_⟩
        · intro r hr
          rcases List.mem_cons.mp ((insertAfter_perm time p l).subset hr) with rfl | hr
          · exact Nat.not_lt.mp hlt
          · exact hq r hr
        · rw [insertAfter_eq]
          exact hl.orderedInsert p l

end Insertion

namespace Places

variable {n : ℕ} {s s' : System n} {c : Fin n} {x : CpuPoint} {p q : Pid}

/-! ### The queue -/

/-- Some CPU is about to push the process. -/
def Pushing (s : System n) (q : Pid) : Prop := ∃ c, (s.cpu c).pushes = some q

/-- The ready queue is sorted, and holds the ready processes. -/
structure Ordered (s : System n) : Prop where
  sorted : s.student.readyQueue.contents.Pairwise (Longer s.student.timeRemaining)
  ready : ∀ q, s.student.state q = .ready →
    q ∈ s.student.readyQueue.contents ∨ Pushing s q

/-- The simulator writes the remaining time of a process only while a CPU has it, or while
its I/O request is outstanding. -/
def Allowed (s : System n) : Action n → Prop
  | .tick time => ∀ p, time p ≠ s.student.timeRemaining p →
      (∃ c, (s.cpu c).held = some p) ∨ s.life p = .io
  | _ => True

/-- Some steps of this kind in mode `l`. -/
def ReachesAllowed : System n → System n → Prop :=
  Relation.ReflTransGen fun s s' => ∃ a, Allowed s a ∧ step .l s a = .ok s'

theorem ReachesAllowed.reaches (h : ReachesAllowed s s') : Reaches .l s s' := by
  induction h with
  | refl => exact .refl
  | tail _ hstep ih =>
      obtain ⟨a, -, ha⟩ := hstep
      exact ih.tail ⟨a, ha⟩

/-- A process in the queue is in no other place. -/
theorem Inv.notMem_queue (h : Inv s) (hp : (∃ c, (s.cpu c).held = some p) ∨ s.life p = .io) :
    p ∉ s.student.readyQueue.contents := by
  intro hmem
  have hplaces := h.places p
  have hqueue : 1 ≤ s.inQueue p := List.count_pos_iff.mpr hmem
  have hone : one ((s.life p).alive = true) ≤ 1 := by
    rw [one]
    split <;> omega
  rw [System.places] at hplaces
  rcases hp with ⟨c, hc⟩ | hio
  · have hholders : 1 ≤ s.holders p := s.holders_pos hc
    omega
  · rw [System.inIo, if_pos hio] at hplaces
    omega

/-! ### The steps -/

/-- A thread goes on from any other point. -/
theorem Pushing.goto (h : Pushing s q) (hc : (s.cpu c).pushes ≠ some q) (x : CpuPoint) :
    Pushing (s.goto c x) q := by
  obtain ⟨d, hd⟩ := h
  refine ⟨d, ?_⟩
  show (Function.update s.cpu c x d).pushes = _
  rcases eq_or_ne d c with rfl | hne
  · exact absurd hd hc
  · rw [Function.update_of_ne hne]
    exact hd

theorem Pushing.goto_of_none (h : Pushing s q) (hc : (s.cpu c).pushes = none) (x : CpuPoint) :
    Pushing (s.goto c x) q := by
  refine h.goto ?_ x
  rw [hc]
  exact Option.some_ne_none q ∘ Eq.symm

/-- A thread goes on, and the scheduler's variables stay as they are. -/
theorem Ordered.goto (h : Ordered s) (hc : (s.cpu c).pushes = none) (x : CpuPoint) :
    Ordered (s.goto c x) :=
  ⟨h.sorted, fun q hq => (h.ready q hq).imp_right fun hpushing => hpushing.goto_of_none hc x⟩

/-- The first process is popped. -/
theorem Ordered.schedule (h : Ordered s) (hc : s.cpu c = .schedule) {ps : List Pid}
    {queue : LinkedQueue} (hps : Represents s.student.readyQueue (p :: ps))
    (hq : Represents queue ps) :
    Ordered ({ s with student := { s.student.setState p .running with readyQueue := queue } }.goto c
      (.switch (some p))) := by
  have hsorted := h.sorted
  rw [hps.contents] at hsorted
  refine ⟨?_, ?_⟩
  · show queue.contents.Pairwise _
    rw [hq.contents]
    exact hsorted.of_cons
  · intro r hr
    have hr : Function.update s.student.state p .running r = .ready := hr
    -- the process that has been popped is running
    rcases eq_or_ne r p with rfl | hne
    · rw [Function.update_self] at hr
      cases hr
    · rw [Function.update_of_ne hne] at hr
      rcases h.ready r hr with hmem | hpushing
      · left
        show r ∈ queue.contents
        rw [hps.contents] at hmem
        rw [hq.contents]
        exact (List.mem_cons.mp hmem).resolve_left hne
      · refine .inr (hpushing.goto_of_none ?_ _)
        rw [hc]
        rfl

/-- A handler marks the process of its CPU; if it is ready then, it is about to be pushed. -/
theorem Ordered.mark (h : Ordered s) {st : ProcessState} (hc : (s.cpu c).Marks p st x) :
    Ordered ({ s with student := s.student.setState p st }.goto c x) := by
  refine ⟨h.sorted, ?_⟩
  intro r hr
  have hr : Function.update s.student.state p st r = .ready := hr
  rcases eq_or_ne r p with rfl | hne
  · rw [Function.update_self] at hr
    refine .inr ⟨c, ?_⟩
    show (Function.update s.cpu c x c).pushes = some r
    rw [Function.update_self]
    exact hc.pushes.2 hr
  · rw [Function.update_of_ne hne] at hr
    exact (h.ready r hr).imp_right fun hpushing => hpushing.goto_of_none hc.pushes.1 _

/-- A process is pushed. -/
theorem Ordered.push (h : Ordered s) {ps : List Pid}
    (hps : Represents s.student.readyQueue ps) {queue : LinkedQueue}
    (hq : Represents queue (orderedInsert s.student.timeRemaining p ps))
    (hqueue : s'.student.readyQueue = queue)
    (htime : s'.student.timeRemaining = s.student.timeRemaining)
    (hready : ∀ r, r ≠ p → s'.student.state r = .ready → s.student.state r = .ready)
    (hpushing : ∀ r, r ≠ p → Pushing s r → Pushing s' r) : Ordered s' := by
  have hsorted := h.sorted
  rw [hps.contents] at hsorted
  refine ⟨?_, ?_⟩
  · rw [hqueue, hq.contents, htime]
    exact orderedInsert_sorted _ hsorted p
  · intro r hr
    rw [hqueue, hq.contents, (orderedInsert_perm ..).mem_iff, List.mem_cons]
    rcases eq_or_ne r p with rfl | hne
    · exact .inl (.inl rfl)
    · rcases h.ready r (hready r hne hr) with hmem | hpush
      · rw [hps.contents] at hmem
        exact .inl (.inr hmem)
      · exact .inr (hpushing r hne hpush)

/-- **Every step keeps the queue sorted.** -/
theorem Ordered.step (hi : Inv s) (h : Ordered s) {a : Action n} (ha : Allowed s a)
    (hstep : Places.step .l s a = .ok s') : Ordered s' := by
  cases hi.does_of_step hstep with
  | idle hc =>
      refine h.goto ?_ _
      rw [hc]
      rfl
  | @scheduleIdle c queue hc hps hq =>
      have hqueue : Ordered { s with student := { s.student with readyQueue := queue } } := by
        refine ⟨?_, ?_⟩
        · show queue.contents.Pairwise _
          rw [hq.contents]
          exact .nil
        · intro r hr
          refine .inr ((h.ready r hr).resolve_left ?_)
          rw [hps.contents]
          exact List.not_mem_nil
      refine hqueue.goto ?_ _
      show (s.cpu c).pushes = none
      rw [hc]
      rfl
  | schedule hc hps hq => exact h.schedule hc hps hq
  | pass hc => exact h.goto hc.pushes.1 _
  | @setCurrent c p hc =>
      have hset : Ordered { s with student := s.student.setCurrent c p } := ⟨h.sorted, h.ready⟩
      refine hset.goto ?_ _
      show (s.cpu c).pushes = none
      rw [hc]
      rfl
  | @leave a c p l x hc =>
      have hlife : Ordered { s with life := Function.update s.life p l } := ⟨h.sorted, h.ready⟩
      exact hlife.goto hc.pushes.1 _
  | mark hc => exact h.mark hc
  | @pushBack c p ps queue hc hps hq =>
      refine h.push hps hq rfl rfl (fun _ _ hr => hr) ?_
      intro r hne hpushing
      refine Pushing.goto (s := { s with student := _ }) hpushing ?_ _
      show (s.cpu c).pushes ≠ some r
      rw [hc]
      exact fun hr => hne (Option.some.inj hr).symm
  | callWakeUp hp => exact ⟨h.sorted, h.ready⟩
  | @wakePush k p point ps queue hk hpoint hps hq =>
      refine h.push hps hq rfl rfl ?_ fun _ _ hpushing => hpushing
      intro r hne hr
      have hr : Function.update s.student.state p .ready r = .ready := hr
      rw [Function.update_of_ne hne] at hr
      exact hr
  | wakeRest hk hw hw' => exact ⟨h.sorted, h.ready⟩
  | wakeReturn hk => exact ⟨h.sorted, h.ready⟩
  | tick time =>
      refine ⟨?_, h.ready⟩
      -- the remaining times of the processes in the queue are the same as before
      have hsame : ∀ p ∈ s.student.readyQueue.contents, time p = s.student.timeRemaining p := by
        intro p hp
        by_contra hne
        exact hi.notMem_queue (ha p hne) hp
      refine h.sorted.imp_of_mem ?_
      intro p q hp hq hlonger
      show time q ≤ time p
      rw [hsame p hp, hsame q hq]
      exact hlonger

theorem Ordered.start (current : Fin n → Option Pid) (time : Pid → ℕ) :
    Ordered (start current time) := by
  refine ⟨?_, ?_⟩
  · show (LinkedQueue.contents ⟨[], none, none⟩).Pairwise _
    rw [represents_empty.contents]
    exact .nil
  · intro q hq
    cases hq

theorem Ordered.reaches (hi : Inv s) (h : Ordered s) (hr : ReachesAllowed s s') : Ordered s' := by
  induction hr with
  | refl => exact h
  | tail hr hstep ih =>
      obtain ⟨a, ha, hstep⟩ := hstep
      exact ih.step (hi.reaches (ReachesAllowed.reaches hr)) ha hstep

/-! ### What `schedule` pops -/

/-- The call of `schedule` on the CPU `c` is the only one of a handler in progress. -/
def Alone (s : System n) (c : Fin n) : Prop :=
  ∀ d, d ≠ c → s.cpu d = .idle ∨ ∃ p, s.cpu d = .running p

/-- `schedule` pops a process with the maximal remaining time. -/
theorem Ordered.pops (hi : Inv s) (h : Ordered s) (hstep : Places.step .l s (.schedule c) = .ok s')
    (hne : s.student.readyQueue.contents ≠ []) :
    ∃ p ps, s.student.readyQueue.contents = p :: ps ∧ s'.student.readyQueue.contents = ps ∧
      s'.cpu c = .switch (some p) ∧
      ∀ q, s.student.state q = .ready →
        s.student.timeRemaining q ≤ s.student.timeRemaining p ∨ Pushing s q := by
  obtain ⟨ps, hps⟩ := hi.queue
  have hsorted := h.sorted
  have hready := h.ready
  rw [hps.contents] at hsorted hready hne ⊢
  obtain ⟨p, ps, rfl⟩ := List.exists_cons_of_ne_nil hne
  rw [Places.step] at hstep
  split at hstep
  · obtain ⟨queue, hq, he⟩ := Student.schedule_cons hps
    rw [he] at hstep
    obtain rfl := Except.ok.inj hstep
    refine ⟨p, ps, rfl, hq.contents, Function.update_self .., ?_⟩
    intro q hstate
    refine (hready q hstate).imp_left fun hmem => ?_
    rcases List.mem_cons.mp hmem with rfl | hmem
    · exact Nat.le_refl _
    · exact (List.pairwise_cons.mp hsorted).1 q hmem
  · cases hstep

/-- **The process with the longest remaining time comes first.**  In every state that is
reached the ready queue is sorted; when `schedule` finds it non-empty it pops a process
whose remaining time is maximal among the ready ones, not counting those that a `preempt`
in progress on another CPU has not pushed yet. -/
theorem longest_first {current : Fin n → Option Pid} {time : Pid → ℕ}
    (hr : ReachesAllowed (start current time) s) :
    s.student.readyQueue.contents.Pairwise (Longer s.student.timeRemaining) ∧
      ∀ c s', step .l s (.schedule c) = .ok s' → s.student.readyQueue.contents ≠ [] →
        ∃ p ps, s.student.readyQueue.contents = p :: ps ∧ s'.student.readyQueue.contents = ps ∧
          s'.cpu c = .switch (some p) ∧
          (∀ q, s.student.state q = .ready → ¬Pushing s q →
            s.student.timeRemaining q ≤ s.student.timeRemaining p) ∧
          (Alone s c → ∀ q, s.student.state q = .ready →
            s.student.timeRemaining q ≤ s.student.timeRemaining p) := by
  have hi := (Inv.start current time).reaches hr.reaches
  have h := (Ordered.start current time).reaches (Inv.start current time) hr
  refine ⟨h.sorted, ?_⟩
  intro c s' hstep hne
  obtain ⟨p, ps, hps, hps', hcpu, hmax⟩ := h.pops hi hstep hne
  refine ⟨p, ps, hps, hps', hcpu, fun q hq hpush => (hmax q hq).resolve_right hpush, ?_⟩
  intro halone q hq
  refine (hmax q hq).resolve_right ?_
  rintro ⟨d, hd⟩
  rcases eq_or_ne d c with rfl | hdc
  · rw [step] at hstep
    split at hstep
    · rename_i hschedule
      rw [hschedule] at hd
      cases hd
    · cases hstep
  · rcases halone d hdc with hidle | ⟨r, hrunning⟩
    · rw [hidle] at hd
      cases hd
    · rw [hrunning] at hd
      cases hd

/-- Process 1 has more time remaining than process 0, and overtakes it. -/
theorem longest_first_overtakes :
    ∃ s : System 1, s.cpu 0 = .schedule ∧ s.student.readyQueue.contents = [1, 0] ∧
      ∃ p ps, s.student.readyQueue.contents = p :: ps ∧
        ∀ q, s.student.state q = .ready → ¬Pushing s q →
          s.student.timeRemaining q ≤ s.student.timeRemaining p := by
  have hr := Relation.ReflTransGen.refl (r := fun s s' : System 1 => ∃ a, Allowed s a ∧
    step .l s a = .ok s') (a := start (fun _ => none) fun p => if p = 0 then 2 else 5)
  have hr := ((((hr.tail ⟨.create 0, trivial, rfl⟩).tail ⟨.wakeUp 0, trivial, rfl⟩).tail
    ⟨.create 1, trivial, rfl⟩).tail ⟨.wakeUp 1, trivial, rfl⟩).tail ⟨.idle 0, trivial, rfl⟩
  obtain ⟨p, ps, hps, -, -, hmax, -⟩ := (longest_first hr).2 0 _ rfl (by decide)
  exact ⟨_, rfl, rfl, p, ps, hps, hmax⟩

end Places

end ProjectArchive.Scheduler
