/-
ProjectArchive/Scheduler/Requests.lean

The operations of the processes and the I/O queue, in every order of the steps.

The operations of a process must alternate, and must begin and end with
`OP_CPU`.  With such operations, the I/O queue holds exactly the processes whose
next operation is `OP_IO`, each of them once (`io_queue_exact`), although a
process may be executed on two CPUs at a time after a lost event; and no thread
reads past the operations of a process or through a null pointer
(`never_crashes`).
-/
import ProjectArchive.Scheduler.Created
import ProjectArchive.Scheduler.Process

namespace ProjectArchive.Scheduler

namespace OsSim

variable {n N : ℕ}

/-! ### The operations of a process -/

/-- The next operation is `OP_IO`. -/
def Requesting (ops : List Op) : Prop := ∃ time rest, ops = ⟨.io, time⟩ :: rest

/-- What a process has left of its operations. -/
inductive Residual : List Op → Prop
  | executing {ops : List Op} (h : Program ops) : Residual ops
  | requesting (time : ℕ) {ops : List Op} (h : Program ops) : Residual (⟨.io, time⟩ :: ops)
  | finished (time : ℕ) : Residual [⟨.terminate, time⟩]

section Residual

variable {time : ℕ} {op : Op} {rest ops : List Op}

/-- The length of the first burst does not matter. -/
theorem Program.setTime (h : Program (⟨.cpu, time⟩ :: rest)) (time' : ℕ) :
    Program (⟨.cpu, time'⟩ :: rest) := by
  cases h with
  | last _ u => exact .last time' u
  | burst _ u h => exact .burst time' u h

theorem Residual.tick (h : Residual (⟨.cpu, time + 1⟩ :: rest)) :
    Residual (⟨.cpu, time⟩ :: rest) := by
  cases h with
  | executing h => exact .executing (h.setTime time)

theorem Residual.next (h : Residual (⟨.cpu, time⟩ :: rest)) : Residual rest ∧
    ∀ u ops, rest ≠ ⟨.cpu, u⟩ :: ops := by
  cases h with
  | executing h =>
      cases h with
      | last _ u => exact ⟨.finished u, fun _ _ => by simp⟩
      | burst _ u h => exact ⟨.requesting u h, fun _ _ => by simp⟩

theorem Residual.complete (h : Residual (⟨.io, time⟩ :: ops)) : Program ops := by
  cases h with
  | executing h => cases h
  | requesting _ h => exact h

theorem Program.not_requesting (h : Program ops) : ¬Requesting ops := by
  rintro ⟨time, rest, rfl⟩
  cases h

theorem not_requesting_cpu : ¬Requesting (⟨.cpu, time⟩ :: rest) := by
  rintro ⟨u, ops, he⟩
  cases he

end Residual

/-! ### The I/O queue -/

/-- Every process has operations left; the I/O queue holds those whose next operation is
`OP_IO`, each of them once, and only the first request of the queue has been served. -/
structure Outline.Requests (N : ℕ) (o : Outline n) : Prop where
  residual : ∀ p, p < N → Residual (o.ops p)
  nodup : (o.ioQueue.map Prod.fst).Nodup
  waits : ∀ p, p < N → (p ∈ o.ioQueue.map Prod.fst ↔ Requesting (o.ops p))
  left : ∀ r ∈ o.ioQueue, r.2 ≤ pcTime (o.ops r.1)
  later : ∀ r ∈ o.ioQueue.tail, r.2 = pcTime (o.ops r.1)

section Requests

variable {o o' : Outline n} {ops : Pid → List Op} {p : Pid} {l : List Op}

theorem Outline.Requests.same (h : o.Requests N) (hops : o'.ops = o.ops)
    (hqueue : o'.ioQueue = o.ioQueue) : o'.Requests N where
  residual := by
    rw [hops]
    exact h.residual
  nodup := by
    rw [hqueue]
    exact h.nodup
  waits := by
    rw [hops, hqueue]
    exact h.waits
  left := by
    rw [hops, hqueue]
    exact h.left
  later := by
    rw [hops, hqueue]
    exact h.later

/-- A process that has not requested I/O goes on, and requests none. -/
theorem Outline.Requests.goes (h : o.Requests N) (hp : p < N) (hbefore : ¬Requesting (o.ops p))
    (hl : Residual l) (hafter : ¬Requesting l) (hops : o'.ops = Function.update o.ops p l)
    (hqueue : o'.ioQueue = o.ioQueue) : o'.Requests N := by
  have hnotin : p ∉ o.ioQueue.map Prod.fst := fun hmem => hbefore ((h.waits p hp).mp hmem)
  -- the processes of the queue are others
  have hothers : ∀ r ∈ o.ioQueue, o'.ops r.1 = o.ops r.1 := by
    intro r hr
    rw [hops]
    refine Function.update_of_ne ?_ ..
    rintro rfl
    exact hnotin (List.mem_map_of_mem hr)
  refine ⟨fun q hq => ?_, ?_, fun q hq => ?_, fun r hr => ?_, fun r hr => ?_⟩
  · rw [hops]
    rcases eq_or_ne q p with rfl | hne
    · rw [Function.update_self]
      exact hl
    · rw [Function.update_of_ne hne]
      exact h.residual q hq
  · rw [hqueue]
    exact h.nodup
  · rw [hops, hqueue]
    rcases eq_or_ne q p with rfl | hne
    · rw [Function.update_self]
      exact iff_of_false hnotin hafter
    · rw [Function.update_of_ne hne]
      exact h.waits q hq
  · rw [hqueue] at hr
    rw [hothers r hr]
    exact h.left r hr
  · rw [hqueue] at hr
    rw [hothers r (List.mem_of_mem_tail hr)]
    exact h.later r hr

/-- A request is put at the end of the queue. -/
theorem Outline.Requests.submit {time : ℕ} (h : o.Requests N) (hp : p < N)
    (hbefore : ¬Requesting (o.ops p)) (hl : Residual (⟨.io, time⟩ :: l))
    (hops : o'.ops = Function.update o.ops p (⟨.io, time⟩ :: l))
    (hqueue : o'.ioQueue = o.ioQueue ++ [(p, time)]) : o'.Requests N := by
  have hnotin : p ∉ o.ioQueue.map Prod.fst := fun hmem => hbefore ((h.waits p hp).mp hmem)
  have hself : o'.ops p = ⟨.io, time⟩ :: l := by
    rw [hops, Function.update_self]
  have hothers : ∀ r ∈ o.ioQueue, o'.ops r.1 = o.ops r.1 := by
    intro r hr
    rw [hops]
    refine Function.update_of_ne ?_ ..
    rintro rfl
    exact hnotin (List.mem_map_of_mem hr)
  refine ⟨fun q hq => ?_, ?_, fun q hq => ?_, fun r hr => ?_, fun r hr => ?_⟩
  · rcases eq_or_ne q p with rfl | hne
    · rw [hself]
      exact hl
    · rw [hops, Function.update_of_ne hne]
      exact h.residual q hq
  · rw [hqueue, List.map_append, List.nodup_append]
    refine ⟨h.nodup, List.nodup_singleton _, ?_⟩
    rintro q hq r hr rfl
    obtain rfl := List.mem_singleton.mp hr
    exact hnotin hq
  · rw [hqueue, List.map_append, List.mem_append]
    rcases eq_or_ne q p with rfl | hne
    · rw [hself]
      exact iff_of_true (.inr (List.mem_singleton_self _)) ⟨time, l, rfl⟩
    · rw [hops, Function.update_of_ne hne, ← h.waits q hq]
      exact or_iff_left fun hmem => hne (List.mem_singleton.mp hmem)
  · rw [hqueue] at hr
    rcases List.mem_append.mp hr with hr | hr
    · rw [hothers r hr]
      exact h.left r hr
    · obtain rfl := List.mem_singleton.mp hr
      rw [hself]
      exact Nat.le_refl _
  · rw [hqueue] at hr
    cases hempty : o.ioQueue with
    | nil =>
        -- the request is the first of the queue
        rw [hempty] at hr
        cases hr
    | cons first queue =>
        rw [hempty] at hr
        rcases List.mem_append.mp hr with hr | hr
        · have hmem : r ∈ o.ioQueue.tail := by
            rw [hempty]
            exact hr
          rw [hothers r (List.mem_of_mem_tail hmem)]
          exact h.later r hmem
        · obtain rfl := List.mem_singleton.mp hr
          rw [hself]
          rfl

/-- The first request is served for a unit of time. -/
theorem Outline.Requests.serve {time : ℕ} {queue : List (Pid × ℕ)} (h : o.Requests N)
    (hbefore : o.ioQueue = (p, time + 1) :: queue) (hops : o'.ops = o.ops)
    (hafter : o'.ioQueue = (p, time) :: queue) : o'.Requests N := by
  have hfst : o'.ioQueue.map Prod.fst = o.ioQueue.map Prod.fst := by
    rw [hafter, hbefore]
    rfl
  refine ⟨?_, ?_, ?_, fun r hr => ?_, fun r hr => ?_⟩
  · rw [hops]
    exact h.residual
  · rw [hfst]
    exact h.nodup
  · rw [hfst, hops]
    exact h.waits
  · rw [hops]
    rw [hafter] at hr
    rcases List.mem_cons.mp hr with rfl | hr
    · have := h.left (p, time + 1) (hbefore ▸ List.mem_cons_self)
      exact Nat.le_of_succ_le this
    · exact h.left r (hbefore ▸ List.mem_cons_of_mem _ hr)
  · rw [hops]
    rw [hafter] at hr
    exact h.later r (hbefore ▸ hr)

/-- The first request is completed. -/
theorem Outline.Requests.complete {queue : List (Pid × ℕ)} (h : o.Requests N) (hp : p < N)
    (hbefore : o.ioQueue = (p, 0) :: queue) (hl : Program l)
    (hops : o'.ops = Function.update o.ops p l) (hafter : o'.ioQueue = queue) :
    o'.Requests N := by
  have hnodup := h.nodup
  rw [hbefore, List.map_cons, List.nodup_cons] at hnodup
  obtain ⟨hnotin, hnodup⟩ : p ∉ queue.map Prod.fst ∧ (queue.map Prod.fst).Nodup := hnodup
  have hothers : ∀ r ∈ queue, o'.ops r.1 = o.ops r.1 := by
    intro r hr
    rw [hops]
    refine Function.update_of_ne ?_ ..
    rintro rfl
    exact hnotin (List.mem_map_of_mem hr)
  have hlater : ∀ r ∈ queue, r.2 = pcTime (o'.ops r.1) := by
    intro r hr
    rw [hothers r hr]
    exact h.later r (hbefore ▸ hr)
  refine ⟨fun q hq => ?_, ?_, fun q hq => ?_, fun r hr => ?_, fun r hr => ?_⟩
  · rw [hops]
    rcases eq_or_ne q p with rfl | hne
    · rw [Function.update_self]
      exact .executing hl
    · rw [Function.update_of_ne hne]
      exact h.residual q hq
  · rw [hafter]
    exact hnodup
  · rw [hops, hafter]
    rcases eq_or_ne q p with rfl | hne
    · rw [Function.update_self]
      exact iff_of_false hnotin hl.not_requesting
    · rw [Function.update_of_ne hne, ← h.waits q hq, hbefore, List.map_cons, List.mem_cons]
      exact (or_iff_right hne).symm
  · rw [hafter] at hr
    exact Nat.le_of_eq (hlater r hr)
  · rw [hafter] at hr
    exact hlater r (List.mem_of_mem_tail hr)

/-- **Every step keeps the I/O queue exact.** -/
theorem Outline.Requests.next (h : o.Requests N) (hknown : o.Known N ops) (hn : Next N o o') :
    o'.Requests N := by
  -- the process that `simulate_process` is called for
  have hlt : ∀ {c q}, (o.desk c).current = some q → q < N := fun {c q} hq =>
    Nat.lt_of_lt_of_le ((hknown.desk c).current q hq) hknown.born_le
  cases hn with
  | still => exact h
  | thread _ => exact h.same rfl rfl
  | count _ => exact h.same rfl rfl
  | exit _ _ => exact h.same rfl rfl
  | round _ _ => exact h.same rfl rfl
  | pass _ _ => exact h.same rfl rfl
  | @tick c p _ _ _ _ hcurrent hops _ =>
      have hresidual := h.residual p (hlt hcurrent)
      rw [hops] at hresidual
      exact h.goes (hlt hcurrent) (hops ▸ not_requesting_cpu) hresidual.tick not_requesting_cpu
        rfl rfl
  | @request c p _ _ _ hcurrent hops =>
      have hresidual := h.residual p (hlt hcurrent)
      rw [hops] at hresidual
      exact h.submit (hlt hcurrent) (hops ▸ not_requesting_cpu) hresidual.next.1 rfl rfl
  | @finish c p _ _ _ hcurrent hops =>
      have hresidual := h.residual p (hlt hcurrent)
      rw [hops] at hresidual
      refine h.goes (hlt hcurrent) (hops ▸ not_requesting_cpu) hresidual.next.1 ?_ rfl rfl
      rintro ⟨u, rest, he⟩
      cases he
  | @burst c p _ _ _ hcurrent hops =>
      have hresidual := h.residual p (hlt hcurrent)
      rw [hops] at hresidual
      exact absurd rfl (hresidual.next.2 _ _)
  | device _ _ => exact h.same rfl rfl
  | free _ _ => exact h.same rfl rfl
  | serve _ hqueue => exact h.serve hqueue rfl rfl
  | @complete p queue _ _ _ _ hqueue hops =>
      have hmem : (p, 0) ∈ o.ioQueue := hqueue ▸ List.mem_cons_self
      have hp : p < N := Nat.lt_of_lt_of_le (hknown.ioQueue (p, 0) hmem) hknown.born_le
      obtain ⟨time, rest, he⟩ := (h.waits p hp).mp (List.mem_map_of_mem hmem)
      have hresidual := h.residual p hp
      rw [he] at hresidual
      rw [hops] at he
      obtain ⟨-, rfl⟩ := List.cons.inj he
      exact h.complete hp hqueue hresidual.complete rfl rfl
  | create _ _ _ => exact h.same rfl rfl
  | advance _ _ => exact h.same rfl rfl
  | push _ _ => exact h.same rfl rfl
  | force _ _ => exact h.same rfl rfl
  | completed _ => exact h.same rfl rfl
  | created _ => exact h.same rfl rfl

theorem Visits.requests {current : Fin n → Option Pid} (hprogram : ∀ p, p < N → Program (ops p))
    (h : Visits N ops current o) : o.Requests N := by
  have hstart : (begin_ ops current).Requests N := by
    refine ⟨fun p hp => .executing (hprogram p hp), List.nodup_nil, fun p hp => ?_, ?_, ?_⟩
    · exact iff_of_false List.not_mem_nil (hprogram p hp).not_requesting
    · exact fun r hr => absurd hr List.not_mem_nil
    · exact fun r hr => absurd hr List.not_mem_nil
  have hboth := h.invariant (fun o => o.Known N ops ∧ o.Requests N)
    ⟨.begin_ ops current, hstart⟩ fun _ _ hinv hn => ⟨hinv.1.next hn, hinv.2.next hinv.1 hn⟩
  exact hboth.2

end Requests

/-! ### The simulator -/

section Simulator

variable {cfg : Config} {ops : Pid → List Op} {s : Sim n} {ps : List Pid}

/-- **The I/O queue holds exactly the processes whose next operation is `OP_IO`, each of them
once; no request has more time left than the operation takes, and only the first has less.** -/
theorem io_queue_exact (cfg : Config) (ops : Pid → List Op) (current : Fin n → Option Pid)
    (time : Pid → ℕ) (s : Sim n) (hprogram : ∀ p, p < cfg.processCount → Program (ops p))
    (hr : Reaches cfg (start ops current time) s) :
    (s.ioQueue.map Prod.fst).Nodup ∧
      (∀ p, p < cfg.processCount → (p ∈ s.ioQueue.map Prod.fst ↔ Requesting (s.ops p))) ∧
      (∀ r ∈ s.ioQueue, r.1 < cfg.processCount ∧ r.2 ≤ pcTime (s.ops r.1)) ∧
      ∀ r ∈ s.ioQueue.tail, r.2 = pcTime (s.ops r.1) := by
  obtain ⟨ps, -, hvisits⟩ := hr.visits
  have hknown := hvisits.known
  have hrequests := hvisits.requests hprogram
  refine ⟨hrequests.nodup, hrequests.waits, fun r hmem => ⟨?_, hrequests.left r hmem⟩,
    hrequests.later⟩
  exact Nat.lt_of_lt_of_le (hknown.ioQueue r hmem) hknown.born_le

/-- The first process of the table up to its first request, alone on CPU `c`. -/
def toRequest (c : Fin n) : List (Turn n) :=
  -- the thread enters `idle`, and the supervisor creates the process
  List.replicate 2 (.cpu c) ++ List.replicate 6 .sup ++
  -- `idle` schedules it, and the supervisor simulates its first burst
  List.replicate 5 (.cpu c) ++ List.replicate 14 .sup

/-- The table, with one CPU. -/
theorem io_queue_exact_first : ∃ s : Sim 1, s.ioQueue = [(0, 2)] ∧
    ∀ p, p < 8 → (p ∈ s.ioQueue.map Prod.fst ↔ Requesting (s.ops p)) := by
  obtain ⟨s, hs, hqueue⟩ : ∃ s : Sim 1, run ⟨8, .f, 0⟩ (toRequest 0)
      (start operations (fun _ => none) timeRemaining) = .ok s ∧ s.ioQueue = [(0, 2)] :=
    ⟨_, rfl, rfl⟩
  exact ⟨s, hqueue, (io_queue_exact _ _ _ _ s operations_program (reaches_of_run hs)).2.1⟩

/-- A handler finds a process in `current[]`. -/
theorem mark_ok {c : Fin n} (hknown : (s.outline ps).Known N ops)
    (hthread : s.thread c = .preempt ∨ s.thread c = .yield ∨ s.thread c = .terminate)
    (st : ProcessState) : ∃ r, s.student.mark c st = .ok r := by
  obtain ⟨p, hp, -⟩ := (hknown.desk c).executed (serves_of_handler hthread)
  exact ⟨_, Student.mark_eq hp st⟩

/-- There is a next state, or the thread is blocked. -/
def Safe (x : Except Stop (Sim n)) : Prop := x ≠ .error .crash

theorem Safe.ok (s : Sim n) : Safe (.ok s) := by
  intro h
  cases h

theorem Safe.blocked : Safe (.error .blocked : Except Stop (Sim n)) := by
  intro h
  cases h

theorem Safe.region {locked : Bool} {s : Sim n} :
    Safe (if locked then .error .blocked else .ok s) := by
  cases locked with
  | true => exact .blocked
  | false => exact .ok s

/-- A section that returns. -/
theorem Safe.of_section {α : Type} {y : Except Fault α} {f : α → Sim n} (h : ∃ a, y = .ok a) :
    Safe (do let a ← section_ y; return f a) := by
  obtain ⟨a, rfl⟩ := h
  exact .ok (f a)

theorem Safe.stepCpu {c : Fin n} (hps : Represents s.student.readyQueue ps)
    (hknown : (s.outline ps).Known N ops) : Safe (OsSim.stepCpu cfg s c) := by
  rw [OsSim.stepCpu]
  split
  · exact .region
  · exact .blocked
  · exact .region
  · exact .ok _
  · exact .region
  · exact .region
  · refine Safe.of_section (f := fun r : Option Pid × Student n => _) ?_
    cases ps with
    | nil =>
        obtain ⟨queue, -, h⟩ := Student.schedule_nil hps
        exact ⟨_, h⟩
    | cons p ps =>
        obtain ⟨queue, -, h⟩ := Student.schedule_cons hps
        exact ⟨_, h⟩
  · exact .region
  · exact .ok _
  · rename_i hthread
    exact Safe.of_section (f := fun r : Pid × Student n => _)
      (mark_ok hknown (.inl hthread) .ready)
  · rename_i p hthread
    obtain ⟨queue, -, h⟩ := Student.pushBack_eq hps p
    exact Safe.of_section ⟨_, h⟩
  · rename_i hthread
    exact Safe.of_section (f := fun r : Pid × Student n => _)
      (mark_ok hknown (.inr (.inl hthread)) .waiting)
  · rename_i hthread
    exact Safe.of_section (f := fun r : Pid × Student n => _)
      (mark_ok hknown (.inr (.inr hthread)) .terminated)

theorem Safe.simulateProcess {c : Fin n} {p : Pid} (h : Residual (s.ops p)) :
    Safe (OsSim.simulateProcess s c p) := by
  rw [OsSim.simulateProcess]
  split
  · dsimp only
    split
    · exact .ok _
    · exact .ok _
  · dsimp only
    split
    · exact .ok _
    · exact .ok _
    · exact .ok _
  · exact .ok _
  · exact .ok _
  · -- the last operation is not `OP_CPU`
    rename_i hops
    rw [hops] at h
    cases h with
    | executing h => cases h
  · rename_i hops
    rw [hops] at h
    cases h with
    | executing h => cases h

theorem Safe.simulateIo (hknown : (s.outline ps).Known N ops)
    (hrequests : (s.outline ps).Requests N) : Safe (OsSim.simulateIo s) := by
  rw [OsSim.simulateIo]
  split
  · exact .ok _
  · exact .ok _
  · rename_i p queue hqueue
    have hmem : (p, 0) ∈ s.ioQueue := hqueue ▸ List.mem_cons_self
    have hp : p < N := Nat.lt_of_lt_of_le (hknown.ioQueue (p, 0) hmem) hknown.born_le
    obtain ⟨time, rest, hops⟩ := (hrequests.waits p hp).mp (List.mem_map_of_mem hmem)
    have hops : s.ops p = ⟨.io, time⟩ :: rest := hops
    have hresidual : Residual (s.ops p) := hrequests.residual p hp
    rw [hops] at hresidual ⊢
    -- a burst follows the request
    cases hresidual.complete with
    | last _ _ => exact .ok _
    | burst _ _ _ => exact .ok _

theorem Safe.stepWakeUp {p : Pid} {caller : Caller} (hps : Represents s.student.readyQueue ps)
    (point : WakePoint n) : Safe (stepWakeUp cfg s p caller point) := by
  cases point with
  | push =>
      obtain ⟨queue, -, h⟩ := Student.wakeUp_eq cfg.mode hps p
      rw [OsSim.stepWakeUp, h]
      exact .ok _
  | scan => exact .ok _
  | force c => exact .ok _
  | forceWaiting c => exact .blocked
  | forceWoken c => exact .ok _
  | signal => exact .ok _

theorem Safe.stepSup (hps : Represents s.student.readyQueue ps)
    (hknown : (s.outline ps).Known N ops) (hrequests : (s.outline ps).Requests N) :
    Safe (OsSim.stepSup cfg s) := by
  rw [OsSim.stepSup]
  split
  · split
    · exact .ok _
    · exact .ok _
  · rw [OsSim.simulateCpus]
    split
    · split
      · exact .ok _
      · rename_i hk _ p hcurrent
        have hp : p < N := Nat.lt_of_lt_of_le ((hknown.desk _).current p hcurrent) hknown.born_le
        exact .simulateProcess (hrequests.residual p hp)
    · exact .ok _
  · exact .blocked
  · exact .ok _
  · exact .simulateIo hknown hrequests
  · exact .ok _
  · exact .stepWakeUp hps _
  · exact .ok _
  · exact .ok _
  · exact .blocked

end Simulator

/-- **No thread reads past the operations of a process or through a null pointer**, whether
the entries of `current[]` are `NULL` or processes at the start. -/
theorem never_crashes (cfg : Config) (ops : Pid → List Op) (current : Fin n → Option Pid)
    (time : Pid → ℕ) (s : Sim n) (hprogram : ∀ p, p < cfg.processCount → Program (ops p))
    (hr : Reaches cfg (start ops current time) s) (t : Turn n) :
    step cfg s t ≠ .error .crash := by
  obtain ⟨ps, hps, hvisits⟩ := hr.visits
  cases t with
  | cpu c => exact Safe.stepCpu hps hvisits.known
  | sup => exact Safe.stepSup hps hvisits.known (hvisits.requests hprogram)

/-- The table, with one CPU. -/
theorem never_crashes_first : ∃ s : Sim 1, s.ioQueue = [(0, 2)] ∧
    ∀ t, step ⟨8, .f, 0⟩ s t ≠ .error .crash := by
  obtain ⟨s, hs, hqueue⟩ : ∃ s : Sim 1, run ⟨8, .f, 0⟩ (toRequest 0)
      (start operations (fun _ => none) timeRemaining) = .ok s ∧ s.ioQueue = [(0, 2)] :=
    ⟨_, rfl, rfl⟩
  exact ⟨s, hqueue, never_crashes _ _ _ _ s operations_program (reaches_of_run hs)⟩

end OsSim

end ProjectArchive.Scheduler
