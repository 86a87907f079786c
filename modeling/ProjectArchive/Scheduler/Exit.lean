/-
ProjectArchive/Scheduler/Exit.lean

When the simulator exits, and how long it takes at least.

The supervisor exits when `processes_terminated` has reached `PROCESS_COUNT`.  It
is incremented by the thread of a CPU, after an event that is raised when a
process moves to `OP_TERMINATE`; the event may be lost, but it is never counted
twice.  So the simulator does not exit before every process has come to its end
(`exits_last`).  The number of rounds is bounded from below by the work in the
table: a CPU works on one process for one unit of every round, the device on one
request (`rounds_ge`).  The time that the simulator reports is that number,
unless there are more rounds than an `unsigned int` counts
(`execution_time_ge`).
-/
import ProjectArchive.Scheduler.Requests
import ProjectArchive.Library.Counting
import ProjectArchive.Library.Sweep

namespace ProjectArchive.Scheduler

namespace OsSim

open Counting Sweep

variable {n N : ℕ}

/-! ### Processes that have come to their end -/

/-- The next operation is `OP_TERMINATE`. -/
def finished : List Op → Bool
  | ⟨.terminate, _⟩ :: _ => true
  | _ => false

/-- The number of processes that have come to their end. -/
def ended (N : ℕ) (ops : Pid → List Op) : ℕ :=
  number (fun l => finished l = true) fun p : Fin N => ops p

/-- An event is on its way to `processes_terminated++`. -/
def Desk.terminating (d : Desk) : Bool :=
  match d.thread with
  | .count | .dispatch .terminate => true
  | .waiting | .woken => d.state = .terminate
  | _ => false

/-- The number of these events. -/
def Outline.terminating (o : Outline n) : ℕ := number (fun d : Desk => d.terminating = true) o.desk

/-- Every process that is counted, or is about to be, has come to its end. -/
structure Outline.Counted (N : ℕ) (o : Outline n) : Prop where
  counted : o.terminated + o.terminating ≤ ended N o.ops
  exited : o.stage = .exited → N ≤ o.terminated

section Counted

variable {o o' : Outline n} {ops : Pid → List Op} {d d' : Desk} {ready ready' : List Pid}
  {p : Pid} {l : List Op} {c : Fin n}

/-- The table after a process has gone on. -/
theorem update_fin (ops : Pid → List Op) (hp : p < N) (l : List Op) :
    (fun q : Fin N => Function.update ops p l q) =
      Function.update (fun q : Fin N => ops q) ⟨p, hp⟩ l := by
  funext q
  rcases eq_or_ne q ⟨p, hp⟩ with rfl | hne
  · rw [Function.update_self, Function.update_self]
  · have hval : (q : Pid) ≠ p := fun he => hne (Fin.ext he)
    rw [Function.update_of_ne hval, Function.update_of_ne hne]

theorem ended_update (ops : Pid → List Op) (hp : p < N) (l : List Op) :
    ended N (Function.update ops p l) + one (finished (ops p) = true) =
      ended N ops + one (finished l = true) := by
  rw [ended, update_fin ops hp]
  exact number_update _ _ _ l

/-- The thread of a CPU gets to `processes_terminated++` by an event only. -/
theorem Desk.Step.terminating (h : d.Step ready d' ready') (hd : d'.terminating = true) :
    d.terminating = true := by
  cases h with
  | idle _ _ => cases hd
  | run _ _ => cases hd
  | wait _ hstate =>
      -- it waits on while its state is `CPU_RUNNING`
      have hd : decide (d.state = .terminate) = true := hd
      rw [hstate] at hd
      cases hd
  | leave hthread _ =>
      rw [Desk.terminating, hthread]
      rcases hst : d.state with _ | _ | _ | _ | _
      all_goals first | rfl | (rw [hst] at hd; cases hd)
  | @call st hthread =>
      -- the handler is that of the state it has left the loop with
      rw [Desk.terminating, hthread]
      cases st with
      | terminate => rfl
      | idle => cases hd
      | running => cases hd
      | preempt => cases hd
      | yield => cases hd
  | wake _ => cases hd
  | pop _ => cases hd
  | @switch pcb _ =>
      cases pcb with
      | none => cases hd
      | some p => cases hd
  | install _ => cases hd
  | preempt _ _ => cases hd
  | pushBack _ _ => cases hd
  | release _ => cases hd

/-- Another event may overwrite it. -/
theorem Desk.raise_terminating {event : CpuState} (hevent : event ≠ .terminate)
    (hd : (d.raise event).terminating = true) : d.terminating = true := by
  have hno : decide (event = .terminate) ≠ true := fun h => hevent (of_decide_eq_true h)
  unfold Desk.raise Desk.signal Desk.terminating at hd
  unfold Desk.terminating
  dsimp only at hd
  by_cases hwaiting : d.thread = .waiting
  · rw [if_pos hwaiting] at hd
    exact absurd hd hno
  · rw [if_neg hwaiting] at hd
    -- a thread that is past the loop does not look at the new state
    cases hthread : d.thread with
    | waiting => exact absurd hthread hwaiting
    | woken =>
        rw [hthread] at hd
        exact absurd hd hno
    | count => rfl
    | dispatch st =>
        rw [hthread] at hd
        cases st with
        | terminate => rfl
        | idle => cases hd
        | running => cases hd
        | preempt => cases hd
        | yield => cases hd
    | top => rw [hthread] at hd; cases hd
    | idle => rw [hthread] at hd; cases hd
    | preempt => rw [hthread] at hd; cases hd
    | pushBack p => rw [hthread] at hd; cases hd
    | yield => rw [hthread] at hd; cases hd
    | terminate => rw [hthread] at hd; cases hd
    | schedule => rw [hthread] at hd; cases hd
    | switch pcb => rw [hthread] at hd; cases hd
    | install p => rw [hthread] at hd; cases hd

/-- A step that counts nothing, and takes no process to its end. -/
theorem Outline.Counted.same (h : o.Counted N) (hterminating : o'.terminating ≤ o.terminating)
    (hterminated : o'.terminated = o.terminated) (hended : ended N o.ops ≤ ended N o'.ops)
    (hexited : o'.stage ≠ .exited) : o'.Counted N where
  counted := by
    have hcounted := h.counted
    omega
  exited hstage := absurd hstage hexited

theorem terminating_setDesk (hd : d.terminating = true → (o.desk c).terminating = true) :
    (o.setDesk c d).terminating ≤ o.terminating :=
  number_update_le (P := fun d : Desk => d.terminating = true) hd

/-- A process that goes on to an operation that is not `OP_TERMINATE`. -/
theorem ended_goes (hp : p < N) (hl : finished (ops p) = true → finished l = true) :
    ended N ops ≤ ended N (Function.update ops p l) := by
  have hupdate := ended_update ops hp l
  by_cases hbefore : finished (ops p) = true
  · rw [one_true hbefore, one_true (hl hbefore)] at hupdate
    omega
  · rw [one_false hbefore] at hupdate
    omega

/-- **Every step counts processes that have come to their end only.** -/
theorem Outline.Counted.next (h : o.Counted N) (hknown : o.Known N ops)
    (hrequests : o.Requests N) (hn : Next N o o') : o'.Counted N := by
  have hlt : ∀ {c q}, (o.desk c).current = some q → q < N := fun {c q} hq =>
    Nat.lt_of_lt_of_le ((hknown.desk c).current q hq) hknown.born_le
  -- a step of the supervisor that does not touch the processes
  have hmoves : ∀ {s : Stage} {queue : List (Pid × ℕ)} {time rounds created : ℕ}, s ≠ .exited →
      ({ o with
        ioQueue := queue, time := time, rounds := rounds, created := created, stage := s } :
        Outline n).Counted N :=
    fun hs => ⟨h.counted, fun hstage => absurd hstage hs⟩
  cases hn with
  | still => exact h
  | @thread c d ready hd =>
      exact ⟨Nat.le_trans (Nat.add_le_add_left (terminating_setDesk hd.terminating) _) h.counted,
        h.exited⟩
  | @count c hthread =>
      have hcounted := h.counted
      have hupdate := number_update (fun d : Desk => d.terminating = true) o.desk c
        { o.desk c with thread := .terminate }
      have hbefore : (o.desk c).terminating = true := by
        rw [Desk.terminating, hthread]
      have hafter : ¬({ o.desk c with thread := .terminate } : Desk).terminating = true :=
        Bool.false_ne_true
      rw [one_true hbefore, one_false hafter] at hupdate
      refine ⟨?_, fun hstage => Nat.le_succ_of_le (h.exited hstage)⟩
      show o.terminated + 1 + number (fun d : Desk => d.terminating = true)
        (Function.update o.desk c { o.desk c with thread := .terminate }) ≤ ended N o.ops
      rw [Outline.terminating] at hcounted
      omega
  | exit _ hall => exact ⟨h.counted, fun _ => hall⟩
  | round _ _ => exact hmoves Stage.noConfusion
  | pass _ _ => exact hmoves Stage.noConfusion
  | @tick c p _ _ d _ hcurrent hops hd =>
      refine h.same (terminating_setDesk ?_) rfl (ended_goes (hlt hcurrent) ?_) Stage.noConfusion
      · rcases hd with rfl | rfl
        · exact id
        · exact Desk.raise_terminating CpuState.noConfusion
      · rw [hops]
        exact id
  | @request c p _ _ _ hcurrent hops =>
      refine h.same (terminating_setDesk (Desk.raise_terminating CpuState.noConfusion)) rfl
        (ended_goes (hlt hcurrent) ?_) Stage.noConfusion
      rw [hops]
      exact id
  | @finish c p time rest _ hcurrent hops =>
      -- one event more, and one process more
      have hcounted := h.counted
      have hupdate := number_update (fun d : Desk => d.terminating = true) o.desk c
        ((o.desk c).raise .terminate)
      have hended := ended_update o.ops (hlt hcurrent) (⟨.terminate, time⟩ :: rest)
      have hbefore : ¬finished (o.ops p) = true := by
        rw [hops]
        exact Bool.false_ne_true
      have hafter : finished (⟨.terminate, time⟩ :: rest) = true := rfl
      rw [one_false hbefore, one_true hafter] at hended
      have hone := one_le (P := ((o.desk c).raise .terminate).terminating = true)
      refine ⟨?_, fun hstage => by cases hstage⟩
      show o.terminated + number (fun d : Desk => d.terminating = true)
        (Function.update o.desk c ((o.desk c).raise .terminate)) ≤
          ended N (Function.update o.ops p (⟨.terminate, time⟩ :: rest))
      rw [Outline.terminating] at hcounted
      omega
  | @burst c p _ _ _ hcurrent hops =>
      refine h.same (Nat.le_refl _) rfl (ended_goes (hlt hcurrent) ?_) Stage.noConfusion
      rw [hops]
      exact id
  | device _ _ => exact hmoves Stage.noConfusion
  | free _ _ => exact hmoves Stage.noConfusion
  | serve _ _ => exact hmoves Stage.noConfusion
  | @complete p queue done op rest _ hqueue hops =>
      have hmem : (p, 0) ∈ o.ioQueue := hqueue ▸ List.mem_cons_self
      have hp : p < N := Nat.lt_of_lt_of_le (hknown.ioQueue (p, 0) hmem) hknown.born_le
      obtain ⟨time, ops, he⟩ := (hrequests.waits p hp).mp (List.mem_map_of_mem hmem)
      refine h.same (Nat.le_refl _) rfl (ended_goes hp ?_) Stage.noConfusion
      rw [he]
      exact fun hfinished => absurd hfinished Bool.false_ne_true
  | create _ _ _ => exact hmoves Stage.noConfusion
  | advance _ _ => exact hmoves Stage.noConfusion
  | push _ _ => exact ⟨h.counted, fun hstage => by cases hstage⟩
  | force _ _ =>
      exact ⟨Nat.le_trans (Nat.add_le_add_left (terminating_setDesk
        (Desk.raise_terminating CpuState.noConfusion)) _) h.counted, h.exited⟩
  | completed _ => exact hmoves Stage.noConfusion
  | created _ => exact hmoves Stage.noConfusion

end Counted

/-! ### Work -/

/-- The calls of `simulate_process` that the operations take: one for every unit of time, and
one to move to the next operation. -/
def cpuWork : List Op → ℕ
  | [] => 0
  | ⟨.cpu, time⟩ :: ops => time + 1 + cpuWork ops
  | _ :: ops => cpuWork ops

/-- The calls of `simulate_io` that they take. -/
def ioWork : List Op → ℕ
  | [] => 0
  | ⟨.io, time⟩ :: ops => time + 1 + ioWork ops
  | _ :: ops => ioWork ops

/-- The work of the processes in the table. -/
def work (N : ℕ) (w : List Op → ℕ) (ops : Pid → List Op) : ℕ := total w fun p : Fin N => ops p

/-- The calls of `simulate_io` that the requests in the queue take. -/
def queued (queue : List (Pid × ℕ)) : ℕ := (queue.map fun r => r.2 + 1).sum

/-- How often `simulate_process` may have been called. -/
def Outline.slots (o : Outline n) : ℕ :=
  n * o.rounds + match o.stage with
    | .top | .exited => 0
    | .cpus k => min k n
    | .io | .creat | .waking _ _ | .woke _ => n

/-- How often `simulate_io` may have been called. -/
def Outline.turns (o : Outline n) : ℕ :=
  o.rounds + match o.stage with
    | .top | .exited | .cpus _ | .io => 0
    | .creat | .waking _ _ | .woke _ => 1

/-- The work that has been done fits into the time. -/
structure Outline.Worked (N : ℕ) (ops : Pid → List Op) (o : Outline n) : Prop where
  cpu : work N cpuWork ops ≤ work N cpuWork o.ops + o.slots
  io : work N ioWork ops ≤ work N (fun l => ioWork l.tail) o.ops + queued o.ioQueue + o.turns

section Work

variable {o o' : Outline n} {ops : Pid → List Op} {p : Pid} {l : List Op} {c : Fin n}

theorem work_update (w : List Op → ℕ) (ops : Pid → List Op) (hp : p < N) (l : List Op) :
    work N w (Function.update ops p l) + w (ops p) = work N w ops + w l := by
  rw [work, update_fin ops hp]
  exact total_update _ _ _ l

/-- A step in which no work is done. -/
theorem Outline.Worked.same (h : o.Worked N ops) (hops : o'.ops = o.ops)
    (hqueue : o'.ioQueue = o.ioQueue) (hslots : o.slots ≤ o'.slots) (hturns : o.turns ≤ o'.turns) :
    o'.Worked N ops := by
  have hcpu := h.cpu
  have hio := h.io
  refine ⟨?_, ?_⟩
  · rw [hops]
    omega
  · rw [hops, hqueue]
    omega

/-- A call of `simulate_process`. -/
theorem Outline.Worked.simulated {k : ℕ} (h : o.Worked N ops) (hstage : o.stage = .cpus c)
    (hp : p < N) (hcpu : cpuWork (o.ops p) = cpuWork l + 1)
    (hio : ioWork (o.ops p).tail = ioWork l.tail + k)
    (hops : o'.ops = Function.update o.ops p l) (hqueue : queued o'.ioQueue = queued o.ioQueue + k)
    (hrounds : o'.rounds = o.rounds) (hstage' : o'.stage = .cpus (c + 1)) : o'.Worked N ops := by
  have hworked := h.cpu
  have hserved := h.io
  have hlt := c.isLt
  have hcpus := work_update cpuWork o.ops hp l
  have hios := work_update (fun l => ioWork l.tail) o.ops hp l
  simp only [Outline.slots, hstage] at hworked
  simp only [Outline.turns, hstage] at hserved
  refine ⟨?_, ?_⟩
  · rw [hops, Outline.slots, hstage', hrounds]
    dsimp only
    omega
  · rw [hops, hqueue, Outline.turns, hstage', hrounds]
    dsimp only at hios ⊢
    omega

/-- **Every step does the work of one call at most.** -/
theorem Outline.Worked.next (h : o.Worked N ops) (hknown : o.Known N ops)
    (hrequests : o.Requests N) (hn : Next N o o') : o'.Worked N ops := by
  have hlt : ∀ {c q}, (o.desk c).current = some q → q < N := fun {c q} hq =>
    Nat.lt_of_lt_of_le ((hknown.desk c).current q hq) hknown.born_le
  cases hn with
  | still => exact h
  | thread _ => exact h.same rfl rfl (Nat.le_refl _) (Nat.le_refl _)
  | count _ => exact h.same rfl rfl (Nat.le_refl _) (Nat.le_refl _)
  | exit hstage _ =>
      refine h.same rfl rfl ?_ ?_
      · simp [Outline.slots, hstage]
      · simp [Outline.turns, hstage]
  | round hstage _ =>
      refine h.same rfl rfl ?_ ?_
      · simp [Outline.slots, hstage]
      · simp [Outline.turns, hstage]
  | @pass k hstage _ =>
      refine h.same rfl rfl ?_ ?_
      · simp only [Outline.slots, hstage]
        omega
      · simp [Outline.turns, hstage]
  | @tick c p time rest d hstage hcurrent hops _ =>
      refine h.simulated (k := 0) hstage (hlt hcurrent) ?_ ?_ rfl rfl rfl rfl
      · rw [hops, cpuWork, cpuWork]
        omega
      · rw [hops]
        rfl
  | @request c p time rest hstage hcurrent hops =>
      refine h.simulated (k := time + 1) hstage (hlt hcurrent) ?_ ?_ rfl ?_ rfl rfl
      · rw [hops, cpuWork]
        omega
      · rw [hops, List.tail_cons, ioWork, List.tail_cons]
        omega
      · simp [queued]
  | @finish c p time rest hstage hcurrent hops =>
      refine h.simulated (k := 0) hstage (hlt hcurrent) ?_ ?_ rfl rfl rfl rfl
      · rw [hops, cpuWork]
        omega
      · rw [hops]
        rfl
  | @burst c p time rest hstage hcurrent hops =>
      refine h.simulated (k := 0) hstage (hlt hcurrent) ?_ ?_ rfl rfl rfl rfl
      · rw [hops, cpuWork]
        omega
      · rw [hops]
        rfl
  | @device k hstage _ =>
      refine h.same rfl rfl ?_ ?_
      · simp only [Outline.slots, hstage]
        omega
      · simp [Outline.turns, hstage]
  | free hstage _ =>
      refine h.same rfl rfl ?_ ?_
      · simp [Outline.slots, hstage]
      · simp [Outline.turns, hstage]
  | @serve p time queue hstage hqueue =>
      have hcpu := h.cpu
      have hio := h.io
      simp only [Outline.slots, hstage] at hcpu
      simp only [Outline.turns, hstage, hqueue, queued, List.map_cons, List.sum_cons] at hio
      refine ⟨hcpu, ?_⟩
      simp only [Outline.turns, queued, List.map_cons, List.sum_cons]
      omega
  | @complete p queue done op rest hstage hqueue hops =>
      have hmem : (p, 0) ∈ o.ioQueue := hqueue ▸ List.mem_cons_self
      have hp : p < N := Nat.lt_of_lt_of_le (hknown.ioQueue (p, 0) hmem) hknown.born_le
      -- the process goes on from a request to a burst
      obtain ⟨time, burst, he⟩ := (hrequests.waits p hp).mp (List.mem_map_of_mem hmem)
      have hresidual := hrequests.residual p hp
      rw [he] at hresidual
      obtain ⟨rfl, rfl⟩ : done = ⟨.io, time⟩ ∧ op :: rest = burst :=
        List.cons.inj (hops.symm.trans he)
      have hop : ioWork (op :: rest) = ioWork rest := by
        cases hresidual.complete with
        | last _ _ => rfl
        | burst _ _ _ => rfl
      have hcpu := h.cpu
      have hio := h.io
      have hcpus := work_update cpuWork o.ops hp (op :: rest)
      have hios := work_update (fun l => ioWork l.tail) o.ops hp (op :: rest)
      rw [hops, cpuWork] at hcpus
      · rw [hops] at hios
        simp only [List.tail_cons, hop] at hios
        simp only [Outline.slots, hstage] at hcpu
        simp only [Outline.turns, hstage, hqueue, queued, List.map_cons, List.sum_cons] at hio
        refine ⟨?_, ?_⟩
        · simp only [Outline.slots]
          omega
        · simp only [Outline.turns, queued]
          omega
      · exact fun _ => by simp
  | create hstage _ _ =>
      refine h.same rfl rfl ?_ ?_
      · simp [Outline.slots, hstage]
      · simp [Outline.turns, hstage]
  | advance hstage _ =>
      refine h.same rfl rfl ?_ ?_
      · simp only [Outline.slots, hstage]
        rw [Nat.mul_succ]
        omega
      · simp [Outline.turns, hstage]
  | push hstage _ =>
      refine h.same rfl rfl ?_ ?_
      · simp [Outline.slots, hstage]
      · simp [Outline.turns, hstage]
  | force _ _ => exact h.same rfl rfl (Nat.le_refl _) (Nat.le_refl _)
  | completed hstage =>
      refine h.same rfl rfl ?_ ?_
      · simp [Outline.slots, hstage]
      · simp [Outline.turns, hstage]
  | created hstage =>
      refine h.same rfl rfl ?_ ?_
      · simp only [Outline.slots, hstage]
        rw [Nat.mul_succ]
        omega
      · simp [Outline.turns, hstage]

end Work

/-! ### The simulator -/

section Simulator

variable {ops : Pid → List Op} {current : Fin n → Option Pid} {o : Outline n}

theorem Outline.Counted.begin_ : (begin_ ops current).Counted N where
  counted := by
    have hnone : (OsSim.begin_ ops current).terminating = 0 :=
      number_eq_zero_iff.mpr fun _ => Bool.false_ne_true
    rw [hnone]
    exact Nat.zero_le _
  exited hstage := by cases hstage

/-- A process begins with a burst. -/
theorem Program.ioWork_tail {l : List Op} (h : Program l) : ioWork l = ioWork l.tail := by
  cases h with
  | last _ _ => rfl
  | burst _ _ _ => rfl

theorem Outline.Worked.begin_ (hprogram : ∀ p, p < N → Program (ops p)) :
    (begin_ ops current).Worked N ops where
  cpu := Nat.le_add_right _ _
  io := by
    have htail : work N ioWork ops = work N (fun l => ioWork l.tail) ops := by
      unfold work total
      exact Finset.sum_congr rfl fun p _ => (hprogram p p.isLt).ioWork_tail
    rw [htail]
    exact Nat.le_add_right _ _

theorem Visits.accounts (hprogram : ∀ p, p < N → Program (ops p)) (h : Visits N ops current o) :
    o.Counted N ∧ o.Worked N ops := by
  induction h with
  | refl => exact ⟨.begin_, .begin_ hprogram⟩
  | tail hvisits hnext ih =>
      have hknown := Visits.known hvisits
      have hrequests := Visits.requests hprogram hvisits
      exact ⟨ih.1.next hknown hrequests hnext, ih.2.next hknown hrequests hnext⟩

theorem Residual.of_finished {l : List Op} (h : Residual l) (hl : OsSim.finished l = true) :
    ∃ time, l = [⟨.terminate, time⟩] := by
  cases h with
  | executing hprogram =>
      cases hprogram with
      | last _ _ => cases hl
      | burst _ _ _ => cases hl
  | requesting _ _ => cases hl
  | finished time => exact ⟨time, rfl⟩

/-- The supervisor has exited. -/
theorem Outline.Counted.ends (h : o.Counted N) (hrequests : o.Requests N)
    (hexit : o.stage = .exited) {p : Pid} (hp : p < N) : ∃ time, o.ops p = [⟨.terminate, time⟩] := by
  have hall : Fintype.card (Fin N) ≤ ended N o.ops := by
    rw [Fintype.card_fin]
    exact (h.exited hexit).trans ((Nat.le_add_right _ _).trans h.counted)
  have hfinished : finished (o.ops p) = true := of_card_le_number hall ⟨p, hp⟩
  exact (hrequests.residual p hp).of_finished hfinished

/-- A process with a request has not come to its end. -/
theorem Visits.exits (hprogram : ∀ p, p < N → Program (ops p)) (h : Visits N ops current o)
    (hexit : o.stage = .exited) :
    o.ioQueue = [] ∧ ∀ p, p < N → ∃ time, o.ops p = [⟨.terminate, time⟩] := by
  have hknown := h.known
  have hrequests := h.requests hprogram
  have hends : ∀ p, p < N → ∃ time, o.ops p = [⟨.terminate, time⟩] :=
    fun p hp => (h.accounts hprogram).1.ends hrequests hexit hp
  refine ⟨List.eq_nil_iff_forall_not_mem.mpr fun r hmem => ?_, hends⟩
  have hp : r.1 < N := Nat.lt_of_lt_of_le (hknown.ioQueue r hmem) hknown.born_le
  obtain ⟨u, rest, hops⟩ := (hrequests.waits r.1 hp).mp (List.mem_map_of_mem hmem)
  obtain ⟨time, hend⟩ := hends r.1 hp
  have hboth : [(⟨.terminate, time⟩ : Op)] = ⟨.io, u⟩ :: rest := hend.symm.trans hops
  cases hboth

/-- No work is left. -/
theorem work_ended {w : List Op → ℕ} (hw : ∀ time, w [⟨.terminate, time⟩] = 0)
    (hends : ∀ p, p < N → ∃ time, ops p = [⟨.terminate, time⟩]) : work N w ops = 0 := by
  unfold work total
  refine Finset.sum_eq_zero fun p _ => ?_
  obtain ⟨time, hend⟩ := hends p p.isLt
  show w (ops p) = 0
  rw [hend, hw]

theorem Visits.rounds_ge (hprogram : ∀ p, p < N → Program (ops p)) (h : Visits N ops current o)
    (hexit : o.stage = .exited) :
    work N cpuWork ops ≤ n * o.rounds ∧ work N ioWork ops ≤ o.rounds ∧
      (o.rounds < 2 ^ 32 → 10 * N ≤ o.rounds + 9) := by
  obtain ⟨hempty, hends⟩ := h.exits hprogram hexit
  have hworked := (h.accounts hprogram).2
  have hknown := h.known
  refine ⟨?_, ?_, ?_⟩
  · have hcpu := hworked.cpu
    rw [work_ended (fun _ => rfl) hends, Outline.slots, hexit] at hcpu
    dsimp only at hcpu
    omega
  · have hio := hworked.io
    rw [work_ended (fun _ => rfl) hends, hempty, Outline.turns, hexit] at hio
    simp only [queued, List.map_nil, List.sum_nil] at hio
    omega
  · intro hwraps
    -- the last process is not as it is in the table, so it has been created
    rcases Nat.eq_zero_or_pos N with rfl | hpos
    · omega
    · have hlast : N - 1 < N := Nat.sub_lt hpos Nat.one_pos
      have hcreated := hknown.created hwraps
      have hborn : o.born = o.created := by simp [Outline.born, hexit]
      have hlt : N - 1 < o.born := by
        by_contra hnot
        obtain ⟨time, hend⟩ := hends (N - 1) hlast
        have hstart := hprogram (N - 1) hlast
        rw [← hknown.untouched _ (Nat.le_of_not_lt hnot), hend] at hstart
        cases hstart
      omega

end Simulator

/-- **The simulator does not exit before every process has come to its end**: the processes
that it counts have. -/
theorem exits_last (cfg : Config) (ops : Pid → List Op) (current : Fin n → Option Pid)
    (time : Pid → ℕ) (s : Sim n) (hprogram : ∀ p, p < cfg.processCount → Program (ops p))
    (hr : Reaches cfg (start ops current time) s) :
    s.processesTerminated ≤ ended cfg.processCount s.ops ∧
      (s.sup = .exited → s.ioQueue = [] ∧
        ∀ p, p < cfg.processCount → ∃ time, s.ops p = [⟨.terminate, time⟩]) := by
  obtain ⟨ps, -, hvisits⟩ := hr.visits
  obtain ⟨hcounted, -⟩ := hvisits.accounts hprogram
  refine ⟨(Nat.le_add_right _ _).trans hcounted.counted, fun hexit => ?_⟩
  exact hvisits.exits hprogram (congrArg SupPoint.stage hexit)

/-- One process. -/
theorem exits_last_one : ∃ s : Sim 1, s.sup = .exited ∧ s.ioQueue = [] ∧
    ∀ p, p < 1 → ∃ time, s.ops p = [⟨.terminate, time⟩] := by
  obtain ⟨s, hs, hexit⟩ : ∃ s : Sim 1, run ⟨1, .f, 0⟩ (lifetime 0)
      (start (fun _ => [⟨.cpu, 0⟩, ⟨.io, 0⟩, ⟨.cpu, 0⟩, ⟨.terminate, 0⟩]) (fun _ => none)
        fun _ => 0) = .ok s ∧ s.sup = .exited := ⟨_, rfl, rfl⟩
  have hprogram : ∀ p, p < 1 → Program [⟨.cpu, 0⟩, ⟨.io, 0⟩, ⟨.cpu, 0⟩, ⟨.terminate, 0⟩] :=
    fun _ _ => .burst 0 0 (.last 0 0)
  exact ⟨s, hexit, (exits_last _ _ _ _ s hprogram (reaches_of_run hs)).2 hexit⟩

/-- **The rounds of the supervisor cover the work of the processes**: the bursts, divided among
the CPUs, and the I/O requests, one at a time. -/
theorem rounds_ge (cfg : Config) (ops : Pid → List Op) (current : Fin n → Option Pid)
    (time : Pid → ℕ) (s : Sim n) (hprogram : ∀ p, p < cfg.processCount → Program (ops p))
    (hr : Reaches cfg (start ops current time) s) (hexit : s.sup = .exited) :
    work cfg.processCount cpuWork ops ≤ n * s.rounds ∧
      work cfg.processCount ioWork ops ≤ s.rounds ∧
      (s.rounds < 2 ^ 32 → 10 * cfg.processCount ≤ s.rounds + 9) := by
  obtain ⟨ps, -, hvisits⟩ := hr.visits
  exact hvisits.rounds_ge hprogram (congrArg SupPoint.stage hexit)

/-- **The execution time covers the work of the processes**, and their creation, in fewer
rounds than an `unsigned int` counts. -/
theorem execution_time_ge (cfg : Config) (ops : Pid → List Op) (current : Fin n → Option Pid)
    (time : Pid → ℕ) (s : Sim n) (hprogram : ∀ p, p < cfg.processCount → Program (ops p))
    (hr : Reaches cfg (start ops current time) s) (hexit : s.sup = .exited)
    (hrounds : s.rounds < 2 ^ 32) :
    work cfg.processCount cpuWork ops ≤ n * s.simulatorTime ∧
      work cfg.processCount ioWork ops ≤ s.simulatorTime ∧
      10 * cfg.processCount ≤ s.simulatorTime + 9 := by
  obtain ⟨hcpu, hio, hcreated⟩ := rounds_ge cfg ops current time s hprogram hr hexit
  rw [simulatorTime_eq hr, toUnsigned_of_lt hrounds]
  exact ⟨hcpu, hio, hcreated hrounds⟩

/-- One process: it takes two calls of `simulate_process` and one of `simulate_io`. -/
theorem execution_time_ge_one : ∃ s : Sim 1, s.sup = .exited ∧ 2 ≤ 1 * s.simulatorTime := by
  obtain ⟨s, hs, hexit, hrounds⟩ : ∃ s : Sim 1, run ⟨1, .f, 0⟩ (lifetime 0)
      (start (fun _ => [⟨.cpu, 0⟩, ⟨.io, 0⟩, ⟨.cpu, 0⟩, ⟨.terminate, 0⟩]) (fun _ => none)
        fun _ => 0) = .ok s ∧ s.sup = .exited ∧ s.rounds = 3 := ⟨_, rfl, rfl, rfl⟩
  have hprogram : ∀ p, p < 1 → Program [⟨.cpu, 0⟩, ⟨.io, 0⟩, ⟨.cpu, 0⟩, ⟨.terminate, 0⟩] :=
    fun _ _ => .burst 0 0 (.last 0 0)
  have hlt : s.rounds < 2 ^ 32 := by omega
  exact ⟨s, hexit, (execution_time_ge _ _ _ _ s hprogram (reaches_of_run hs) hexit hlt).1⟩

/-- The work in the table. -/
example : work 8 cpuWork operations = 666 ∧ work 8 ioWork operations = 309 := by decide

end OsSim

end ProjectArchive.Scheduler
