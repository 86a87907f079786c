/-
ProjectArchive/Scheduler/Preemption.lean

Which CPU `wake_up` preempts in mode `l`.

`wake_up` reads `current[]`, and takes a CPU to be idle if its entry is null.
This is right as long as `current[]` says which process every CPU executes
(`Boundary`); but `schedule` does not write to it when the ready queue is empty,
and its first contents come from `malloc`.  The loop over the CPUs looks for
the least remaining time and takes the value 0 to mean that it has not found
any yet, so that a process with no time remaining is forgotten unless it is on
the last CPU.  These are the only ways in which a history goes wrong
(`decides_right_iff`).
-/
import ProjectArchive.Scheduler.Handlers

namespace ProjectArchive.Scheduler

open Exec

variable {n : ℕ}

/-! ### The loop over the CPUs -/

namespace Student

variable {s : Student n} {seen l : List (Fin n)} {time : ℕ} {cpu : Option (Fin n)}

/-- The remaining time of the process that `current[i]` points to. -/
def remaining (s : Student n) (i : Fin n) : ℕ :=
  match s.current i with
  | none => 0
  | some q => s.timeRemaining q

/-- What the loop knows after it has seen some CPUs, none of which seemed to be idle. -/
def Scanned (s : Student n) (seen : List (Fin n)) (time : ℕ) (cpu : Option (Fin n)) : Prop :=
  seen = [] ∧ time = 0 ∧ cpu = none ∨
    ∃ front last i, seen = front ++ [last] ∧ i ∈ seen ∧ cpu = some i ∧ time = s.remaining i ∧
      (s.remaining last = 0 ↔ time = 0) ∧
      ((∀ j ∈ seen, s.remaining j ≠ 0) → ∀ j ∈ seen, time ≤ s.remaining j)

/-- The time that is known is 0 before the first CPU and after one with no time remaining. -/
theorem Scanned.next (h : s.Scanned seen time cpu) (i : Fin n) :
    s.Scanned (seen ++ [i]) (if s.remaining i < time ∨ time = 0 then s.remaining i else time)
      (if s.remaining i < time ∨ time = 0 then some i else cpu) := by
  right
  by_cases hless : s.remaining i < time ∨ time = 0
  · rw [if_pos hless, if_pos hless]
    refine ⟨seen, i, i, rfl, by simp, rfl, rfl, Iff.rfl, ?_⟩
    intro hall j hj
    rcases List.mem_append.mp hj with hj | hj
    · rcases h with ⟨rfl, -, -⟩ | ⟨front, last, k, rfl, hk, -, htime, -, hmin⟩
      · cases hj
      · have hle := hmin (fun j hj => hall j (List.mem_append_left _ hj)) j hj
        rcases hless with hless | hzero
        · exact (Nat.le_of_lt hless).trans hle
        · exact absurd (htime.symm.trans hzero) (hall k (List.mem_append_left _ hk))
    · rw [List.mem_singleton.mp hj]
  · rw [if_neg hless, if_neg hless]
    rw [not_or, Nat.not_lt] at hless
    rcases h with ⟨-, hzero, -⟩ | ⟨front, last, k, rfl, hk, hcpu, htime, hlast, hmin⟩
    · exact absurd hzero hless.2
    · refine ⟨front ++ [last], i, k, rfl, List.mem_append_left _ hk, hcpu, htime, ?_, ?_⟩
      · omega
      · intro hall j hj
        rcases List.mem_append.mp hj with hj | hj
        · exact hmin (fun j hj => hall j (List.mem_append_left _ hj)) j hj
        · rw [List.mem_singleton.mp hj]
          exact hless.1

/-- The loop sees all CPUs if none of them seems to be idle. -/
theorem Scanned.shortest (h : s.Scanned seen time cpu) (hl : ∀ i ∈ l, s.current i ≠ none) :
    (s.shortest l time cpu).1 = true ∧
      s.Scanned (seen ++ l) (s.shortest l time cpu).2.1 (s.shortest l time cpu).2.2 := by
  induction l generalizing seen time cpu with
  | nil =>
      rw [List.append_nil]
      exact ⟨rfl, h⟩
  | cons i l ih =>
      obtain ⟨q, hq⟩ := Option.ne_none_iff_exists'.mp (hl i (List.mem_cons_self ..))
      have hrest := ih (h.next i) fun j hj => hl j (List.mem_cons_of_mem _ hj)
      have hremaining : s.remaining i = s.timeRemaining q := by
        unfold remaining
        rw [hq]
      rw [hremaining, List.append_assoc] at hrest
      unfold Student.shortest
      rw [hq]
      dsimp only
      by_cases hless : s.timeRemaining q < time ∨ time = 0
      · rw [if_pos hless]
        rw [if_pos hless, if_pos hless] at hrest
        exact hrest
      · rw [if_neg hless]
        rw [if_neg hless, if_neg hless] at hrest
        exact hrest

/-- The loop stops at a CPU that seems to be idle. -/
theorem shortest_of_idle {i : Fin n} (hi : i ∈ l) (hnone : s.current i = none) (time : ℕ)
    (cpu : Option (Fin n)) : (s.shortest l time cpu).1 = false := by
  induction l generalizing time cpu with
  | nil => cases hi
  | cons k l ih =>
      unfold Student.shortest
      rcases hk : s.current k with - | q
      · rfl
      · have hi : i ∈ l := by
          rcases List.mem_cons.mp hi with rfl | hi
          · rw [hnone] at hk
            cases hk
          · exact hi
        dsimp only
        split
        · exact ih hi _ _
        · exact ih hi _ _

/-- `wake_up` preempts no CPU if one seems to be idle. -/
theorem preempted_of_idle {i : Fin n} (hnone : s.current i = none) (p : Pid) :
    s.preempted p = none := by
  unfold preempted
  have hidle := shortest_of_idle (List.mem_finRange i) hnone 0 none
  dsimp only
  rw [hidle]
  exact if_neg fun h => by cases h.1

/-- What `wake_up` does if no CPU seems to be idle. -/
theorem preempted_of_busy (hall : ∀ i, s.current i ≠ none) (p : Pid) :
    ∃ time cpu, s.Scanned (List.finRange n) time cpu ∧
      s.preempted p = if time < s.timeRemaining p then cpu else none := by
  have hstart : s.Scanned [] 0 none := .inl ⟨rfl, rfl, rfl⟩
  obtain ⟨htrue, hscanned⟩ := hstart.shortest (l := List.finRange n) fun i _ => hall i
  refine ⟨_, _, hscanned, ?_⟩
  unfold preempted
  dsimp only
  rw [htrue]
  simp only [true_and]

end Student

namespace Handlers

variable {timeslice : ℕ} {s s' : System n} {p : Pid} {ps : List Pid}

/-! ### The right decision -/

/-- `current[]` is null for the CPUs that are idle, and otherwise says what they execute. -/
def Boundary (s : System n) : Prop := ∀ c, s.student.current c = s.cpu c

/-- The CPU executes a process with the least remaining time of all that are executed. -/
def ExecutesShortest (s : System n) (c : Fin n) (q : Pid) : Prop :=
  s.cpu c = some q ∧
    ∀ d r, s.cpu d = some r → s.student.timeRemaining q ≤ s.student.timeRemaining r

/-- `wake_up` calls `force_preempt` if and only if no CPU is idle and the least remaining
time is less than that of the process, and then for a CPU with this time. -/
structure DecidesRight (s : System n) (p : Pid) : Prop where
  calls : (∃ c, preempted .l s p = some c) ↔ (∀ c, s.cpu c ≠ none) ∧
    ∃ c q, ExecutesShortest s c q ∧ s.student.timeRemaining q < s.student.timeRemaining p
  shortest : ∀ c, preempted .l s p = some c → ∃ q, ExecutesShortest s c q

/-- A process with no time remaining is executed on the last CPU only, if `wake_up` looks
at all CPUs for one with less time remaining than `p`. -/
def ZeroLast (s : System n) (p : Pid) : Prop :=
  s.student.timeRemaining p = 0 ∨ (∃ c, s.cpu c = none) ∨
    (∀ c q, s.cpu c = some q → s.student.timeRemaining q ≠ 0) ∨
    ∃ c q, c.val + 1 = n ∧ s.cpu c = some q ∧ s.student.timeRemaining q = 0

/-- The loop looks at the CPU with the greatest number last. -/
theorem val_of_finRange_eq {front : List (Fin n)} {last : Fin n}
    (h : List.finRange n = front ++ [last]) : last.val + 1 = n := by
  have hlength : n = front.length + 1 := by
    have hlength := congrArg List.length h
    rwa [List.length_finRange, List.length_append] at hlength
  have hget : (front ++ [last])[front.length]? = some last := by simp
  rw [← h, List.getElem?_eq_getElem (by simp; omega), List.getElem_finRange] at hget
  rw [← Option.some.inj hget]
  exact hlength.symm

theorem remaining_eq (hb : Boundary s) {c : Fin n} {q : Pid} (hc : s.cpu c = some q) :
    s.student.remaining c = s.student.timeRemaining q := by
  unfold Student.remaining
  rw [hb c, hc]

/-- It is right to preempt no CPU. -/
theorem DecidesRight.of_none (hdecision : preempted .l s p = none)
    (hnot : ¬((∀ c, s.cpu c ≠ none) ∧
      ∃ c q, ExecutesShortest s c q ∧ s.student.timeRemaining q < s.student.timeRemaining p)) :
    DecidesRight s p := by
  refine ⟨?_, ?_⟩
  · rw [hdecision]
    refine iff_of_false ?_ hnot
    rintro ⟨c, hc⟩
    cases hc
  · intro c hc
    rw [hdecision] at hc
    cases hc

/-- The decision is right if the time that the loop has found is the least one. -/
theorem DecidesRight.of_least {i : Fin n} {q : Pid} {time : ℕ} (hbusy : ∀ c, s.cpu c ≠ none)
    (hi : s.cpu i = some q) (htime : time = s.student.timeRemaining q)
    (hdecision : preempted .l s p = if time < s.student.timeRemaining p then some i else none)
    (hle : ∀ c r, s.cpu c = some r → time ≤ s.student.timeRemaining r) : DecidesRight s p := by
  have hshortest : ExecutesShortest s i q := ⟨hi, fun d r hd => htime ▸ hle d r hd⟩
  refine ⟨?_, ?_⟩
  · rw [hdecision]
    constructor
    · rintro ⟨c, hc⟩
      split at hc
      · rename_i hless
        exact ⟨hbusy, i, q, hshortest, htime ▸ hless⟩
      · cases hc
    · rintro ⟨-, c, r, hr, hless⟩
      exact ⟨i, if_pos ((hle c r hr.1).trans_lt hless)⟩
  · intro c hc
    rw [hdecision] at hc
    split at hc
    · obtain rfl := Option.some.inj hc
      exact ⟨q, hshortest⟩
    · cases hc

/-- A process with no time remaining is forgotten. -/
theorem not_decidesRight {i z : Fin n} {q qz : Pid} {time : ℕ} (hbusy : ∀ c, s.cpu c ≠ none)
    (hi : s.cpu i = some q) (htime : time = s.student.timeRemaining q)
    (hdecision : preempted .l s p = if time < s.student.timeRemaining p then some i else none)
    (hz : s.cpu z = some qz) (hzero : s.student.timeRemaining qz = 0) (hne : time ≠ 0)
    (hp : s.student.timeRemaining p ≠ 0) : ¬DecidesRight s p := by
  intro h
  obtain ⟨c, hc⟩ := h.calls.mpr ⟨hbusy, z, qz,
    ⟨hz, fun d r _ => hzero ▸ Nat.zero_le _⟩, hzero ▸ Nat.pos_of_ne_zero hp⟩
  obtain ⟨r, hr, hle⟩ := h.shortest c hc
  rw [hdecision] at hc
  split at hc
  · obtain rfl := Option.some.inj hc
    obtain rfl : q = r := Option.some.inj (hi.symm.trans hr)
    have hle0 := hle z qz hz
    rw [hzero, ← htime] at hle0
    exact hne (Nat.le_zero.mp hle0)
  · cases hc

/-- **With `current[]` right, the decision is right if and only if no process with no time
remaining is forgotten.** -/
theorem decidesRight_iff (hb : Boundary s) (p : Pid) : DecidesRight s p ↔ ZeroLast s p := by
  have hpreempted : preempted .l s p = s.student.preempted p := rfl
  by_cases hidle : ∃ c, s.cpu c = none
  · -- some CPU is idle
    obtain ⟨c, hc⟩ := hidle
    have hnone := Student.preempted_of_idle ((hb c).trans hc) p
    exact iff_of_true (.of_none (hpreempted.trans hnone) fun h => h.1 c hc) (.inr (.inl ⟨c, hc⟩))
  · have hbusy : ∀ c, s.cpu c ≠ none := fun c hc => hidle ⟨c, hc⟩
    have hexec : ∀ c, ∃ q, s.cpu c = some q := fun c => Option.ne_none_iff_exists'.mp (hbusy c)
    have hcurrent : ∀ c, s.student.current c ≠ none := fun c => hb c ▸ hbusy c
    obtain ⟨time, cpu, hscanned, hdecision⟩ := Student.preempted_of_busy hcurrent p
    rw [← hpreempted] at hdecision
    rcases hscanned with ⟨hnil, -, rfl⟩ | ⟨front, last, i, hall, -, rfl, htime, hlast, hmin⟩
    · -- there is no CPU
      have hempty : ∀ c : Fin n, False := by
        intro c
        have hmem := List.mem_finRange c
        rw [hnil] at hmem
        cases hmem
      rw [ite_self] at hdecision
      exact iff_of_true (.of_none hdecision fun ⟨_, c, _⟩ => hempty c)
        (.inr (.inr (.inl fun c => (hempty c).elim)))
    · have hval : last.val + 1 = n := val_of_finRange_eq hall
      obtain ⟨qi, hqi⟩ := hexec i
      rw [remaining_eq hb hqi] at htime
      by_cases hpositive : ∀ c q, s.cpu c = some q → s.student.timeRemaining q ≠ 0
      · -- every process has some time remaining
        refine iff_of_true (.of_least hbusy hqi htime hdecision ?_) (.inr (.inr (.inl hpositive)))
        intro c q hc
        rw [← remaining_eq hb hc]
        refine hmin (fun j _ => ?_) c (List.mem_finRange c)
        obtain ⟨r, hr⟩ := hexec j
        rw [remaining_eq hb hr]
        exact hpositive j r hr
      · push Not at hpositive
        obtain ⟨z, qz, hz, hzero⟩ := hpositive
        by_cases htime0 : time = 0
        · -- the last CPU executes a process with no time remaining
          obtain ⟨q, hq⟩ := hexec last
          have hq0 := hlast.mpr htime0
          rw [remaining_eq hb hq] at hq0
          refine iff_of_true (.of_least hbusy hqi htime hdecision ?_)
            (.inr (.inr (.inr ⟨last, q, hval, hq, hq0⟩)))
          intro c r _
          rw [htime0]
          exact Nat.zero_le _
        · by_cases hp0 : s.student.timeRemaining p = 0
          · -- no process has less time remaining than `p`
            rw [hp0, if_neg (Nat.not_lt_zero time)] at hdecision
            refine iff_of_true (.of_none hdecision ?_) (.inl hp0)
            rintro ⟨-, c, q, -, hless⟩
            exact Nat.not_lt_zero _ (hp0 ▸ hless)
          · -- the process with no time remaining has been forgotten
            refine iff_of_false
              (not_decidesRight hbusy hqi htime hdecision hz hzero htime0 hp0) ?_
            rintro (hT | hnone | hpositive | ⟨c, q, hc, hq, hq0⟩)
            · exact hp0 hT
            · exact hidle hnone
            · exact hpositive z qz hz hzero
            · obtain rfl : c = last := Fin.ext (Nat.succ.inj (hc.trans hval.symm))
              rw [← remaining_eq hb hq] at hq0
              exact htime0 (hlast.mp hq0)

/-! ### `current[]` -/

variable {c : Fin n}

/-- A CPU that is given a process has it in `current[]`. -/
theorem Scheduled.boundary (h : Scheduled .l timeslice s c ps s') (hps : ps ≠ [])
    (hb : Boundary s) : Boundary s' := by
  cases h with
  | idle => exact absurd rfl hps
  | pops q ps queue =>
      intro d
      show Function.update s.student.current c (some q) d = Function.update s.cpu c (some q) d
      rcases eq_or_ne d c with rfl | hd
      · rw [Function.update_self, Function.update_self]
      · rw [Function.update_of_ne hd, Function.update_of_ne hd]
        exact hb d

/-- A CPU that becomes idle still has its last process in `current[]`. -/
theorem Scheduled.not_boundary (h : Scheduled .l timeslice s c [] s')
    (hc : s.student.current c = some p) : ¬Boundary s' := by
  intro hb
  cases h with
  | idle queue =>
      have hself : s.student.current c = Function.update s.cpu c none c := hb c
      rw [hc, Function.update_self] at hself
      cases hself

theorem orderedInsert_ne_nil (time : Pid → ℕ) (p : Pid) (ps : List Pid) :
    orderedInsert time p ps ≠ [] := by
  intro h
  have hmem : p ∈ orderedInsert time p ps := (orderedInsert_perm time p ps).symm.subset (by simp)
  rw [h] at hmem
  cases hmem

theorem Boundary.preempt (hb : Boundary s) (hq : Represents s.student.readyQueue ps)
    (hc : s.student.current c = some p) (hrun : preempt .l timeslice s c = .ok s') :
    Boundary s' := by
  obtain ⟨queue, -, hscheduled⟩ := preempt_spec hq hc hrun
  exact hscheduled.boundary (orderedInsert_ne_nil _ p ps) hb

theorem Boundary.wakeUp (hb : Boundary s) (hq : Represents s.student.readyQueue ps)
    (hrun : wakeUp .l timeslice s p = .ok s') : Boundary s' := by
  obtain ⟨queue, hq', hrest⟩ := wakeUp_spec hq hrun
  split at hrest
  · obtain rfl := hrest
    exact hb
  · rename_i c _
    have hb' : Boundary (((s.setState p .ready).note (.ready p)).setQueue queue) := hb
    unfold forcePreempt at hrest
    split at hrest
    · obtain rfl := Except.ok.inj hrest
      exact hb'
    · rename_i q hc
      exact hb'.preempt hq' ((hb' c).trans hc) hrest

/-! ### Histories -/

/-- An event in which `wake_up` is called has it decide right. -/
def Decides (s : System n) : Event n → Prop
  | .create p => DecidesRight s p
  | .completeIo p time => DecidesRight (s.setTime p time) p
  | _ => True

/-- What keeps `wake_up` right: a CPU whose process leaves it finds the ready queue
non-empty, and no process with no time remaining is forgotten. -/
def Sound (s : System n) : Event n → Prop
  | .create p => ZeroLast s p
  | .completeIo p time => ZeroLast (s.setTime p time) p
  | .yield _ | .terminate _ => s.student.readyQueue.contents ≠ []
  | _ => True

/-- A process leaves the CPU that executes it. -/
theorem leave_iff (hb : Boundary s) (hq : Represents s.student.readyQueue ps)
    (hc : s.student.current c = some p) (hscheduled : Scheduled .l timeslice s c ps s') :
    Boundary s' ↔ s.student.readyQueue.contents ≠ [] := by
  rw [hq.contents]
  constructor
  · rintro hb' rfl
    exact hscheduled.not_boundary hc hb'
  · intro hps
    exact hscheduled.boundary hps hb

/-- One event. -/
theorem sound_iff (hi : Places.Inv (view s [])) (hb : Boundary s) {e : Event n}
    (hstep : step .l timeslice s e = .ok s') : Decides s e ∧ Boundary s' ↔ Sound s e := by
  obtain ⟨ps, hq⟩ := hi.queue
  cases e with
  | create p =>
      rw [step] at hstep
      split at hstep
      · have hb' : Boundary s' :=
          Boundary.wakeUp (s := s.setLife p .active) hb hq (section_eq_ok hstep)
        exact (and_iff_left hb').trans (decidesRight_iff hb p)
      · cases hstep
  | completeIo p time =>
      rw [step] at hstep
      split at hstep
      · have hb' : Boundary s' :=
          Boundary.wakeUp (s := (s.setTime p time).setLife p .active) hb hq (section_eq_ok hstep)
        exact (and_iff_left hb').trans (decidesRight_iff (s := s.setTime p time) hb p)
      · cases hstep
  | idle c =>
      rw [step] at hstep
      split at hstep
      · split at hstep
        · cases hstep
        · rename_i hempty
          refine iff_of_true ⟨trivial, ?_⟩ trivial
          refine (schedule_spec hq (section_eq_ok hstep)).boundary ?_ hb
          rintro rfl
          exact hempty ((Student.isEmpty_iff hq).mpr rfl)
      · cases hstep
  | run c time =>
      rw [step] at hstep
      split at hstep
      · cases hstep
      · obtain rfl := Except.ok.inj hstep
        exact iff_of_true ⟨trivial, hb⟩ trivial
  | preempt c =>
      rw [step] at hstep
      split at hstep
      · cases hstep
      · rename_i q hc
        exact iff_of_true
          ⟨trivial, hb.preempt hq ((hb c).trans hc) (section_eq_ok hstep)⟩ trivial
  | yield c =>
      rw [step] at hstep
      split at hstep
      · cases hstep
      · rename_i q hc
        have hcurrent := (hb c).trans hc
        refine (and_iff_right trivial).trans ?_
        exact leave_iff (s := (s.setLife q .io).setState q .waiting) hb hq hcurrent
          (yield_spec (s := s.setLife q .io) hq hcurrent (section_eq_ok hstep))
  | terminate c =>
      rw [step] at hstep
      split at hstep
      · cases hstep
      · rename_i q hc
        have hcurrent := (hb c).trans hc
        refine (and_iff_right trivial).trans ?_
        exact leave_iff (s := (s.setLife q .terminated).setState q .terminated) hb hq hcurrent
          (terminate_spec (s := s.setLife q .terminated) hq hcurrent (section_eq_ok hstep))

/-- `current[]` is right at every handler boundary of a history, and `wake_up` decides
right in all of its events. -/
def AlwaysRight (timeslice : ℕ) (es : List (Event n)) (s s' : System n) : Prop :=
  Meets .l timeslice (fun s e => Boundary s ∧ Decides s e) es s ∧ Boundary s'

theorem AlwaysRight.boundary {es : List (Event n)} (h : AlwaysRight timeslice es s s')
    (hrun : run .l timeslice es s = .ok s') : Boundary s := by
  cases es with
  | nil =>
      obtain rfl := Except.ok.inj hrun
      exact h.2
  | cons e es => exact h.1.1.1

theorem alwaysRight_iff (hi : Places.Inv (view s [])) (hb : Boundary s) {es : List (Event n)}
    (hrun : run .l timeslice es s = .ok s') :
    AlwaysRight timeslice es s s' ↔ Meets .l timeslice Sound es s := by
  induction es generalizing s with
  | nil =>
      obtain rfl := Except.ok.inj hrun
      exact iff_of_true ⟨trivial, hb⟩ trivial
  | cons e es ih =>
      obtain ⟨s₁, hfirst, hrest⟩ := bind_eq_ok hrun
      have hone := sound_iff hi hb hfirst
      have hright : AlwaysRight timeslice (e :: es) s s' ↔
          (Boundary s ∧ Decides s e) ∧ AlwaysRight timeslice es s₁ s' := by
        unfold AlwaysRight
        rw [Meets, hfirst, and_assoc]
      have hsound : Meets .l timeslice Sound (e :: es) s ↔
          Sound s e ∧ Meets .l timeslice Sound es s₁ := by
        rw [Meets, hfirst]
      rw [hright, hsound]
      by_cases hb₁ : Boundary s₁
      · rw [ih (hi.reaches (step_reaches hfirst)) hb₁ hrest, ← hone]
        simp only [hb, hb₁, true_and, and_true]
      · -- the event has left `current[]` wrong
        refine iff_of_false ?_ ?_
        · rintro ⟨-, hrest'⟩
          exact hb₁ (hrest'.boundary hrest)
        · rintro ⟨he, -⟩
          exact hb₁ (hone.mpr he).2

/-- **In mode `l`, `current[]` and `wake_up` are right throughout a history if and only if
`current[]` is null at the start, every process that leaves a CPU leaves it to another
one, and no process with no time remaining is forgotten.** -/
theorem decides_right_iff {current : Fin n → Option Pid} {time : Pid → ℕ} {es : List (Event n)}
    (hrun : run .l timeslice es (start current time) = .ok s') :
    AlwaysRight timeslice es (start current time) s' ↔
      (∀ c, current c = none) ∧ Meets .l timeslice Sound es (start current time) := by
  have hi : Places.Inv (view (start current time) []) := Places.Inv.start current time
  constructor
  · intro h
    have hb : Boundary (start current time) := h.boundary hrun
    exact ⟨hb, (alwaysRight_iff hi hb hrun).mp h⟩
  · rintro ⟨hb, hmeets⟩
    exact (alwaysRight_iff hi hb hrun).mpr hmeets

/-- Process 1 has more time remaining than process 0, and the only CPU is preempted. -/
theorem decides_right_iff_preempts :
    ∃ s' : System 1, run .l 0 [.create 0, .idle 0, .create 1]
        (start (fun _ => none) fun p => if p = 0 then 2 else 5) = .ok s' ∧ s'.cpu 0 = some 1 ∧
      (AlwaysRight 0 [.create 0, .idle 0, .create 1]
          (start (fun _ : Fin 1 => none) fun p => if p = 0 then 2 else 5) s' ↔
        (∀ c : Fin 1, (fun _ => none : Fin 1 → Option Pid) c = none) ∧
          Meets .l 0 Sound [.create 0, .idle 0, .create 1]
            (start (fun _ : Fin 1 => none) fun p => if p = 0 then 2 else 5)) :=
  ⟨_, rfl, rfl, decides_right_iff rfl⟩

/-- Process 0 yields when the ready queue is empty, so that the only CPU is idle, and
`wake_up` of process 1 preempts it. -/
theorem not_decides_right :
    ¬∀ (n timeslice : ℕ) (current : Fin n → Option Pid) (time : Pid → ℕ) (es : List (Event n))
      (s' : System n), run .l timeslice es (start current time) = .ok s' →
      AlwaysRight timeslice es (start current time) s' := by
  intro h
  have hright := h 1 0 (fun _ => none) (fun p => if p = 0 then 2 else 5)
    [.create 0, .idle 0, .yield 0, .create 1] _ rfl
  have hdecides := hright.1.2.2.2.1.2
  exact (hdecides.calls.mp ⟨0, rfl⟩).1 0 rfl

end Handlers

end ProjectArchive.Scheduler
