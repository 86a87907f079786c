/-
ProjectArchive/Coherence/Run.lean

Runs of the simulator.

`cycles_ends` and `run_ends` lift `Good.cycle` to any number of cycles, from
which the absence of failures and the coherence of the data follow.
`Good.finishes` is the termination argument: the weight of a simulator
decreases with every cycle until all processors are done, and then nothing is
left on the bus or in a transient state.
-/
import ProjectArchive.Coherence.Cycle

namespace ProjectArchive.Coherence

open SnoopLine Exec

variable {P : Protocol} {T : Table P.State} {n : ℕ} {traces : Fin n → Trace}

/-! ### Any number of cycles -/

theorem Simulator.cycles_ends (hP : Implements P T) (hT : T.Lawful) (traces : Fin n → Trace)
    (k : ℕ) : Ends (Simulator.cycles P traces k) fun s => ∃ tx stage, Good T traces s tx stage := by
  induction k with
  | zero => exact .ok ⟨_, _, .init hP hT traces⟩
  | succ k ih =>
      refine Ends.bind ih ?_
      rintro s ⟨tx, stage, h⟩
      refine (h.cycle hP hT).mono ?_
      rintro s' ⟨tx', stage', h', -⟩
      exact ⟨tx', stage', h'⟩

/-- A reachable state and its successor. -/
theorem Simulator.cycles_step (hP : Implements P T) (hT : T.Lawful) (traces : Fin n → Trace)
    (k : ℕ) : ∃ s s', Simulator.cycles P traces k = .ok s ∧ s.cycle = .ok s' ∧
      (∃ tx stage, Good T traces s tx stage) ∧ (∃ tx stage, Good T traces s' tx stage) ∧
      ∀ i, Kept T i s s' := by
  obtain ⟨s, hs, tx, stage, h⟩ := Simulator.cycles_ends hP hT traces k
  obtain ⟨s', hs', tx', stage', h', hk, -⟩ := h.cycle hP hT
  exact ⟨s, s', hs, hs', ⟨tx, stage, h⟩, ⟨tx', stage', h'⟩, hk⟩

theorem Good.run_ends (hP : Implements P T) (hT : T.Lawful) (fuel : ℕ) {s : Simulator P n}
    {tx : Tx n} {stage : Fin n → Stage} (h : Good T traces s tx stage) :
    ∃ r, s.run fuel = .ok r := by
  induction fuel generalizing s tx stage with
  | zero => exact ⟨none, rfl⟩
  | succ fuel ih =>
      obtain ⟨s', hs', tx', stage', h', -⟩ := h.cycle hP hT
      rcases hd : s'.done with - | -
      · obtain ⟨r, hr⟩ := ih h'
        exact ⟨r, by simp [Simulator.run, hs', hd, hr]⟩
      · exact ⟨some s', by simp [Simulator.run, hs', hd, pure, Except.pure]⟩

/-- **No assertion fails and `fatal_error` is never called.** -/
theorem never_faults (p : ProtocolKind) {n : ℕ} (traces : Fin n → Trace) :
    (∀ k, ∃ s, Simulator.cycles p.protocol traces k = .ok s) ∧
      ∀ fuel, ∃ r, (Simulator.new p.protocol traces).run fuel = .ok r := by
  constructor
  · intro k
    obtain ⟨s, hs, -⟩ := Simulator.cycles_ends p.implements p.lawful traces k
    exact ⟨s, hs⟩
  · intro fuel
    exact (Good.init p.implements p.lawful traces).run_ends p.implements p.lawful fuel

/-- **Every load completes with the latest version of its line, and every store
is applied on top of it.** -/
theorem data_value_coherence (p : ProtocolKind) {n : ℕ} (traces : Fin n → Trace) (k : ℕ) :
    ∃ s, Simulator.cycles p.protocol traces k = .ok s ∧ Fresh s.globals.log := by
  obtain ⟨s, hs, tx, stage, h⟩ := Simulator.cycles_ends p.implements p.lawful traces k
  exact ⟨s, hs, h.inv.fresh⟩

/-! ### Quiescence -/

section Quiescence

variable {s : Simulator P n} {tx : Tx n} {stage : Fin n → Stage}

/-- When every processor is done, no operation is under way. -/
theorem Good.idle_of_done (h : Good T traces s tx stage) (hdone : s.done = true) (i : Fin n) :
    stage i = .idle := by
  have hi : (s.Nd i).processor.done = true := by
    simp only [Simulator.done, decide_eq_true_eq] at hdone
    exact hdone i
  have hout : (s.Nd i).processor.outstandingRequest = false := by
    simp only [Processor.done, Bool.and_eq_true, Bool.not_eq_true'] at hi
    exact hi.2
  have hN := (h.inv.nodes i).outstanding
  rw [hout] at hN
  cases hst : stage i with
  | idle => rfl
  | _ => rw [hst] at hN; cases hN

theorem Good.stable_of_done (h : Good T traces s tx stage) (hdone : s.done = true)
    (addr : Paddr) (i : Fin n) : T.waits (s.states addr i) = none := by
  rw [h.inv.waits, h.idle_of_done hdone]
  rfl

/-- When every processor is done, the bus is empty. -/
theorem Good.quiet_of_done (h : Good T traces s tx stage) (hdone : s.done = true) :
    s.globals.bus.pendingRequests = [] ∧ s.globals.bus.requestInProgress = false ∧
      s.globals.bus.dataReply = none := by
  have hqueue : ∀ i : Fin n, (tx.request ++ s.globals.bus.pendingRequests).filter
      (fun m => m.srcMid = .L1 i) = [] := by
    intro i
    rw [(h.inv.nodes i).queued, h.idle_of_done hdone i]
    rfl
  have hpending : s.globals.bus.pendingRequests = [] := by
    apply List.eq_nil_iff_forall_not_mem.mpr
    intro m hm
    obtain ⟨i, hi⟩ := h.inv.sources m hm
    have := List.filter_eq_nil_iff.mp (hqueue i) m (List.mem_append_right _ hm)
    exact this (by simpa using hi)
  have hask : ∀ {k q a}, tx ≠ .asked k q a n := by
    rintro k q a rfl
    have := List.filter_eq_nil_iff.mp (hqueue k) (busMreq (.L1 k) q a)
      (List.mem_append_left _ (List.mem_singleton_self _))
    exact this (by simp)
  refine ⟨hpending, ?_⟩
  cases h.rest with
  | idle hprog hreply _ _ => exact ⟨hprog, hreply⟩
  | waiting _ _ _ _ _ => exact absurd rfl hask
  | cache _ _ _ _ => exact absurd rfl hask
  | memory _ _ _ => exact absurd rfl hask

/-! ### `dump_stats` -/

theorem mapM_isSome {α β : Type} {f : α → Option β} {l : List α}
    (h : ∀ a ∈ l, (f a).isSome) : (l.mapM f).isSome := by
  induction l with
  | nil => rfl
  | cons a l ih =>
      obtain ⟨b, hb⟩ := Option.isSome_iff_exists.mp (h a (List.mem_cons_self ..))
      obtain ⟨bs, hbs⟩ := Option.isSome_iff_exists.mp
        (ih fun a' ha' => h a' (List.mem_cons_of_mem _ ha'))
      simp [List.mapM_cons, hb, hbs]

/-- Stable states have names. -/
theorem Good.dumpStats_isSome (hP : Implements P T) (hT : T.Lawful)
    (h : Good T traces s tx stage) (hdone : s.done = true) : s.dumpStats.isSome := by
  have hcaches : ((List.finRange n).mapM fun i => (s.Nd i).cache.dumpHashTable).isSome := by
    apply mapM_isSome
    intro i _
    apply mapM_isSome
    intro e he
    have hlookup : (s.Nd i).cache.myEntries.lookup e.1 = some e.2 :=
      AList.mem_lookup_iff.mpr he
    have hstate : s.states e.1 i = e.2 := by
      show ((s.Nd i).cache.myEntries.lookup e.1).getD P.init = e.2
      rw [hlookup]
      rfl
    have hdump : (P.dump e.2).isSome := by
      apply hP.dump
      · rw [← hstate]
        exact h.inv.proper hT e.1 i
      · rw [← hstate]
        exact h.stable_of_done hdone e.1 i
    simpa using hdump
  obtain ⟨caches, hc⟩ := Option.isSome_iff_exists.mp hcaches
  simp [Simulator.dumpStats, hc]

/-! ### Termination -/

theorem Simulator.run_step {s' : Simulator P n} (hs : s.cycle = .ok s') (fuel : ℕ) :
    s.run (fuel + 1) = if s'.done then .ok (some s') else s'.run fuel := by
  simp only [Simulator.run, hs, ok_bind]
  split <;> rfl

/-- The main loop ends, in a state that keeps the invariant. -/
def Finishes (T : Table P.State) (traces : Fin n → Trace) (s : Simulator P n) : Prop :=
  ∃ N s' tx stage, (∀ fuel, N ≤ fuel → s.run fuel = .ok (some s')) ∧ s'.done = true ∧
    Good T traces s' tx stage

theorem Finishes.step {s' : Simulator P n} (hs : s.cycle = .ok s')
    (h : Good T traces s' tx stage) (hrest : s'.done = false → Finishes T traces s') :
    Finishes T traces s := by
  rcases hd : s'.done with - | -
  · obtain ⟨N, s'', tx'', stage'', hrun, hdone'', h''⟩ := hrest hd
    refine ⟨N + 1, s'', tx'', stage'', ?_, hdone'', h''⟩
    intro fuel hfuel
    obtain ⟨fuel, rfl⟩ : ∃ f, fuel = f + 1 := ⟨fuel - 1, by omega⟩
    rw [Simulator.run_step hs, hd, if_neg (by simp)]
    exact hrun fuel (by omega)
  · refine ⟨1, s', tx, stage, ?_, hd, h⟩
    intro fuel hfuel
    obtain ⟨fuel, rfl⟩ : ∃ f, fuel = f + 1 := ⟨fuel - 1, by omega⟩
    rw [Simulator.run_step hs, hd, if_pos rfl]

/-- A run that is not done gets done, by induction on its weight. -/
theorem Good.finishes_of_weight (hP : Implements P T) (hT : T.Lawful) (w : ℕ)
    {s : Simulator P n} {tx : Tx n} {stage : Fin n → Stage} (h : Good T traces s tx stage)
    (hdone : s.done = false) (hw : s.weight tx 1 ≤ w) : Finishes T traces s := by
  induction w generalizing s tx stage with
  | zero =>
      obtain ⟨s', hs', tx', stage', h', -, hlt⟩ := h.cycle hP hT
      have := hlt hdone
      omega
  | succ w ih =>
      obtain ⟨s', hs', tx', stage', h', -, hlt⟩ := h.cycle hP hT
      have := hlt hdone
      exact Finishes.step hs' h' fun hd => ih h' hd (by omega)

/-- The main loop ends. -/
theorem Good.finishes (hP : Implements P T) (hT : T.Lawful) (h : Good T traces s tx stage) :
    Finishes T traces s := by
  obtain ⟨s', hs', tx', stage', h', -⟩ := h.cycle hP hT
  exact Finishes.step hs' h' fun hd => h'.finishes_of_weight hP hT _ hd le_rfl

end Quiescence

/-- **`Simulator::run` terminates, and leaves an empty bus and stable lines, so
that `dump_stats` finds a name for every state.** -/
theorem run_terminates (p : ProtocolKind) {n : ℕ} (traces : Fin n → Trace) :
    ∃ N s, (∀ fuel, N ≤ fuel → (Simulator.new p.protocol traces).run fuel = .ok (some s)) ∧
      s.done = true ∧ s.globals.bus.pendingRequests = [] ∧
      s.globals.bus.requestInProgress = false ∧ s.globals.bus.dataReply = none ∧
      (∀ addr i, p.table.waits (s.states addr i) = none) ∧ s.dumpStats.isSome := by
  obtain ⟨N, s, tx, stage, hrun, hdone, h⟩ :=
    (Good.init p.implements p.lawful traces).finishes p.implements p.lawful
  obtain ⟨hpending, hprog, hreply⟩ := h.quiet_of_done hdone
  exact ⟨N, s, hrun, hdone, hpending, hprog, hreply, fun addr i => h.stable_of_done hdone addr i,
    h.dumpStats_isSome p.implements p.lawful hdone⟩

end ProjectArchive.Coherence
