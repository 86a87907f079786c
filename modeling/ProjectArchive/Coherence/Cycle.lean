/-
ProjectArchive/Coherence/Cycle.lean

One cycle of the main loop.

The caches, the processors and their inboxes are ticked in loops over the
nodes; each loop has an invariant indexed by the nodes already ticked, proved
by the loop rule `Exec.Ends.forAll` from a lemma about a single tick.  Their
composition `Good.cycle` says that a cycle never fails, keeps the invariant,
and makes progress unless every processor is done.
-/
import ProjectArchive.Coherence.Weight

namespace ProjectArchive.Coherence

open SnoopLine Exec

variable {P : Protocol} {T : Table P.State} {n : ℕ} {traces : Fin n → Trace}

/-! ### The tick of one cache -/

/-- What the tick of cache `i` leaves alone. -/
structure Touched (i : Fin n) (s s' : Simulator P n) : Prop where
  nodes : ∀ j, j ≠ i → s'.Nd j = s.Nd j
  settled : (s'.Nd i).Settled ↔ (s.Nd i).Settled
  last : ∀ m past, TracedAt s.globals.log m past → TracedAt s'.globals.log m past

/-- The line at `addr` of cache `i` was filled from the state `x` by the data
of its read, under a shared line that told whether another cache had a copy. -/
def Filled (T : Table P.State) (s : Simulator P n) (i : Fin n) (addr : Paddr) (x : P.State) :
    Prop :=
  ∃ past shared, TracedAt s.globals.log (busMreq (.L1 i) .read addr) past ∧
    s.states addr i = T.fill x shared ∧
    (T.Signals → (shared = true ↔ ∃ j : Fin n, j ≠ i ∧ copies past (.L1 j) addr = true))

/-- The lines of cache `i` that wait for a read stay as they are, or are filled. -/
def Kept (T : Table P.State) (i : Fin n) (s s' : Simulator P n) : Prop :=
  ∀ addr, T.waits (s.states addr i) = some .read →
    s'.states addr i = s.states addr i ∨ Filled T s' i addr (s.states addr i)

theorem Stage.proc_eq_some {stage : Stage} {i : ℕ} {m : Mreq} (h : stage.proc i = some m) :
    ∃ op addr, stage = .fetched op addr ∧ m = opMreq i op addr := by
  cases stage with
  | fetched op addr => exact ⟨op, addr, rfl, (Option.some.inj h).symm⟩
  | _ => cases h

theorem Stage.waitsAt_eq_some {stage : Stage} {addr : Paddr} {q : Access}
    (h : stage.waitsAt addr = some q) : ∃ op a, stage = .waiting op q a ∧ addr = a := by
  cases stage with
  | waiting op q' a =>
      have h : (if addr = a then some q' else none) = some q := h
      split at h
      · obtain rfl := Option.some.inj h
        exact ⟨op, a, rfl, ‹_›⟩
      · cases h
  | _ => cases h

section Tick

variable {s : Simulator P n} {tx : Tx n} {stage : Fin n → Stage} {i : Fin n} {j : ℕ}

/-- The processor's request is taken, and only that. -/
theorem Inv.tickProcRequest (hP : Implements P T) (hT : T.Lawful) (h : Inv T traces s tx stage)
    (hM : Moment n s.globals s.mc j tx) : Ends (s.tickProcRequest i) fun s' => ∃ stage',
      Inv T traces s' tx stage' ∧ Moment n s'.globals s'.mc j tx ∧ Touched i s s' ∧
        (∀ addr, T.waits (s.states addr i) = some .read → s'.states addr i = s.states addr i) ∧
        s'.weight tx 0 ≤ s.weight tx 0 ∧
        ((s.Nd i).cache.procRequest ≠ none → s'.weight tx 0 < s.weight tx 0) := by
  rcases hreq : (s.Nd i).cache.procRequest with - | m
  · refine .of_eq (Simulator.tickProcRequest_none hreq) ⟨stage, h, hM, ?_, fun _ _ => rfl, le_rfl,
      fun e => absurd rfl e⟩
    exact ⟨fun _ _ => rfl, Iff.rfl, fun _ _ h => h⟩
  · have hN := h.nodes i
    obtain ⟨op, a, hst, rfl⟩ := Stage.proc_eq_some (hN.proc.symm.trans hreq)
    rw [hst] at hN
    have haddr : (opMreq i op a).addr = a := opMreq_addr i op a
    have hbuf : (s.Nd i).processor.inboundRequestBuf = none := hN.buf
    have hp := h.proper hT (opMreq i op a).addr i
    have hw : T.waits (s.states (opMreq i op a).addr i) = none := by
      rw [h.waits, hst]
      rfl
    have hread : ∀ addr, T.waits (s.states addr i) ≠ some .read := by
      intro addr e
      rw [h.waits, hst] at e
      cases e
    rcases hq : (T.request (s.states (opMreq i op a).addr i) op).2 with - | q
    · refine .of_eq (Simulator.tickProcRequest_hit hP hreq rfl hp hw hq hbuf)
        ⟨_, h.served hT hst (haddr ▸ hq), hM.served, ?_, fun addr e => absurd e (hread addr), ?_, ?_⟩
      · refine ⟨fun _ hj => Simulator.served_Nd_ne hj, ?_, fun _ _ hp => ?_⟩
        · simp only [Node.Settled, Simulator.served_processor]
        · rw [Simulator.served_log]
          exact hp.accepted.answered
      · exact Nat.le_of_lt (Simulator.weight_served hreq hbuf)
      · exact fun _ => Simulator.weight_served hreq hbuf
    · refine .of_eq (Simulator.tickProcRequest_miss hP hreq rfl hp hw hq)
        ⟨_, h.queued hT hst (haddr ▸ hq), hM.queued, ?_, fun addr e => absurd e (hread addr), ?_, ?_⟩
      · refine ⟨fun _ hj => Simulator.queued_Nd_ne hj, ?_, fun _ _ hp => ?_⟩
        · simp only [Node.Settled, Simulator.queued_processor]
        · rw [Simulator.queued_log]
          exact hp.accepted.requested
      · exact Nat.le_of_lt (Simulator.weight_queued hreq)
      · exact fun _ => Simulator.weight_queued hreq

/-- The shared line told whether another cache had a copy. -/
theorem Inv.told_shared (hT : T.Lawful) {k : Fin n} {a : LineAddr} {past : List Event}
    (h : Inv T traces s (.told k .read a) stage)
    (hlast : lastRequest s.globals.log = some (busMreq (.L1 k) .read a, past))
    (hS : T.Signals) : s.globals.bus.sharedLine = true ↔
      ∃ j : Fin n, j ≠ k ∧ copies past (.L1 j) a = true := by
  have hTr := (h.lines a).tracked hT hS
  rw [(hTr.told (Globals.phase_told rfl)).1]
  constructor
  · rintro ⟨m, past', hlast', hj⟩
    rw [hlast] at hlast'
    obtain ⟨-, rfl⟩ := Prod.mk.inj (Option.some.inj hlast')
    exact hj
  · exact fun hj => ⟨_, past, hlast, hj⟩

/-- The bus message is handled. -/
theorem Inv.tickSnoop (hP : Implements P T) (hT : T.Lawful) (h : Inv T traces s tx stage)
    (hM : Moment n s.globals s.mc i tx) : Ends (s.tickSnoop i) fun s' => ∃ tx' stage',
      Inv T traces s' tx' stage' ∧ Moment n s'.globals s'.mc (i + 1) tx' ∧ Touched i s s' ∧
        Kept T i s s' ∧ s'.weight tx' 0 ≤ s.weight tx 0 := by
  have htouched : Touched i s s := ⟨fun _ _ => rfl, Iff.rfl, fun _ _ h => h⟩
  have hkept : Kept T i s s := fun _ _ => Or.inl rfl
  cases hM with
  | quiet h₁ h₂ h₃ h₄ h₅ =>
      exact .of_eq (Simulator.tickSnoop_none h₁)
        ⟨_, stage, h, .quiet h₁ h₂ h₃ h₄ h₅, htouched, hkept, le_rfl⟩
  | waiting h₁ h₂ h₃ h₄ h₅ h₆ =>
      exact .of_eq (Simulator.tickSnoop_none h₁)
        ⟨_, stage, h, .waiting h₁ h₂ h₃ h₄ h₅ h₆, htouched, hkept, le_rfl⟩
  | @asked k q a replies hcur hask hreplied hmc =>
      have haddr : (busMreq (.L1 k) q a).addr = a := busMreq_addr _ q a
      have hp := h.proper hT a i
      -- a cache that has not observed the request supplies only if nobody has
      have hsupplies : T.supplies (s.states a i) → s.globals.bus.dataReply = none := by
        intro hs
        have hph : (s.view (.asked k q a i) a).phase = _ := Globals.phase_asked rfl
        simpa using (h.coherent hT a).reply_none hph (Nat.lt_irrefl i) hs
      refine .of_eq (Simulator.tickSnoop_observe hP hcur rfl (haddr.symm ▸ hp)
        (haddr.symm ▸ hsupplies)) ⟨_, stage, h.observed hT,
        Moment.observed hcur hask hreplied hmc hsupplies, ?_, ?_, Simulator.weight_observed hmc⟩
      · refine ⟨fun _ hj => Simulator.observed_Nd_ne hj, ?_, ?_⟩
        · simp only [Node.Settled, Simulator.observed_processor]
        · rw [Simulator.observed_log]
          exact fun _ _ hp => hp.observed hask.granted
      · intro addr hw
        apply Or.inl
        rcases eq_or_ne addr (busMreq (.L1 k) q a).addr with rfl | hne
        · rw [Simulator.observed_states_self, Function.update_self]
          exact hT.observe_reader (haddr.symm ▸ hp) hw
        · rw [Simulator.observed_states_ne hne]
  | @told k q a m hik hcur hm haddr hdest hprog hreply hclosed hgranted hlast =>
      rcases eq_or_ne k i with rfl | hki
      · -- the requester takes its data
        obtain ⟨op, hst⟩ := h.waiting (k := k) (q := q) (a := a) rfl
        have hw : T.waits (s.states m.addr k) = some q := by
          rw [h.waits, hst, haddr]
          exact if_pos rfl
        have hbuf : (s.Nd k).processor.inboundRequestBuf = none := by
          rw [(h.nodes k).buf, hst]
          rfl
        refine .of_eq (Simulator.tickSnoop_fill hP hcur hm hdest hw hbuf)
          ⟨_, _, h.filled hT hm haddr, Moment.filled hcur hm hdest hprog hreply hclosed, ?_, ?_,
            Nat.le_of_lt (Simulator.weight_filled hbuf)⟩
        · refine ⟨fun _ hj => Simulator.filled_Nd_ne hj, ?_,
            fun _ _ hp => (hp.snooped hgranted).answered⟩
          simp only [Node.Settled, Simulator.filled_processor]
        · intro addr hr
          rw [h.waits, hst] at hr
          obtain ⟨op', b, hst', rfl⟩ := Stage.waitsAt_eq_some hr
          obtain ⟨-, rfl, rfl⟩ := Stage.waiting.inj hst'
          obtain ⟨past, hlast⟩ := hlast
          refine Or.inr ⟨past, s.globals.bus.sharedLine, (hlast.snooped hgranted).answered, ?_,
            h.told_shared hT hlast.1⟩
          rw [← haddr, Simulator.filled_states_self, Function.update_self]
      · have hd : m.destMid ≠ .L1 i := by
          rw [hdest]
          simpa [Fin.val_inj] using hki
        have hik' : i.val + 1 ≤ k := by
          have := Fin.val_ne_of_ne hki
          omega
        exact .of_eq (Simulator.tickSnoop_other hcur hm hd)
          ⟨_, stage, h, .told hik' hcur hm haddr hdest hprog hreply hclosed hgranted hlast,
            htouched, hkept, le_rfl⟩
  | @taken k m hki hcur hm hdest hprog hreply hclosed =>
      have hd : m.destMid ≠ .L1 i := by
        rw [hdest, ne_eq, ModuleID.L1_inj]
        omega
      exact .of_eq (Simulator.tickSnoop_other hcur hm hd)
        ⟨_, stage, h, .taken (Nat.lt_succ_of_lt hki) hcur hm hdest hprog hreply hclosed, htouched,
          hkept, le_rfl⟩

/-- `Hash_table::tick` never fails. -/
theorem Inv.tickCache (hP : Implements P T) (hT : T.Lawful) (h : Inv T traces s tx stage)
    (hM : Moment n s.globals s.mc i tx) : Ends (s.tickCache i) fun s' => ∃ tx' stage',
      Inv T traces s' tx' stage' ∧ Moment n s'.globals s'.mc (i + 1) tx' ∧ Touched i s s' ∧
        Kept T i s s' ∧ s'.weight tx' 0 ≤ s.weight tx 0 ∧
        ((s.Nd i).cache.procRequest ≠ none → s'.weight tx' 0 < s.weight tx 0) := by
  refine Ends.bind (h.tickProcRequest hP hT hM) ?_
  rintro s₁ ⟨stage₁, h₁, hM₁, ht₁, hk₁, hle₁, hlt₁⟩
  refine (h₁.tickSnoop hP hT hM₁).mono ?_
  rintro s₂ ⟨tx₂, stage₂, h₂, hM₂, ht₂, hk₂, hle₂⟩
  refine ⟨tx₂, stage₂, h₂, hM₂, ?_, ?_, by omega, fun e => Nat.lt_of_le_of_lt hle₂ (hlt₁ e)⟩
  · exact ⟨fun j hj => (ht₂.nodes j hj).trans (ht₁.nodes j hj), ht₂.settled.trans ht₁.settled,
      fun m past hp => ht₂.last m past (ht₁.last m past hp)⟩
  · intro addr hw
    have heq := hk₁ addr hw
    rw [← heq]
    exact hk₂ addr (by rwa [heq])

end Tick

/-! ### The loop over the caches -/

/-- The invariant of the loop, when the caches below `m` have been ticked since `s₀`. -/
structure CachesDone (T : Table P.State) (traces : Fin n → Trace) (s₀ : Simulator P n)
    (tx₀ : Tx n) (m : ℕ) (s : Simulator P n) (tx : Tx n) (stage : Fin n → Stage) : Prop where
  inv : Inv T traces s tx stage
  moment : Moment n s.globals s.mc m tx
  later : ∀ j : Fin n, m ≤ j → s.Nd j = s₀.Nd j
  settled : ∀ j, (s.Nd j).Settled ↔ (s₀.Nd j).Settled
  kept : ∀ j, Kept T j s₀ s
  weight : s.weight tx 0 ≤ s₀.weight tx₀ 0
  spent : ∀ j : Fin n, j < m → (s₀.Nd j).cache.procRequest ≠ none →
    s.weight tx 0 < s₀.weight tx₀ 0

section Caches

variable {s s₀ : Simulator P n} {tx tx₀ : Tx n} {stage : Fin n → Stage}

theorem CachesDone.start (h : Inv T traces s tx stage) (hM : Moment n s.globals s.mc 0 tx) :
    CachesDone T traces s tx 0 s tx stage :=
  ⟨h, hM, fun _ _ => rfl, fun _ => Iff.rfl, fun _ _ _ => Or.inl rfl, le_rfl,
    fun _ hj => absurd hj (Nat.not_lt_zero _)⟩

theorem CachesDone.tick (hP : Implements P T) (hT : T.Lawful) {i : Fin n}
    (h : CachesDone T traces s₀ tx₀ i s tx stage) :
    Ends (s.tickCache i) fun s' => ∃ tx' stage',
      CachesDone T traces s₀ tx₀ (i + 1) s' tx' stage' := by
  have hi : s.Nd i = s₀.Nd i := h.later i le_rfl
  refine (h.inv.tickCache hP hT h.moment).mono ?_
  rintro s' ⟨tx', stage', hinv, hM, ht, hk, hle, hlt⟩
  refine ⟨tx', stage', hinv, hM, ?_, ?_, ?_, hle.trans h.weight, ?_⟩
  · intro j hj
    have hji := ne_of_later hj
    rw [ht.nodes j hji]
    exact h.later j (by omega)
  · intro j
    rcases eq_or_ne j i with rfl | hji
    · exact ht.settled.trans (h.settled j)
    · rw [ht.nodes j hji]
      exact h.settled j
  · intro j
    rcases eq_or_ne j i with rfl | hji
    · -- the cache just ticked was as at the start of the loop
      intro addr hw
      have hst : s.states addr j = s₀.states addr j := by rw [Simulator.states, hi]; rfl
      rw [← hst] at hw ⊢
      exact hk addr hw
    · intro addr hw
      have hst : s'.states addr j = s.states addr j := by
        rw [Simulator.states, ht.nodes j hji]
        rfl
      rcases h.kept j addr hw with heq | ⟨past, shared, hlast, hfill, hS⟩
      · exact Or.inl (hst.trans heq)
      · exact Or.inr ⟨past, shared, ht.last _ _ hlast, hst.trans hfill, hS⟩
  · intro j hj hreq
    rcases eq_or_ne j i with rfl | hji
    · exact Nat.lt_of_lt_of_le (hlt (hi ▸ hreq)) h.weight
    · exact Nat.lt_of_le_of_lt hle (h.spent j (lt_of_earlier hj hji) hreq)

/-- The loop over the caches. -/
theorem CachesDone.loop (hP : Implements P T) (hT : T.Lawful) (h : Inv T traces s tx stage)
    (hM : Moment n s.globals s.mc 0 tx) :
    Ends (Exec.forAll (fun i s => s.tickCache i) s) fun s' => ∃ tx' stage',
      CachesDone T traces s tx n s' tx' stage' := by
  refine Ends.forAll (fun m s' => ∃ tx' stage', CachesDone T traces s tx m s' tx' stage')
    ⟨tx, stage, .start h hM⟩ ?_
  rintro i s' ⟨tx', stage', h'⟩
  exact h'.tick hP hT

end Caches

/-! ### The loop over the processors -/

/-- The invariant of the loop, when the processors below `m` have been ticked
since `s₀`. -/
structure ProcessorsDone (T : Table P.State) (traces : Fin n → Trace) (s₀ : Simulator P n)
    (tx : Tx n) (m : ℕ) (s : Simulator P n) (stage : Fin n → Stage) : Prop where
  inv : Inv T traces s tx stage
  globals : s.globals = s₀.globals
  mc : s.mc = s₀.mc
  states : ∀ addr, s.states addr = s₀.states addr
  later : ∀ j : Fin n, m ≤ j → s.Nd j = s₀.Nd j
  weight : s.weight tx 0 ≤ s₀.weight tx 0
  spent : ∀ j : Fin n, j < m → ¬ (s₀.Nd j).Settled → s.weight tx 0 < s₀.weight tx 0

section Processors

variable {s s₀ : Simulator P n} {tx : Tx n} {stage : Fin n → Stage} {i : Fin n} {nd : Node P}

theorem ProcessorsDone.tick (h : ProcessorsDone T traces s₀ tx i s stage) :
    Ends (s.tickPr i) fun s' => ∃ stage', ProcessorsDone T traces s₀ tx (i + 1) s' stage' := by
  have hi : s.Nd i = s₀.Nd i := h.later i le_rfl
  obtain ⟨nd, st, he, hnd, hentries, hle, hlt⟩ := (h.inv.nodes i).tickPr
  have htick : s.tickPr i = .ok (s.setNode i nd) := by
    rw [Simulator.tickPr, he]
    rfl
  have hweight := s.weight_setNode i nd tx 0
  refine .of_eq htick ⟨_, h.inv.setNode hentries hnd, h.globals, h.mc, ?_, ?_, ?_, ?_⟩
  · intro addr
    rw [Simulator.setNode_states hentries]
    exact h.states addr
  · intro j hj
    have hji := ne_of_later hj
    rw [Simulator.setNode_Nd_ne hji]
    exact h.later j (by omega)
  · have := h.weight
    omega
  · intro j hj hs
    have hw := h.weight
    rcases eq_or_ne j i with rfl | hji
    · have := hlt (by rwa [hi])
      omega
    · have := h.spent j (lt_of_earlier hj hji) hs
      omega

/-- The loop over the processors. -/
theorem ProcessorsDone.loop (h : Inv T traces s tx stage) :
    Ends (Exec.forAll (fun i s => s.tickPr i) s) fun s' => ∃ stage',
      ProcessorsDone T traces s tx n s' stage' := by
  refine Ends.forAll (fun m s' => ∃ stage', ProcessorsDone T traces s tx m s' stage') ?_ ?_
  · exact ⟨stage, h, rfl, rfl, fun _ => rfl, fun _ _ => rfl, le_rfl,
      fun _ hj => absurd hj (Nat.not_lt_zero _)⟩
  · rintro i s' ⟨stage', h'⟩
    exact h'.tick

end Processors

/-! ### The memory controller -/

section Memory

variable {s : Simulator P n} {tx : Tx n} {stage : Fin n → Stage}

/-- `Memory_controller::tick` never fails, and leaves the bus ready for the
next cycle. -/
theorem Inv.tickMc (h : Inv T traces s tx stage) (hM : Moment n s.globals s.mc n tx) :
    Ends s.tickMc fun s' => Inv T traces s' tx stage ∧ Rest n s'.advance.globals s'.mc tx ∧
      s'.Nd = s.Nd ∧ (∀ m past, TracedAt s.globals.log m past → TracedAt s'.globals.log m past) ∧
      s'.advance.weight tx 1 ≤ s.weight tx 0 := by
  cases hM with
  | quiet hcur hprog hreply hmc hclosed =>
      exact .of_eq (Simulator.tickMc_idle hcur hmc)
        ⟨h, .idle hprog hreply hmc hclosed, rfl, fun _ _ hp => hp, le_rfl⟩
  | @waiting k q a c hcur hask hreply hmc hlo hhi =>
      have hprog : s.mc.requestInProgress = true := by rw [hmc]
      have htime : s.mc.dataTime = c + hitTime := by rw [hmc]
      rcases Nat.lt_or_ge s.globals.globalClock s.mc.dataTime with ht | ht
      · refine .of_eq (Simulator.tickMc_early hcur ht) ⟨h, ?_, rfl, fun _ _ hp => hp, ?_⟩
        · exact .waiting ⟨hask.inProgress, hask.head, hask.last⟩ hreply hmc
            (Nat.lt_succ_of_lt hlo) (Nat.succ_le_of_lt (htime ▸ ht))
        · simp [Simulator.weight, Simulator.advance, Tx.weight, hreply, hprog]
          omega
      · -- the lookup is over
        have hclock : s.globals.globalClock = c + hitTime := by omega
        have haddr : s.mc.dataAddr = a := by rw [hmc]
        have htarget : s.mc.dataTarget = .L1 k := by rw [hmc]
        refine .of_eq (Simulator.tickMc_reply hcur hprog ht hreply)
          ⟨h.lookup haddr hreply, ?_, rfl, fun _ _ hp => hp.requested, ?_⟩
        · obtain ⟨past, xs, hx, hxs⟩ := hask.head
          refine .memory (c := c) ⟨hask.inProgress, ⟨past, xs, ?_, hxs⟩,
            hask.last.imp fun _ hp => hp.requested⟩ ?_ ?_
          · show exchanges (.requested s.globals.globalClock
              (dataMreq (.MC n) s.mc.dataAddr s.mc.dataTarget) :: s.globals.log) = _
            rw [exchanges_dataMreq hx, hclock, haddr, htarget]
            rfl
          · simp [Simulator.advance, Simulator.lookedUp, Globals.reply, Globals.record, haddr,
              htarget]
          · simp [Simulator.advance, Simulator.lookedUp, Globals.reply, Globals.record, hclock]
        · simp [Simulator.weight, Simulator.advance, Simulator.lookedUp, Globals.reply,
            Globals.record, Tx.weight, hreply, hprog]
  | @asked k q a replies hcur hask hreplied hmc =>
      have hne : (busMreq (.L1 k) q a).msg ≠ .DATA := busMessage_ne_DATA q
      refine .of_eq (Simulator.tickMc_request hcur hne hmc) ⟨h.setMc _, ?_, rfl, fun _ _ hp => hp, ?_⟩
      · have hadv : Asked n s.advance.globals k q a s.globals.globalClock replies :=
          ⟨hask.inProgress, hask.head, hask.last⟩
        rcases hreplied with ⟨rfl, hd⟩ | ⟨j, rfl, hd⟩
        · refine .waiting hadv hd ?_ (Nat.lt_succ_self _) ?_
          · simp
          · simp [Simulator.advance, hitTime]
        · exact .cache j hadv hd rfl
      · rcases hd : s.globals.bus.dataReply with - | d
        · simp [Simulator.weight, Simulator.advance, Tx.weight, hd, hmc, hitTime]
        · simp [Simulator.weight, Simulator.advance, Tx.weight, hd]
  | @told k q a m hik hcur hm haddr hdest hprog hreply hclosed hgranted hlast =>
      have := k.isLt
      omega
  | taken hki hcur hm hdest hprog hreply hclosed =>
      exact .of_eq (Simulator.tickMc_data hcur hm)
        ⟨h.setMc _, .idle hprog hreply rfl hclosed, rfl, fun _ _ hp => hp, le_rfl⟩

end Memory

/-! ### The loop over the inboxes -/

/-- The invariant of the loop, when the inboxes below `m` have been moved
since `s₀`. -/
structure InboxesDone (T : Table P.State) (traces : Fin n → Trace) (s₀ : Simulator P n)
    (tx : Tx n) (m : ℕ) (s : Simulator P n) (stage : Fin n → Stage) : Prop where
  inv : Inv T traces s tx stage
  globals : s.globals = s₀.globals
  mc : s.mc = s₀.mc
  states : ∀ addr, s.states addr = s₀.states addr
  empty : ∀ j : Fin n, j < m → (s.Nd j).processor.inboundRequestBuf = none
  weight : s.advance.weight tx 1 ≤ s₀.advance.weight tx 1

section Inboxes

variable {s s₀ : Simulator P n} {tx : Tx n} {stage : Fin n → Stage} {i : Fin n}

theorem InboxesDone.tock (h : InboxesDone T traces s₀ tx i s stage) :
    Ends (s.tockPr i) fun s' => ∃ stage', InboxesDone T traces s₀ tx (i + 1) s' stage' := by
  obtain ⟨st, hnd, hentries, hle, hbuf⟩ := (h.inv.nodes i).tockPr
  refine .of_eq rfl ⟨_, h.inv.setNode hentries hnd, h.globals, h.mc, ?_, ?_, ?_⟩
  · intro addr
    rw [Simulator.setNode_states hentries]
    exact h.states addr
  · intro j hj
    rcases eq_or_ne j i with rfl | hji
    · simpa [Simulator.setNode] using hbuf
    · rw [Simulator.setNode_Nd_ne hji]
      exact h.empty j (lt_of_earlier hj hji)
  · have hw := h.weight
    have hweight := s.advance.weight_setNode i (s.Nd i).tockPr tx 1
    show (s.advance.setNode i (s.Nd i).tockPr).weight tx 1 ≤ _
    rw [show s.advance.Nd i = s.Nd i from rfl] at hweight
    omega

/-- The loop over the inboxes. -/
theorem InboxesDone.loop (h : Inv T traces s tx stage) :
    Ends (Exec.forAll (fun i s => s.tockPr i) s) fun s' => ∃ stage',
      InboxesDone T traces s tx n s' stage' := by
  refine Ends.forAll (fun m s' => ∃ stage', InboxesDone T traces s tx m s' stage') ?_ ?_
  · exact ⟨stage, h, rfl, rfl, fun _ => rfl, fun _ hj => absurd hj (Nat.not_lt_zero _), le_rfl⟩
  · rintro i s' ⟨stage', h'⟩
    exact h'.tock

end Inboxes

/-! ### The whole cycle -/

/-- The invariant between two cycles. -/
structure Good (T : Table P.State) (traces : Fin n → Trace) (s : Simulator P n) (tx : Tx n)
    (stage : Fin n → Stage) : Prop where
  inv : Inv T traces s tx stage
  rest : Rest n s.globals s.mc tx
  empty : ∀ i, (s.Nd i).processor.inboundRequestBuf = none

section Good

variable {s : Simulator P n} {tx : Tx n} {stage : Fin n → Stage}

theorem Good.init (hP : Implements P T) (hT : T.Lawful) (traces : Fin n → Trace) :
    Good T traces (Simulator.new P traces) .idle fun _ => .idle :=
  ⟨.init hP hT traces, .idle rfl rfl rfl .nil, fun _ => rfl⟩

/-- `Bus::tick` grants the open request its data. -/
theorem Inv.tickBus_data {k : Fin n} {q : Access} {a : LineAddr} {c : ℕ} {src : ModuleID}
    {replies : List (ℕ × Mreq)} (h : Inv T traces s (.asked k q a n) stage)
    (hask : Asked n s.globals k q a c replies)
    (hreply : s.globals.bus.dataReply = some (dataMreq src a (.L1 k)))
    (hsource : (∃ j : Fin n, src = .L1 j) ∧ replies = [(c, dataMreq src a (.L1 k))] ∧
        s.globals.globalClock = c + 1 ∨
      src = .MC n ∧ replies = [(c + hitTime, dataMreq src a (.L1 k))] ∧
        s.globals.globalClock = c + hitTime + 1) :
    Inv T traces s.tickBus (.told k q a) stage ∧
      Moment n s.tickBus.globals s.tickBus.mc 0 (.told k q a) ∧
      s.tickBus.weight (.told k q a) 0 < s.weight (.asked k q a n) 1 := by
  have htick : s.tickBus = s.withGlobals (s.globals.grantData (dataMreq src a (.L1 k))) := by
    rw [Simulator.tickBus, Globals.tickBus_data hask.inProgress hreply]
    rfl
  rw [htick]
  obtain ⟨past, xs, hx, hxs⟩ := hask.head
  refine ⟨h.grantData hreply rfl a.2, ?_, Simulator.weight_grantData n hreply⟩
  refine .told (Nat.zero_le _) rfl rfl a.2 rfl rfl rfl ?_ rfl
    (hask.last.imp fun _ hp => hp.grantedData rfl)
  show Closed n (⟨s.globals.globalClock, dataMreq src a (.L1 k), [], s.globals.log⟩ ::
    exchanges s.globals.log)
  rw [hx]
  refine .cons ⟨⟨k, q, a, rfl⟩, rfl, rfl, rfl, rfl, ?_⟩ hxs
  rcases hsource with ⟨hsrc, hr, hclock⟩ | ⟨hsrc, hr, hclock⟩
  · exact Or.inl ⟨⟨hsrc, hr⟩, hclock⟩
  · exact Or.inr ⟨⟨hsrc, hr⟩, hclock⟩

/-- `Bus::tick` grants the open request its data, or the first request of the
queue, and either is progress. -/
theorem Good.tickBus (h : Good T traces s tx stage) : ∃ tx', Inv T traces s.tickBus tx' stage ∧
    Moment n s.tickBus.globals s.tickBus.mc 0 tx' ∧ s.tickBus.weight tx' 0 ≤ s.weight tx 1 ∧
      (tx.request ++ s.globals.bus.pendingRequests ≠ [] →
        s.tickBus.weight tx' 0 < s.weight tx 1) := by
  have hI := h.inv
  cases h.rest with
  | idle hprog hreply hmc hclosed =>
      rcases hq : s.globals.bus.pendingRequests with - | ⟨m, rest⟩
      · have htick : s.tickBus = s.withGlobals s.globals.grantNothing := by
          rw [Simulator.tickBus, Globals.tickBus_quiet hprog hq]
          rfl
        rw [htick]
        exact ⟨.idle, hI.grantNothing, .quiet rfl hprog hreply hmc hclosed, le_rfl,
          fun e => absurd rfl e⟩
      · obtain ⟨k, op, q, a, rfl, hst⟩ := hI.pending hq
        have htick : s.tickBus =
            s.withGlobals (s.globals.grantRequest (busMreq (.L1 k) q a) rest) := by
          rw [Simulator.tickBus, Globals.tickBus_request hprog hq]
          rfl
        rw [htick]
        have hlt := Simulator.weight_grantRequest (k := k) (q := q) (a := a) hq hreply hmc
        refine ⟨.asked k q a 0, hI.grantRequest hq hst hreply, ?_, Nat.le_of_lt hlt,
          fun _ => hlt⟩
        refine .asked rfl ⟨rfl, ⟨s.globals.log, exchanges s.globals.log, rfl, hclosed⟩,
          ⟨s.globals.log, .granted (busMessage_ne_DATA q)⟩⟩ (Or.inl ⟨rfl, hreply⟩) hmc
  | @waiting k q a c hask hreply hmc hlo hhi =>
      have htick : s.tickBus = s.withGlobals s.globals.grantNothing := by
        rw [Simulator.tickBus, Globals.tickBus_wait hask.inProgress hreply]
        rfl
      rw [htick]
      have hlt := Simulator.weight_wait (s := s) (k := k) (q := q) (a := a) n hreply (by rw [hmc])
      exact ⟨_, hI.grantNothing,
        .waiting rfl ⟨hask.inProgress, hask.head, hask.last⟩ hreply hmc hlo hhi,
        Nat.le_of_lt hlt, fun _ => hlt⟩
  | cache j hask hreply hclock =>
      obtain ⟨hI', hM, hlt⟩ := hI.tickBus_data hask hreply (Or.inl ⟨⟨j, rfl⟩, rfl, hclock⟩)
      exact ⟨_, hI', hM, Nat.le_of_lt hlt, fun _ => hlt⟩
  | memory hask hreply hclock =>
      obtain ⟨hI', hM, hlt⟩ := hI.tickBus_data hask hreply (Or.inr ⟨rfl, rfl, hclock⟩)
      exact ⟨_, hI', hM, Nat.le_of_lt hlt, fun _ => hlt⟩

/-- A node that is not done has something to do in the next cycle. -/
theorem Good.active (h : Good T traces s tx stage) (hdone : s.done = false) :
    ∃ i, (s.Nd i).cache.procRequest ≠ none ∨ ¬ (s.Nd i).Settled ∨
      tx.request ++ s.globals.bus.pendingRequests ≠ [] := by
  simp only [Simulator.done, decide_eq_false_iff_not, not_forall] at hdone
  obtain ⟨i, hi⟩ := hdone
  refine ⟨i, ?_⟩
  have hN := h.inv.nodes i
  cases hst : stage i with
  | idle =>
      rw [hst] at hN
      have hout : (s.Nd i).processor.outstandingRequest = false := hN.outstanding
      refine Or.inr (Or.inl fun hs => ?_)
      rcases hs.2 with heof | hout'
      · exact hi (by simp [Processor.done, heof, hout])
      · rw [hout] at hout'; cases hout'
  | fetched op a =>
      rw [hst] at hN
      exact Or.inl (by rw [hN.proc]; simp [Stage.proc])
  | waiting op q a =>
      rw [hst] at hN
      refine Or.inr (Or.inr fun hnil => ?_)
      have hq := hN.queued
      rw [hnil] at hq
      cases hq
  | replied a =>
      rw [hst] at hN
      have := hN.buf.symm.trans (h.empty i)
      cases this
  | delivered a =>
      rw [hst] at hN
      refine Or.inr (Or.inl fun hs => ?_)
      have := hN.inbound.symm.trans hs.1
      cases this

/-- **A cycle never fails, keeps the invariant, and makes progress unless every
processor is done.** -/
theorem Good.cycle (hP : Implements P T) (hT : T.Lawful) (h : Good T traces s tx stage) :
    Ends s.cycle fun s' => ∃ tx' stage', Good T traces s' tx' stage' ∧ (∀ i, Kept T i s s') ∧
      (s.done = false → s'.weight tx' 1 < s.weight tx 1) := by
  obtain ⟨tx₁, hI₁, hM₁, hle₁, hlt₁⟩ := h.tickBus
  refine Ends.bind (CachesDone.loop hP hT hI₁ hM₁) ?_
  rintro s₂ ⟨tx₂, stage₂, h₂⟩
  refine Ends.bind (ProcessorsDone.loop h₂.inv) ?_
  rintro s₃ ⟨stage₃, h₃⟩
  have hM₃ : Moment n s₃.globals s₃.mc n tx₂ := by
    rw [h₃.globals, h₃.mc]
    exact h₂.moment
  refine Ends.bind (h₃.inv.tickMc hM₃) ?_
  rintro s₄ ⟨hI₄, hR₄, hNd₄, hlast₄, hle₄⟩
  refine Ends.bind (InboxesDone.loop hI₄) ?_
  rintro s₅ ⟨stage₅, h₅⟩
  refine .ok ⟨tx₂, stage₅, ⟨h₅.inv.advance, ?_, fun i => h₅.empty i i.isLt⟩, ?_, ?_⟩
  · show Rest n s₅.advance.globals s₅.mc tx₂
    have hadv : s₅.advance.globals = s₄.advance.globals := by
      simp only [Simulator.advance, h₅.globals]
    rw [hadv, h₅.mc]
    exact hR₄
  · -- what the loop over the caches left is what the cycle leaves
    intro i addr hw
    have hst : s₅.advance.states addr = s₂.states addr := by
      calc s₅.advance.states addr = s₄.states addr := h₅.states addr
        _ = s₃.states addr := by
            funext j
            rw [Simulator.states, hNd₄]
            rfl
        _ = s₂.states addr := h₃.states addr
    have hlast : ∀ m past, TracedAt s₂.globals.log m past →
        TracedAt s₅.advance.globals.log m past := by
      intro m past hp
      show TracedAt s₅.globals.log m past
      rw [h₅.globals]
      exact hlast₄ m past (h₃.globals ▸ hp)
    rcases h₂.kept i addr hw with heq | ⟨past, shared, hp, hfill, hS⟩
    · exact Or.inl ((congrFun hst i).trans heq)
    · exact Or.inr ⟨past, shared, hlast _ _ hp, (congrFun hst i).trans hfill, hS⟩
  · intro hdone
    have hle₂ := h₂.weight
    have hle₃ := h₃.weight
    have hle₅ := h₅.weight
    obtain ⟨i, hreq | hs | hq⟩ := h.active hdone
    · have := h₂.spent i i.isLt hreq
      omega
    · have hs₂ : ¬ (s₂.Nd i).Settled := fun e => hs ((h₂.settled i).mp e)
      have := h₃.spent i i.isLt hs₂
      omega
    · have := hlt₁ hq
      omega

end Good

end ProjectArchive.Coherence
