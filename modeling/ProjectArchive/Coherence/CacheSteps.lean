/-
ProjectArchive/Coherence/CacheSteps.lean

A cycle, step by step.

`Move` lists the steps of the simulator as far as the invariant needs them.
Here they carry what the bus shows meanwhile: which transaction is open, which
message is on the bus, and where the operation of the processor was.  A cycle is

    BusStep    the bus grants a request, or its data, or nothing
    CacheStep  as many steps of the caches as there are
    MemStep    the memory controller starts, ends or drops a lookup

and then the clock is advanced: `Good.cycle_steps`.
-/
import ProjectArchive.Coherence.Moves

namespace ProjectArchive.Coherence

open SnoopLine Exec Relation

variable {P : Protocol} {T : Table P.State} {n : ℕ} {traces : Fin n → Trace}

/-- A simulator, its open transaction, and where the operations are. -/
structure Config (P : Protocol) (n : ℕ) where
  sim : Simulator P n
  tx : Tx n
  stage : Fin n → Stage

/-- The invariant of the simulator. -/
abbrev Config.Inv (T : Table P.State) (traces : Fin n → Trace) (c : Config P n) : Prop :=
  Coherence.Inv T traces c.sim c.tx c.stage

/-! ### The steps -/

/-- `Bus::tick`. -/
inductive BusStep : Config P n → Config P n → Prop
  /-- There is nothing to grant. -/
  | quiet {s : Simulator P n} {stage : Fin n → Stage} (hq : s.globals.bus.pendingRequests = []) :
      BusStep ⟨s, .idle, stage⟩ ⟨s.withGlobals s.globals.grantNothing, .idle, stage⟩
  /-- The first request of the queue is granted. -/
  | request {s : Simulator P n} {stage : Fin n → Stage} (k : Fin n) (q : Access) (a : LineAddr)
      (rest : List Mreq) (hreply : s.globals.bus.dataReply = none)
      (hmc : s.mc.requestInProgress = false)
      (hq : s.globals.bus.pendingRequests = busMreq (.L1 k) q a :: rest) :
      BusStep ⟨s, .idle, stage⟩
        ⟨s.withGlobals (s.globals.grantRequest (busMreq (.L1 k) q a) rest), .asked k q a 0, stage⟩
  /-- The open request waits for memory. -/
  | wait {s : Simulator P n} {stage : Fin n → Stage} (k : Fin n) (q : Access) (a : LineAddr)
      (hreply : s.globals.bus.dataReply = none) (hmc : s.mc.requestInProgress = true) :
      BusStep ⟨s, .asked k q a n, stage⟩
        ⟨s.withGlobals s.globals.grantNothing, .asked k q a n, stage⟩
  /-- The data of the open request are granted. -/
  | data {s : Simulator P n} {stage : Fin n → Stage} (k : Fin n) (q : Access) (a : LineAddr)
      (m : Mreq) (hreply : s.globals.bus.dataReply = some m) (hm : m.msg = .DATA)
      (haddr : m.addr = a) :
      BusStep ⟨s, .asked k q a n, stage⟩ ⟨s.withGlobals (s.globals.grantData m), .told k q a, stage⟩

/-- A step of `Hash_table::tick`. -/
inductive CacheStep (T : Table P.State) : Config P n → Config P n → Prop
  /-- The operation of processor `i` hits. -/
  | served {s : Simulator P n} {tx : Tx n} {stage : Fin n → Stage} (i : Fin n) (op : Access)
      (a : LineAddr) (hst : stage i = .fetched op a)
      (hhit : (T.request (s.states a i) op).2 = none) :
      CacheStep T ⟨s, tx, stage⟩
        ⟨s.served T i (opMreq i op a) op, tx, Function.update stage i (.replied a)⟩
  /-- The operation of processor `i` misses. -/
  | queued {s : Simulator P n} {tx : Tx n} {stage : Fin n → Stage} (i : Fin n) (op q : Access)
      (a : LineAddr) (hst : stage i = .fetched op a)
      (hmiss : (T.request (s.states a i) op).2 = some q) :
      CacheStep T ⟨s, tx, stage⟩
        ⟨s.queued T i (opMreq i op a) op q, tx, Function.update stage i (.waiting op q a)⟩
  /-- Cache `i` observes the open request, which is on the bus. -/
  | observed {s : Simulator P n} {stage : Fin n → Stage} (i k : Fin n) (q : Access) (a : LineAddr)
      (hcur : s.globals.bus.currentRequest = some (busMreq (.L1 k) q a))
      (hmc : s.mc.requestInProgress = false) :
      CacheStep T ⟨s, .asked k q a i, stage⟩
        ⟨s.observed T i (busMreq (.L1 k) q a) q, .asked k q a (i + 1), stage⟩
  /-- Cache `k` takes its data, which are on the bus. -/
  | filled {s : Simulator P n} {stage : Fin n → Stage} (k : Fin n) (op q : Access) (a : LineAddr)
      (m : Mreq) (hst : stage k = .waiting op q a)
      (hcur : s.globals.bus.currentRequest = some m) (hm : m.msg = .DATA) (haddr : m.addr = a) :
      CacheStep T ⟨s, .told k q a, stage⟩
        ⟨s.filled T k m, .idle, Function.update stage k (.replied a)⟩

/-- `Memory_controller::tick`: it leaves the nodes alone. -/
inductive MemStep (n : ℕ) : Tx n → Globals → MemoryController → Globals → MemoryController → Prop
  /-- No transaction is open. -/
  | idle {g : Globals} {mc : MemoryController} (busy : Bool) :
      MemStep n .idle g mc g { mc with requestInProgress := busy }
  /-- A request on the bus starts a lookup. -/
  | started {g : Globals} {mc : MemoryController} (k : Fin n) (q : Access) (a : LineAddr)
      (hcur : g.bus.currentRequest = some (busMreq (.L1 k) q a))
      (hmc : mc.requestInProgress = false) :
      MemStep n (.asked k q a n) g mc g ⟨true, g.globalClock + hitTime, a, .L1 k⟩
  /-- The lookup goes on. -/
  | early {g : Globals} {mc : MemoryController} (k : Fin n) (q : Access) (a : LineAddr)
      (hreply : g.bus.dataReply = none) (hmc : mc.requestInProgress = true)
      (htime : g.globalClock < mc.dataTime) : MemStep n (.asked k q a n) g mc g mc
  /-- The lookup is over, and the data are handed to the bus. -/
  | expired {g : Globals} {mc : MemoryController} (k : Fin n) (q : Access) (a : LineAddr)
      (hreply : g.bus.dataReply = none) (hmc : mc.requestInProgress = true)
      (htime : mc.dataTime ≤ g.globalClock) (haddr : mc.dataAddr = a) :
      MemStep n (.asked k q a n) g mc (g.reply (dataMreq (.MC n) mc.dataAddr mc.dataTarget))
        { mc with requestInProgress := false }

/-- The steps of the caches keep the invariant. -/
theorem CacheStep.inv (hT : T.Lawful) {c c' : Config P n} (hstep : CacheStep T c c')
    (h : c.Inv T traces) : c'.Inv T traces := by
  cases hstep with
  | served i op a hst hhit => exact Inv.served hT h hst hhit
  | queued i op q a hst hmiss => exact Inv.queued hT h hst hmiss
  | observed i k q a hcur hmc => exact Inv.observed hT h
  | filled k op q a m hst hcur hm haddr => exact Inv.filled hT h hm haddr

/-- What every step of a cache preserves is preserved by all of them. -/
theorem CacheStep.preserves (hT : T.Lawful) {J : Config P n → Prop}
    (hJ : ∀ {c c'}, CacheStep T c c' → c.Inv T traces → J c → J c') {c c' : Config P n}
    (hsteps : ReflTransGen (CacheStep T) c c') (h : c.Inv T traces) (h0 : J c) :
    c'.Inv T traces ∧ J c' := by
  induction hsteps with
  | refl => exact ⟨h, h0⟩
  | tail _ hstep ih => exact ⟨hstep.inv hT ih.1, hJ hstep ih.1 ih.2⟩

/-! ### The ticks are steps -/

section Ticks

variable {s : Simulator P n} {tx : Tx n} {stage : Fin n → Stage} {i : Fin n} {j : ℕ}

theorem Inv.tickProcRequest_steps (hP : Implements P T) (hT : T.Lawful)
    (h : Inv T traces s tx stage) (hM : Moment n s.globals s.mc j tx) :
    Ends (s.tickProcRequest i) fun s' => ∃ stage', Inv T traces s' tx stage' ∧
      Moment n s'.globals s'.mc j tx ∧
        ReflTransGen (CacheStep T) ⟨s, tx, stage⟩ ⟨s', tx, stage'⟩ := by
  rcases hreq : (s.Nd i).cache.procRequest with - | m
  · exact .of_eq (Simulator.tickProcRequest_none hreq) ⟨stage, h, hM, .refl⟩
  · have hN := h.nodes i
    obtain ⟨op, a, hst, rfl⟩ := Stage.proc_eq_some (hN.proc.symm.trans hreq)
    rw [hst] at hN
    have haddr : (opMreq i op a).addr = a := opMreq_addr i op a
    have hp := h.proper hT (opMreq i op a).addr i
    have hw : T.waits (s.states (opMreq i op a).addr i) = none := by
      rw [h.waits, hst]
      rfl
    rcases hq : (T.request (s.states (opMreq i op a).addr i) op).2 with - | q
    · rw [haddr] at hq
      refine .of_eq (Simulator.tickProcRequest_hit hP hreq rfl hp hw (haddr.symm ▸ hq) hN.buf)
        ⟨_, h.served hT hst hq, hM.served, .single (.served i op a hst hq)⟩
    · rw [haddr] at hq
      exact .of_eq (Simulator.tickProcRequest_miss hP hreq rfl hp hw (haddr.symm ▸ hq))
        ⟨_, h.queued hT hst hq, hM.queued, .single (.queued i op q a hst hq)⟩

theorem Inv.tickSnoop_steps (hP : Implements P T) (hT : T.Lawful) (h : Inv T traces s tx stage)
    (hM : Moment n s.globals s.mc i tx) :
    Ends (s.tickSnoop i) fun s' => ∃ tx' stage', Inv T traces s' tx' stage' ∧
      Moment n s'.globals s'.mc (i + 1) tx' ∧
        ReflTransGen (CacheStep T) ⟨s, tx, stage⟩ ⟨s', tx', stage'⟩ := by
  cases hM with
  | quiet h₁ h₂ h₃ h₄ h₅ =>
      exact .of_eq (Simulator.tickSnoop_none h₁) ⟨_, stage, h, .quiet h₁ h₂ h₃ h₄ h₅, .refl⟩
  | waiting h₁ h₂ h₃ h₄ h₅ h₆ =>
      exact .of_eq (Simulator.tickSnoop_none h₁) ⟨_, stage, h, .waiting h₁ h₂ h₃ h₄ h₅ h₆, .refl⟩
  | @asked k q a replies hcur hask hreplied hmc =>
      have haddr : (busMreq (.L1 k) q a).addr = a := busMreq_addr _ q a
      have hp := h.proper hT a i
      have hsupplies : T.supplies (s.states a i) → s.globals.bus.dataReply = none := by
        intro hs
        have hph : (s.view (.asked k q a i) a).phase = _ := Globals.phase_asked rfl
        simpa using (h.coherent hT a).reply_none hph (Nat.lt_irrefl i) hs
      exact .of_eq (Simulator.tickSnoop_observe hP hcur rfl (haddr.symm ▸ hp)
        (haddr.symm ▸ hsupplies)) ⟨_, stage, h.observed hT,
        Moment.observed hcur hask hreplied hmc hsupplies, .single (.observed i k q a hcur hmc)⟩
  | @told k q a m hik hcur hm haddr hdest hprog hreply hclosed hgranted hlast =>
      rcases eq_or_ne k i with rfl | hki
      · obtain ⟨op, hst⟩ := h.waiting (k := k) (q := q) (a := a) rfl
        have hw : T.waits (s.states m.addr k) = some q := by
          rw [h.waits, hst, haddr]
          exact if_pos rfl
        have hbuf : (s.Nd k).processor.inboundRequestBuf = none := by
          rw [(h.nodes k).buf, hst]
          rfl
        exact .of_eq (Simulator.tickSnoop_fill hP hcur hm hdest hw hbuf)
          ⟨_, _, h.filled hT hm haddr, Moment.filled hcur hm hdest hprog hreply hclosed,
            .single (.filled k op q a m hst hcur hm haddr)⟩
      · have hd : m.destMid ≠ .L1 i := by
          rw [hdest]
          simpa [Fin.val_inj] using hki
        have hik' : i.val + 1 ≤ k := Nat.lt_of_le_of_ne hik fun e => hki (Fin.ext e.symm)
        exact .of_eq (Simulator.tickSnoop_other hcur hm hd) ⟨_, stage, h,
          .told hik' hcur hm haddr hdest hprog hreply hclosed hgranted hlast, .refl⟩
  | @taken k m hki hcur hm hdest hprog hreply hclosed =>
      have hd : m.destMid ≠ .L1 i := by
        rw [hdest, ne_eq, ModuleID.L1_inj]
        omega
      exact .of_eq (Simulator.tickSnoop_other hcur hm hd) ⟨_, stage, h,
        .taken (Nat.lt_succ_of_lt hki) hcur hm hdest hprog hreply hclosed, .refl⟩

/-- The loop over the caches. -/
theorem Inv.tickCaches_steps (hP : Implements P T) (hT : T.Lawful) (h : Inv T traces s tx stage)
    (hM : Moment n s.globals s.mc 0 tx) :
    Ends (Exec.forAll (fun i s => s.tickCache i) s) fun s' => ∃ tx' stage',
      Inv T traces s' tx' stage' ∧ Moment n s'.globals s'.mc n tx' ∧
        ReflTransGen (CacheStep T) ⟨s, tx, stage⟩ ⟨s', tx', stage'⟩ := by
  refine Ends.forAll (fun m s' => ∃ tx' stage', Inv T traces s' tx' stage' ∧
    Moment n s'.globals s'.mc m tx' ∧
      ReflTransGen (CacheStep T) ⟨s, tx, stage⟩ ⟨s', tx', stage'⟩) ⟨tx, stage, h, hM, .refl⟩ ?_
  rintro i s' ⟨tx', stage', h', hM', hsteps⟩
  refine Ends.bind (h'.tickProcRequest_steps hP hT hM') ?_
  rintro s₁ ⟨stage₁, h₁, hM₁, hsteps₁⟩
  refine (h₁.tickSnoop_steps hP hT hM₁).mono ?_
  rintro s₂ ⟨tx₂, stage₂, h₂, hM₂, hsteps₂⟩
  exact ⟨tx₂, stage₂, h₂, hM₂, (hsteps.trans hsteps₁).trans hsteps₂⟩

/-- `Bus::tick`. -/
theorem Good.busStep (h : Good T traces s tx stage) : ∃ tx', Inv T traces s.tickBus tx' stage ∧
    Moment n s.tickBus.globals s.tickBus.mc 0 tx' ∧
      BusStep ⟨s, tx, stage⟩ ⟨s.tickBus, tx', stage⟩ := by
  have hwith : s.tickBus = s.withGlobals s.globals.tickBus := rfl
  have hI := h.inv
  cases h.rest with
  | idle hprog hreply hmc hclosed =>
      rcases hq : s.globals.bus.pendingRequests with - | ⟨m, rest⟩
      · rw [hwith, Globals.tickBus_quiet hprog hq]
        exact ⟨.idle, hI.grantNothing, .quiet rfl hprog hreply hmc hclosed, .quiet hq⟩
      · obtain ⟨k, op, q, a, rfl, hst⟩ := hI.pending hq
        rw [hwith, Globals.tickBus_request hprog hq]
        refine ⟨.asked k q a 0, hI.grantRequest hq hst hreply, ?_,
          .request k q a rest hreply hmc hq⟩
        exact .asked rfl ⟨rfl, ⟨s.globals.log, exchanges s.globals.log, rfl, hclosed⟩,
          ⟨s.globals.log, .granted (busMessage_ne_DATA q)⟩⟩ (Or.inl ⟨rfl, hreply⟩) hmc
  | @waiting k q a c hask hreply hmc hlo hhi =>
      rw [hwith, Globals.tickBus_wait hask.inProgress hreply]
      exact ⟨_, hI.grantNothing, .waiting rfl ⟨hask.inProgress, hask.head, hask.last⟩ hreply hmc
        hlo hhi, .wait k q a hreply (by rw [hmc])⟩
  | @cache k q a c j hask hreply hclock =>
      obtain ⟨hI', hM, -⟩ := hI.tickBus_data hask hreply (Or.inl ⟨⟨j, rfl⟩, rfl, hclock⟩)
      refine ⟨_, hI', hM, ?_⟩
      rw [hwith, Globals.tickBus_data hask.inProgress hreply]
      exact .data k q a _ hreply rfl a.2
  | @memory k q a c hask hreply hclock =>
      obtain ⟨hI', hM, -⟩ := hI.tickBus_data hask hreply (Or.inr ⟨rfl, rfl, hclock⟩)
      refine ⟨_, hI', hM, ?_⟩
      rw [hwith, Globals.tickBus_data hask.inProgress hreply]
      exact .data k q a _ hreply rfl a.2

/-- `Memory_controller::tick`. -/
theorem Inv.memStep (hM : Moment n s.globals s.mc n tx) {s' : Simulator P n}
    (hs : s.tickMc = .ok s') : MemStep n tx s.globals s.mc s'.globals s'.mc := by
  cases hM with
  | quiet hcur hprog hreply hmc hclosed =>
      rw [Simulator.tickMc_idle hcur hmc] at hs
      obtain rfl := Except.ok.inj hs
      exact .idle s.mc.requestInProgress
  | @waiting k q a c hcur hask hreply hmc hlo hhi =>
      have hprog : s.mc.requestInProgress = true := by rw [hmc]
      rcases Nat.lt_or_ge s.globals.globalClock s.mc.dataTime with ht | ht
      · rw [Simulator.tickMc_early hcur ht] at hs
        obtain rfl := Except.ok.inj hs
        exact .early k q a hreply hprog ht
      · rw [Simulator.tickMc_reply hcur hprog ht hreply] at hs
        obtain rfl := Except.ok.inj hs
        exact .expired k q a hreply hprog ht (by rw [hmc])
  | @asked k q a replies hcur hask hreplied hmc =>
      rw [Simulator.tickMc_request hcur (busMessage_ne_DATA q) hmc] at hs
      obtain rfl := Except.ok.inj hs
      have haddr : (busMreq (.L1 k) q a).addr = a := busMreq_addr _ q a
      show MemStep n _ _ _ _ ⟨true, s.globals.globalClock + hitTime, (busMreq (.L1 k) q a).addr, _⟩
      rw [haddr]
      exact .started k q a hcur hmc
  | @told k q a m hik hcur hm haddr hdest hprog hreply hclosed hgranted hlast =>
      have := k.isLt
      omega
  | taken hki hcur hm hdest hprog hreply hclosed =>
      rw [Simulator.tickMc_data hcur hm] at hs
      obtain rfl := Except.ok.inj hs
      exact .idle false

end Ticks

/-! ### The cycle -/

/-- The steps of the cycle from `s` to `s'`. -/
structure CycleSteps (T : Table P.State) (traces : Fin n → Trace) (c c' : Config P n) : Prop where
  good : Good T traces c'.sim c'.tx c'.stage
  steps : ∃ c₁ c₂ g, BusStep c c₁ ∧ c₁.Inv T traces ∧ ReflTransGen (CacheStep T) c₁ c₂ ∧
    c₂.tx = c'.tx ∧ MemStep n c₂.tx c₂.sim.globals c₂.sim.mc g c'.sim.mc ∧
      c'.sim.globals = { g with globalClock := g.globalClock + 1 } ∧
      ∀ addr, c'.sim.states addr = c₂.sim.states addr

theorem Good.cycle_steps (hP : Implements P T) (hT : T.Lawful) {s : Simulator P n} {tx : Tx n}
    {stage : Fin n → Stage} (h : Good T traces s tx stage) :
    Ends s.cycle fun s' => ∃ tx' stage', CycleSteps T traces ⟨s, tx, stage⟩ ⟨s', tx', stage'⟩ := by
  obtain ⟨tx₁, h₁, hM₁, hbus⟩ := h.busStep
  refine Ends.bind (h₁.tickCaches_steps hP hT hM₁) ?_
  rintro s₂ ⟨tx₂, stage₂, h₂, hM₂, hcaches⟩
  refine Ends.bind (ProcessorsDone.loop h₂) ?_
  rintro s₃ ⟨stage₃, h₃⟩
  have hM₃ : Moment n s₃.globals s₃.mc n tx₂ := by
    rw [h₃.globals, h₃.mc]
    exact hM₂
  obtain ⟨s₄, hs₄, hI₄, hR₄, hNd₄, -⟩ := h₃.inv.tickMc hM₃
  have hmem := Inv.memStep hM₃ hs₄
  rw [h₃.globals, h₃.mc] at hmem
  refine Ends.bind (.of_eq hs₄ (rfl : s₄ = s₄)) ?_
  rintro _ rfl
  refine Ends.bind (InboxesDone.loop hI₄) ?_
  rintro s₅ ⟨stage₅, h₅⟩
  have hglobals : s₅.advance.globals = s₄.advance.globals := by
    simp only [Simulator.advance, h₅.globals]
  refine .ok ⟨tx₂, stage₅, ⟨h₅.inv.advance, ?_, fun i => h₅.empty i i.isLt⟩, ?_⟩
  · show Rest n s₅.advance.globals s₅.mc tx₂
    rw [hglobals, h₅.mc]
    exact hR₄
  · refine ⟨_, ⟨s₂, tx₂, stage₂⟩, s₄.globals, hbus, h₁, hcaches, rfl, ?_, hglobals, ?_⟩
    · show MemStep n tx₂ s₂.globals s₂.mc s₄.globals s₅.mc
      rw [h₅.mc]
      exact hmem
    · intro addr
      calc s₅.advance.states addr = s₄.states addr := h₅.states addr
        _ = s₃.states addr := by
            funext j
            rw [Simulator.states, hNd₄]
            rfl
        _ = s₂.states addr := h₃.states addr

/-! ### Runs -/

section Runs

variable {J : Simulator P n → Prop}

/-- What the steps of a cycle preserve holds after any number of cycles. -/
theorem CycleSteps.cycles (hP : Implements P T) (hT : T.Lawful)
    (hJ : ∀ {c c' : Config P n}, CycleSteps T traces c c' → J c.sim → J c'.sim)
    (h0 : J (.new P traces)) (k : ℕ) :
    Ends (Simulator.cycles P traces k) fun s => (∃ tx stage, Good T traces s tx stage) ∧ J s := by
  induction k with
  | zero => exact .ok ⟨⟨_, _, .init hP hT traces⟩, h0⟩
  | succ k ih =>
      refine Ends.bind ih ?_
      rintro s ⟨⟨tx, stage, h⟩, hj⟩
      refine (h.cycle_steps hP hT).mono ?_
      rintro s' ⟨tx', stage', hsteps⟩
      exact ⟨⟨tx', stage', hsteps.good⟩, hJ hsteps hj⟩

/-- What the steps of a cycle preserve holds at the end of a run. -/
theorem CycleSteps.run (hP : Implements P T) (hT : T.Lawful)
    (hJ : ∀ {c c' : Config P n}, CycleSteps T traces c c' → J c.sim → J c'.sim) {fuel : ℕ}
    {s r : Simulator P n} {tx : Tx n} {stage : Fin n → Stage} (h : Good T traces s tx stage)
    (h0 : J s) (hr : s.run fuel = .ok (some r)) : J r := by
  induction fuel generalizing s tx stage with
  | zero => cases hr
  | succ fuel ih =>
      obtain ⟨s', hs', tx', stage', hsteps⟩ := h.cycle_steps hP hT
      have hJ' : J s' := hJ hsteps h0
      rw [Simulator.run_step hs'] at hr
      split at hr
      · obtain rfl := Option.some.inj (Except.ok.inj hr)
        exact hJ'
      · exact ih hsteps.good hJ' hr

end Runs

end ProjectArchive.Coherence
