/-
ProjectArchive/Coherence/Moves.lean

What a cycle is made of.

`Move T s s'` lists the elementary steps of the simulator with the facts that
the invariant knows about each of them; `cycle` is a sequence of such steps.
A property that every move preserves therefore holds after every cycle
(`Good.cycle_preserves`) and at the end of every run (`Good.run_preserves`),
without another walk through the loops of the main loop.
-/
import ProjectArchive.Coherence.Run

namespace ProjectArchive.Coherence

open SnoopLine Exec

variable {P : Protocol} {T : Table P.State} {n : ℕ} {traces : Fin n → Trace}

/-! ### The moves -/

/-- An elementary step of the simulator. -/
inductive Move (T : Table P.State) : Simulator P n → Simulator P n → Prop
  /-- Nothing happens. -/
  | quiet {s : Simulator P n} : Move T s s
  /-- An operation of processor `i` hits. -/
  | served {s : Simulator P n} (i : Fin n) (op : Access) (a : LineAddr) :
      T.waits (s.states a i) = none → (T.request (s.states a i) op).2 = none →
      Move T s (s.served T i (opMreq i op a) op)
  /-- An operation of processor `i` misses. -/
  | queued {s : Simulator P n} (i : Fin n) (op q : Access) (a : LineAddr) :
      T.waits (s.states a i) = none → (T.request (s.states a i) op).2 = some q →
      Move T s (s.queued T i (opMreq i op a) op q)
  /-- Cache `i` observes the open request of cache `k`. -/
  | observed {s : Simulator P n} (i k : Fin n) (q : Access) (a : LineAddr) :
      T.waits (s.states a k) = some q → s.globals.bus.requestInProgress = true →
      (T.supplies (s.states a i) → s.globals.bus.dataReply = none) →
      Move T s (s.observed T i (busMreq (.L1 k) q a) q)
  /-- Cache `k` takes the data it waits for. -/
  | filled {s : Simulator P n} (k : Fin n) (q : Access) (m : Mreq) :
      T.waits (s.states m.addr k) = some q → m.msg = .DATA → Move T s (s.filled T k m)
  /-- The processor of node `i` is ticked. -/
  | node {s : Simulator P n} (i : Fin n) (nd : Node P) :
      nd.cache.myEntries = (s.Nd i).cache.myEntries → Move T s (s.setNode i nd)
  /-- The bus grants the first request of its queue. -/
  | grantRequest {s : Simulator P n} (k : Fin n) (q : Access) (a : LineAddr) (rest : List Mreq) :
      s.globals.bus.requestInProgress = false → s.globals.bus.dataReply = none →
      s.globals.bus.pendingRequests = busMreq (.L1 k) q a :: rest →
      Move T s (s.withGlobals (s.globals.grantRequest (busMreq (.L1 k) q a) rest))
  /-- The bus grants the data of the open request. -/
  | grantData {s : Simulator P n} (m : Mreq) : m.msg = .DATA →
      s.globals.bus.requestInProgress = true → s.globals.bus.dataReply = some m →
      Move T s (s.withGlobals (s.globals.grantData m))
  /-- The bus has nothing to grant. -/
  | grantNothing {s : Simulator P n} : Move T s (s.withGlobals s.globals.grantNothing)
  /-- The memory controller supplies the data of the open request. -/
  | lookedUp {s : Simulator P n} : s.globals.bus.requestInProgress = true →
      s.globals.bus.dataReply = none → Move T s s.lookedUp
  /-- The memory controller starts or cancels a lookup. -/
  | controller {s : Simulator P n} (mc : MemoryController) : Move T s { s with mc := mc }
  /-- The clock is advanced. -/
  | advance {s : Simulator P n} : Move T s s.advance

/-- Every move from a state that satisfies the invariant preserves `J`. -/
def Preserves (T : Table P.State) (traces : Fin n → Trace) (J : Simulator P n → Prop) : Prop :=
  ∀ {s s' : Simulator P n} {tx : Tx n} {stage : Fin n → Stage},
    Inv T traces s tx stage → Move T s s' → J s → J s'

/-! ### The ticks are moves -/

section Ticks

variable {s s' : Simulator P n} {tx : Tx n} {stage : Fin n → Stage} {i : Fin n}

theorem Inv.tickProcRequest_move (hP : Implements P T) (hT : T.Lawful)
    (h : Inv T traces s tx stage) (hs : s.tickProcRequest i = .ok s') : Move T s s' := by
  rcases hreq : (s.Nd i).cache.procRequest with - | m
  · rw [Simulator.tickProcRequest_none hreq] at hs
    obtain rfl := Except.ok.inj hs
    exact .quiet
  · have hN := h.nodes i
    obtain ⟨op, a, hst, rfl⟩ := Stage.proc_eq_some (hN.proc.symm.trans hreq)
    rw [hst] at hN
    have haddr : (opMreq i op a).addr = a := opMreq_addr i op a
    have hp := h.proper hT (opMreq i op a).addr i
    have hw : T.waits (s.states (opMreq i op a).addr i) = none := by
      rw [h.waits, hst]
      rfl
    rcases hq : (T.request (s.states (opMreq i op a).addr i) op).2 with - | q
    · rw [Simulator.tickProcRequest_hit hP hreq rfl hp hw hq hN.buf] at hs
      obtain rfl := Except.ok.inj hs
      exact .served i op a (haddr ▸ hw) (haddr ▸ hq)
    · rw [Simulator.tickProcRequest_miss hP hreq rfl hp hw hq] at hs
      obtain rfl := Except.ok.inj hs
      exact .queued i op q a (haddr ▸ hw) (haddr ▸ hq)

theorem Inv.tickSnoop_move (hP : Implements P T) (hT : T.Lawful) (h : Inv T traces s tx stage)
    (hM : Moment n s.globals s.mc i tx) (hs : s.tickSnoop i = .ok s') : Move T s s' := by
  cases hM with
  | quiet h₁ h₂ h₃ h₄ h₅ =>
      rw [Simulator.tickSnoop_none h₁] at hs
      obtain rfl := Except.ok.inj hs
      exact .quiet
  | waiting h₁ h₂ h₃ h₄ h₅ h₆ =>
      rw [Simulator.tickSnoop_none h₁] at hs
      obtain rfl := Except.ok.inj hs
      exact .quiet
  | @asked k q a replies hcur hask hreplied hmc =>
      have haddr : (busMreq (.L1 k) q a).addr = a := busMreq_addr _ q a
      have hp := h.proper hT a i
      have hsupplies : T.supplies (s.states a i) → s.globals.bus.dataReply = none := by
        intro hs
        have hph : (s.view (.asked k q a i) a).phase = _ := Globals.phase_asked rfl
        simpa using (h.coherent hT a).reply_none hph (Nat.lt_irrefl i) hs
      obtain ⟨op, hst⟩ := h.waiting (k := k) (q := q) (a := a) rfl
      have hw : T.waits (s.states a k) = some q := by
        rw [h.waits, hst]
        exact if_pos rfl
      rw [Simulator.tickSnoop_observe hP hcur rfl (haddr.symm ▸ hp) (haddr.symm ▸ hsupplies)] at hs
      obtain rfl := Except.ok.inj hs
      exact .observed i k q a hw hask.inProgress hsupplies
  | @told k q a m hik hcur hm haddr hdest hprog hreply hclosed hgranted hlast =>
      rcases eq_or_ne k i with rfl | hki
      · obtain ⟨op, hst⟩ := h.waiting (k := k) (q := q) (a := a) rfl
        have hw : T.waits (s.states m.addr k) = some q := by
          rw [h.waits, hst, haddr]
          exact if_pos rfl
        have hbuf : (s.Nd k).processor.inboundRequestBuf = none := by
          rw [(h.nodes k).buf, hst]
          rfl
        rw [Simulator.tickSnoop_fill hP hcur hm hdest hw hbuf] at hs
        obtain rfl := Except.ok.inj hs
        exact .filled k q m hw hm
      · have hd : m.destMid ≠ .L1 i := by
          rw [hdest]
          simpa [Fin.val_inj] using hki
        rw [Simulator.tickSnoop_other hcur hm hd] at hs
        obtain rfl := Except.ok.inj hs
        exact .quiet
  | @taken k m hki hcur hm hdest hprog hreply hclosed =>
      have hd : m.destMid ≠ .L1 i := by
        rw [hdest, ne_eq, ModuleID.L1_inj]
        omega
      rw [Simulator.tickSnoop_other hcur hm hd] at hs
      obtain rfl := Except.ok.inj hs
      exact .quiet

theorem Inv.tickMc_move (hM : Moment n s.globals s.mc n tx) (hs : s.tickMc = .ok s') :
    Move T s s' := by
  cases hM with
  | quiet hcur hprog hreply hmc hclosed =>
      rw [Simulator.tickMc_idle hcur hmc] at hs
      obtain rfl := Except.ok.inj hs
      exact .quiet
  | @waiting k q a c hcur hask hreply hmc hlo hhi =>
      have hprog : s.mc.requestInProgress = true := by rw [hmc]
      rcases Nat.lt_or_ge s.globals.globalClock s.mc.dataTime with ht | ht
      · rw [Simulator.tickMc_early hcur ht] at hs
        obtain rfl := Except.ok.inj hs
        exact .quiet
      · rw [Simulator.tickMc_reply hcur hprog ht hreply] at hs
        obtain rfl := Except.ok.inj hs
        exact .lookedUp hask.inProgress hreply
  | @asked k q a replies hcur hask hreplied hmc =>
      rw [Simulator.tickMc_request hcur (busMessage_ne_DATA q) hmc] at hs
      obtain rfl := Except.ok.inj hs
      exact .controller _
  | @told k q a m hik hcur hm haddr hdest hprog hreply hclosed hgranted hlast =>
      have := k.isLt
      omega
  | taken hki hcur hm hdest hprog hreply hclosed =>
      rw [Simulator.tickMc_data hcur hm] at hs
      obtain rfl := Except.ok.inj hs
      exact .controller _

theorem Good.tickBus_move (h : Good T traces s tx stage) : Move T s s.tickBus := by
  have hwith : s.tickBus = s.withGlobals s.globals.tickBus := rfl
  rw [hwith]
  cases h.rest with
  | idle hprog hreply hmc hclosed =>
      rcases hq : s.globals.bus.pendingRequests with - | ⟨m, rest⟩
      · rw [Globals.tickBus_quiet hprog hq]
        exact .grantNothing
      · obtain ⟨k, op, q, a, rfl, -⟩ := h.inv.pending hq
        rw [Globals.tickBus_request hprog hq]
        exact .grantRequest k q a rest hprog hreply hq
  | waiting hask hreply hmc hlo hhi =>
      rw [Globals.tickBus_wait hask.inProgress hreply]
      exact .grantNothing
  | cache j hask hreply hclock =>
      rw [Globals.tickBus_data hask.inProgress hreply]
      exact .grantData _ rfl hask.inProgress hreply
  | memory hask hreply hclock =>
      rw [Globals.tickBus_data hask.inProgress hreply]
      exact .grantData _ rfl hask.inProgress hreply

end Ticks

/-! ### The loops -/

section Loops

variable {s : Simulator P n} {tx : Tx n} {stage : Fin n → Stage} {J : Simulator P n → Prop}

theorem Inv.tickCache_preserves (hP : Implements P T) (hT : T.Lawful) (hJ : Preserves T traces J)
    {i : Fin n} {s' : Simulator P n} (h : Inv T traces s tx stage)
    (hM : Moment n s.globals s.mc i tx) (hs : s.tickCache i = .ok s') (h0 : J s) : J s' := by
  obtain ⟨s₁, hs₁, hs'⟩ := bind_eq_ok hs
  obtain ⟨stage₁, h₁, hM₁, -⟩ := (h.tickProcRequest hP hT hM).of_ok hs₁
  have hJ₁ : J s₁ := hJ h (h.tickProcRequest_move hP hT hs₁) h0
  exact hJ h₁ (h₁.tickSnoop_move hP hT hM₁ hs') hJ₁

theorem CachesDone.loop_preserves (hP : Implements P T) (hT : T.Lawful)
    (hJ : Preserves T traces J) (h : Inv T traces s tx stage)
    (hM : Moment n s.globals s.mc 0 tx) (h0 : J s) :
    Ends (Exec.forAll (fun i s => s.tickCache i) s) J := by
  refine Ends.mono (Ends.forAll
    (fun m s' => (∃ tx' stage', CachesDone T traces s tx m s' tx' stage') ∧ J s')
    ⟨⟨tx, stage, .start h hM⟩, h0⟩ ?_) fun _ => And.right
  rintro i s' ⟨⟨tx', stage', h'⟩, hj⟩
  obtain ⟨s'', hs'', h''⟩ := h'.tick hP hT
  exact ⟨s'', hs'', h'', h'.inv.tickCache_preserves hP hT hJ h'.moment hs'' hj⟩

theorem ProcessorsDone.loop_preserves (hJ : Preserves T traces J) (h : Inv T traces s tx stage)
    (h0 : J s) : Ends (Exec.forAll (fun i s => s.tickPr i) s) J := by
  refine Ends.mono (Ends.forAll
    (fun m s' => (∃ stage', ProcessorsDone T traces s tx m s' stage') ∧ J s') ?_ ?_)
    fun _ => And.right
  · exact ⟨⟨stage, h, rfl, rfl, fun _ => rfl, fun _ _ => rfl, le_rfl,
      fun _ hj => absurd hj (Nat.not_lt_zero _)⟩, h0⟩
  · rintro i s' ⟨⟨stage', h'⟩, hj⟩
    obtain ⟨s'', hs'', h''⟩ := h'.tick
    refine ⟨s'', hs'', h'', ?_⟩
    obtain ⟨nd, st, he, -, hentries, -⟩ := (h'.inv.nodes i).tickPr
    obtain ⟨nd', hnd', hs''⟩ := bind_eq_ok hs''
    obtain rfl : nd = nd' := Except.ok.inj (he.symm.trans hnd')
    obtain rfl := Except.ok.inj hs''
    exact hJ h'.inv (.node i nd hentries) hj

theorem InboxesDone.loop_preserves (hJ : Preserves T traces J) (h : Inv T traces s tx stage)
    (h0 : J s) : Ends (Exec.forAll (fun i s => s.tockPr i) s) J := by
  refine Ends.mono (Ends.forAll
    (fun m s' => (∃ stage', InboxesDone T traces s tx m s' stage') ∧ J s') ?_ ?_)
    fun _ => And.right
  · exact ⟨⟨stage, h, rfl, rfl, fun _ => rfl, fun _ hj => absurd hj (Nat.not_lt_zero _), le_rfl⟩,
      h0⟩
  · rintro i s' ⟨⟨stage', h'⟩, hj⟩
    obtain ⟨s'', hs'', h''⟩ := h'.tock
    refine ⟨s'', hs'', h'', ?_⟩
    obtain rfl := Except.ok.inj hs''
    obtain ⟨st, -, hentries, -⟩ := (h'.inv.nodes i).tockPr
    exact hJ h'.inv (.node i _ hentries) hj

/-- A cycle preserves what every move preserves. -/
theorem Good.cycle_preserves (hP : Implements P T) (hT : T.Lawful) (hJ : Preserves T traces J)
    (h : Good T traces s tx stage) (h0 : J s) : Ends s.cycle J := by
  obtain ⟨tx₁, hI₁, hM₁, -⟩ := h.tickBus
  have hJ₁ : J s.tickBus := hJ h.inv h.tickBus_move h0
  obtain ⟨s₂, hs₂, tx₂, stage₂, h₂⟩ := CachesDone.loop hP hT hI₁ hM₁
  have hJ₂ : J s₂ := (CachesDone.loop_preserves hP hT hJ hI₁ hM₁ hJ₁).of_ok hs₂
  obtain ⟨s₃, hs₃, stage₃, h₃⟩ := ProcessorsDone.loop h₂.inv
  have hJ₃ : J s₃ := (ProcessorsDone.loop_preserves hJ h₂.inv hJ₂).of_ok hs₃
  have hM₃ : Moment n s₃.globals s₃.mc n tx₂ := by
    rw [h₃.globals, h₃.mc]
    exact h₂.moment
  obtain ⟨s₄, hs₄, hI₄, -⟩ := h₃.inv.tickMc hM₃
  have hJ₄ : J s₄ := hJ h₃.inv (Inv.tickMc_move hM₃ hs₄) hJ₃
  obtain ⟨s₅, hs₅, stage₅, h₅⟩ := InboxesDone.loop hI₄
  have hJ₅ : J s₅ := (InboxesDone.loop_preserves hJ hI₄ hJ₄).of_ok hs₅
  refine .of_eq (a := s₅.advance) ?_ (hJ h₅.inv .advance hJ₅)
  simp only [Simulator.cycle, hs₂, hs₃, hs₄, hs₅, ok_bind]
  rfl

/-- A run preserves what every move preserves. -/
theorem Good.run_preserves (hP : Implements P T) (hT : T.Lawful) (hJ : Preserves T traces J)
    {fuel : ℕ} {r : Simulator P n} (h : Good T traces s tx stage) (h0 : J s)
    (hr : s.run fuel = .ok (some r)) : J r := by
  induction fuel generalizing s tx stage with
  | zero => cases hr
  | succ fuel ih =>
      obtain ⟨s', hs', tx', stage', h', -⟩ := h.cycle hP hT
      have hJ' : J s' := (h.cycle_preserves hP hT hJ h0).of_ok hs'
      rw [Simulator.run_step hs'] at hr
      split at hr
      · obtain rfl := Option.some.inj (Except.ok.inj hr)
        exact hJ'
      · exact ih h' hJ' hr

end Loops

/-- The end of a run, with everything the moves preserve. -/
theorem run_ends_with (hP : Implements P T) (hT : T.Lawful) {J : Simulator P n → Prop}
    (hJ : Preserves T traces J) (h0 : J (.new P traces)) :
    ∃ N s tx stage, (∀ fuel, N ≤ fuel → (Simulator.new P traces).run fuel = .ok (some s)) ∧
      s.done = true ∧ Good T traces s tx stage ∧ J s := by
  have hinit := Good.init hP hT traces
  obtain ⟨N, s, tx, stage, hrun, hdone, h⟩ := hinit.finishes hP hT
  exact ⟨N, s, tx, stage, hrun, hdone, h, hinit.run_preserves hP hT hJ h0 (hrun N le_rfl)⟩

end ProjectArchive.Coherence
