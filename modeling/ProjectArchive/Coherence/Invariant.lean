/-
ProjectArchive/Coherence/Invariant.lean

The invariant of the simulator, and what each outcome of a tick does to it.

`Inv s tx stage` holds at every moment of a cycle, given which transaction is
open and where the operation of each processor is.  It says that the nodes are
at their stages, that the bus queue holds what was requested and not yet
granted, and that every line is a reachable line of the abstract protocol.
The last part carries the coherence: the library's invariants hold of every
`Simulator.view`.
-/
import ProjectArchive.Coherence.Stage

namespace ProjectArchive.Coherence

open SnoopLine

variable {P : Protocol} {T : Table P.State} {n : ℕ}

/-! ### The invariant -/

/-- The request of the open transaction. -/
def Tx.request : Tx n → List Mreq
  | .idle => []
  | .asked k q addr _ | .told k q addr => [busMreq (.L1 k) q addr]

/-- Whenever the memory controller supplied data, no cache had supplied them:
some reachable line with the same number of stores was waiting for a reply
that every cache had declined to give. -/
def LookedUp (T : Table P.State) (n : ℕ) (log : List Event) : Prop :=
  ∀ past t m, (.requested t m :: past) <:+ log → m.msg = .DATA → m.srcMid = .MC n →
    ∃ L : Line P.State (Fin n), Reach T L ∧ L.latest = (versions past).latest m.addr ∧
      ∃ k q seen shared had, L.phase = .asked k q seen none shared had ∧ ∀ i, seen i

/-- The invariant. -/
structure Inv (T : Table P.State) (traces : Fin n → Trace) (s : Simulator P n) (tx : Tx n)
    (stage : Fin n → Stage) : Prop where
  nodes : ∀ i : Fin n, NodeOk T i (traces i) (s.Nd i) s.globals.log
    (tx.request ++ s.globals.bus.pendingRequests) (stage i)
  sources : ∀ m ∈ s.globals.bus.pendingRequests, ∃ i : Fin n, m.srcMid = .L1 i
  fifo : requests s.globals.log = grants s.globals.log ++ s.globals.bus.pendingRequests
  lines : ∀ addr, Reach T (s.view tx addr)
  fresh : Fresh s.globals.log
  lookedUp : LookedUp T n s.globals.log

theorem LookedUp.cons {log : List Event} {e : Event} (h : LookedUp T n log)
    (he : ∀ t m, e = .requested t m → m.msg = .DATA → m.srcMid = .MC n →
      ∃ L : Line P.State (Fin n), Reach T L ∧ L.latest = (versions log).latest m.addr ∧
        ∃ k q seen shared had, L.phase = .asked k q seen none shared had ∧ ∀ i, seen i) :
    LookedUp T n (e :: log) := by
  intro past t m hs
  rcases List.suffix_cons_iff.mp hs with heq | hs
  · obtain ⟨rfl, rfl⟩ := List.cons.inj heq
    exact he t m rfl
  · exact h past t m hs

theorem Stage.queue_eq_cons {stage : Stage} {i : ℕ} {m : Mreq} {l : List Mreq}
    (h : stage.queue i = m :: l) :
    ∃ op q addr, stage = .waiting op q addr ∧ m = busMreq (.L1 i) q addr ∧ l = [] := by
  cases stage with
  | waiting op q addr =>
      obtain ⟨hm, hl⟩ := List.cons.inj h
      exact ⟨op, q, addr, rfl, hm.symm, hl.symm⟩
  | _ => cases h

section Inv

variable {traces : Fin n → Trace} {s : Simulator P n} {tx : Tx n} {stage : Fin n → Stage}
  {i k : Fin n} {op q : Access} {a : LineAddr} {seen : ℕ} {m : Mreq} {rest : List Mreq}

theorem Inv.coherent (hT : T.Lawful) (h : Inv T traces s tx stage) (addr : Paddr) :
    Coherent T (s.view tx addr) := (h.lines addr).coherent hT

theorem Inv.proper (hT : T.Lawful) (h : Inv T traces s tx stage) (addr : Paddr) (i : Fin n) :
    T.proper (s.states addr i) := (h.coherent hT addr).proper i

theorem Inv.waits (h : Inv T traces s tx stage) (addr : Paddr) (i : Fin n) :
    T.waits (s.states addr i) = (stage i).waitsAt addr := (h.nodes i).waits addr

/-- The requester of the open transaction waits for it. -/
theorem Inv.waiting (h : Inv T traces s tx stage) (htx : tx.request = [busMreq (.L1 k) q a]) :
    ∃ op, stage k = .waiting op q a := by
  have hq := (h.nodes k).queued
  rw [htx] at hq
  simp only [List.cons_append, List.nil_append, List.filter_cons, busMreq_srcMid,
    decide_true, if_true] at hq
  obtain ⟨op, q', a', hst, hm, -⟩ := Stage.queue_eq_cons hq.symm
  obtain ⟨rfl, rfl⟩ := busMreq_inj hm
  exact ⟨op, hst⟩

/-! ### The processor's request -/

/-- What a request taken from the processor leaves of the other nodes. -/
theorem Inv.node_served (h : Inv T traces s tx stage) {j : Fin n} (hj : j ≠ i) :
    NodeOk T j (traces j) ((s.served T i m op).Nd j) (s.served T i m op).globals.log
      (tx.request ++ (s.served T i m op).globals.bus.pendingRequests) (stage j) := by
  have hij : ModuleID.L1 i ≠ ModuleID.L1 j := by simpa [Fin.val_inj] using hj.symm
  rw [Simulator.served_Nd_ne hj, Simulator.served_log, Simulator.served_bus]
  apply (h.nodes j).frame
  · simp [Function.update_of_ne hij.symm]
  · simp [accepts, hij]
  · simp [answers, hij]
  · rfl

theorem Inv.served (hT : T.Lawful) (h : Inv T traces s tx stage) (hst : stage i = .fetched op a)
    (hhit : (T.request (s.states a i) op).2 = none) :
    Inv T traces (s.served T i (opMreq i op a) op) tx
      (Function.update stage i (.replied a)) := by
  have hN := h.nodes i
  rw [hst] at hN
  have haddr : (opMreq i op a).addr = a := opMreq_addr i op a
  have hp := h.proper hT a i
  have hw : T.waits (s.states a i) = none := by rw [h.waits, hst]; rfl
  refine ⟨?_, ?_, ?_, ?_, ?_, ?_⟩
  · intro j
    rcases eq_or_ne j i with rfl | hj
    · rw [Function.update_self]
      refine ⟨Simulator.served_procRequest, ?_, ?_, ?_, ?_, ?_, (fun e => by cases e), ?_, ?_, ?_,
        ?_, ?_⟩
      · rw [Simulator.served_processor]; exact hN.outstanding
      · rw [Simulator.served_processor, haddr]; rfl
      · rw [Simulator.served_processor]; exact hN.inbound
      · intro b
        show T.waits ((s.served T j (opMreq j op a) op).states b j) = none
        rcases eq_or_ne b (opMreq j op a).addr with rfl | hb
        · rw [Simulator.served_states_self, Function.update_self, haddr]
          exact hT.hit_waits hp hw hhit
        · rw [Simulator.served_states_ne hb]
          exact hN.waits b
      · rw [Simulator.served_bus]; exact hN.queued
      · rw [Simulator.served_processor]; exact hN.operations
      · rw [Simulator.served_processor]; exact hN.ended
      · rw [Simulator.served_processor, Simulator.served_log, hN.ledger]
        simp [accepts, Stage.proc]
      · rw [Simulator.served_log]
        simpa [accepts, answers, Stage.unanswered] using hN.answered
      · rintro b ⟨⟩
        rw [Simulator.served_log]
        simp [answers]
    · rw [Function.update_of_ne hj]
      exact h.node_served hj
  · rw [Simulator.served_bus]; exact h.sources
  · rw [Simulator.served_bus, Simulator.served_log]
    simpa [requests, grants] using h.fifo
  · intro b
    rcases eq_or_ne b (opMreq i op a).addr with rfl | hb
    · rw [Simulator.view_served rfl]
      apply (h.lines _).step
      exact Step.hit i op (by simpa [Simulator.view, haddr] using hw)
        (by simpa [Simulator.view, haddr] using hhit)
    · rw [Simulator.view_served_ne hb]
      exact h.lines b
  · rw [Simulator.served_log]
    refine (h.fresh.cons fun _ _ e => by cases e).cons ?_
    rintro mid m' ⟨⟩
    -- a hit is served from the latest version
    have hhold : T.holds (s.states a i) := hT.hit_holds hp hw hhit
    have hcur := (h.coherent hT a).current i hhold
    have hcopy := (h.coherent hT a).copied i hhold
    rw [answerMreq_line, haddr]
    exact ⟨by simpa [Simulator.view] using hcur, by simpa [Simulator.view, copies] using hcopy⟩
  · rw [Simulator.served_log]
    exact (h.lookedUp.cons fun _ _ e => by cases e).cons fun _ _ e => by cases e

theorem Inv.node_queued (h : Inv T traces s tx stage) {j : Fin n} (hj : j ≠ i) :
    NodeOk T j (traces j) ((s.queued T i m op q).Nd j) (s.queued T i m op q).globals.log
      (tx.request ++ (s.queued T i m op q).globals.bus.pendingRequests) (stage j) := by
  have hij : ModuleID.L1 i ≠ ModuleID.L1 j := by simpa [Fin.val_inj] using hj.symm
  rw [Simulator.queued_Nd_ne hj, Simulator.queued_log, Simulator.queued_bus]
  apply (h.nodes j).frame
  · simp [Function.update_of_ne hij.symm]
  · simp [accepts, hij]
  · simp [answers]
  · simp [List.filter_append, Fin.val_inj, hj.symm]

theorem Inv.queued (hT : T.Lawful) (h : Inv T traces s tx stage) (hst : stage i = .fetched op a)
    (hmiss : (T.request (s.states a i) op).2 = some q) :
    Inv T traces (s.queued T i (opMreq i op a) op q) tx
      (Function.update stage i (.waiting op q a)) := by
  have hN := h.nodes i
  rw [hst] at hN
  have haddr : (opMreq i op a).addr = a := opMreq_addr i op a
  have hp := h.proper hT a i
  have hw : T.waits (s.states a i) = none := by rw [h.waits, hst]; rfl
  refine ⟨?_, ?_, ?_, ?_, ?_, ?_⟩
  · intro j
    rcases eq_or_ne j i with rfl | hj
    · rw [Function.update_self]
      refine ⟨Simulator.queued_procRequest, ?_, ?_, ?_, ?_, ?_, ?_, ?_, ?_, ?_, ?_,
        fun e => by cases e⟩
      · rw [Simulator.queued_processor]; exact hN.outstanding
      · rw [Simulator.queued_processor]; exact hN.buf
      · rw [Simulator.queued_processor]; exact hN.inbound
      · intro b
        show T.waits ((s.queued T j (opMreq j op a) op q).states b j) = if b = a then some q else none
        rcases eq_or_ne b (opMreq j op a).addr with rfl | hb
        · rw [Simulator.queued_states_self, Function.update_self, haddr, if_pos rfl]
          exact hT.miss_waits hp hw hmiss
        · rw [Simulator.queued_states_ne hb, if_neg (haddr ▸ hb)]
          exact hN.waits b
      · rw [Simulator.queued_bus, ← List.append_assoc, List.filter_append, hN.queued]
        simp [Stage.queue]
      · rintro op' q' a' ⟨⟩
        rw [Simulator.queued_log]
        refine ⟨by simp, ?_⟩
        rintro rfl
        exact hT.miss_write hp hw hmiss
      · rw [Simulator.queued_processor]; exact hN.operations
      · rw [Simulator.queued_processor]; exact hN.ended
      · rw [Simulator.queued_processor, Simulator.queued_log, hN.ledger]
        simp [accepts, Stage.proc]
      · rw [Simulator.queued_log]
        simpa [accepts, answers, Stage.unanswered] using hN.answered
    · rw [Function.update_of_ne hj]
      exact h.node_queued hj
  · intro m' hm'
    rw [Simulator.queued_bus] at hm'
    rcases List.mem_append.mp hm' with hm' | hm'
    · exact h.sources m' hm'
    · exact ⟨i, by rw [List.mem_singleton.mp hm', busMreq_srcMid]⟩
  · rw [Simulator.queued_bus, Simulator.queued_log]
    simp [requests, grants, h.fifo]
  · intro b
    rcases eq_or_ne b (opMreq i op a).addr with rfl | hb
    · rw [Simulator.view_queued]
      apply (h.lines _).step
      exact Step.miss i op (by simpa [Simulator.view, haddr] using hw)
        (by simpa [Simulator.view, haddr] using hmiss)
    · rw [Simulator.view_queued_ne hb]
      exact h.lines b
  · rw [Simulator.queued_log]
    exact (h.fresh.cons fun _ _ e => by cases e).cons fun _ _ e => by cases e
  · rw [Simulator.queued_log]
    refine (h.lookedUp.cons fun _ _ e => by cases e).cons ?_
    rintro t m' ⟨⟩ hdata
    exact absurd hdata (busMessage_ne_DATA q)

/-! ### The message on the bus -/

theorem observedEvents_op {j : ℕ} {log : List Event} :
    (versions (observedEvents T s i (busMreq (.L1 k) q a) ++ log)).op (.L1 j) =
      (versions log).op (.L1 j) := by
  unfold observedEvents
  split <;> simp

theorem Inv.observed (hT : T.Lawful) (h : Inv T traces s (.asked k q a i) stage) :
    Inv T traces (s.observed T i (busMreq (.L1 k) q a) q) (.asked k q a (i + 1)) stage := by
  have haddr : (busMreq (.L1 k) q a).addr = a := busMreq_addr _ q a
  have hp := h.proper hT a i
  refine ⟨?_, ?_, ?_, ?_, ?_, ?_⟩
  · intro j
    -- the log and the queue say about node `j` what they said before
    have hframe : ∀ {nd : Node P}, NodeOk T j (traces j) nd s.globals.log
        ((Tx.asked k q a i).request ++ s.globals.bus.pendingRequests) (stage j) →
        NodeOk T j (traces j) nd (s.observed T i (busMreq (.L1 k) q a) q).globals.log
          ((Tx.asked k q a (i + 1)).request ++
            (s.observed T i (busMreq (.L1 k) q a) q).globals.bus.pendingRequests) (stage j) := by
      intro nd hnd
      rw [Simulator.observed_log, Simulator.observed_bus]
      apply hnd.frame
      · exact observedEvents_op
      · unfold observedEvents
        split <;> simp [accepts]
      · unfold observedEvents
        split <;> simp [answers]
      · rfl
    apply hframe
    rcases eq_or_ne j i with rfl | hj
    · have hN := h.nodes j
      refine ⟨?_, ?_, ?_, ?_, ?_, hN.queued, hN.op, ?_, ?_, ?_, hN.answered, hN.carried⟩
      · rw [Simulator.observed_procRequest]; exact hN.proc
      · rw [Simulator.observed_processor]; exact hN.outstanding
      · rw [Simulator.observed_processor]; exact hN.buf
      · rw [Simulator.observed_processor]; exact hN.inbound
      · intro b
        show T.waits ((s.observed T j (busMreq (.L1 k) q a) q).states b j) = _
        rcases eq_or_ne b (busMreq (.L1 k) q a).addr with rfl | hb
        · rw [Simulator.observed_states_self, Function.update_self, haddr, hT.observe_waits hp]
          exact h.waits a j
        · rw [Simulator.observed_states_ne hb]
          exact h.waits b j
      · rw [Simulator.observed_processor]; exact hN.operations
      · rw [Simulator.observed_processor]; exact hN.ended
      · rw [Simulator.observed_processor]; exact hN.ledger
    · rw [Simulator.observed_Nd_ne hj]
      exact h.nodes j
  · rw [Simulator.observed_bus]; exact h.sources
  · rw [Simulator.observed_bus, Simulator.observed_log]
    unfold observedEvents
    split <;> simpa [requests, grants] using h.fifo
  · intro b
    rcases eq_or_ne b (busMreq (.L1 k) q a).addr with rfl | hb
    · rw [Simulator.view_observed rfl haddr]
      apply (h.lines _).step
      exact Step.observe i (Globals.phase_asked haddr) (Nat.lt_irrefl i)
    · rw [Simulator.view_observed_ne rfl haddr hb]
      exact h.lines b
  · rw [Simulator.observed_log]
    unfold observedEvents
    split
    · exact (h.fresh.cons fun _ _ e => by cases e).cons fun _ _ e => by cases e
    · exact h.fresh.cons fun _ _ e => by cases e
  · rw [Simulator.observed_log]
    unfold observedEvents
    split
    · refine (h.lookedUp.cons fun _ _ e => by cases e).cons ?_
      rintro t m' ⟨⟩ - hsrc
      exact absurd hsrc ModuleID.L1_ne_MC
    · exact h.lookedUp.cons fun _ _ e => by cases e

theorem Inv.filled (hT : T.Lawful) (h : Inv T traces s (.told k q a) stage) (hm : m.msg = .DATA)
    (haddr : m.addr = a) :
    Inv T traces (s.filled T k m) .idle (Function.update stage k (.replied a)) := by
  obtain ⟨op, hst⟩ := h.waiting (k := k) (q := q) (a := a) rfl
  have hN := h.nodes k
  rw [hst] at hN
  obtain ⟨hop, hopq⟩ := hN.op rfl
  have hp := h.proper hT a k
  have hw : T.waits (s.states a k) = some q := by
    rw [h.waits, hst]
    exact if_pos rfl
  refine ⟨?_, ?_, ?_, ?_, ?_, ?_⟩
  · intro j
    rcases eq_or_ne j k with rfl | hj
    · rw [Function.update_self]
      refine ⟨?_, ?_, ?_, ?_, ?_, ?_, (fun e => by cases e), ?_, ?_, ?_, ?_, ?_⟩
      · rw [Simulator.filled_procRequest]; exact hN.proc
      · rw [Simulator.filled_processor]; exact hN.outstanding
      · rw [Simulator.filled_processor, haddr]; rfl
      · rw [Simulator.filled_processor]; exact hN.inbound
      · intro b
        show T.waits ((s.filled T j m).states b j) = none
        rcases eq_or_ne b m.addr with rfl | hb
        · rw [Simulator.filled_states_self, Function.update_self, haddr]
          exact hT.fill_waits hp hw
        · rw [Simulator.filled_states_ne hb, h.waits, hst]
          exact if_neg (haddr ▸ hb)
      · have hq := hN.queued
        rw [Tx.request, List.singleton_append, List.filter_cons_of_pos (by simp)] at hq
        exact (List.cons.inj hq).2
      · rw [Simulator.filled_processor]; exact hN.operations
      · rw [Simulator.filled_processor]; exact hN.ended
      · rw [Simulator.filled_processor, Simulator.filled_log, hN.ledger]
        simp [accepts, Stage.proc]
      · rw [Simulator.filled_log]
        simpa [accepts, answers, Stage.unanswered, haddr] using hN.answered
      · rintro b ⟨⟩
        rw [Simulator.filled_log]
        simp [answers, haddr]
    · rw [Function.update_of_ne hj, Simulator.filled_Nd_ne hj, Simulator.filled_log,
        Simulator.filled_bus]
      have hkj : ModuleID.L1 k ≠ ModuleID.L1 j := by simpa [Fin.val_inj] using hj.symm
      apply (h.nodes j).frame
      · simp [Versions.step_snooped_data hm, Versions.setHeld]
      · simp [accepts]
      · simp [answers, hkj]
      · simp [Tx.request, Fin.val_inj, hj.symm]
  · rw [Simulator.filled_bus]; exact h.sources
  · rw [Simulator.filled_bus, Simulator.filled_log]
    simpa [requests, grants] using h.fifo
  · intro b
    rcases eq_or_ne b m.addr with rfl | hb
    · rw [Simulator.view_filled hm haddr hop (q := q)]
      apply (h.lines _).step
      exact Step.fill op (Globals.phase_told haddr) hopq
    · rw [Simulator.view_filled_ne hm haddr hb (q := q)]
      exact h.lines b
  · rw [Simulator.filled_log]
    refine (h.fresh.cons fun _ _ e => by cases e).cons ?_
    rintro mid m' ⟨⟩
    -- the data on the bus are the latest version
    have hcur := ((h.coherent hT m.addr).told (Globals.phase_told haddr)).current
    rw [answerMreq_line]
    refine ⟨?_, by simp [copies, hm]⟩
    simp only [versions_cons, Versions.step_snooped_data hm, Versions.setHeld,
      Function.update_self]
    exact hcur
  · rw [Simulator.filled_log]
    exact (h.lookedUp.cons fun _ _ e => by cases e).cons fun _ _ e => by cases e

/-! ### The bus and the memory controller -/

/-- Requests on the bus come from caches that wait for them. -/
theorem Inv.pending (h : Inv T traces s .idle stage)
    (hq : s.globals.bus.pendingRequests = m :: rest) :
    ∃ (k : Fin n) (op q : Access) (a : LineAddr),
      m = busMreq (.L1 k) q a ∧ stage k = .waiting op q a := by
  obtain ⟨k, hk⟩ := h.sources m (by simp [hq])
  have hN := (h.nodes k).queued
  rw [Tx.request, List.nil_append, hq, List.filter_cons_of_pos (by simpa using hk)] at hN
  obtain ⟨op, q, a, hst, hm, -⟩ := Stage.queue_eq_cons hN.symm
  exact ⟨k, op, q, a, hm, hst⟩

theorem Inv.grantRequest (h : Inv T traces s .idle stage)
    (hq : s.globals.bus.pendingRequests = busMreq (.L1 k) q a :: rest)
    (hst : stage k = .waiting op q a) (hd : s.globals.bus.dataReply = none) :
    Inv T traces (s.withGlobals (s.globals.grantRequest (busMreq (.L1 k) q a) rest))
      (.asked k q a 0) stage := by
  have haddr : (busMreq (.L1 k) q a).addr = a := busMreq_addr _ q a
  refine ⟨?_, ?_, ?_, ?_, ?_, ?_⟩
  · intro j
    apply (h.nodes j).frame
    · exact congrFun (congrArg Versions.op (Versions.step_granted_request (busMessage_ne_DATA q))) _
    · rfl
    · rfl
    · rw [hq]
      rfl
  · intro m' hm'
    exact h.sources m' (by rw [hq]; exact List.mem_cons_of_mem _ hm')
  · have hf := h.fifo
    rw [hq] at hf
    simp [Simulator.withGlobals, Globals.grantRequest, Globals.record, requests, grants, hf]
  · intro b
    rcases eq_or_ne b (busMreq (.L1 k) q a).addr with rfl | hb
    · rw [Simulator.view_grantRequest rfl haddr hd]
      apply (h.lines _).step
      refine Step.grant k q rfl ?_
      show T.waits (s.states (busMreq (.L1 k) q a).addr k) = some q
      rw [haddr, h.waits, hst]
      exact if_pos rfl
    · rw [Simulator.view_grantRequest_ne rfl haddr hb]
      exact h.lines b
  · exact h.fresh.cons fun _ _ e => by cases e
  · exact h.lookedUp.cons fun _ _ e => by cases e

theorem Inv.grantData (h : Inv T traces s (.asked k q a n) stage)
    (hd : s.globals.bus.dataReply = some m) (hm : m.msg = .DATA) (haddr : m.addr = a) :
    Inv T traces (s.withGlobals (s.globals.grantData m)) (.told k q a) stage := by
  refine ⟨?_, h.sources, ?_, ?_, ?_, ?_⟩
  · intro j
    apply (h.nodes j).frame
    · exact congrFun (congrArg Versions.op (Versions.step_granted_data hm)) _
    · rfl
    · rfl
    · rfl
  · simpa [Simulator.withGlobals, Globals.grantData, Globals.record, requests, grants, hm]
      using h.fifo
  · intro b
    rcases eq_or_ne b m.addr with rfl | hb
    · rw [Simulator.view_grantData n hm haddr hd]
      apply (h.lines _).step
      exact Step.send (Globals.phase_asked_some haddr hd) fun i => i.isLt
    · rw [Simulator.view_grantData_ne n hm haddr hb]
      exact h.lines b
  · exact h.fresh.cons fun _ _ e => by cases e
  · exact h.lookedUp.cons fun _ _ e => by cases e

theorem Inv.grantNothing (h : Inv T traces s tx stage) :
    Inv T traces (s.withGlobals s.globals.grantNothing) tx stage :=
  ⟨h.nodes, h.sources, h.fifo, h.lines, h.fresh, h.lookedUp⟩

theorem Inv.lookup (h : Inv T traces s (.asked k q a n) stage) (haddr : s.mc.dataAddr = a)
    (hd : s.globals.bus.dataReply = none) : Inv T traces s.lookedUp (.asked k q a n) stage := by
  refine ⟨?_, h.sources, ?_, ?_, ?_, ?_⟩
  · intro j
    apply (h.nodes j).frame
    · exact congrFun (congrArg Versions.op Versions.step_requested_dataMreq) _
    · rfl
    · rfl
    · rfl
  · simpa [Simulator.lookedUp, Globals.reply, Globals.record, requests, grants] using h.fifo
  · intro b
    rcases eq_or_ne b s.mc.dataAddr with rfl | hb
    · rw [Simulator.view_lookedUp haddr hd]
      apply (h.lines _).step
      exact Step.lookup (Globals.phase_asked_none haddr hd) fun i => i.isLt
    · rw [Simulator.view_lookedUp_ne hb haddr]
      exact h.lines b
  · exact h.fresh.cons fun _ _ e => by cases e
  · refine h.lookedUp.cons ?_
    rintro t m' ⟨⟩ - -
    -- nobody has supplied the line yet
    refine ⟨s.view (.asked k q a n) a, h.lines a, ?_, k, q, fun j => j.val < n,
      s.globals.bus.sharedLine, hadCopy s.globals.log k a, Globals.phase_asked_none rfl hd,
      fun j => j.isLt⟩
    rw [haddr, dataMreq_addr]
    rfl

/-! ### The processors -/

theorem Simulator.setNode_states {nd : Node P}
    (h : nd.cache.myEntries = (s.Nd i).cache.myEntries)
    (addr : Paddr) : (s.setNode i nd).states addr = s.states addr := by
  funext j
  rcases eq_or_ne j i with rfl | hj
  · simp [Simulator.states, Simulator.setNode, Node.line, h]
  · simp [Simulator.states, Simulator.setNode, hj]

/-- Replacing a node by one with the same entries. -/
theorem Inv.setNode (h : Inv T traces s tx stage) {nd : Node P} {st : Stage}
    (hentries : nd.cache.myEntries = (s.Nd i).cache.myEntries)
    (hnd : NodeOk T i (traces i) nd s.globals.log
      (tx.request ++ s.globals.bus.pendingRequests) st) :
    Inv T traces (s.setNode i nd) tx (Function.update stage i st) := by
  refine ⟨?_, h.sources, h.fifo, ?_, h.fresh, h.lookedUp⟩
  · intro j
    rcases eq_or_ne j i with rfl | hj
    · simpa [Simulator.setNode] using hnd
    · simpa [Simulator.setNode, hj] using h.nodes j
  · intro b
    have hview : (s.setNode i nd).view tx b = s.view tx b :=
      Line.ext (Simulator.setNode_states hentries b) rfl rfl rfl rfl rfl
    rw [hview]
    exact h.lines b

/-- The invariant does not look at the clock or at the memory controller. -/
theorem Inv.advance (h : Inv T traces s tx stage) : Inv T traces s.advance tx stage :=
  ⟨h.nodes, h.sources, h.fifo, h.lines, h.fresh, h.lookedUp⟩

theorem Inv.setMc (h : Inv T traces s tx stage) (mc : MemoryController) :
    Inv T traces { s with mc := mc } tx stage :=
  ⟨h.nodes, h.sources, h.fifo, h.lines, h.fresh, h.lookedUp⟩

/-! ### The start -/

theorem Inv.init (hP : Implements P T) (hT : T.Lawful) (traces : Fin n → Trace) :
    Inv T traces (Simulator.new P traces) .idle fun _ => .idle := by
  have hnil : ∀ {e : Event} {past : List Event}, ¬ (e :: past) <:+ [] := by
    intro e past hs
    have := hs.length_le
    simp at this
  have hline : ∀ (a : Paddr) (i : Fin n), ((Simulator.new P traces).Nd i).line a = T.init := by
    intro a i
    show (AList.lookup a (∅ : AList fun _ : Paddr => P.State)).getD P.init = T.init
    rw [AList.lookup_empty, Option.getD_none, hP.init]
  refine ⟨?_, ?_, rfl, ?_, Fresh.nil, fun past t m hs => absurd hs hnil⟩
  · intro i
    refine ⟨rfl, rfl, rfl, rfl, fun a => ?_, rfl, (fun e => by cases e), (traces i).operations,
      (fun e => by cases e), ?_, rfl, fun e => by cases e⟩
    · rw [hline]
      exact hT.init_waits
    · simp [Simulator.new, Globals.new, Processor.new, accepts, Stage.proc]
  · intro m hm
    cases hm
  · intro a
    have hview : (Simulator.new P traces).view .idle a = Line.init T := by
      apply Line.ext
      · funext i
        exact hline a i
      · rfl
      · funext i
        simp [Simulator.view, Simulator.new, Globals.new, copies, Line.init]
      · rfl
      · rfl
      · rfl
    rw [hview]
    exact Reach.init

end Inv

end ProjectArchive.Coherence
