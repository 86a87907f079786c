/-
ProjectArchive/Coherence/Correspondence.lean

Where a processor's request is between two cycles.

The request travels from the processor through its cache, the bus and back;
between two cycles it can be found in one of four places, and in only one.
`Place` names them, and `Simulator.At` says what the registers show there.
Together with the ledgers of `NodeOk` this accounts for every line of a trace:
it is still to be read, or in its place, or answered once.
-/
import ProjectArchive.Coherence.Run

namespace ProjectArchive.Coherence

open SnoopLine Exec

variable {P : Protocol} {T : Table P.State} {n : ℕ} {traces : Fin n → Trace}

/-! ### The bus -/

/-- The requests on the bus: the one whose transaction is not answered yet, and
those still to be granted. -/
def Globals.onBus (g : Globals) : List Mreq :=
  (if g.bus.requestInProgress then (lastRequest g.log).toList.map Prod.fst else []) ++
    g.bus.pendingRequests

theorem Asked.onBus {g : Globals} {k : Fin n} {q : Access} {a : LineAddr} {c : ℕ}
    {replies : List (ℕ × Mreq)} (h : Asked n g k q a c replies) :
    g.onBus = busMreq (.L1 k) q a :: g.bus.pendingRequests := by
  obtain ⟨past, hlast, -⟩ := h.last
  simp [Globals.onBus, h.inProgress, hlast]

theorem Rest.onBus {g : Globals} {mc : MemoryController} {tx : Tx n} (h : Rest n g mc tx) :
    g.onBus = tx.request ++ g.bus.pendingRequests := by
  cases h with
  | idle hprog _ _ _ => simp [Globals.onBus, hprog, Tx.request]
  | waiting hask _ _ _ _ => exact hask.onBus
  | cache j hask _ _ => exact hask.onBus
  | memory hask _ _ => exact hask.onBus

/-- The requests of cache `i` on the bus. -/
def Simulator.requestsOf (s : Simulator P n) (i : Fin n) : List Mreq :=
  s.globals.onBus.filter fun m => m.srcMid = .L1 i

/-! ### Places -/

/-- The places of a processor's request. -/
inductive Place
  | nowhere | cache | bus | processor

/-- No line of cache `i` is in a transient state. -/
def Simulator.Stable (T : Table P.State) (s : Simulator P n) (i : Fin n) : Prop :=
  ∀ a, T.waits (s.states a i) = none

/-- Exactly the line at `addr` of cache `i` is in a transient state, and it
waits for an answer to `q`. -/
def Simulator.WaitsFor (T : Table P.State) (s : Simulator P n) (i : Fin n) (q : Access)
    (addr : LineAddr) : Prop :=
  ∀ a, T.waits (s.states a i) = if a = addr then some q else none

/-- The request of processor `i` is at a place. -/
def Simulator.At (T : Table P.State) (s : Simulator P n) (i : Fin n) : Place → Prop
  | .nowhere => (s.Nd i).processor.outstandingRequest = false ∧ s.Stable T i
  | .cache => (∃ m, (s.Nd i).cache.procRequest = some m) ∧ s.Stable T i
  | .bus => ∃ q addr, s.WaitsFor T i q addr ∧ s.requestsOf i = [busMreq (.L1 i) q addr]
  | .processor =>
      (∃ m, (s.Nd i).processor.inboundRequest = some m ∧ m.msg = .DATA ∧
        (answers (.L1 i) s.globals.log).getLast? = some m) ∧ s.Stable T i ∧ s.requestsOf i = []

/-- The place of an operation at a stage. -/
def Stage.place : Stage → Place
  | .idle => .nowhere
  | .fetched _ _ => .cache
  | .waiting _ _ _ => .bus
  | .replied _ | .delivered _ => .processor

section Good

variable {s : Simulator P n} {tx : Tx n} {stage : Fin n → Stage}

theorem Good.requestsOf (h : Good T traces s tx stage) (i : Fin n) :
    s.requestsOf i = (stage i).queue i := by
  rw [Simulator.requestsOf, h.rest.onBus]
  exact (h.inv.nodes i).queued

theorem Good.stable (h : Good T traces s tx stage) {i : Fin n}
    (hst : ∀ a, (stage i).waitsAt a = none) : s.Stable T i := by
  intro a
  rw [h.inv.waits]
  exact hst a

/-- The request is where its stage says. -/
theorem Good.at_place (h : Good T traces s tx stage) (i : Fin n) :
    s.At T i (stage i).place := by
  have hN := h.inv.nodes i
  have hbus := h.requestsOf i
  cases hst : stage i with
  | idle =>
      refine ⟨?_, h.stable fun a => by rw [hst]; rfl⟩
      rw [hN.outstanding, hst]
      rfl
  | fetched op addr =>
      refine ⟨⟨opMreq i op addr, ?_⟩, h.stable fun a => by rw [hst]; rfl⟩
      rw [hN.proc, hst]
      rfl
  | waiting op q addr =>
      rw [hst] at hbus
      refine ⟨q, addr, ?_, hbus⟩
      intro a
      rw [h.inv.waits, hst]
      rfl
  | replied addr =>
      -- the inboxes are empty between two cycles
      have hbuf := hN.buf.symm.trans (h.empty i)
      rw [hst] at hbuf
      cases hbuf
  | delivered addr =>
      rw [hst] at hbus
      refine ⟨⟨answerMreq (.L1 i) addr, ?_, rfl, ?_⟩, h.stable fun a => by rw [hst]; rfl, hbus⟩
      · rw [hN.inbound, hst]
        rfl
      · exact hN.carried (by rw [hst]; rfl)

/-- The request is nowhere else. -/
theorem Good.place_unique (h : Good T traces s tx stage) {i : Fin n} {c : Place}
    (hc : s.At T i c) : c = (stage i).place := by
  have hN := h.inv.nodes i
  cases c with
  | nowhere =>
      have hout := hN.outstanding.symm.trans hc.1
      cases hst : stage i with
      | idle => rfl
      | _ => rw [hst] at hout; cases hout
  | cache =>
      obtain ⟨m, hm⟩ := hc.1
      obtain ⟨op, addr, hst, -⟩ := Stage.proc_eq_some (hN.proc.symm.trans hm)
      rw [hst]
      rfl
  | bus =>
      obtain ⟨q, addr, hw, -⟩ := hc
      have hat := (h.inv.waits addr i).symm.trans (hw addr)
      rw [if_pos rfl] at hat
      obtain ⟨op, b, hst, -⟩ := Stage.waitsAt_eq_some hat
      rw [hst]
      rfl
  | processor =>
      obtain ⟨m, hm, -⟩ := hc.1
      have hin := hN.inbound.symm.trans hm
      cases hst : stage i with
      | delivered addr => rfl
      | _ => rw [hst] at hin; cases hin

end Good

/-- **Every processor's request is in exactly one place, and no operation of a
trace is lost, duplicated or answered twice.** -/
theorem requests_accounted (p : ProtocolKind) {n : ℕ} (traces : Fin n → Trace) (k : ℕ) :
    ∃ s, Simulator.cycles p.protocol traces k = .ok s ∧ ∀ i : Fin n,
      (∃! c, s.At p.table i c) ∧
      (traces i).lines.map (TraceLine.mreq i) = accepts (.L1 i) s.globals.log ++
        (s.Nd i).cache.procRequest.toList ++
        (s.Nd i).processor.infile.map (TraceLine.mreq i) ∧
      (accepts (.L1 i) s.globals.log).map Mreq.addr =
        (answers (.L1 i) s.globals.log ++ s.requestsOf i).map Mreq.addr := by
  obtain ⟨s, hs, tx, stage, h⟩ := Simulator.cycles_ends p.implements p.lawful traces k
  refine ⟨s, hs, fun i => ⟨⟨_, h.at_place i, fun c hc => h.place_unique hc⟩, ?_, ?_⟩⟩
  · rw [(h.inv.nodes i).proc]
    exact (h.inv.nodes i).ledger
  · rw [(h.inv.nodes i).answered, h.requestsOf, List.map_append]
    cases stage i <;> simp [Stage.unanswered, Stage.queue]

end ProjectArchive.Coherence
