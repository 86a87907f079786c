/-
ProjectArchive/Coherence/Tick.lean

What the ticks of a node do, for a protocol that implements a table.

The monadic code is unfolded here and nowhere else: each tick of a cache is one
of five outcomes, and each outcome is a function on simulators,

    served    the processor's request hits
    queued    the processor's request misses
    observed  a request on the bus
    filled    the awaited data
    (nothing)

whose fields have a simp lemma each.  The processor's and the memory
controller's ticks are small enough to be read off directly.
-/
import ProjectArchive.Coherence.History

namespace ProjectArchive.Coherence

open SnoopLine Exec

variable {P : Protocol} {T : Table P.State} {n : ℕ}

/-! ### Entries -/

/-- The state of the line at `addr`; a line without an entry is as the
constructor of the entry would leave it. -/
def Node.line (nd : Node P) (addr : Paddr) : P.State :=
  (nd.cache.myEntries.lookup addr).getD P.init

/-- What a handler on the entry at `addr` leaves behind. -/
def Node.put (nd : Node P) (addr : Paddr) (state : P.State) (buf : Option Mreq) : Node P where
  cache := { nd.cache with myEntries := nd.cache.myEntries.insert addr state }
  processor := { nd.processor with inboundRequestBuf := buf }

section Node

variable {nd : Node P} {g : Globals} {addr a : Paddr} {state : P.State} {buf : Option Mreq}

@[simp] theorem Node.put_line_self : (nd.put addr state buf).line addr = state := by
  simp [Node.line, Node.put]

theorem Node.put_line_ne (h : a ≠ addr) : (nd.put addr state buf).line a = nd.line a := by
  simp [Node.line, Node.put, AList.lookup_insert_ne h]

theorem HashTable.getEntry_insert (t : HashTable P) (addr : Paddr) (state : P.State) :
    (t.getEntry addr).2.myEntries.insert addr state = t.myEntries.insert addr state := by
  rcases e : t.myEntries.lookup addr with - | s <;>
    simp [HashTable.getEntry, e, AList.insert_insert]

theorem HashTable.getEntry_state (t : HashTable P) (addr : Paddr) :
    (t.getEntry addr).1 = (t.myEntries.lookup addr).getD P.init := by
  rcases e : t.myEntries.lookup addr with - | s <;> simp [HashTable.getEntry, e]

theorem HashTable.getEntry_procRequest (t : HashTable P) (addr : Paddr) :
    (t.getEntry addr).2.procRequest = t.procRequest := by
  rcases e : t.myEntries.lookup addr with - | s <;> simp [HashTable.getEntry, e]

/-- Running a handler on an entry. -/
theorem Node.dispatch_ok {h : Handler P.State} {c : Ctx P.State}
    (hc : h.run ⟨g, nd.line addr, nd.processor.inboundRequestBuf⟩ = .ok ((), c)) :
    nd.dispatch g addr h = .ok (nd.put addr c.state c.inboundRequestBuf, c.globals) := by
  have hline : (nd.cache.getEntry addr).1 = nd.line addr := nd.cache.getEntry_state addr
  simp only [Node.dispatch, hline, hc, ok_bind]
  show Except.ok _ = _
  simp only [Node.put, HashTable.getEntry_insert, ← nd.cache.getEntry_procRequest addr]

end Node

/-! ### Outcomes -/

/-- The state of the line at `addr`, at every cache. -/
def Simulator.states (s : Simulator P n) (addr : Paddr) : Fin n → P.State :=
  fun i => (s.Nd i).line addr

/-- The simulator after a handler on the entry at `addr` of cache `i`. -/
def Simulator.commit (s : Simulator P n) (i : Fin n) (addr : Paddr) (c : Ctx P.State) :
    Simulator P n :=
  { s.setNode i ((s.Nd i).put addr c.state c.inboundRequestBuf) with globals := c.globals }

/-- `proc_request = NULL` at cache `i`. -/
def Simulator.taken (s : Simulator P n) (i : Fin n) : Simulator P n :=
  s.setNode i { s.Nd i with cache := { (s.Nd i).cache with procRequest := none } }

/-- The context of the handler that takes the request `m` of processor `i`. -/
def Simulator.requestCtx (s : Simulator P n) (i : Fin n) (m : Mreq) : Ctx P.State where
  globals := { s.globals with cacheAccesses := s.globals.cacheAccesses + 1 }.record
    (.accepted (.L1 i) m)
  state := s.states m.addr i
  inboundRequestBuf := (s.Nd i).processor.inboundRequestBuf

/-- The context of the handler that takes the bus message `m` at cache `i`. -/
def Simulator.snoopCtx (s : Simulator P n) (i : Fin n) (m : Mreq) : Ctx P.State where
  globals := s.globals.record (.snooped (.L1 i) m)
  state := s.states m.addr i
  inboundRequestBuf := (s.Nd i).processor.inboundRequestBuf

/-- The request `m` of processor `i` hits. -/
def Simulator.served (T : Table P.State) (s : Simulator P n) (i : Fin n) (m : Mreq) (op : Access) :
    Simulator P n :=
  let state := s.states m.addr i
  (s.commit i m.addr ((s.requestCtx i m).served (.L1 i) m.addr (T.request state op).1
    (T.silent state op))).taken i

/-- The request `m` of processor `i` misses, and asks the bus for `q`. -/
def Simulator.queued (T : Table P.State) (s : Simulator P n) (i : Fin n) (m : Mreq)
    (op q : Access) : Simulator P n :=
  (s.commit i m.addr ((s.requestCtx i m).queued (.L1 i) m.addr q
    (T.request (s.states m.addr i) op).1)).taken i

/-- Cache `i` observes the bus request `m` for `q`. -/
def Simulator.observed (T : Table P.State) (s : Simulator P n) (i : Fin n) (m : Mreq)
    (q : Access) : Simulator P n :=
  s.commit i m.addr ((s.snoopCtx i m).observed T (.L1 i) m.addr m.srcMid q)

/-- Cache `i` takes the data `m`. -/
def Simulator.filled (T : Table P.State) (s : Simulator P n) (i : Fin n) (m : Mreq) :
    Simulator P n :=
  s.commit i m.addr ((s.snoopCtx i m).filled T (.L1 i) m.addr)

section Ticks

variable {s : Simulator P n} {i j : Fin n} {m : Mreq} {op q : Access}

theorem Simulator.setNode_self (s : Simulator P n) (i : Fin n) : s.setNode i (s.Nd i) = s := by
  simp [Simulator.setNode]

/-! ### The first half of a cache tick -/

theorem Simulator.tickProcRequest_none (h : (s.Nd i).cache.procRequest = none) :
    s.tickProcRequest i = .ok s := by
  simp only [Simulator.tickProcRequest, Node.tickProcRequest, h, ok_bind, Simulator.setNode_self]
  rfl

/-- The request of the processor is dispatched, and `proc_request` cleared. -/
theorem Simulator.tickProcRequest_of_run {c : Ctx P.State}
    (h : (s.Nd i).cache.procRequest = some m)
    (hc : (P.processCacheRequest (.L1 i) m).run (s.requestCtx i m) = .ok ((), c)) :
    s.tickProcRequest i = .ok ((s.commit i m.addr c).taken i) := by
  simp only [Simulator.tickProcRequest, Node.tickProcRequest, h]
  rw [Node.dispatch_ok hc]
  simp [Simulator.taken, Simulator.commit, Simulator.setNode, pure, Except.pure]

theorem Simulator.tickProcRequest_hit (hP : Implements P T)
    (h : (s.Nd i).cache.procRequest = some m) (hm : m.msg = opMessage op)
    (hp : T.proper (s.states m.addr i)) (hw : T.waits (s.states m.addr i) = none)
    (hhit : (T.request (s.states m.addr i) op).2 = none)
    (hb : (s.Nd i).processor.inboundRequestBuf = none) :
    s.tickProcRequest i = .ok (s.served T i m op) :=
  Simulator.tickProcRequest_of_run h (hP.hit hm hp hw hhit hb)

theorem Simulator.tickProcRequest_miss (hP : Implements P T)
    (h : (s.Nd i).cache.procRequest = some m) (hm : m.msg = opMessage op)
    (hp : T.proper (s.states m.addr i)) (hw : T.waits (s.states m.addr i) = none)
    (hmiss : (T.request (s.states m.addr i) op).2 = some q) :
    s.tickProcRequest i = .ok (s.queued T i m op q) :=
  Simulator.tickProcRequest_of_run h (hP.miss hm hp hw hmiss)

/-! ### The second half of a cache tick -/

theorem Simulator.tickSnoop_none (h : s.globals.bus.currentRequest = none) :
    s.tickSnoop i = .ok s := by
  simp only [Simulator.tickSnoop, Node.tickSnoop, Bus.busSnoop, h, ok_bind,
    Simulator.setNode_self]
  rfl

theorem Simulator.tickSnoop_other (h : s.globals.bus.currentRequest = some m)
    (hm : m.msg = .DATA) (hd : m.destMid ≠ .L1 i) : s.tickSnoop i = .ok s := by
  simp only [Simulator.tickSnoop, Node.tickSnoop, Bus.busSnoop, h, hm, ne_eq, hd,
    not_false_eq_true, and_self, if_true, ok_bind, Simulator.setNode_self]
  rfl

/-- The bus message is dispatched, unless it is data for somebody else. -/
theorem Simulator.tickSnoop_of_run {c : Ctx P.State}
    (h : s.globals.bus.currentRequest = some m) (hm : ¬ (m.msg = .DATA ∧ m.destMid ≠ .L1 i))
    (hc : (P.processSnoopRequest (.L1 i) m).run (s.snoopCtx i m) = .ok ((), c)) :
    s.tickSnoop i = .ok (s.commit i m.addr c) := by
  simp only [Simulator.tickSnoop, Node.tickSnoop, Bus.busSnoop, h, if_neg hm]
  rw [Node.dispatch_ok hc]
  rfl

theorem Simulator.tickSnoop_observe (hP : Implements P T)
    (h : s.globals.bus.currentRequest = some m) (hm : m.msg = busMessage q)
    (hp : T.proper (s.states m.addr i))
    (hb : T.supplies (s.states m.addr i) → s.globals.bus.dataReply = none) :
    s.tickSnoop i = .ok (s.observed T i m q) :=
  Simulator.tickSnoop_of_run h (fun e => busMessage_ne_DATA q (hm ▸ e.1)) (hP.observe hm hp hb)

theorem Simulator.tickSnoop_fill (hP : Implements P T)
    (h : s.globals.bus.currentRequest = some m) (hm : m.msg = .DATA) (hd : m.destMid = .L1 i)
    (hw : T.waits (s.states m.addr i) = some q)
    (hb : (s.Nd i).processor.inboundRequestBuf = none) :
    s.tickSnoop i = .ok (s.filled T i m) :=
  Simulator.tickSnoop_of_run h (fun e => e.2 hd) (hP.fill hm hw hb)

end Ticks

/-! ### The bus and the memory controller -/

section Bus

variable {s : Simulator P n} {m : Mreq} {rest : List Mreq}

/-- The bus grants the data `m`. -/
def Globals.grantData (g : Globals) (m : Mreq) : Globals :=
  { g with bus := { g.bus with
      currentRequest := some m
      dataReply := none
      requestInProgress := false } }.record (.granted g.globalClock m)

/-- The bus grants the request `m`, the first of its queue. -/
def Globals.grantRequest (g : Globals) (m : Mreq) (rest : List Mreq) : Globals :=
  { g with bus := { g.bus with
      sharedLine := false
      currentRequest := some m
      pendingRequests := rest
      requestInProgress := true } }.record (.granted g.globalClock m)

/-- The bus is silent. -/
def Globals.grantNothing (g : Globals) : Globals :=
  { g with bus := { g.bus with currentRequest := none } }

theorem Globals.tickBus_data {g : Globals} (hp : g.bus.requestInProgress = true)
    (hd : g.bus.dataReply = some m) : g.tickBus = g.grantData m := by
  simp [Globals.tickBus, Bus.tick, hp, hd, Globals.grantData]

theorem Globals.tickBus_wait {g : Globals} (hp : g.bus.requestInProgress = true)
    (hd : g.bus.dataReply = none) : g.tickBus = g.grantNothing := by
  simp [Globals.tickBus, Bus.tick, hp, hd, Globals.grantNothing]

theorem Globals.tickBus_request {g : Globals} (hp : g.bus.requestInProgress = false)
    (hq : g.bus.pendingRequests = m :: rest) : g.tickBus = g.grantRequest m rest := by
  simp [Globals.tickBus, Bus.tick, hp, hq, Globals.grantRequest]

theorem Globals.tickBus_quiet {g : Globals} (hp : g.bus.requestInProgress = false)
    (hq : g.bus.pendingRequests = []) : g.tickBus = g.grantNothing := by
  simp [Globals.tickBus, Bus.tick, hp, hq, Globals.grantNothing]

/-- The memory controller puts its data on the bus. -/
def Simulator.lookedUp (s : Simulator P n) : Simulator P n :=
  { s with
    mc := { s.mc with requestInProgress := false }
    globals := s.globals.reply (dataMreq (.MC n) s.mc.dataAddr s.mc.dataTarget) }

theorem Simulator.tickMc_idle (h : s.globals.bus.currentRequest = none)
    (hmc : s.mc.requestInProgress = false) : s.tickMc = .ok s := by
  simp [Simulator.tickMc, MemoryController.tickSnoop, Bus.busSnoop, h,
    MemoryController.tickReply, hmc, pure, Except.pure]

theorem Simulator.tickMc_early (h : s.globals.bus.currentRequest = none)
    (ht : s.globals.globalClock < s.mc.dataTime) : s.tickMc = .ok s := by
  have ht : ¬ s.mc.dataTime ≤ s.globals.globalClock := by omega
  simp [Simulator.tickMc, MemoryController.tickSnoop, Bus.busSnoop, h,
    MemoryController.tickReply, ht, pure, Except.pure]

theorem Simulator.tickMc_reply (h : s.globals.bus.currentRequest = none)
    (hmc : s.mc.requestInProgress = true) (ht : s.mc.dataTime ≤ s.globals.globalClock)
    (hd : s.globals.bus.dataReply = none) : s.tickMc = .ok s.lookedUp := by
  simp only [Simulator.tickMc, MemoryController.tickSnoop, Bus.busSnoop, h,
    MemoryController.tickReply, hmc, ht, and_self, if_true, ok_bind]
  rw [Globals.writeOutputPort_data rfl hd]
  rfl

/-- A request on the bus starts a lookup. -/
theorem Simulator.tickMc_request (h : s.globals.bus.currentRequest = some m)
    (hm : m.msg ≠ .DATA) (hmc : s.mc.requestInProgress = false) :
    s.tickMc =
      .ok { s with mc := ⟨true, s.globals.globalClock + hitTime, m.addr, m.srcMid⟩ } := by
  have ht : ¬ s.globals.globalClock + hitTime ≤ s.globals.globalClock := by
    simp [hitTime]
  simp [Simulator.tickMc, MemoryController.tickSnoop, Bus.busSnoop, h, hm, hmc,
    MemoryController.tickReply, ht, pure, Except.pure]

/-- Data on the bus cancel a lookup. -/
theorem Simulator.tickMc_data (h : s.globals.bus.currentRequest = some m) (hm : m.msg = .DATA) :
    s.tickMc = .ok { s with mc := { s.mc with requestInProgress := false } } := by
  simp [Simulator.tickMc, MemoryController.tickSnoop, Bus.busSnoop, h, hm,
    MemoryController.tickReply, pure, Except.pure]

end Bus

/-! ### The fields of the outcomes -/

section Fields

variable {s : Simulator P n} {i j : Fin n} {m : Mreq} {op q : Access} {addr a : Paddr}
  {c : Ctx P.State}

theorem Simulator.commit_states_self :
    (s.commit i addr c).states addr = Function.update (s.states addr) i c.state := by
  funext j
  rcases eq_or_ne j i with rfl | h
  · simp [Simulator.states, Simulator.commit, Simulator.setNode]
  · simp [Simulator.states, Simulator.commit, Simulator.setNode, h]

theorem Simulator.commit_states_ne (h : a ≠ addr) : (s.commit i addr c).states a = s.states a := by
  funext j
  rcases eq_or_ne j i with rfl | hj
  · simp [Simulator.states, Simulator.commit, Simulator.setNode, Node.put_line_ne h]
  · simp [Simulator.states, Simulator.commit, Simulator.setNode, hj]

@[simp] theorem Simulator.taken_states : (s.taken i).states a = s.states a := by
  funext j
  rcases eq_or_ne j i with rfl | hj
  · simp [Simulator.states, Simulator.taken, Simulator.setNode, Node.line]
  · simp [Simulator.states, Simulator.taken, Simulator.setNode, hj]

theorem Simulator.served_states_self : (s.served T i m op).states m.addr =
    Function.update (s.states m.addr) i (T.request (s.states m.addr i) op).1 := by
  rw [Simulator.served, Simulator.taken_states, Simulator.commit_states_self, Ctx.served]
  split <;> rfl

theorem Simulator.served_states_ne (h : a ≠ m.addr) :
    (s.served T i m op).states a = s.states a := by
  rw [Simulator.served, Simulator.taken_states, Simulator.commit_states_ne h]

theorem Simulator.queued_states_self : (s.queued T i m op q).states m.addr =
    Function.update (s.states m.addr) i (T.request (s.states m.addr i) op).1 := by
  rw [Simulator.queued, Simulator.taken_states, Simulator.commit_states_self, Ctx.queued]

theorem Simulator.queued_states_ne (h : a ≠ m.addr) :
    (s.queued T i m op q).states a = s.states a := by
  rw [Simulator.queued, Simulator.taken_states, Simulator.commit_states_ne h]

theorem Simulator.observed_states_self : (s.observed T i m q).states m.addr =
    Function.update (s.states m.addr) i (T.observe (s.states m.addr i) q) := by
  rw [Simulator.observed, Simulator.commit_states_self, Ctx.observed, Simulator.snoopCtx]

theorem Simulator.observed_states_ne (h : a ≠ m.addr) :
    (s.observed T i m q).states a = s.states a :=
  Simulator.commit_states_ne h

theorem Simulator.filled_states_self : (s.filled T i m).states m.addr =
    Function.update (s.states m.addr) i
      (T.fill (s.states m.addr i) s.globals.bus.sharedLine) := by
  rw [Simulator.filled, Simulator.commit_states_self]
  rfl

theorem Simulator.filled_states_ne (h : a ≠ m.addr) :
    (s.filled T i m).states a = s.states a :=
  Simulator.commit_states_ne h

@[simp] theorem Simulator.served_log : (s.served T i m op).globals.log =
    .answered (.L1 i) (answerMreq (.L1 i) m.addr) :: .accepted (.L1 i) m :: s.globals.log := by
  simp only [Simulator.served, Ctx.served]
  split <;> rfl

@[simp] theorem Simulator.served_bus : (s.served T i m op).globals.bus = s.globals.bus := by
  simp only [Simulator.served, Ctx.served]
  split <;> rfl

@[simp] theorem Simulator.served_clock :
    (s.served T i m op).globals.globalClock = s.globals.globalClock := by
  simp only [Simulator.served, Ctx.served]
  split <;> rfl

@[simp] theorem Simulator.queued_log : (s.queued T i m op q).globals.log =
    .requested s.globals.globalClock (busMreq (.L1 i) q m.addr) :: .accepted (.L1 i) m ::
      s.globals.log := rfl

@[simp] theorem Simulator.queued_bus : (s.queued T i m op q).globals.bus =
    { s.globals.bus with
      pendingRequests := s.globals.bus.pendingRequests ++ [busMreq (.L1 i) q m.addr] } := rfl

/-- The events of an observation. -/
def observedEvents (T : Table P.State) (s : Simulator P n) (i : Fin n) (m : Mreq) : List Event :=
  if T.supplies (s.states m.addr i) then
    [.requested s.globals.globalClock (dataMreq (.L1 i) m.addr m.srcMid), .snooped (.L1 i) m]
  else [.snooped (.L1 i) m]

@[simp] theorem Simulator.observed_log :
    (s.observed T i m q).globals.log = observedEvents T s i m ++ s.globals.log := by
  rcases e : T.supplies (s.states m.addr i) with - | - <;>
    simp [Simulator.observed, Simulator.commit, Ctx.observed, Simulator.snoopCtx, observedEvents, e,
      Globals.reply, Globals.record]

@[simp] theorem Simulator.observed_bus : (s.observed T i m q).globals.bus =
    { s.globals.bus with
      dataReply :=
        if T.supplies (s.states m.addr i) then some (dataMreq (.L1 i) m.addr m.srcMid)
        else s.globals.bus.dataReply
      sharedLine := s.globals.bus.sharedLine || T.asserts (s.states m.addr i) q } := by
  rcases e : T.supplies (s.states m.addr i) with - | - <;>
    simp [Simulator.observed, Simulator.commit, Ctx.observed, Simulator.snoopCtx, e,
      Globals.reply, Globals.record]

@[simp] theorem Simulator.observed_clock :
    (s.observed T i m q).globals.globalClock = s.globals.globalClock := by
  rcases e : T.supplies (s.states m.addr i) with - | - <;>
    simp [Simulator.observed, Simulator.commit, Ctx.observed, Simulator.snoopCtx, e,
      Globals.reply, Globals.record]

@[simp] theorem Simulator.filled_log : (s.filled T i m).globals.log =
    .answered (.L1 i) (answerMreq (.L1 i) m.addr) :: .snooped (.L1 i) m :: s.globals.log := rfl

@[simp] theorem Simulator.filled_bus : (s.filled T i m).globals.bus = s.globals.bus := rfl

@[simp] theorem Simulator.commit_Nd_ne (h : j ≠ i) : (s.commit i addr c).Nd j = s.Nd j := by
  simp [Simulator.commit, Simulator.setNode, h]

@[simp] theorem Simulator.commit_procRequest :
    ((s.commit i addr c).Nd i).cache.procRequest = (s.Nd i).cache.procRequest := by
  simp [Simulator.commit, Simulator.setNode, Node.put]

@[simp] theorem Simulator.commit_processor : ((s.commit i addr c).Nd i).processor =
    { (s.Nd i).processor with inboundRequestBuf := c.inboundRequestBuf } := by
  simp [Simulator.commit, Simulator.setNode, Node.put]

@[simp] theorem Simulator.taken_Nd_ne (h : j ≠ i) : (s.taken i).Nd j = s.Nd j := by
  simp [Simulator.taken, Simulator.setNode, h]

@[simp] theorem Simulator.taken_procRequest : ((s.taken i).Nd i).cache.procRequest = none := by
  simp [Simulator.taken, Simulator.setNode]

@[simp] theorem Simulator.taken_processor :
    ((s.taken i).Nd i).processor = (s.Nd i).processor := by
  simp [Simulator.taken, Simulator.setNode]

theorem Simulator.served_Nd_ne (h : j ≠ i) : (s.served T i m op).Nd j = s.Nd j := by
  simp [Simulator.served, h]

theorem Simulator.served_procRequest :
    ((s.served T i m op).Nd i).cache.procRequest = none := by
  simp [Simulator.served]

theorem Simulator.served_processor : ((s.served T i m op).Nd i).processor =
    { (s.Nd i).processor with inboundRequestBuf := some (answerMreq (.L1 i) m.addr) } := by
  simp only [Simulator.served, Simulator.taken_processor, Simulator.commit_processor, Ctx.served]
  split <;> rfl

theorem Simulator.queued_Nd_ne (h : j ≠ i) : (s.queued T i m op q).Nd j = s.Nd j := by
  simp [Simulator.queued, h]

theorem Simulator.queued_procRequest :
    ((s.queued T i m op q).Nd i).cache.procRequest = none := by
  simp [Simulator.queued]

theorem Simulator.queued_processor :
    ((s.queued T i m op q).Nd i).processor = (s.Nd i).processor := by
  simp [Simulator.queued, Ctx.queued, Simulator.requestCtx]

theorem Simulator.observed_Nd_ne (h : j ≠ i) : (s.observed T i m q).Nd j = s.Nd j := by
  simp [Simulator.observed, h]

theorem Simulator.observed_procRequest :
    ((s.observed T i m q).Nd i).cache.procRequest = (s.Nd i).cache.procRequest := by
  simp [Simulator.observed]

theorem Simulator.observed_processor :
    ((s.observed T i m q).Nd i).processor = (s.Nd i).processor := by
  simp [Simulator.observed, Ctx.observed, Simulator.snoopCtx]

theorem Simulator.filled_Nd_ne (h : j ≠ i) : (s.filled T i m).Nd j = s.Nd j := by
  simp [Simulator.filled, h]

theorem Simulator.filled_procRequest :
    ((s.filled T i m).Nd i).cache.procRequest = (s.Nd i).cache.procRequest := by
  simp [Simulator.filled]

theorem Simulator.filled_processor : ((s.filled T i m).Nd i).processor =
    { (s.Nd i).processor with inboundRequestBuf := some (answerMreq (.L1 i) m.addr) } := by
  simp [Simulator.filled, Ctx.filled, Ctx.answer]

end Fields

end ProjectArchive.Coherence
