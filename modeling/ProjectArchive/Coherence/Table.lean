/-
ProjectArchive/Coherence/Table.lean

The transition table of a protocol, and what it means that the handlers
implement it.

`SnoopLine.Table` speaks of states only.  `Implements P T` says that, run on a
context whose line is in a state `s`, the handlers of `P` change the state as
the table `T` says and have exactly the effects that go with it:

* a hit answers the processor (`Ctx.served`);
* a miss queues a request and counts a miss (`Ctx.queued`);
* observing a request may put a reply on the bus and raise the shared line
  (`Ctx.observed`);
* the awaited data answer the processor (`Ctx.filled`).

In particular none of the four faults.  Everything else about the simulator is
proved once, for any protocol that implements a lawful table.
-/
import ProjectArchive.Coherence.Protocol
import ProjectArchive.Library.Exec
import ProjectArchive.Library.SnoopSharing

namespace ProjectArchive.Coherence

open SnoopLine

/-! ### Messages of accesses -/

/-- The operation a processor passes to its cache. -/
def opMessage : Access → Message
  | .read => .LOAD
  | .write => .STORE

/-- The request a cache passes to the bus. -/
def busMessage : Access → Message
  | .read => .GETS
  | .write => .GETM

/-- The request `q` for the line of `addr`, as cache `mid` queues it. -/
def busMreq (mid : ModuleID) (q : Access) (addr : Paddr) : Mreq :=
  { Mreq.new (busMessage q) addr with srcMid := mid }

/-- The data of the line of `addr`, as module `mid` puts them on the bus. -/
def dataMreq (mid : ModuleID) (addr : Paddr) (dest : ModuleID) : Mreq :=
  Mreq.new .DATA addr mid dest

/-- The data of the line of `addr`, as cache `mid` hands them to its processor. -/
def answerMreq (mid : ModuleID) (addr : Paddr) : Mreq :=
  { Mreq.new .DATA addr with srcMid := mid }

@[simp] theorem busMreq_msg (mid : ModuleID) (q : Access) (addr : Paddr) :
    (busMreq mid q addr).msg = busMessage q := rfl

@[simp] theorem busMreq_addr (mid : ModuleID) (q : Access) (addr : LineAddr) :
    (busMreq mid q addr).addr = addr := addr.2

@[simp] theorem busMreq_srcMid (mid : ModuleID) (q : Access) (addr : Paddr) :
    (busMreq mid q addr).srcMid = mid := rfl

@[simp] theorem dataMreq_msg (mid dest : ModuleID) (addr : Paddr) :
    (dataMreq mid addr dest).msg = .DATA := rfl

@[simp] theorem dataMreq_addr (mid dest : ModuleID) (addr : LineAddr) :
    (dataMreq mid addr dest).addr = addr := addr.2

@[simp] theorem dataMreq_srcMid (mid dest : ModuleID) (addr : Paddr) :
    (dataMreq mid addr dest).srcMid = mid := rfl

@[simp] theorem dataMreq_destMid (mid dest : ModuleID) (addr : Paddr) :
    (dataMreq mid addr dest).destMid = dest := rfl

@[simp] theorem answerMreq_msg (mid : ModuleID) (addr : Paddr) :
    (answerMreq mid addr).msg = .DATA := rfl

@[simp] theorem answerMreq_addr (mid : ModuleID) (addr : LineAddr) :
    (answerMreq mid addr).addr = addr := addr.2

@[simp] theorem busMreq_line (mid : ModuleID) (q : Access) (m : Mreq) :
    (busMreq mid q m.addr).addr = m.addr := m.aligned

@[simp] theorem dataMreq_line (mid dest : ModuleID) (m : Mreq) :
    (dataMreq mid m.addr dest).addr = m.addr := m.aligned

@[simp] theorem answerMreq_line (mid : ModuleID) (m : Mreq) :
    (answerMreq mid m.addr).addr = m.addr := m.aligned

@[simp] theorem busMessage_ne_DATA (q : Access) : busMessage q ≠ .DATA := by
  cases q <;> simp [busMessage]

@[simp] theorem busMessage_inj {q q' : Access} : busMessage q = busMessage q' ↔ q = q' := by
  cases q <;> cases q' <;> simp [busMessage]

theorem busMreq_inj {mid : ModuleID} {q q' : Access} {addr addr' : LineAddr}
    (h : busMreq mid q addr = busMreq mid q' addr') : q = q' ∧ addr = addr' := by
  constructor
  · exact busMessage_inj.mp (congrArg Mreq.msg h)
  · exact Subtype.ext (by simpa using congrArg Mreq.addr h)

/-! ### Effects -/

/-- A request joins the bus queue. -/
def Globals.enqueue (g : Globals) (m : Mreq) : Globals :=
  { g with bus := { g.bus with pendingRequests := g.bus.pendingRequests ++ [m] } }.record
    (.requested g.globalClock m)

/-- A reply takes the data slot. -/
def Globals.reply (g : Globals) (m : Mreq) : Globals :=
  { g with bus := { g.bus with dataReply := some m } }.record (.requested g.globalClock m)

/-- The shared line is raised, or left as it is. -/
def Globals.raise (g : Globals) (b : Bool) : Globals :=
  if b then { g with bus := { g.bus with sharedLine := true } } else g

@[simp] theorem Globals.raise_log (g : Globals) (b : Bool) : (g.raise b).log = g.log := by
  cases b <;> rfl

@[simp] theorem Globals.raise_globalClock (g : Globals) (b : Bool) :
    (g.raise b).globalClock = g.globalClock := by
  cases b <;> rfl

@[simp] theorem Globals.raise_bus (g : Globals) (b : Bool) :
    (g.raise b).bus = { g.bus with sharedLine := g.bus.sharedLine || b } := by
  cases b
  · simp [Globals.raise]
  · simp [Globals.raise]

theorem Globals.writeOutputPort_data {g : Globals} {m : Mreq} (hm : m.msg = .DATA)
    (hb : g.bus.dataReply = none) : g.writeOutputPort m = .ok (g.reply m) := by
  simp [Globals.writeOutputPort, Bus.busRequest, hm, hb, Globals.reply, bind, Except.bind, pure,
    Except.pure]

variable {σ : Type}

/-- The processor gets its answer. -/
def Ctx.answer (c : Ctx σ) (mid : ModuleID) (addr : Paddr) : Ctx σ :=
  { c with
    inboundRequestBuf := some (answerMreq mid addr)
    globals := c.globals.record (.answered mid (answerMreq mid addr)) }

/-- The effect of a hit. -/
def Ctx.served (c : Ctx σ) (mid : ModuleID) (addr : Paddr) (s : σ) (silent : Bool) : Ctx σ :=
  let c := { c.answer mid addr with state := s }
  if silent then
    { c with globals := { c.globals with silentUpgrades := c.globals.silentUpgrades + 1 } }
  else c

/-- The effect of a miss. -/
def Ctx.queued (c : Ctx σ) (mid : ModuleID) (addr : Paddr) (q : Access) (s : σ) : Ctx σ :=
  let g := c.globals.enqueue (busMreq mid q addr)
  { c with state := s, globals := { g with cacheMisses := g.cacheMisses + 1 } }

/-- The effect of observing the request `q` of module `dest`. -/
def Ctx.observed (c : Ctx σ) (T : Table σ) (mid : ModuleID) (addr : Paddr) (dest : ModuleID)
    (q : Access) : Ctx σ :=
  let g :=
    if T.supplies c.state then
      let g := c.globals.reply (dataMreq mid addr dest)
      { g with cacheToCacheTransfers := g.cacheToCacheTransfers + 1 }
    else c.globals
  { c with state := T.observe c.state q, globals := g.raise (T.asserts c.state q) }

/-- The effect of the awaited data. -/
def Ctx.filled (c : Ctx σ) (T : Table σ) (mid : ModuleID) (addr : Paddr) : Ctx σ :=
  { c.answer mid addr with state := T.fill c.state c.globals.bus.sharedLine }

/-! ### Implementing a table -/

/-- The handlers of `P` do what the table `T` says. -/
structure Implements (P : Protocol) (T : Table P.State) : Prop where
  init : P.init = T.init
  hit : ∀ {mid : ModuleID} {m : Mreq} {op : Access} {c : Ctx P.State}, m.msg = opMessage op →
    T.proper c.state → T.waits c.state = none → (T.request c.state op).2 = none →
    c.inboundRequestBuf = none →
    (P.processCacheRequest mid m).run c =
      .ok ((), c.served mid m.addr (T.request c.state op).1 (T.silent c.state op))
  miss : ∀ {mid : ModuleID} {m : Mreq} {op q : Access} {c : Ctx P.State}, m.msg = opMessage op →
    T.proper c.state → T.waits c.state = none → (T.request c.state op).2 = some q →
    (P.processCacheRequest mid m).run c =
      .ok ((), c.queued mid m.addr q (T.request c.state op).1)
  observe : ∀ {mid : ModuleID} {m : Mreq} {q : Access} {c : Ctx P.State}, m.msg = busMessage q →
    T.proper c.state → (T.supplies c.state → c.globals.bus.dataReply = none) →
    (P.processSnoopRequest mid m).run c = .ok ((), c.observed T mid m.addr m.srcMid q)
  fill : ∀ {mid : ModuleID} {m : Mreq} {q : Access} {c : Ctx P.State}, m.msg = .DATA →
    T.waits c.state = some q → c.inboundRequestBuf = none →
    (P.processSnoopRequest mid m).run c = .ok ((), c.filled T mid m.addr)
  dump : ∀ {s : P.State}, T.proper s → T.waits s = none → (P.dump s).isSome

/-! ### Running the helpers of a handler -/

section Run

variable {mid dest : ModuleID} {addr : Paddr} {c : Ctx σ}

@[simp] theorem setState_run (s : σ) : (setState s).run c = .ok ((), { c with state := s }) := rfl

@[simp] theorem countMiss_run :
    (countMiss : Handler σ).run c = .ok ((), { c with
      globals := { c.globals with cacheMisses := c.globals.cacheMisses + 1 } }) := rfl

@[simp] theorem countSilentUpgrade_run :
    (countSilentUpgrade : Handler σ).run c = .ok ((), { c with
      globals := { c.globals with silentUpgrades := c.globals.silentUpgrades + 1 } }) := rfl

@[simp] theorem setSharedLine_run :
    (setSharedLine : Handler σ).run c = .ok ((), { c with
      globals := { c.globals with bus := { c.globals.bus with sharedLine := true } } }) := rfl

@[simp] theorem getSharedLine_run :
    (getSharedLine : Handler σ Bool).run c = .ok (c.globals.bus.sharedLine, c) := rfl

@[simp] theorem sendGETM_run :
    (sendGETM mid addr : Handler σ).run c =
      .ok ((), { c with globals := c.globals.enqueue (busMreq mid .write addr) }) := rfl

@[simp] theorem sendGETS_run :
    (sendGETS mid addr : Handler σ).run c =
      .ok ((), { c with globals := c.globals.enqueue (busMreq mid .read addr) }) := rfl

theorem writeToBus_run {m : Mreq} {g : Globals}
    (h : c.globals.writeOutputPort { m with srcMid := mid } = .ok g) :
    (writeToBus mid m : Handler σ).run c = .ok ((), { c with globals := g }) := by
  simp only [writeToBus, StateT.run_bind, StateT.run_get, pure_bind, StateT.run_monadLift,
    monadLift_self, h]
  rfl

theorem sendDATAOnBus_run (h : c.globals.bus.dataReply = none) :
    (sendDATAOnBus mid addr dest : Handler σ).run c =
      .ok ((), { c with globals :=
        { c.globals.reply (dataMreq mid addr dest) with
          cacheToCacheTransfers := c.globals.cacheToCacheTransfers + 1 } }) := by
  have hw : (writeToBus mid (.new .DATA addr mid dest) : Handler σ).run c =
      .ok ((), { c with globals := c.globals.reply (dataMreq mid addr dest) }) :=
    writeToBus_run (Globals.writeOutputPort_data rfl h)
  simp only [sendDATAOnBus, StateT.run_bind, hw]
  rfl

theorem sendDATAToProc_run (h : c.inboundRequestBuf = none) :
    (sendDATAToProc mid addr : Handler σ).run c = .ok ((), c.answer mid addr) := by
  simp only [sendDATAToProc, writeToProc, StateT.run_bind, StateT.run_get, pure_bind, h]
  rfl

end Run

end ProjectArchive.Coherence
