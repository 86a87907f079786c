/-
ProjectArchive/Coherence/Bus.lean

The bus, and the part of the simulator that every module reaches through the
global pointer `Sim`: the clock, the bus and the four counters.

One bus transaction is a request (`GETS` or `GETM`) followed by its `DATA`.
`tick` grants the next message, `busRequest` queues a request or fills the one
`data_reply` slot, whose occupancy the source guards by an assertion.
-/
import ProjectArchive.Coherence.Message

namespace ProjectArchive.Coherence

/-! ### The bus -/

/-- `Bus`. -/
structure Bus where
  currentRequest : Option Mreq
  pendingRequests : List Mreq
  dataReply : Option Mreq
  requestInProgress : Bool
  sharedLine : Bool

/-- `Bus::Bus`. -/
def Bus.new : Bus where
  currentRequest := none
  pendingRequests := []
  dataReply := none
  requestInProgress := false
  sharedLine := false

/-- `Bus::tick`. -/
def Bus.tick (b : Bus) : Bus :=
  if b.requestInProgress then
    match b.dataReply with
    | some reply =>
        { b with currentRequest := some reply, dataReply := none, requestInProgress := false }
    | none => { b with currentRequest := none }
  else
    match b.pendingRequests with
    | request :: rest =>
        { b with
          sharedLine := false
          currentRequest := some request
          pendingRequests := rest
          requestInProgress := true }
    | [] => { b with currentRequest := none }

/-- `Bus::bus_request`. -/
def Bus.busRequest (b : Bus) (request : Mreq) : Except Fault Bus :=
  if request.msg = .DATA then
    if b.dataReply = none then
      .ok { b with dataReply := some request }
    else
      .error (.assertion "data_reply == NULL")
  else
    .ok { b with pendingRequests := b.pendingRequests ++ [request] }

/-- `Bus::bus_snoop`: a copy of the current message. -/
def Bus.busSnoop (b : Bus) : Option Mreq := b.currentRequest

/-- `Bus::is_shared_active`. -/
def Bus.isSharedActive (b : Bus) : Bool := b.sharedLine

/-! ### What the global pointer `Sim` reaches -/

/-- The fields of `Simulator` that are not nodes, with the history variable. -/
structure Globals where
  globalClock : ℕ
  bus : Bus
  cacheMisses : ℕ
  cacheAccesses : ℕ
  silentUpgrades : ℕ
  cacheToCacheTransfers : ℕ
  /-- The history, newest event first; nothing below reads it. -/
  log : List Event

/-- The globals as `Simulator::Simulator` leaves them. -/
def Globals.new : Globals where
  globalClock := 0
  bus := .new
  cacheMisses := 0
  cacheAccesses := 0
  silentUpgrades := 0
  cacheToCacheTransfers := 0
  log := []

/-- Append to the history. -/
def Globals.record (g : Globals) (e : Event) : Globals := { g with log := e :: g.log }

/-- `bus->tick ()` at the head of the main loop.  The current message after
the call, if there is one, has just been granted. -/
def Globals.tickBus (g : Globals) : Globals :=
  let g := { g with bus := g.bus.tick }
  match g.bus.currentRequest with
  | some m => g.record (.granted g.globalClock m)
  | none => g

/-- `Module::write_output_port`: hand a message to the bus. -/
def Globals.writeOutputPort (g : Globals) (m : Mreq) : Except Fault Globals := do
  let bus ← g.bus.busRequest m
  return { g with bus := bus }.record (.requested g.globalClock m)

end ProjectArchive.Coherence
