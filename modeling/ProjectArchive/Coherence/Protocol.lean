/-
ProjectArchive/Coherence/Protocol.lean

The base class of the coherence protocols.  A handler of a protocol runs on
one line of one cache: it may change the line's state, hand messages to the
bus, raise the shared line, answer the processor of its node and count.  That
is the state `Ctx` of the handler monad; a failed assertion and `fatal_error`
are its exceptions.

A `Protocol` bundles the state type of a line with the two virtual entry
points `process_cache_request` and `process_snoop_request`, the constructor's
initial state and `dump`.
-/
import ProjectArchive.Coherence.Bus

namespace ProjectArchive.Coherence

/-! ### The handler monad -/

/-- What a handler can read and write. -/
structure Ctx (σ : Type) where
  globals : Globals
  /-- `this->state`. -/
  state : σ
  /-- `inbound_request_buf` of the processor of the same node. -/
  inboundRequestBuf : Option Mreq

/-- A handler of a protocol whose lines have states in `σ`. -/
abbrev Handler (σ : Type) (α : Type := Unit) := StateT (Ctx σ) (Except Fault) α

variable {σ : Type}

/-- `fatal_error`. -/
def fatalError {α : Type} (text : String) : Handler σ α := throw (.fatalError text)

/-- `state = s`. -/
def setState (s : σ) : Handler σ := modify fun c => { c with state := s }

/-- `Sim->cache_misses++`. -/
def countMiss : Handler σ :=
  modify fun c => { c with globals := { c.globals with cacheMisses := c.globals.cacheMisses + 1 } }

/-- `Sim->silent_upgrades++`. -/
def countSilentUpgrade : Handler σ :=
  modify fun c =>
    { c with globals := { c.globals with silentUpgrades := c.globals.silentUpgrades + 1 } }

/-- `Hash_table::write_to_bus`, for the cache `mid`. -/
def writeToBus (mid : ModuleID) (m : Mreq) : Handler σ := do
  let c ← get
  let globals ← c.globals.writeOutputPort { m with srcMid := mid }
  set { c with globals := globals }

/-- `Hash_table::write_to_proc`, for the cache `mid`. -/
def writeToProc (mid : ModuleID) (m : Mreq) : Handler σ := do
  let c ← get
  if c.inboundRequestBuf = none then
    set { c with
      inboundRequestBuf := some { m with srcMid := mid }
      globals := c.globals.record (.answered mid { m with srcMid := mid }) }
  else
    throw (.assertion "!pr->inbound_request_buf")

/-! ### The helpers of `Protocol` -/

/-- `Protocol::send_GETM`. -/
def sendGETM (mid : ModuleID) (addr : Paddr) : Handler σ := writeToBus mid (.new .GETM addr)

/-- `Protocol::send_GETS`. -/
def sendGETS (mid : ModuleID) (addr : Paddr) : Handler σ := writeToBus mid (.new .GETS addr)

/-- `Protocol::send_DATA_on_bus`. -/
def sendDATAOnBus (mid : ModuleID) (addr : Paddr) (dest : ModuleID) : Handler σ := do
  writeToBus mid (.new .DATA addr mid dest)
  modify fun c => { c with
    globals := { c.globals with cacheToCacheTransfers := c.globals.cacheToCacheTransfers + 1 } }

/-- `Protocol::send_DATA_to_proc`. -/
def sendDATAToProc (mid : ModuleID) (addr : Paddr) : Handler σ := writeToProc mid (.new .DATA addr)

/-- `Protocol::set_shared_line`. -/
def setSharedLine : Handler σ :=
  modify fun c =>
    { c with globals := { c.globals with bus := { c.globals.bus with sharedLine := true } } }

/-- `Protocol::get_shared_line`. -/
def getSharedLine : Handler σ Bool := do
  let c ← get
  return c.globals.bus.isSharedActive

/-! ### A protocol -/

/-- A coherence protocol: a state per line and its virtual functions.  `dump`
returns the name it prints, or `none` when it indexes its table of names out
of range. -/
structure Protocol where
  State : Type
  init : State
  processCacheRequest : ModuleID → Mreq → Handler State
  processSnoopRequest : ModuleID → Mreq → Handler State
  dump : State → Option String

end ProjectArchive.Coherence
