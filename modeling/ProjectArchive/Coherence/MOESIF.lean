/-
ProjectArchive/Coherence/MOESIF.lean

The MOESIF protocol: MOSI with the exclusive state of MESI and a forwarder
`F`, the exclusive cache that has seen a reader.  `F` supplies as `O` does,
and `FM` is its upgrade in the queue.  Every cache with a copy, and every
cache in `SM`, raises the shared line when a `GETS` passes.
-/
import ProjectArchive.Coherence.Table

namespace ProjectArchive.Coherence.MOESIF

open SnoopLine

/-! ### States -/

/-- `MOESIF_cache_state_t`. -/
inductive State
  | I | S | E | O | M | F | IS | IM | SM | OM | FM
  deriving DecidableEq, Repr

instance : Fintype State :=
  .ofList [.I, .S, .E, .O, .M, .F, .IS, .IM, .SM, .OM, .FM] fun s => by cases s <;> decide

/-- The value of the enumerator. -/
def State.toNat : State → ℕ
  | .I => 1
  | .S => 2
  | .E => 3
  | .O => 4
  | .M => 5
  | .F => 6
  | .IS => 7
  | .IM => 8
  | .SM => 9
  | .OM => 10
  | .FM => 11

/-- `MOESIF_protocol::dump`.  The table has nine entries, of which the
initialiser names seven; the last two are null. -/
def dump (state : State) : Option String :=
  let blockStates := #[some "X", some "I", some "S", some "E", some "O", some "M", some "F",
    none, none]
  blockStates[state.toNat]?.join.map ("MOESIF_protocol - state: " ++ ·)

/-! ### Requests of the processor -/

def doCacheF (mid : ModuleID) (request : Mreq) : Handler State :=
  match request.msg with
  | .LOAD => sendDATAToProc mid request.addr
  | .STORE => do
      sendGETM mid request.addr
      setState .FM
      countMiss
  | _ => fatalError "Client: F state shouldn't see this message\n"

def doCacheI (mid : ModuleID) (request : Mreq) : Handler State :=
  match request.msg with
  | .LOAD => do
      sendGETS mid request.addr
      setState .IS
      countMiss
  | .STORE => do
      sendGETM mid request.addr
      setState .IM
      countMiss
  | _ => fatalError "Client: I state shouldn't see this message\n"

def doCacheS (mid : ModuleID) (request : Mreq) : Handler State :=
  match request.msg with
  | .LOAD => sendDATAToProc mid request.addr
  | .STORE => do
      sendGETM mid request.addr
      setState .SM
      countMiss
  | _ => fatalError "Client: S state shouldn't see this message\n"

def doCacheE (mid : ModuleID) (request : Mreq) : Handler State :=
  match request.msg with
  | .LOAD => sendDATAToProc mid request.addr
  | .STORE => do
      sendDATAToProc mid request.addr
      setState .M
      countSilentUpgrade
  | _ => fatalError "Client: E state shouldn't see this message\n"

def doCacheO (mid : ModuleID) (request : Mreq) : Handler State :=
  match request.msg with
  | .LOAD => sendDATAToProc mid request.addr
  | .STORE => do
      sendGETM mid request.addr
      setState .OM
      countMiss
  | _ => fatalError "Client: O state shouldn't see this message\n"

def doCacheM (mid : ModuleID) (request : Mreq) : Handler State :=
  match request.msg with
  | .LOAD | .STORE => sendDATAToProc mid request.addr
  | _ => fatalError "Client: M state shouldn't see this message\n"

def doCacheIM (_ : Mreq) : Handler State :=
  fatalError "Client: IM state shouldn't see this message\n"

def doCacheSM (_ : Mreq) : Handler State :=
  fatalError "Client: SM state shouldn't see this message\n"

def doCacheIS (_ : Mreq) : Handler State :=
  fatalError "Client: IS state shouldn't see this message\n"

def doCacheOM (_ : Mreq) : Handler State :=
  fatalError "Client: OM state shouldn't see this message\n"

def doCacheFM (_ : Mreq) : Handler State :=
  fatalError "Client: FM state shouldn't see this message\n"

/-- `MOESIF_protocol::process_cache_request`. -/
def processCacheRequest (mid : ModuleID) (request : Mreq) : Handler State := do
  match (← get).state with
  | .I => doCacheI mid request
  | .S => doCacheS mid request
  | .M => doCacheM mid request
  | .E => doCacheE mid request
  | .O => doCacheO mid request
  | .F => doCacheF mid request
  | .IM => doCacheIM request
  | .IS => doCacheIS request
  | .SM => doCacheSM request
  | .OM => doCacheOM request
  | .FM => doCacheFM request

/-! ### Messages of the bus -/

def doSnoopF (mid : ModuleID) (request : Mreq) : Handler State :=
  match request.msg with
  | .GETS => do
      sendDATAOnBus mid request.addr request.srcMid
      setSharedLine
  | .GETM => do
      sendDATAOnBus mid request.addr request.srcMid
      setState .I
  | .DATA => pure ()
  | _ => fatalError "Client: I state shouldn't see this message\n"

def doSnoopI (request : Mreq) : Handler State :=
  match request.msg with
  | .GETS | .GETM | .DATA => pure ()
  | _ => fatalError "Client: I state shouldn't see this message\n"

def doSnoopS (request : Mreq) : Handler State :=
  match request.msg with
  | .GETS => setSharedLine
  | .GETM => setState .I
  | .DATA => pure ()
  | _ => fatalError "Client: S state shouldn't see this message\n"

def doSnoopE (request : Mreq) : Handler State :=
  match request.msg with
  | .GETS => do
      setSharedLine
      setState .F
  | .GETM => setState .I
  | .DATA => pure ()
  | _ => fatalError "Client: S state shouldn't see this message\n"

def doSnoopO (mid : ModuleID) (request : Mreq) : Handler State :=
  match request.msg with
  | .GETS => do
      sendDATAOnBus mid request.addr request.srcMid
      setSharedLine
  | .GETM => do
      sendDATAOnBus mid request.addr request.srcMid
      setState .I
  | .DATA => pure ()
  | _ => fatalError "Client: O state shouldn't see this message\n"

def doSnoopM (mid : ModuleID) (request : Mreq) : Handler State :=
  match request.msg with
  | .GETS => do
      sendDATAOnBus mid request.addr request.srcMid
      setSharedLine
      setState .O
  | .GETM => do
      sendDATAOnBus mid request.addr request.srcMid
      setState .I
  | .DATA => pure ()
  | _ => fatalError "Client: M state shouldn't see this message\n"

def doSnoopIM (mid : ModuleID) (request : Mreq) : Handler State :=
  match request.msg with
  | .GETS | .GETM => pure ()
  | .DATA => do
      sendDATAToProc mid request.addr
      setState .M
  | _ => fatalError "Client: IM state shouldn't see this message\n"

def doSnoopIS (mid : ModuleID) (request : Mreq) : Handler State :=
  match request.msg with
  | .GETS | .GETM => pure ()
  | .DATA => do
      sendDATAToProc mid request.addr
      if ← getSharedLine then
        setState .S
      else
        setState .E
  | _ => fatalError "Client: I state shouldn't see this message\n"

def doSnoopOM (mid : ModuleID) (request : Mreq) : Handler State :=
  match request.msg with
  | .GETS => do
      setSharedLine
      sendDATAOnBus mid request.addr request.srcMid
  | .GETM => do
      sendDATAOnBus mid request.addr request.srcMid
      setState .IM
  | .DATA => do
      sendDATAToProc mid request.addr
      setState .M
  | _ => fatalError "Client: OM state shouldn't see this message\n"

def doSnoopSM (mid : ModuleID) (request : Mreq) : Handler State :=
  match request.msg with
  | .GETS => setSharedLine
  | .GETM => pure ()
  | .DATA => do
      sendDATAToProc mid request.addr
      setState .M
  | _ => fatalError "Client: SM state shouldn't see this message\n"

def doSnoopFM (mid : ModuleID) (request : Mreq) : Handler State :=
  match request.msg with
  | .GETS => do
      setSharedLine
      sendDATAOnBus mid request.addr request.srcMid
  | .GETM => do
      -- unlike `OM`, the forwarder raises the shared line for a `GETM` too
      setSharedLine
      sendDATAOnBus mid request.addr request.srcMid
      setState .IM
  | .DATA => do
      sendDATAToProc mid request.addr
      setState .M
  | _ => fatalError "Client: SM state shouldn't see this message\n"

/-- `MOESIF_protocol::process_snoop_request`. -/
def processSnoopRequest (mid : ModuleID) (request : Mreq) : Handler State := do
  match (← get).state with
  | .I => doSnoopI request
  | .S => doSnoopS request
  | .M => doSnoopM mid request
  | .E => doSnoopE request
  | .O => doSnoopO mid request
  | .F => doSnoopF mid request
  | .IM => doSnoopIM mid request
  | .IS => doSnoopIS mid request
  | .SM => doSnoopSM mid request
  | .OM => doSnoopOM mid request
  | .FM => doSnoopFM mid request

/-- `MOESIF_protocol`. -/
def protocol : Protocol where
  State := State
  init := .I
  processCacheRequest := processCacheRequest
  processSnoopRequest := processSnoopRequest
  dump := dump

/-! ### The table -/

/-- The transition table of MOESIF. -/
def table : Table State where
  init := .I
  proper := fun _ => true
  waits
    | .IS => some .read
    | .IM | .SM | .OM | .FM => some .write
    | _ => none
  holds s := s = .S ∨ s = .E ∨ s = .O ∨ s = .M ∨ s = .F ∨ s = .OM ∨ s = .FM
  exclusive s := s = .E ∨ s = .M
  supplies s := s = .O ∨ s = .M ∨ s = .F ∨ s = .OM ∨ s = .FM
  exclusiveFill := true
  request
    | .I, .read => (.IS, some .read)
    | .I, .write => (.IM, some .write)
    | .S, .write => (.SM, some .write)
    | .E, .write => (.M, none)
    | .O, .write => (.OM, some .write)
    | .F, .write => (.FM, some .write)
    | s, _ => (s, none)
  silent s op := s = .E ∧ op = .write
  observe
    | .S, .write => .I
    | .E, .read => .F
    | .E, .write => .I
    | .O, .write => .I
    | .M, .read => .O
    | .M, .write => .I
    | .F, .write => .I
    | .OM, .write => .IM
    | .FM, .write => .IM
    | s, _ => s
  asserts
    | s, .read => s ≠ .I ∧ s ≠ .IS ∧ s ≠ .IM
    | s, .write => s = .FM
  fill
    | .IS, shared => if shared then .S else .E
    | _, _ => .M

theorem table_lawful : table.Lawful := by decide

theorem table_signals : table.Signals := by decide

theorem table_hands : table.Hands := by decide

theorem table_keeps : table.Keeps := by decide

theorem implements : Implements protocol table where
  init := rfl
  hit := by
    rintro mid m op ⟨g, s, buf⟩ hm - hw hhit rfl
    cases s <;> cases op <;> simp [table] at hw hhit
    all_goals
      simp [protocol, processCacheRequest, doCacheS, doCacheE, doCacheO, doCacheM, doCacheF, hm,
        opMessage, sendDATAToProc_run]
      rfl
  miss := by
    rintro mid m op q ⟨g, s, buf⟩ hm - hw hmiss
    cases s <;> cases op <;> simp [table] at hw hmiss
    all_goals
      subst hmiss
      simp [protocol, processCacheRequest, doCacheI, doCacheS, doCacheO, doCacheF, hm, opMessage]
      rfl
  observe := by
    rintro mid m q ⟨g, s, buf⟩ hm - hb
    cases s with
    | O | M | F | OM | FM =>
        have hb : g.bus.dataReply = none := hb rfl
        cases q <;>
          simp [protocol, processSnoopRequest, doSnoopO, doSnoopM, doSnoopF, doSnoopOM, doSnoopFM,
            hm, busMessage, sendDATAOnBus_run, hb] <;>
          rfl
    | _ =>
        cases q <;>
          simp [protocol, processSnoopRequest, doSnoopI, doSnoopS, doSnoopE, doSnoopIS, doSnoopIM,
            doSnoopSM, hm, busMessage] <;>
          rfl
  fill := by
    rintro mid m q ⟨g, s, buf⟩ hm hw rfl
    cases s <;> simp [table] at hw
    all_goals
      simp [protocol, processSnoopRequest, doSnoopIS, doSnoopIM, doSnoopSM, doSnoopOM, doSnoopFM,
        hm, sendDATAToProc_run]
    case IS =>
      -- `get_shared_line` chooses between S and E
      rcases hsh : g.bus.sharedLine with - | - <;>
        simp [Ctx.answer, Globals.record, Ctx.filled, table, hsh]
    all_goals rfl
  dump := by
    rintro s - hw
    cases s <;> simp [table] at hw <;> rfl

end ProjectArchive.Coherence.MOESIF
