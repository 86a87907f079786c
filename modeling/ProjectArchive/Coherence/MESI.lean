/-
ProjectArchive/Coherence/MESI.lean

The MESI protocol.  The cache in `E` shares without supplying (memory does),
and it may upgrade to `M` without a word on the bus.  Every cache with a copy
raises the shared line when a `GETS` passes, and so does `SM`, even after its
copy was invalidated.
-/
import ProjectArchive.Coherence.Table

namespace ProjectArchive.Coherence.MESI

open SnoopLine

/-! ### States -/

/-- `MESI_cache_state_t`. -/
inductive State
  | I | S | E | M | IM | IS | SM
  deriving DecidableEq, Repr

instance : Fintype State := .ofList [.I, .S, .E, .M, .IM, .IS, .SM] fun s => by cases s <;> decide

/-- The value of the enumerator. -/
def State.toNat : State → ℕ
  | .I => 1
  | .S => 2
  | .E => 3
  | .M => 4
  | .IM => 5
  | .IS => 6
  | .SM => 7

/-- `MESI_protocol::dump`. -/
def dump (state : State) : Option String :=
  let blockStates := #["X", "I", "S", "E", "M"]
  blockStates[state.toNat]?.map ("MESI_protocol - state: " ++ ·)

/-! ### Requests of the processor -/

def doCacheI (mid : ModuleID) (request : Mreq) : Handler State :=
  match request.msg with
  | .LOAD => do
      sendGETS mid request.addr
      setState .IS
      countMiss
  | .STORE => do
      sendGETM mid request.addr
      setState .IM
      countMiss
  | _ => fatalError "Client: I state shouldn't see this message\n"

def doCacheS (mid : ModuleID) (request : Mreq) : Handler State :=
  match request.msg with
  | .LOAD => sendDATAToProc mid request.addr
  | .STORE => do
      sendGETM mid request.addr
      setState .SM
      -- coherence miss
      countMiss
  | _ => fatalError "Client: S state shouldn't see this message\n"

def doCacheE (mid : ModuleID) (request : Mreq) : Handler State :=
  match request.msg with
  | .LOAD => sendDATAToProc mid request.addr
  | .STORE => do
      sendDATAToProc mid request.addr
      setState .M
      countSilentUpgrade
  | _ => fatalError "Client: E state shouldn't see this message\n"

def doCacheM (mid : ModuleID) (request : Mreq) : Handler State :=
  match request.msg with
  | .LOAD | .STORE => sendDATAToProc mid request.addr
  | _ => fatalError "Client: M state shouldn't see this message\n"

def doCacheIS (_ : Mreq) : Handler State :=
  fatalError "Client: IS state shouldn't see this message\n"

def doCacheIM (_ : Mreq) : Handler State :=
  fatalError "Client: IM state shouldn't see this message\n"

def doCacheSM (_ : Mreq) : Handler State :=
  fatalError "Client: SM state shouldn't see this message\n"

/-- `MESI_protocol::process_cache_request`. -/
def processCacheRequest (mid : ModuleID) (request : Mreq) : Handler State := do
  match (← get).state with
  | .I => doCacheI mid request
  | .S => doCacheS mid request
  | .M => doCacheM mid request
  | .E => doCacheE mid request
  | .IM => doCacheIM request
  | .IS => doCacheIS request
  | .SM => doCacheSM request

/-! ### Messages of the bus -/

def doSnoopI (request : Mreq) : Handler State :=
  match request.msg with
  | .GETS | .GETM | .DATA => pure ()
  | _ => fatalError "Client: I state shouldn't see this message\n"

def doSnoopS (request : Mreq) : Handler State :=
  match request.msg with
  | .GETS => setSharedLine
  | .GETM => setState .I
  | .DATA => pure ()
  | _ => fatalError "Client: S state shouldn't see this message\n"

def doSnoopE (request : Mreq) : Handler State :=
  match request.msg with
  | .GETS => do
      setSharedLine
      setState .S
  | .GETM => setState .I
  | .DATA => pure ()
  | _ => fatalError "Client: S state shouldn't see this message\n"

def doSnoopM (mid : ModuleID) (request : Mreq) : Handler State :=
  match request.msg with
  | .GETS => do
      sendDATAOnBus mid request.addr request.srcMid
      setSharedLine
      setState .S
  | .GETM => do
      sendDATAOnBus mid request.addr request.srcMid
      setState .I
  | .DATA => pure ()
  | _ => fatalError "Client: S state shouldn't see this message\n"

def doSnoopIS (mid : ModuleID) (request : Mreq) : Handler State :=
  match request.msg with
  | .GETS | .GETM => pure ()
  | .DATA => do
      sendDATAToProc mid request.addr
      if ← getSharedLine then
        setState .S
      else
        setState .E
  | _ => fatalError "Client: I state shouldn't see this message\n"

def doSnoopIM (mid : ModuleID) (request : Mreq) : Handler State :=
  match request.msg with
  | .GETS | .GETM => pure ()
  | .DATA => do
      sendDATAToProc mid request.addr
      setState .M
  | _ => fatalError "Client: I state shouldn't see this message\n"

def doSnoopSM (mid : ModuleID) (request : Mreq) : Handler State :=
  match request.msg with
  | .GETS => setSharedLine
  | .GETM => pure ()
  | .DATA => do
      sendDATAToProc mid request.addr
      setState .M
  | _ => fatalError "Client: I state shouldn't see this message\n"

/-- `MESI_protocol::process_snoop_request`. -/
def processSnoopRequest (mid : ModuleID) (request : Mreq) : Handler State := do
  match (← get).state with
  | .I => doSnoopI request
  | .S => doSnoopS request
  | .M => doSnoopM mid request
  | .E => doSnoopE request
  | .IM => doSnoopIM mid request
  | .IS => doSnoopIS mid request
  | .SM => doSnoopSM mid request

/-- `MESI_protocol`. -/
def protocol : Protocol where
  State := State
  init := .I
  processCacheRequest := processCacheRequest
  processSnoopRequest := processSnoopRequest
  dump := dump

/-! ### The table -/

/-- The transition table of MESI. -/
def table : Table State where
  init := .I
  proper := fun _ => true
  waits
    | .IS => some .read
    | .IM | .SM => some .write
    | _ => none
  holds s := s = .S ∨ s = .E ∨ s = .M
  exclusive s := s = .E ∨ s = .M
  supplies s := s = .M
  exclusiveFill := true
  request
    | .I, .read => (.IS, some .read)
    | .I, .write => (.IM, some .write)
    | .S, .write => (.SM, some .write)
    | .E, .write => (.M, none)
    | s, _ => (s, none)
  silent s op := s = .E ∧ op = .write
  observe
    | .S, .write => .I
    | .E, .read => .S
    | .E, .write => .I
    | .M, .read => .S
    | .M, .write => .I
    | s, _ => s
  asserts s q := q = .read ∧ (s = .S ∨ s = .E ∨ s = .M ∨ s = .SM)
  fill
    | .IS, shared => if shared then .S else .E
    | _, _ => .M

theorem table_lawful : table.Lawful := by decide

theorem table_signals : table.Signals := by decide

theorem implements : Implements protocol table where
  init := rfl
  hit := by
    rintro mid m op ⟨g, s, buf⟩ hm - hw hhit rfl
    cases s <;> cases op <;> simp [table] at hw hhit
    all_goals
      simp [protocol, processCacheRequest, doCacheS, doCacheE, doCacheM, hm, opMessage,
        sendDATAToProc_run]
      rfl
  miss := by
    rintro mid m op q ⟨g, s, buf⟩ hm - hw hmiss
    cases s <;> cases op <;> simp [table] at hw hmiss
    all_goals
      subst hmiss
      simp [protocol, processCacheRequest, doCacheI, doCacheS, hm, opMessage]
      rfl
  observe := by
    rintro mid m q ⟨g, s, buf⟩ hm - hb
    cases s with
    | M =>
        have hb : g.bus.dataReply = none := hb rfl
        cases q <;>
          simp [protocol, processSnoopRequest, doSnoopM, hm, busMessage, sendDATAOnBus_run, hb] <;>
          rfl
    | _ =>
        cases q <;>
          simp [protocol, processSnoopRequest, doSnoopI, doSnoopS, doSnoopE, doSnoopIS, doSnoopIM,
            doSnoopSM, hm, busMessage] <;>
          rfl
  fill := by
    rintro mid m q ⟨g, s, buf⟩ hm hw rfl
    cases s <;> simp [table] at hw
    all_goals
      simp [protocol, processSnoopRequest, doSnoopIS, doSnoopIM, doSnoopSM, hm, sendDATAToProc_run]
    case IS =>
      -- `get_shared_line` chooses between S and E
      rcases hsh : g.bus.sharedLine with - | - <;>
        simp [Ctx.answer, Globals.record, Ctx.filled, table, hsh]
    all_goals rfl
  dump := by
    rintro s - hw
    cases s <;> simp [table] at hw <;> rfl

end ProjectArchive.Coherence.MESI
