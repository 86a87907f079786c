/-
ProjectArchive/Coherence/MSI.lean

The MSI protocol.  `SM` is an upgrade in the queue: its copy is lost without a
change of state when another cache's `GETM` passes, so the table does not
count it as a holder.
-/
import ProjectArchive.Coherence.Table

namespace ProjectArchive.Coherence.MSI

open SnoopLine

/-! ### States -/

/-- `MSI_cache_state_t`. -/
inductive State
  | I | S | M | IM | IS | SM
  deriving DecidableEq, Repr

instance : Fintype State := .ofList [.I, .S, .M, .IM, .IS, .SM] fun s => by cases s <;> decide

/-- The value of the enumerator. -/
def State.toNat : State → ℕ
  | .I => 1
  | .S => 2
  | .M => 3
  | .IM => 4
  | .IS => 5
  | .SM => 6

/-- `MSI_protocol::dump`. -/
def dump (state : State) : Option String :=
  let blockStates := #["X", "I", "S", "M"]
  blockStates[state.toNat]?.map ("MSI_protocol - state: " ++ ·)

/-! ### Requests of the processor -/

def doCacheI (mid : ModuleID) (request : Mreq) : Handler State :=
  match request.msg with
  | .LOAD => do
      sendGETS mid request.addr
      setState .IS
      countMiss
  | .STORE => do
      sendGETM mid request.addr
      setState .IM
      countMiss
  | _ => fatalError "Client: I state shouldn't see this message\n"

def doCacheS (mid : ModuleID) (request : Mreq) : Handler State :=
  match request.msg with
  | .LOAD => sendDATAToProc mid request.addr
  | .STORE => do
      sendGETM mid request.addr
      setState .SM
      -- coherence miss
      countMiss
  | _ => fatalError "Client: S state shouldn't see this message\n"

def doCacheM (mid : ModuleID) (request : Mreq) : Handler State :=
  match request.msg with
  | .LOAD | .STORE => sendDATAToProc mid request.addr
  | _ => fatalError "Client: M state shouldn't see this message\n"

def doCacheIM (_ : Mreq) : Handler State :=
  fatalError "Client: IM state shouldn't see this message\n"

def doCacheIS (_ : Mreq) : Handler State :=
  fatalError "Client: IS state shouldn't see this message\n"

def doCacheSM (_ : Mreq) : Handler State :=
  fatalError "Client: SM state shouldn't see this message\n"

/-- `MSI_protocol::process_cache_request`. -/
def processCacheRequest (mid : ModuleID) (request : Mreq) : Handler State := do
  match (← get).state with
  | .I => doCacheI mid request
  | .S => doCacheS mid request
  | .M => doCacheM mid request
  | .IS => doCacheIS request
  | .IM => doCacheIM request
  | .SM => doCacheSM request

/-! ### Messages of the bus -/

def doSnoopI (request : Mreq) : Handler State :=
  match request.msg with
  | .GETS | .GETM | .DATA => pure ()
  | _ => fatalError "Client: I state shouldn't see this message\n"

def doSnoopS (request : Mreq) : Handler State :=
  match request.msg with
  | .GETS => pure ()
  | .GETM => setState .I
  | .DATA => fatalError "Snoop: S state shouldn't see this message\n"
  | _ => fatalError "Client: I state shouldn't see this message\n"

def doSnoopM (mid : ModuleID) (request : Mreq) : Handler State :=
  match request.msg with
  | .GETS => do
      sendDATAOnBus mid request.addr request.srcMid
      setState .S
  | .GETM => do
      sendDATAOnBus mid request.addr request.srcMid
      setState .I
  | .DATA => fatalError "Snoop: M state shouldn't see this message\n"
  | _ => fatalError "Client: I state shouldn't see this message\n"

def doSnoopIM (mid : ModuleID) (request : Mreq) : Handler State :=
  match request.msg with
  | .GETS | .GETM => pure ()
  | .DATA => do
      sendDATAToProc mid request.addr
      setState .M
  | _ => fatalError "Client: I state shouldn't see this message\n"

def doSnoopIS (mid : ModuleID) (request : Mreq) : Handler State :=
  match request.msg with
  | .GETS | .GETM => pure ()
  | .DATA => do
      sendDATAToProc mid request.addr
      setState .S
  | _ => fatalError "Client: I state shouldn't see this message\n"

def doSnoopSM (mid : ModuleID) (request : Mreq) : Handler State :=
  match request.msg with
  | .GETS | .GETM => pure ()
  | .DATA => do
      sendDATAToProc mid request.addr
      setState .M
  | _ => fatalError "Client: I state shouldn't see this message\n"

/-- `MSI_protocol::process_snoop_request`. -/
def processSnoopRequest (mid : ModuleID) (request : Mreq) : Handler State := do
  match (← get).state with
  | .I => doSnoopI request
  | .S => doSnoopS request
  | .M => doSnoopM mid request
  | .IS => doSnoopIS mid request
  | .IM => doSnoopIM mid request
  | .SM => doSnoopSM mid request

/-- `MSI_protocol`. -/
def protocol : Protocol where
  State := State
  init := .I
  processCacheRequest := processCacheRequest
  processSnoopRequest := processSnoopRequest
  dump := dump

/-! ### The table -/

/-- The transition table of MSI. -/
def table : Table State where
  init := .I
  proper := fun _ => true
  waits
    | .IS => some .read
    | .IM | .SM => some .write
    | _ => none
  holds s := s = .S ∨ s = .M
  exclusive s := s = .M
  supplies s := s = .M
  exclusiveFill := false
  request
    | .I, .read => (.IS, some .read)
    | .I, .write => (.IM, some .write)
    | .S, .write => (.SM, some .write)
    | s, _ => (s, none)
  silent _ _ := false
  observe
    | .S, .write => .I
    | .M, .read => .S
    | .M, .write => .I
    | s, _ => s
  asserts _ _ := false
  fill
    | .IS, _ => .S
    | _, _ => .M

theorem table_lawful : table.Lawful := by decide

theorem implements : Implements protocol table where
  init := rfl
  hit := by
    rintro mid m op ⟨g, s, buf⟩ hm - hw hhit rfl
    cases s <;> cases op <;> simp [table] at hw hhit
    all_goals
      simp [protocol, processCacheRequest, doCacheS, doCacheM, hm, opMessage, sendDATAToProc_run]
      rfl
  miss := by
    rintro mid m op q ⟨g, s, buf⟩ hm - hw hmiss
    cases s <;> cases op <;> simp [table] at hw hmiss
    all_goals
      subst hmiss
      simp [protocol, processCacheRequest, doCacheI, doCacheS, hm, opMessage]
      rfl
  observe := by
    rintro mid m q ⟨g, s, buf⟩ hm - hb
    cases s with
    | M =>
        have hb : g.bus.dataReply = none := hb rfl
        cases q <;>
          simp [protocol, processSnoopRequest, doSnoopM, hm, busMessage, sendDATAOnBus_run, hb] <;>
          rfl
    | _ =>
        cases q <;>
          simp [protocol, processSnoopRequest, doSnoopI, doSnoopS, doSnoopIS, doSnoopIM, doSnoopSM,
            hm, busMessage] <;>
          rfl
  fill := by
    rintro mid m q ⟨g, s, buf⟩ hm hw rfl
    cases s <;> simp [table] at hw
    all_goals
      simp [protocol, processSnoopRequest, doSnoopIS, doSnoopIM, doSnoopSM, hm, sendDATAToProc_run]
      rfl
  dump := by
    rintro s - hw
    cases s <;> simp [table] at hw <;> rfl

end ProjectArchive.Coherence.MSI
