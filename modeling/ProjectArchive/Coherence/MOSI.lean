/-
ProjectArchive/Coherence/MOSI.lean

The MOSI protocol.  `O` owns a line others may read, and keeps supplying it;
`OM` is its upgrade in the queue.  The first `GETM` that passes, its own
included, makes an `OM` cache supply the data and wait on as `IM`.

The enumeration has a state `MO` that no handler enters and that both
`process_*` functions reject; the table calls it improper.
-/
import ProjectArchive.Coherence.Table

namespace ProjectArchive.Coherence.MOSI

open SnoopLine

/-! ### States -/

/-- `MOSI_cache_state_t`. -/
inductive State
  | I | S | O | M | IS | IM | SM | MO | OM
  deriving DecidableEq, Repr

instance : Fintype State :=
  .ofList [.I, .S, .O, .M, .IS, .IM, .SM, .MO, .OM] fun s => by cases s <;> decide

/-- The value of the enumerator. -/
def State.toNat : State → ℕ
  | .I => 1
  | .S => 2
  | .O => 3
  | .M => 4
  | .IS => 5
  | .IM => 6
  | .SM => 7
  | .MO => 8
  | .OM => 9

/-- `MOSI_protocol::dump`. -/
def dump (state : State) : Option String :=
  let blockStates := #["X", "I", "S", "O", "M"]
  blockStates[state.toNat]?.map ("MOSI_protocol - state: " ++ ·)

/-! ### Requests of the processor -/

def doCacheI (mid : ModuleID) (request : Mreq) : Handler State :=
  match request.msg with
  | .LOAD => do
      sendGETS mid request.addr
      setState .IS
      countMiss
  | .STORE => do
      sendGETM mid request.addr
      setState .IM
      countMiss
  | _ => fatalError "Client: I state shouldn't see this message\n"

def doCacheS (mid : ModuleID) (request : Mreq) : Handler State :=
  match request.msg with
  | .LOAD => sendDATAToProc mid request.addr
  | .STORE => do
      sendGETM mid request.addr
      setState .SM
      -- coherence miss
      countMiss
  | _ => fatalError "Client: S state shouldn't see this message\n"

def doCacheO (mid : ModuleID) (request : Mreq) : Handler State :=
  match request.msg with
  | .LOAD => sendDATAToProc mid request.addr
  | .STORE => do
      sendGETM mid request.addr
      setState .OM
      countMiss
  | _ => fatalError "Client: O state shouldn't see this message\n"

def doCacheM (mid : ModuleID) (request : Mreq) : Handler State :=
  match request.msg with
  | .LOAD | .STORE => sendDATAToProc mid request.addr
  | _ => fatalError "Client: M state shouldn't see this message\n"

def doCacheIM (_ : Mreq) : Handler State :=
  fatalError "Client: IM state shouldn't see this message\n"

def doCacheSM (_ : Mreq) : Handler State :=
  fatalError "Client: SM state shouldn't see this message\n"

def doCacheIS (_ : Mreq) : Handler State :=
  fatalError "Client: IS state shouldn't see this message\n"

def doCacheOM (_ : Mreq) : Handler State :=
  fatalError "Client: OM state shouldn't see this message\n"

/-- `MOSI_protocol::process_cache_request`. -/
def processCacheRequest (mid : ModuleID) (request : Mreq) : Handler State := do
  match (← get).state with
  | .I => doCacheI mid request
  | .S => doCacheS mid request
  | .O => doCacheO mid request
  | .M => doCacheM mid request
  | .IM => doCacheIM request
  | .IS => doCacheIS request
  | .SM => doCacheSM request
  | .OM => doCacheOM request
  | .MO => fatalError "Invalid Cache State for MOSI Protocol\n"

/-! ### Messages of the bus -/

def doSnoopI (request : Mreq) : Handler State :=
  match request.msg with
  | .GETS | .GETM | .DATA => pure ()
  | _ => fatalError "Client: I state shouldn't see this message\n"

def doSnoopS (request : Mreq) : Handler State :=
  match request.msg with
  | .GETS => pure ()
  | .GETM => setState .I
  | .DATA => pure ()
  | _ => fatalError "Client: S state shouldn't see this message\n"

def doSnoopO (mid : ModuleID) (request : Mreq) : Handler State :=
  match request.msg with
  | .GETS => sendDATAOnBus mid request.addr request.srcMid
  | .GETM => do
      sendDATAOnBus mid request.addr request.srcMid
      setState .I
  | .DATA => pure ()
  | _ => fatalError "Client: O state shouldn't see this message\n"

def doSnoopM (mid : ModuleID) (request : Mreq) : Handler State :=
  match request.msg with
  | .GETS => do
      sendDATAOnBus mid request.addr request.srcMid
      setState .O
  | .GETM => do
      sendDATAOnBus mid request.addr request.srcMid
      setState .I
  | .DATA => pure ()
  | _ => fatalError "Client: M state shouldn't see this message\n"

def doSnoopIM (mid : ModuleID) (request : Mreq) : Handler State :=
  match request.msg with
  | .GETS | .GETM => pure ()
  | .DATA => do
      sendDATAToProc mid request.addr
      setState .M
  | _ => fatalError "Client: IM state shouldn't see this message\n"

def doSnoopIS (mid : ModuleID) (request : Mreq) : Handler State :=
  match request.msg with
  | .GETS | .GETM => pure ()
  | .DATA => do
      sendDATAToProc mid request.addr
      setState .S
  | _ => fatalError "Client: IS state shouldn't see this message\n"

def doSnoopOM (mid : ModuleID) (request : Mreq) : Handler State :=
  match request.msg with
  | .GETS => sendDATAOnBus mid request.addr request.srcMid
  | .GETM => do
      sendDATAOnBus mid request.addr request.srcMid
      setState .IM
  | .DATA => do
      sendDATAToProc mid request.addr
      setState .M
  | _ => fatalError "Client: OM state shouldn't see this message\n"

def doSnoopSM (mid : ModuleID) (request : Mreq) : Handler State :=
  match request.msg with
  | .GETS | .GETM => pure ()
  | .DATA => do
      sendDATAToProc mid request.addr
      setState .M
  | _ => fatalError "Client: SM state shouldn't see this message\n"

/-- `MOSI_protocol::process_snoop_request`. -/
def processSnoopRequest (mid : ModuleID) (request : Mreq) : Handler State := do
  match (← get).state with
  | .I => doSnoopI request
  | .S => doSnoopS request
  | .O => doSnoopO mid request
  | .M => doSnoopM mid request
  | .IM => doSnoopIM mid request
  | .IS => doSnoopIS mid request
  | .SM => doSnoopSM mid request
  | .OM => doSnoopOM mid request
  | .MO => fatalError "Invalid Cache State for MOSI Protocol\n"

/-- `MOSI_protocol`. -/
def protocol : Protocol where
  State := State
  init := .I
  processCacheRequest := processCacheRequest
  processSnoopRequest := processSnoopRequest
  dump := dump

/-! ### The table -/

/-- The transition table of MOSI. -/
def table : Table State where
  init := .I
  proper s := s ≠ .MO
  waits
    | .IS => some .read
    | .IM | .SM | .OM => some .write
    | _ => none
  holds s := s = .S ∨ s = .O ∨ s = .M ∨ s = .OM
  exclusive s := s = .M
  supplies s := s = .O ∨ s = .M ∨ s = .OM
  exclusiveFill := false
  request
    | .I, .read => (.IS, some .read)
    | .I, .write => (.IM, some .write)
    | .S, .write => (.SM, some .write)
    | .O, .write => (.OM, some .write)
    | s, _ => (s, none)
  silent _ _ := false
  observe
    | .S, .write => .I
    | .O, .write => .I
    | .M, .read => .O
    | .M, .write => .I
    | .OM, .write => .IM
    | s, _ => s
  asserts _ _ := false
  fill
    | .IS, _ => .S
    | _, _ => .M

theorem table_lawful : table.Lawful := by decide

theorem table_keeps : table.Keeps := by decide

theorem implements : Implements protocol table where
  init := rfl
  hit := by
    rintro mid m op ⟨g, s, buf⟩ hm hp hw hhit rfl
    cases s <;> cases op <;> simp [table] at hp hw hhit
    all_goals
      simp [protocol, processCacheRequest, doCacheS, doCacheO, doCacheM, hm, opMessage,
        sendDATAToProc_run]
      rfl
  miss := by
    rintro mid m op q ⟨g, s, buf⟩ hm - hw hmiss
    cases s <;> cases op <;> simp [table] at hw hmiss
    all_goals
      subst hmiss
      simp [protocol, processCacheRequest, doCacheI, doCacheS, doCacheO, hm, opMessage]
      rfl
  observe := by
    rintro mid m q ⟨g, s, buf⟩ hm hp hb
    cases s with
    | MO => simp [table] at hp
    | O | M | OM =>
        have hb : g.bus.dataReply = none := hb rfl
        cases q <;>
          simp [protocol, processSnoopRequest, doSnoopO, doSnoopM, doSnoopOM, hm, busMessage,
            sendDATAOnBus_run, hb] <;>
          rfl
    | _ =>
        cases q <;>
          simp [protocol, processSnoopRequest, doSnoopI, doSnoopS, doSnoopIS, doSnoopIM, doSnoopSM,
            hm, busMessage] <;>
          rfl
  fill := by
    rintro mid m q ⟨g, s, buf⟩ hm hw rfl
    cases s <;> simp [table] at hw
    all_goals
      simp [protocol, processSnoopRequest, doSnoopIS, doSnoopIM, doSnoopSM, doSnoopOM, hm,
        sendDATAToProc_run]
      rfl
  dump := by
    rintro s hp hw
    cases s <;> simp [table] at hp hw <;> rfl

end ProjectArchive.Coherence.MOSI
