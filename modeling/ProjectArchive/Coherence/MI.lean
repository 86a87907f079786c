/-
ProjectArchive/Coherence/MI.lean

The MI protocol: a line is owned or absent, and loads ask for it with a `GETM`
as stores do.
-/
import ProjectArchive.Coherence.Table

namespace ProjectArchive.Coherence.MI

open SnoopLine

/-! ### States -/

/-- `MI_cache_state_t`. -/
inductive State
  | I | IM | M
  deriving DecidableEq, Repr

instance : Fintype State := .ofList [.I, .IM, .M] fun s => by cases s <;> decide

/-- The value of the enumerator. -/
def State.toNat : State → ℕ
  | .I => 1
  | .IM => 2
  | .M => 3

/-- `MI_protocol::dump`. -/
def dump (state : State) : Option String :=
  let blockStates := #["X", "I", "IM", "M"]
  blockStates[state.toNat]?.map ("MI_protocol - state: " ++ ·)

/-! ### Requests of the processor -/

def doCacheI (mid : ModuleID) (request : Mreq) : Handler State :=
  match request.msg with
  | .LOAD | .STORE => do
      sendGETM mid request.addr
      setState .IM
      countMiss
  | _ => fatalError "Client: I state shouldn't see this message\n"

def doCacheIM (request : Mreq) : Handler State :=
  match request.msg with
  | .LOAD | .STORE => fatalError "Should only have one outstanding request per processor!"
  | _ => fatalError "Client: I state shouldn't see this message\n"

def doCacheM (mid : ModuleID) (request : Mreq) : Handler State :=
  match request.msg with
  | .LOAD | .STORE => sendDATAToProc mid request.addr
  | _ => fatalError "Client: M state shouldn't see this message\n"

/-- `MI_protocol::process_cache_request`. -/
def processCacheRequest (mid : ModuleID) (request : Mreq) : Handler State := do
  match (← get).state with
  | .I => doCacheI mid request
  | .IM => doCacheIM request
  | .M => doCacheM mid request

/-! ### Messages of the bus -/

def doSnoopI (request : Mreq) : Handler State :=
  match request.msg with
  | .GETS | .GETM | .DATA => pure ()
  | _ => fatalError "Client: I state shouldn't see this message\n"

def doSnoopIM (mid : ModuleID) (request : Mreq) : Handler State :=
  match request.msg with
  | .GETS | .GETM => pure ()
  | .DATA => do
      sendDATAToProc mid request.addr
      setState .M
      -- the shared line is read, and nothing follows from it
      let _ ← getSharedLine
  | _ => fatalError "Client: I state shouldn't see this message\n"

def doSnoopM (mid : ModuleID) (request : Mreq) : Handler State :=
  match request.msg with
  | .GETS | .GETM => do
      setSharedLine
      sendDATAOnBus mid request.addr request.srcMid
      setState .I
  | .DATA => fatalError "Should not see data for this line!  I have the line!"
  | _ => fatalError "Client: M state shouldn't see this message\n"

/-- `MI_protocol::process_snoop_request`. -/
def processSnoopRequest (mid : ModuleID) (request : Mreq) : Handler State := do
  match (← get).state with
  | .I => doSnoopI request
  | .IM => doSnoopIM mid request
  | .M => doSnoopM mid request

/-- `MI_protocol`. -/
def protocol : Protocol where
  State := State
  init := .I
  processCacheRequest := processCacheRequest
  processSnoopRequest := processSnoopRequest
  dump := dump

/-! ### The table -/

/-- The transition table of MI. -/
def table : Table State where
  init := .I
  proper := fun _ => true
  waits
    | .IM => some .write
    | _ => none
  holds s := s = .M
  exclusive s := s = .M
  supplies s := s = .M
  exclusiveFill := false
  request
    | .I, _ => (.IM, some .write)
    | s, _ => (s, none)
  silent _ _ := false
  observe
    | .M, _ => .I
    | s, _ => s
  asserts s _ := s = .M
  fill _ _ := .M

theorem table_lawful : table.Lawful := by decide

theorem implements : Implements protocol table where
  init := rfl
  hit := by
    rintro mid m op ⟨g, s, buf⟩ hm - hw hhit rfl
    cases s <;> simp [table] at hw hhit
    cases op <;>
      simp [protocol, processCacheRequest, doCacheM, hm, opMessage, sendDATAToProc_run] <;> rfl
  miss := by
    rintro mid m op q ⟨g, s, buf⟩ hm - hw hmiss
    cases s <;> simp [table] at hw hmiss
    subst hmiss
    cases op <;> simp [protocol, processCacheRequest, doCacheI, hm, opMessage] <;> rfl
  observe := by
    rintro mid m q ⟨g, s, buf⟩ hm - hb
    cases s with
    | I => cases q <;> simp [protocol, processSnoopRequest, doSnoopI, hm, busMessage] <;> rfl
    | IM => cases q <;> simp [protocol, processSnoopRequest, doSnoopIM, hm, busMessage] <;> rfl
    | M =>
        have hb : g.bus.dataReply = none := hb rfl
        cases q <;>
          simp [protocol, processSnoopRequest, doSnoopM, hm, busMessage, sendDATAOnBus_run, hb] <;>
          rfl
  fill := by
    rintro mid m q ⟨g, s, buf⟩ hm hw rfl
    cases s <;> simp [table] at hw
    simp [protocol, processSnoopRequest, doSnoopIM, hm, sendDATAToProc_run]
    rfl
  dump := by
    rintro s - hw
    cases s <;> simp [table] at hw <;> rfl

end ProjectArchive.Coherence.MI
