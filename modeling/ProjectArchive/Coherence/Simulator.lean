/-
ProjectArchive/Coherence/Simulator.lean

The modules of a node and the main loop.

A simulation of `n` processors has `n` nodes with a processor and a cache, and
one more node with the memory controller.  One cycle ticks the bus, then every
cache, every processor and the memory controller, and last the processors'
inboxes; `run` repeats that until every processor is done.

Evaluated on the traces of the runs recorded in `myresult`, the definitions
below give the same run times, counters and cache contents.

The clock is a natural number: the `uint64_t` of the source wraps around after
2^64 cycles, a run no simulation reaches.  `outstanding_request` and
`proc_request`, which the constructors leave unset, start false and null.
-/
import ProjectArchive.Coherence.MI
import ProjectArchive.Coherence.MSI
import ProjectArchive.Coherence.MESI
import ProjectArchive.Coherence.MOSI
import ProjectArchive.Coherence.MOESIF

namespace ProjectArchive.Coherence

open SnoopLine

/-! ### The cache -/

/-- `Hash_table`: the cache of a node, of unbounded capacity. -/
structure HashTable (P : Protocol) where
  procRequest : Option Mreq
  myEntries : AList fun _ : Paddr => P.State

variable {P : Protocol} {n : ℕ}

/-- `Hash_table::Hash_table`. -/
def HashTable.new (P : Protocol) : HashTable P := ⟨none, ∅⟩

/-- `Hash_table::get_entry`: the state of the entry at `addr`, and the table
in which that entry exists. -/
def HashTable.getEntry (t : HashTable P) (addr : Paddr) : P.State × HashTable P :=
  match t.myEntries.lookup addr with
  | some state => (state, t)
  | none => (P.init, { t with myEntries := t.myEntries.insert addr P.init })

/-- What `Hash_table::dump_hash_table` prints for each entry, newest entry first
and not by address. -/
def HashTable.dumpHashTable (t : HashTable P) : Option (List (Paddr × String)) :=
  t.myEntries.entries.mapM fun e => (P.dump e.2).map (e.1, ·)

/-! ### The processor -/

/-- A line of a trace file, as `fscanf` reads it: an operation and an address. -/
abbrev TraceLine := Char × Paddr

/-- A finite trace of loads and stores. -/
structure Trace where
  lines : List TraceLine
  operations : ∀ l ∈ lines, l.1 = 'r' ∨ l.1 = 'w'

/-- `Processor`; `infile` is what is left to read. -/
structure Processor where
  infile : List TraceLine
  endOfTrace : Bool
  outstandingRequest : Bool
  inboundRequest : Option Mreq
  inboundRequestBuf : Option Mreq

/-- `Processor::Processor`. -/
def Processor.new (infile : List TraceLine) : Processor where
  infile := infile
  endOfTrace := false
  outstandingRequest := false
  inboundRequest := none
  inboundRequestBuf := none

/-- `Processor::done`. -/
def Processor.done (p : Processor) : Bool := p.endOfTrace && !p.outstandingRequest

/-- The message of a trace line. -/
def traceMessage : Char → Except Fault Message
  | 'r' => .ok .LOAD
  | 'w' => .ok .STORE
  | _ => .error (.fatalError "Processor: unknown operation")

/-! ### A node with a processor and a cache -/

/-- `Node`, after `build_processor`. -/
structure Node (P : Protocol) where
  cache : HashTable P
  processor : Processor

/-- Run a handler on the entry at `addr`. -/
def Node.dispatch (nd : Node P) (g : Globals) (addr : Paddr) (handler : Handler P.State) :
    Except Fault (Node P × Globals) := do
  let (state, cache) := nd.cache.getEntry addr
  let (_, c) ← handler.run ⟨g, state, nd.processor.inboundRequestBuf⟩
  return ({ cache := { cache with myEntries := cache.myEntries.insert addr c.state }
            processor := { nd.processor with inboundRequestBuf := c.inboundRequestBuf } },
          c.globals)

/-- The first half of `Hash_table::tick`: the request from the processor. -/
def Node.tickProcRequest (mid : ModuleID) (nd : Node P) (g : Globals) :
    Except Fault (Node P × Globals) :=
  match nd.cache.procRequest with
  | some request => do
      let g := { g with cacheAccesses := g.cacheAccesses + 1 }.record (.accepted mid request)
      let (nd, g) ← nd.dispatch g request.addr (P.processCacheRequest mid request)
      return ({ nd with cache := { nd.cache with procRequest := none } }, g)
  | none => .ok (nd, g)

/-- The second half of `Hash_table::tick`: the message on the bus. -/
def Node.tickSnoop (mid : ModuleID) (nd : Node P) (g : Globals) :
    Except Fault (Node P × Globals) :=
  match g.bus.busSnoop with
  | some request =>
      if request.msg = .DATA ∧ request.destMid ≠ mid then .ok (nd, g)
      else
        nd.dispatch (g.record (.snooped mid request)) request.addr
          (P.processSnoopRequest mid request)
  | none => .ok (nd, g)

/-- The tail of `Processor::tick`: fetch the next operation of the trace. -/
def Node.fetch (mid : ModuleID) (nd : Node P) : Except Fault (Node P) :=
  if nd.processor.endOfTrace || nd.processor.outstandingRequest then .ok nd
  else
    match nd.processor.infile with
    | (c, addr) :: rest => do
        let msg ← traceMessage c
        return {
          cache := { nd.cache with procRequest := some (.new msg addr mid) }
          processor := { nd.processor with infile := rest, outstandingRequest := true } }
    | [] => .ok { nd with processor := { nd.processor with endOfTrace := true } }

/-- `Processor::tick`. -/
def Node.tickPr (mid : ModuleID) (nd : Node P) : Except Fault (Node P) :=
  match nd.processor.inboundRequest with
  | some m =>
      if m.msg = .DATA then
        Node.fetch mid { nd with processor :=
          { nd.processor with outstandingRequest := false, inboundRequest := none } }
      else .error (.assertion "inbound_request->msg == DATA")
  | none => nd.fetch mid

/-- `Processor::tock`. -/
def Node.tockPr (nd : Node P) : Node P :=
  match nd.processor.inboundRequestBuf with
  | some m => { nd with processor :=
      { nd.processor with inboundRequest := some m, inboundRequestBuf := none } }
  | none => nd

/-! ### The memory controller -/

/-- The `hit_time` that `build_memory_controller` passes. -/
def hitTime : ℕ := 100

/-- `Memory_controller`. -/
structure MemoryController where
  requestInProgress : Bool
  dataTime : ℕ
  dataAddr : Paddr
  dataTarget : ModuleID

/-- `Memory_controller::Memory_controller`. -/
def MemoryController.new : MemoryController := ⟨false, 0, 0, .invalid⟩

/-- The first half of `Memory_controller::tick`: the message on the bus starts
or cancels a lookup. -/
def MemoryController.tickSnoop (mc : MemoryController) (g : Globals) :
    Except Fault MemoryController :=
  match g.bus.busSnoop with
  | some request =>
      if request.msg ≠ .DATA then
        if mc.requestInProgress then .error (.assertion "!request_in_progress")
        else
          .ok {
            requestInProgress := true
            dataTime := g.globalClock + hitTime
            dataAddr := request.addr
            dataTarget := request.srcMid }
      else .ok { mc with requestInProgress := false }
  | none => .ok mc

/-- The second half of `Memory_controller::tick`: a lookup whose time has come
puts the data on the bus. -/
def MemoryController.tickReply (mid : ModuleID) (mc : MemoryController) (g : Globals) :
    Except Fault (MemoryController × Globals) :=
  if mc.requestInProgress ∧ mc.dataTime ≤ g.globalClock then do
    let g ← g.writeOutputPort (.new .DATA mc.dataAddr mid mc.dataTarget)
    return ({ mc with requestInProgress := false }, g)
  else .ok (mc, g)

/-! ### The simulator -/

/-- `Simulator`, with `n` processors. -/
structure Simulator (P : Protocol) (n : ℕ) where
  globals : Globals
  Nd : Fin n → Node P
  mc : MemoryController

/-- `Simulator::Simulator`. -/
def Simulator.new (P : Protocol) (traces : Fin n → Trace) : Simulator P n where
  globals := .new
  Nd i := ⟨.new P, .new (traces i).lines⟩
  mc := .new

/-- `bus->tick ()`. -/
def Simulator.tickBus (s : Simulator P n) : Simulator P n :=
  { s with globals := s.globals.tickBus }

/-- Replace node `i`. -/
def Simulator.setNode (s : Simulator P n) (i : Fin n) (nd : Node P) : Simulator P n :=
  { s with Nd := Function.update s.Nd i nd }

/-- The processor's request at cache `i`. -/
def Simulator.tickProcRequest (s : Simulator P n) (i : Fin n) : Except Fault (Simulator P n) := do
  let (nd, g) ← (s.Nd i).tickProcRequest (.L1 i) s.globals
  return { s.setNode i nd with globals := g }

/-- The bus message at cache `i`. -/
def Simulator.tickSnoop (s : Simulator P n) (i : Fin n) : Except Fault (Simulator P n) := do
  let (nd, g) ← (s.Nd i).tickSnoop (.L1 i) s.globals
  return { s.setNode i nd with globals := g }

/-- `Nd[i]->tick_cache ()`: `Hash_table::tick` at node `i`. -/
def Simulator.tickCache (s : Simulator P n) (i : Fin n) : Except Fault (Simulator P n) := do
  let s ← s.tickProcRequest i
  s.tickSnoop i

/-- `Nd[i]->tick_pr ()`. -/
def Simulator.tickPr (s : Simulator P n) (i : Fin n) : Except Fault (Simulator P n) := do
  let nd ← (s.Nd i).tickPr (.PR i)
  return s.setNode i nd

/-- `Nd[n]->tick_mc ()`: only the last node has a memory controller. -/
def Simulator.tickMc (s : Simulator P n) : Except Fault (Simulator P n) := do
  let mc ← s.mc.tickSnoop s.globals
  let (mc, g) ← mc.tickReply (.MC n) s.globals
  return { s with mc := mc, globals := g }

/-- `Nd[i]->tock_pr ()`. -/
def Simulator.tockPr (s : Simulator P n) (i : Fin n) : Except Fault (Simulator P n) :=
  .ok (s.setNode i (s.Nd i).tockPr)

/-- `global_clock++`. -/
def Simulator.advance (s : Simulator P n) : Simulator P n :=
  { s with globals := { s.globals with globalClock := s.globals.globalClock + 1 } }

/-- The body of the main loop of `Simulator::run`, up to the test. -/
def Simulator.cycle (s : Simulator P n) : Except Fault (Simulator P n) := do
  let s ← Exec.forAll (fun i s => s.tickCache i) s.tickBus
  let s ← Exec.forAll (fun i s => s.tickPr i) s
  let s ← s.tickMc
  let s ← Exec.forAll (fun i s => s.tockPr i) s
  return s.advance

/-- The test of the main loop: every processor is done. -/
def Simulator.done (s : Simulator P n) : Bool := decide (∀ i, (s.Nd i).processor.done)

/-- The main loop of `Simulator::run`, for at most `fuel` cycles. -/
def Simulator.run : (fuel : ℕ) → Simulator P n → Except Fault (Option (Simulator P n))
  | 0, _ => .ok none
  | fuel + 1, s => do
      let s ← s.cycle
      if s.done then return some s else s.run fuel

/-- `k` cycles from the start, whether or not the processors are done. -/
def Simulator.cycles (P : Protocol) (traces : Fin n → Trace) : ℕ → Except Fault (Simulator P n)
  | 0 => .ok (.new P traces)
  | k + 1 => do
      let s ← Simulator.cycles P traces k
      s.cycle

/-- What `Simulator::dump_stats` prints: the contents of the caches, the run
time and the counters.  `none` when a state has no name to print. -/
def Simulator.dumpStats (s : Simulator P n) :
    Option (List (List (Paddr × String)) × ℕ × ℕ × ℕ × ℕ × ℕ) := do
  let caches ← (List.finRange n).mapM fun i => (s.Nd i).cache.dumpHashTable
  return (caches, s.globals.globalClock, s.globals.cacheMisses, s.globals.cacheAccesses,
    s.globals.silentUpgrades, s.globals.cacheToCacheTransfers)

/-! ### The choice of a protocol -/

/-- `protocol_t`, as far as `Hash_entry::Hash_entry` builds a working protocol:
every handler of `MOESI_PRO` is empty but for `fatal_error`. -/
inductive ProtocolKind
  | MI_PRO | MSI_PRO | MESI_PRO | MOSI_PRO | MOESIF_PRO
  deriving DecidableEq, Repr

/-- The `switch` of `Hash_entry::Hash_entry`. -/
def ProtocolKind.protocol : ProtocolKind → Protocol
  | .MI_PRO => MI.protocol
  | .MSI_PRO => MSI.protocol
  | .MESI_PRO => MESI.protocol
  | .MOSI_PRO => MOSI.protocol
  | .MOESIF_PRO => MOESIF.protocol

/-- The transition table of each protocol. -/
def ProtocolKind.table : (p : ProtocolKind) → Table p.protocol.State
  | .MI_PRO => MI.table
  | .MSI_PRO => MSI.table
  | .MESI_PRO => MESI.table
  | .MOSI_PRO => MOSI.table
  | .MOESIF_PRO => MOESIF.table

theorem ProtocolKind.lawful (p : ProtocolKind) : p.table.Lawful := by
  cases p
  exacts [MI.table_lawful, MSI.table_lawful, MESI.table_lawful, MOSI.table_lawful,
    MOESIF.table_lawful]

theorem ProtocolKind.implements (p : ProtocolKind) : Implements p.protocol p.table := by
  cases p
  exacts [MI.implements, MSI.implements, MESI.implements, MOSI.implements, MOESIF.implements]

end ProjectArchive.Coherence
