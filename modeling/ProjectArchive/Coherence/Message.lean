/-
ProjectArchive/Coherence/Message.lean

The vocabulary of the snooping-bus simulator: message kinds, module
identifiers, line addresses and the request record `Mreq`.

Every `Mreq` is built by a constructor that clears the offset bits of its
address, so an `Mreq` whose address is not the address of a cache line cannot
exist.  Here the invariant is a field (`aligned`), and `Mreq.new` is the only
way the model builds a message; the later modules never have to re-prove it.

`Event` is not in the source: it is the alphabet of a history variable.  The
model appends to it and never reads it, and the properties that speak of "the
order in which requests were granted" or "the version a cache last received"
are stated over it.
-/
import Mathlib.Data.List.AList

namespace ProjectArchive.Coherence

/-! ### Messages and modules -/

/-- `message_t`. -/
inductive Message
  | NOP | LOAD | STORE | GETS | GETM | DATA | MREQ_INVALID
  deriving DecidableEq, Repr

/-- `module_t`: the slots of a node. -/
inductive ModuleKind
  | NI_M | PR_M | L1_M | L2_M | L3_M | MC_M | INVALID_M
  deriving DecidableEq, Repr

/-- `ModuleID`: a node and one of its slots. -/
structure ModuleID where
  nodeID : ℤ
  moduleIndex : ModuleKind
  deriving DecidableEq, Repr

/-- The default argument `(ModuleID){-1,INVALID_M}`. -/
def ModuleID.invalid : ModuleID := ⟨-1, .INVALID_M⟩

/-- The identifier of the cache of node `i`. -/
def ModuleID.L1 (i : ℕ) : ModuleID := ⟨i, .L1_M⟩

/-- The identifier of the processor of node `i`. -/
def ModuleID.PR (i : ℕ) : ModuleID := ⟨i, .PR_M⟩

/-- The identifier of the memory controller, which lives at node `n`. -/
def ModuleID.MC (n : ℕ) : ModuleID := ⟨n, .MC_M⟩

@[simp] theorem ModuleID.L1_inj {i j : ℕ} : ModuleID.L1 i = ModuleID.L1 j ↔ i = j := by
  simp only [ModuleID.L1, ModuleID.mk.injEq, and_true]
  omega

@[simp] theorem ModuleID.L1_ne_MC {n i : ℕ} : ModuleID.L1 i ≠ ModuleID.MC n := by
  simp [ModuleID.MC, ModuleID.L1]

/-! ### Line addresses -/

/-- `paddr_t`. -/
abbrev Paddr := BitVec 64

/-- `settings.cache_line_size_log2`, as `set_defaults` leaves it. -/
def cacheLineSizeLog2 : ℕ := 6

/-- The mask `(~0x0) << settings.cache_line_size_log2` of the `Mreq`
constructor. -/
def lineMask : Paddr := (~~~(0 : Paddr)) <<< cacheLineSizeLog2

/-- The address of the line that holds `addr`. -/
def lineOf (addr : Paddr) : Paddr := addr &&& lineMask

@[simp] theorem lineOf_lineOf (addr : Paddr) : lineOf (lineOf addr) = lineOf addr := by
  unfold lineOf
  rw [BitVec.and_assoc, BitVec.and_self]

/-- The addresses of cache lines. -/
abbrev LineAddr := { addr : Paddr // lineOf addr = addr }

/-! ### Requests -/

/-- `Mreq`: what travels between processors, caches, bus and memory. -/
structure Mreq where
  msg : Message
  addr : Paddr
  srcMid : ModuleID
  destMid : ModuleID
  /-- The constructor masks the address. -/
  aligned : lineOf addr = addr
  deriving DecidableEq

/-- The constructor `Mreq::Mreq`. -/
def Mreq.new (msg : Message) (addr : Paddr) (srcMid destMid : ModuleID := .invalid) : Mreq where
  msg := msg
  addr := lineOf addr
  srcMid := srcMid
  destMid := destMid
  aligned := lineOf_lineOf addr

@[ext] theorem Mreq.ext' {m m' : Mreq} (hmsg : m.msg = m'.msg) (haddr : m.addr = m'.addr)
    (hsrc : m.srcMid = m'.srcMid) (hdest : m.destMid = m'.destMid) : m = m' := by
  cases m; cases m'
  simp_all

/-! ### Failures -/

/-- How a run of the simulator can abort. -/
inductive Fault
  /-- `assert (text)` failed. -/
  | assertion (text : String)
  /-- `fatal_error (text)` was called. -/
  | fatalError (text : String)
  deriving DecidableEq, Repr

/-! ### The history variable -/

/-- What the history variable records, in the order in which it happens. -/
inductive Event
  /-- `Bus::tick` makes `m` the `current_request`. -/
  | granted (clock : ℕ) (m : Mreq)
  /-- `m` is passed to `Bus::bus_request`. -/
  | requested (clock : ℕ) (m : Mreq)
  /-- Cache `mid` takes the operation `m` of its processor. -/
  | accepted (mid : ModuleID) (m : Mreq)
  /-- Cache `mid` handles the bus message `m`. -/
  | snooped (mid : ModuleID) (m : Mreq)
  /-- Cache `mid` completes its processor's operation with `m`
  (`send_DATA_to_proc`). -/
  | answered (mid : ModuleID) (m : Mreq)
  deriving DecidableEq

end ProjectArchive.Coherence
