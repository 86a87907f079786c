/-
ProjectArchive/Library/SnoopLine.lean

One line of memory shared by caches that snoop an atomic bus, as an abstract
transition system.

The agents `ι` are the caches; a `Table` says how the state of the line at one
cache reacts to its own processor, to a bus request it observes and to the
data it waited for.  A bus transaction is open from the grant of a request to
the delivery of its data, and its three moments are the constructors of
`Phase`:

    idle  --grant-->  asked  --send-->  told  --fill-->  idle

While the line is `asked`, the caches observe the request one after the other
(`seen`), at most one of them supplies the data, and memory supplies them when
nobody has (`lookup`).

Data are versions: `latest` counts the stores completed so far, `held i` is
the version cache `i` works on, `mem` the version in memory.  `copy i` says
that cache `i` has received data and has not observed a write request since.

`Table.Lawful` collects what a protocol has to satisfy; the invariants that
follow from it are in `SnoopInvariants`.
-/
import Mathlib.Data.Fintype.Basic
import Mathlib.Logic.Function.Basic
import Mathlib.Tactic.Common
import Mathlib.Tactic.MkIffOfInductiveProp

namespace SnoopLine

/-! ### Protocol tables -/

/-- What a processor does to a line, and what a cache asks the bus for. -/
inductive Access
  | read | write
  deriving DecidableEq, Repr

instance : Fintype Access := .ofList [.read, .write] fun q => by cases q <;> decide

/-- How the state of a line at one cache evolves, with a classification of the
states. -/
structure Table (σ : Type*) where
  /-- The state of a line nobody has touched. -/
  init : σ
  /-- The states a run can visit. -/
  proper : σ → Bool
  /-- What a transient state waits for; `none` for a stable state. -/
  waits : σ → Option Access
  /-- The cache holds the latest version. -/
  holds : σ → Bool
  /-- The cache may complete a store on its own. -/
  exclusive : σ → Bool
  /-- The cache answers bus requests. -/
  supplies : σ → Bool
  /-- Reads that find the shared line low are filled exclusively. -/
  exclusiveFill : Bool
  /-- The processor's access: the next state, and the bus request if the
  access cannot be served at once. -/
  request : σ → Access → σ × Option Access
  /-- The access is an upgrade that needs no bus request. -/
  silent : σ → Access → Bool
  /-- The next state after observing a bus request. -/
  observe : σ → Access → σ
  /-- Observing this request raises the shared line. -/
  asserts : σ → Access → Bool
  /-- The next state when the data arrive, given the shared line. -/
  fill : σ → Bool → σ

/-- The laws of a protocol table. -/
@[mk_iff]
structure Table.Lawful {σ : Type*} (T : Table σ) : Prop where
  init_proper : T.proper T.init
  init_waits : T.waits T.init = none
  init_holds : T.holds T.init = false
  holds_of_exclusive : ∀ {s}, T.exclusive s → T.holds s
  holds_of_supplies : ∀ {s}, T.supplies s → T.holds s
  -- the processor's accesses
  request_proper : ∀ {s op}, T.proper s → T.waits s = none → T.proper (T.request s op).1
  hit_waits : ∀ {s op}, T.proper s → T.waits s = none → (T.request s op).2 = none →
    T.waits (T.request s op).1 = none
  hit_holds : ∀ {s op}, T.proper s → T.waits s = none → (T.request s op).2 = none → T.holds s
  hit_read : ∀ {s}, T.proper s → T.waits s = none → (T.request s .read).2 = none →
    (T.request s .read).1 = s
  hit_write : ∀ {s}, T.proper s → T.waits s = none → (T.request s .write).2 = none →
    T.exclusive s ∧ T.exclusive (T.request s .write).1 ∧ T.supplies (T.request s .write).1
  miss_waits : ∀ {s op q}, T.proper s → T.waits s = none → (T.request s op).2 = some q →
    T.waits (T.request s op).1 = some q
  miss_write : ∀ {s q}, T.proper s → T.waits s = none → (T.request s .write).2 = some q →
    q = .write
  miss_exclusive : ∀ {s op q}, T.proper s → T.waits s = none → (T.request s op).2 = some q →
    T.exclusive s = false ∧ T.exclusive (T.request s op).1 = false
  miss_holds : ∀ {s op q}, T.proper s → T.waits s = none → (T.request s op).2 = some q →
    T.holds (T.request s op).1 → T.holds s
  miss_supplies : ∀ {s op q}, T.proper s → T.waits s = none → (T.request s op).2 = some q →
    T.supplies (T.request s op).1 = T.supplies s
  -- observed requests
  observe_proper : ∀ {s q}, T.proper s → T.proper (T.observe s q)
  observe_waits : ∀ {s q}, T.proper s → T.waits (T.observe s q) = T.waits s
  observe_write : ∀ {s}, T.proper s → T.holds (T.observe s .write) = false
  observe_read_exclusive : ∀ {s}, T.proper s → T.exclusive (T.observe s .read) = false
  observe_read_holds : ∀ {s}, T.proper s → T.holds (T.observe s .read) → T.holds s
  observe_read_supplies : ∀ {s}, T.proper s → T.supplies (T.observe s .read) →
    T.supplies s ∨ T.exclusive s
  observe_reader : ∀ {s q}, T.proper s → T.waits s = some .read → T.observe s q = s
  observe_read_asserts : ∀ {s}, T.exclusiveFill → T.proper s → T.holds s → T.asserts s .read
  -- arriving data
  fill_proper : ∀ {s q sh}, T.proper s → T.waits s = some q → T.proper (T.fill s sh)
  fill_waits : ∀ {s q sh}, T.proper s → T.waits s = some q → T.waits (T.fill s sh) = none
  fill_read_supplies : ∀ {s sh}, T.proper s → T.waits s = some .read →
    T.supplies (T.fill s sh) = false
  fill_read_exclusive : ∀ {s sh}, T.proper s → T.waits s = some .read →
    T.exclusive (T.fill s sh) → T.exclusiveFill ∧ sh = false
  fill_write : ∀ {s sh}, T.proper s → T.waits s = some .write →
    T.exclusive (T.fill s sh) ∧ T.supplies (T.fill s sh)

-- the laws are many
set_option synthInstance.maxSize 2000 in
/-- With finitely many states, the laws are checked by going through the table. -/
instance Table.Lawful.decidable {σ : Type*} [Fintype σ] [DecidableEq σ] (T : Table σ) :
    Decidable T.Lawful :=
  decidable_of_iff _ T.lawful_iff.symm

/-! ### The line and its bus transaction -/

/-- Where the bus transaction on the line stands. -/
inductive Phase (ι : Type*)
  /-- No transaction is open. -/
  | idle
  /-- The request `q` of cache `k` is granted.  The caches in `seen` have
  observed it, `reply` is the version supplied so far and `had` records whether
  another cache had a copy when the request was granted. -/
  | asked (k : ι) (q : Access) (seen : ι → Prop) (reply : Option ℕ) (shared : Bool) (had : Prop)
  /-- The data, of version `v`, are on the bus; cache `k` has not taken them yet. -/
  | told (k : ι) (q : Access) (v : ℕ) (shared : Bool) (had : Prop)

/-- The line, over all caches and memory. -/
@[ext] structure Line (σ ι : Type*) where
  st : ι → σ
  held : ι → ℕ
  copy : ι → Prop
  latest : ℕ
  mem : ℕ
  phase : Phase ι

variable {σ ι : Type*}

/-- The line nobody has touched. -/
def Line.init (T : Table σ) : Line σ ι where
  st := fun _ => T.init
  held := fun _ => 0
  copy := fun _ => False
  latest := 0
  mem := 0
  phase := .idle

variable [DecidableEq ι]

/-- A completed access at cache `i`: a store makes a new version on top of the
one the cache holds. -/
def Line.complete (L : Line σ ι) (i : ι) : Access → Line σ ι
  | .read => L
  | .write => { L with held := Function.update L.held i (L.held i + 1), latest := L.latest + 1 }

/-- The state of the line at cache `i` becomes `s`. -/
def Line.setSt (L : Line σ ι) (i : ι) (s : σ) : Line σ ι :=
  { L with st := Function.update L.st i s }

/-- Cache `i` serves an access of its processor at once. -/
def Line.hit (T : Table σ) (L : Line σ ι) (i : ι) (op : Access) : Line σ ι :=
  (L.setSt i (T.request (L.st i) op).1).complete i op

/-- Cache `i` has to ask the bus for an access of its processor. -/
def Line.miss (T : Table σ) (L : Line σ ι) (i : ι) (op : Access) : Line σ ι :=
  L.setSt i (T.request (L.st i) op).1

/-- The bus grants the request `q` of cache `k`. -/
def Line.grant (L : Line σ ι) (k : ι) (q : Access) : Line σ ι :=
  { L with phase := .asked k q (fun _ => False) none false (∃ j, j ≠ k ∧ L.copy j) }

/-- Cache `i` observes the open request. -/
def Line.observe (T : Table σ) (L : Line σ ι) (i : ι) : Line σ ι :=
  match L.phase with
  | .asked k q seen reply shared had =>
      { L with
        st := Function.update L.st i (T.observe (L.st i) q)
        copy := if q = .write then Function.update L.copy i False else L.copy
        phase := .asked k q (fun j => seen j ∨ j = i)
          (if T.supplies (L.st i) then some (L.held i) else reply)
          (shared || T.asserts (L.st i) q) had }
  | _ => L

/-- Memory supplies the data of the open request. -/
def Line.lookup (L : Line σ ι) : Line σ ι :=
  match L.phase with
  | .asked k q seen _ shared had =>
      { L with phase := .asked k q seen (some L.mem) shared had }
  | _ => L

/-- The data of the open request appear on the bus, and memory takes them. -/
def Line.send (L : Line σ ι) : Line σ ι :=
  match L.phase with
  | .asked k q _ (some v) shared had => { L with mem := v, phase := .told k q v shared had }
  | _ => L

/-- The requester takes the data and completes the access `op` it waited for. -/
def Line.fill (T : Table σ) (L : Line σ ι) (op : Access) : Line σ ι :=
  match L.phase with
  | .told k _ v shared _ =>
      Line.complete
        { L with
          st := Function.update L.st k (T.fill (L.st k) shared)
          held := Function.update L.held k v
          copy := Function.update L.copy k True
          phase := .idle } k op
  | _ => L

section Phases

variable {L : Line σ ι} {k : ι} {q : Access} {seen : ι → Prop} {reply : Option ℕ} {v : ℕ}
  {shared : Bool} {had : Prop}

theorem Line.observe_asked (T : Table σ) (i : ι)
    (h : L.phase = .asked k q seen reply shared had) :
    L.observe T i = { L with
      st := Function.update L.st i (T.observe (L.st i) q)
      copy := if q = .write then Function.update L.copy i False else L.copy
      phase := .asked k q (fun j => seen j ∨ j = i)
        (if T.supplies (L.st i) then some (L.held i) else reply)
        (shared || T.asserts (L.st i) q) had } := by
  simp [Line.observe, h]

omit [DecidableEq ι] in
theorem Line.lookup_asked (h : L.phase = .asked k q seen none shared had) :
    L.lookup = { L with phase := .asked k q seen (some L.mem) shared had } := by
  simp [Line.lookup, h]

omit [DecidableEq ι] in
theorem Line.send_asked (h : L.phase = .asked k q seen (some v) shared had) :
    L.send = { L with mem := v, phase := .told k q v shared had } := by
  simp [Line.send, h]

theorem Line.fill_told (T : Table σ) (op : Access) (h : L.phase = .told k q v shared had) :
    L.fill T op = Line.complete { L with
      st := Function.update L.st k (T.fill (L.st k) shared)
      held := Function.update L.held k v
      copy := Function.update L.copy k True
      phase := .idle } k op := by
  simp [Line.fill, h]

end Phases

/-! ### Steps and runs -/

/-- One step of the line. -/
inductive Step (T : Table σ) : Line σ ι → Line σ ι → Prop
  | hit {L : Line σ ι} (i : ι) (op : Access) : T.waits (L.st i) = none →
      (T.request (L.st i) op).2 = none → Step T L (L.hit T i op)
  | miss {L : Line σ ι} {q : Access} (i : ι) (op : Access) : T.waits (L.st i) = none →
      (T.request (L.st i) op).2 = some q → Step T L (L.miss T i op)
  | grant {L : Line σ ι} (k : ι) (q : Access) : L.phase = .idle →
      T.waits (L.st k) = some q → Step T L (L.grant k q)
  | observe {L : Line σ ι} {k q seen reply shared had} (i : ι) :
      L.phase = .asked k q seen reply shared had → ¬ seen i → Step T L (L.observe T i)
  | lookup {L : Line σ ι} {k q seen shared had} :
      L.phase = .asked k q seen none shared had → (∀ i, seen i) → Step T L L.lookup
  | send {L : Line σ ι} {k q seen v shared had} :
      L.phase = .asked k q seen (some v) shared had → (∀ i, seen i) → Step T L L.send
  | fill {L : Line σ ι} {k q v shared had} (op : Access) :
      L.phase = .told k q v shared had → (op = .write → q = .write) → Step T L (L.fill T op)

/-- The states of the line a run can reach. -/
inductive Reach (T : Table σ) : Line σ ι → Prop
  | init : Reach T (Line.init T)
  | step {L L' : Line σ ι} : Reach T L → Step T L L' → Reach T L'

end SnoopLine
