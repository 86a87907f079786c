/-
ProjectArchive/Coherence/Stage.lean

Where the operation of a processor is.

A processor has at most one operation under way, and a token for it travels
through five places:

    idle  --fetch-->  fetched  --hit-->  replied  --tock-->  delivered  --tick-->  idle
                         |                  ^
                         +----miss--> waiting

`Stage` names the place; its functions say what the registers of the node, the
transient states of its cache and the bus queue look like there.  `NodeOk`
states that they do look like that, together with the ledger that the
operations taken by the cache so far are, in order, a prefix of the trace.
-/
import ProjectArchive.Coherence.Refinement

namespace ProjectArchive.Coherence

open SnoopLine Exec

variable {P : Protocol} {T : Table P.State} {n : ℕ}

/-! ### Operations of a trace -/

/-- The operation of a trace line. -/
def TraceLine.access (l : TraceLine) : Access := if l.1 = 'r' then .read else .write

/-- The line a trace line is about. -/
def TraceLine.line (l : TraceLine) : LineAddr := ⟨lineOf l.2, lineOf_lineOf l.2⟩

/-- The operation `op` on the line at `addr`, as processor `i` passes it to its cache. -/
def opMreq (i : ℕ) (op : Access) (addr : LineAddr) : Mreq := .new (opMessage op) addr (.PR i)

/-- The message processor `i` makes of a trace line. -/
def TraceLine.mreq (i : ℕ) (l : TraceLine) : Mreq :=
  opMreq i (TraceLine.access l) (TraceLine.line l)

@[simp] theorem opMreq_msg (i : ℕ) (op : Access) (addr : LineAddr) :
    (opMreq i op addr).msg = opMessage op := rfl

@[simp] theorem opMreq_addr (i : ℕ) (op : Access) (addr : LineAddr) :
    (opMreq i op addr).addr = addr := addr.2

theorem traceMessage_access {l : TraceLine} (h : l.1 = 'r' ∨ l.1 = 'w') :
    traceMessage l.1 = .ok (opMessage (TraceLine.access l)) := by
  rcases h with h | h <;> simp [TraceLine.access, h, traceMessage, opMessage]

theorem TraceLine.mreq_eq (i : ℕ) (l : TraceLine) :
    Mreq.new (opMessage (TraceLine.access l)) l.2 (.PR i) = TraceLine.mreq i l := by
  apply Mreq.ext'
  · rfl
  · exact (lineOf_lineOf l.2).symm
  · rfl
  · rfl

/-! ### Stages -/

/-- The place of a processor's operation. -/
inductive Stage
  | idle
  | fetched (op : Access) (addr : LineAddr)
  | waiting (op q : Access) (addr : LineAddr)
  | replied (addr : LineAddr)
  | delivered (addr : LineAddr)

/-- `proc_request` of the cache. -/
def Stage.proc (i : ℕ) : Stage → Option Mreq
  | .fetched op addr => some (opMreq i op addr)
  | _ => none

/-- `outstanding_request` of the processor. -/
def Stage.outstanding : Stage → Bool
  | .idle => false
  | _ => true

/-- `inbound_request_buf` of the processor. -/
def Stage.buf (i : ℕ) : Stage → Option Mreq
  | .replied addr => some (answerMreq (.L1 i) addr)
  | _ => none

/-- `inbound_request` of the processor. -/
def Stage.inbound (i : ℕ) : Stage → Option Mreq
  | .delivered addr => some (answerMreq (.L1 i) addr)
  | _ => none

/-- What the line at an address waits for. -/
def Stage.waitsAt : Stage → Paddr → Option Access
  | .waiting _ q addr, a => if a = addr then some q else none
  | _, _ => none

/-- The requests of the cache on the bus. -/
def Stage.queue (i : ℕ) : Stage → List Mreq
  | .waiting _ q addr => [busMreq (.L1 i) q addr]
  | _ => []

/-- The lines of the operations taken but not answered. -/
def Stage.unanswered : Stage → List Paddr
  | .waiting _ _ addr => [addr]
  | _ => []

/-- The line of the answer on its way to the processor. -/
def Stage.carried : Stage → Option LineAddr
  | .replied addr | .delivered addr => some addr
  | _ => none

/-- Node `i` is at `stage`, where `queue` are the requests on the bus. -/
structure NodeOk (T : Table P.State) (i : ℕ) (trace : Trace) (nd : Node P) (log : List Event)
    (queue : List Mreq) (stage : Stage) : Prop where
  proc : nd.cache.procRequest = stage.proc i
  outstanding : nd.processor.outstandingRequest = stage.outstanding
  buf : nd.processor.inboundRequestBuf = stage.buf i
  inbound : nd.processor.inboundRequest = stage.inbound i
  waits : ∀ a, T.waits (nd.line a) = stage.waitsAt a
  queued : queue.filter (fun m => m.srcMid = .L1 i) = stage.queue i
  op : ∀ {op q addr}, stage = .waiting op q addr →
    (versions log).op (.L1 i) = opMessage op ∧ (op = .write → q = .write)
  operations : ∀ l ∈ nd.processor.infile, l.1 = 'r' ∨ l.1 = 'w'
  ended : nd.processor.endOfTrace → nd.processor.infile = []
  ledger : trace.lines.map (TraceLine.mreq i) =
    accepts (.L1 i) log ++ (stage.proc i).toList ++ nd.processor.infile.map (TraceLine.mreq i)
  answered : (accepts (.L1 i) log).map Mreq.addr =
    (answers (.L1 i) log).map Mreq.addr ++ stage.unanswered
  carried : ∀ {addr}, stage.carried = some addr →
    (answers (.L1 i) log).getLast? = some (answerMreq (.L1 i) addr)

/-! ### What is left to do -/

/-- A bound on the cycles the operations of a node still need, as far as its
own registers show. -/
def Node.rank (nd : Node P) : ℕ :=
  (hitTime + 6) * nd.processor.infile.length + (if nd.processor.endOfTrace then 0 else 1) +
    (if nd.cache.procRequest.isSome then hitTime + 5 else 0) +
    (if nd.processor.inboundRequestBuf.isSome then 1 else 0) +
    (if nd.processor.inboundRequest.isSome then 1 else 0)

/-- `Processor::tick` has nothing to do. -/
def Node.Settled (nd : Node P) : Prop :=
  nd.processor.inboundRequest = none ∧
    (nd.processor.endOfTrace = true ∨ nd.processor.outstandingRequest = true)

section Node

variable {i : ℕ} {trace : Trace} {nd : Node P} {log log' : List Event} {queue queue' : List Mreq}
  {stage : Stage}

/-- A node does not notice what happens elsewhere. -/
theorem NodeOk.frame (h : NodeOk T i trace nd log queue stage)
    (hop : (versions log').op (.L1 i) = (versions log).op (.L1 i))
    (haccepts : accepts (.L1 i) log' = accepts (.L1 i) log)
    (hanswers : answers (.L1 i) log' = answers (.L1 i) log)
    (hqueue : queue'.filter (fun m => m.srcMid = .L1 i) =
      queue.filter (fun m => m.srcMid = .L1 i)) :
    NodeOk T i trace nd log' queue' stage :=
  { h with
    queued := hqueue.trans h.queued
    op := fun e => hop ▸ h.op e
    ledger := haccepts ▸ h.ledger
    answered := haccepts ▸ hanswers ▸ h.answered
    carried := fun e => hanswers ▸ h.carried e }

/-! ### The ticks of the processor -/

/-- The processor of an idle node fetches its next operation, or ends. -/
theorem NodeOk.fetch (h : NodeOk T i trace nd log queue .idle) :
    ∃ nd' stage', nd.fetch (.PR i) = .ok nd' ∧ NodeOk T i trace nd' log queue stage' ∧
      nd'.cache.myEntries = nd.cache.myEntries ∧ nd'.rank ≤ nd.rank ∧
      (nd.processor.endOfTrace = false → nd'.rank < nd.rank) := by
  have hout : nd.processor.outstandingRequest = false := h.outstanding
  rcases heof : nd.processor.endOfTrace with - | -
  · rcases hin : nd.processor.infile with - | ⟨l, rest⟩
    · refine ⟨{ nd with processor := { nd.processor with endOfTrace := true } }, .idle, ?_, ?_,
        rfl, ?_, ?_⟩
      · simp [Node.fetch, heof, hout, hin]
      · exact ⟨h.proc, h.outstanding, h.buf, h.inbound, h.waits, h.queued, h.op, h.operations,
          fun _ => hin, h.ledger, h.answered, h.carried⟩
      · simp [Node.rank, heof]
      · simp [Node.rank, heof]
    · have hl : l.1 = 'r' ∨ l.1 = 'w' := h.operations l (by simp [hin])
      have hnone : nd.cache.procRequest = none := h.proc
      refine ⟨{ cache := { nd.cache with procRequest := some (TraceLine.mreq i l) }
                processor := { nd.processor with infile := rest, outstandingRequest := true } },
        .fetched (TraceLine.access l) (TraceLine.line l), ?_, ?_, rfl, ?_, ?_⟩
      · obtain ⟨c, addr⟩ := l
        simp only [Node.fetch, heof, hout, Bool.or_self, Bool.false_eq_true, if_false, hin]
        rw [traceMessage_access hl, ok_bind, TraceLine.mreq_eq]
        rfl
      · refine ⟨rfl, rfl, h.buf, h.inbound, h.waits, h.queued, (fun e => by cases e), ?_, ?_, ?_,
          h.answered, fun e => by cases e⟩
        · intro l' hl'
          exact h.operations l' (by simp only [hin, List.mem_cons]; exact Or.inr hl')
        · intro e
          rw [heof] at e; cases e
        · rw [h.ledger, hin]
          simp [Stage.proc, TraceLine.mreq]
      · simp [Node.rank, hin, hnone, heof, Nat.mul_add]
        omega
      · simp [Node.rank, hin, hnone, heof, Nat.mul_add]
        omega
  · refine ⟨nd, .idle, ?_, h, rfl, le_rfl, fun e => by cases e⟩
    simp [Node.fetch, heof]

/-- `Processor::tick` never fails, and does something unless the node is settled. -/
theorem NodeOk.tickPr (h : NodeOk T i trace nd log queue stage) :
    ∃ nd' stage', nd.tickPr (.PR i) = .ok nd' ∧ NodeOk T i trace nd' log queue stage' ∧
      nd'.cache.myEntries = nd.cache.myEntries ∧ nd'.rank ≤ nd.rank ∧
      (¬ nd.Settled → nd'.rank < nd.rank) := by
  -- a node with an operation under way stays as it is
  have stay : nd.processor.inboundRequest = none → nd.processor.outstandingRequest = true →
      ∃ nd' stage', nd.tickPr (.PR i) = .ok nd' ∧ NodeOk T i trace nd' log queue stage' ∧
        nd'.cache.myEntries = nd.cache.myEntries ∧ nd'.rank ≤ nd.rank ∧
        (¬ nd.Settled → nd'.rank < nd.rank) := by
    intro hin hout
    refine ⟨nd, stage, ?_, h, rfl, le_rfl, fun e => absurd ⟨hin, Or.inr hout⟩ e⟩
    simp [Node.tickPr, hin, Node.fetch, hout]
  cases stage with
  | idle =>
      have hin : nd.processor.inboundRequest = none := h.inbound
      have hout : nd.processor.outstandingRequest = false := h.outstanding
      obtain ⟨nd', stage', he, hok, hentries, hle, hlt⟩ := h.fetch
      refine ⟨nd', stage', ?_, hok, hentries, hle, ?_⟩
      · simpa [Node.tickPr, hin] using he
      · intro hs
        apply hlt
        by_contra heof
        exact hs ⟨hin, Or.inl (by simpa using heof)⟩
  | fetched op addr => exact stay h.inbound h.outstanding
  | waiting op q addr => exact stay h.inbound h.outstanding
  | replied addr => exact stay h.inbound h.outstanding
  | delivered addr =>
      have hin : nd.processor.inboundRequest = some (answerMreq (.L1 i) addr) := h.inbound
      -- taking the data makes the node idle
      have hidle : NodeOk T i trace { nd with processor :=
          { nd.processor with outstandingRequest := false, inboundRequest := none } } log queue
          .idle :=
        ⟨h.proc, rfl, h.buf, rfl, h.waits, h.queued, (fun e => by cases e), h.operations, h.ended,
          h.ledger, h.answered, fun e => by cases e⟩
      obtain ⟨nd', stage', he, hok, hentries, hle, -⟩ := hidle.fetch
      have hlt : nd'.rank < nd.rank := by
        refine Nat.lt_of_le_of_lt hle ?_
        simp [Node.rank, hin]
      exact ⟨nd', stage', by simpa [Node.tickPr, hin] using he, hok, hentries,
        Nat.le_of_lt hlt, fun _ => hlt⟩

/-- `Processor::tock` moves the data one place on. -/
theorem NodeOk.tockPr (h : NodeOk T i trace nd log queue stage) :
    ∃ stage', NodeOk T i trace nd.tockPr log queue stage' ∧
      nd.tockPr.cache.myEntries = nd.cache.myEntries ∧ nd.tockPr.rank ≤ nd.rank ∧
      nd.tockPr.processor.inboundRequestBuf = none := by
  have stay : nd.processor.inboundRequestBuf = none →
      ∃ stage', NodeOk T i trace nd.tockPr log queue stage' ∧
        nd.tockPr.cache.myEntries = nd.cache.myEntries ∧ nd.tockPr.rank ≤ nd.rank ∧
        nd.tockPr.processor.inboundRequestBuf = none := by
    intro hbuf
    have : nd.tockPr = nd := by simp [Node.tockPr, hbuf]
    rw [this]
    exact ⟨stage, h, rfl, le_rfl, hbuf⟩
  cases stage with
  | idle => exact stay h.buf
  | fetched op addr => exact stay h.buf
  | waiting op q addr => exact stay h.buf
  | delivered addr => exact stay h.buf
  | replied addr =>
      have hbuf : nd.processor.inboundRequestBuf = some (answerMreq (.L1 i) addr) := h.buf
      have hin : nd.processor.inboundRequest = none := h.inbound
      have heq : nd.tockPr = { nd with processor := { nd.processor with
          inboundRequest := some (answerMreq (.L1 i) addr), inboundRequestBuf := none } } := by
        simp [Node.tockPr, hbuf]
      rw [heq]
      refine ⟨.delivered addr, ?_, rfl, ?_, rfl⟩
      · exact ⟨h.proc, h.outstanding, rfl, rfl, h.waits, h.queued, (fun e => by cases e),
          h.operations, h.ended, h.ledger, h.answered, h.carried⟩
      · simp [Node.rank, hbuf, hin]

end Node

end ProjectArchive.Coherence
