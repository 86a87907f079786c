/-
ProjectArchive/Coherence/Statistics.lean

The statistics that `Simulator::run` prints.

The four counters are incremented in different modules and at different times:
an access when the cache takes it, a miss when its request is queued, a
transfer when a cache replies.  `Ledger` relates them, at every moment, to the
grants in the history, the bus queue and the open transaction; when the run is
over the queue is empty and nothing is open, and the books balance.
-/
import ProjectArchive.Coherence.Moves

namespace ProjectArchive.Coherence

open SnoopLine Exec

variable {P : Protocol} {T : Table P.State} {n : ℕ} {traces : Fin n → Trace}

/-! ### What is counted -/

/-- The event is the grant of a `GETS` or a `GETM`. -/
def Event.isGrant : Event → Bool
  | .granted _ m => m.msg = .GETS ∨ m.msg = .GETM
  | _ => false

/-- The event is a `DATA` message sent by the memory controller. -/
def Event.isMemoryReply (n : ℕ) : Event → Bool
  | .requested _ m => m.msg = .DATA ∧ m.srcMid = .MC n
  | _ => false

/-- The requests granted on the bus. -/
def grantCount (log : List Event) : ℕ := log.countP Event.isGrant

/-- The `DATA` messages sent by the memory controller. -/
def memoryReplyCount (n : ℕ) (log : List Event) : ℕ := log.countP (Event.isMemoryReply n)

/-- The open request has not got its reply. -/
def Bus.owed (b : Bus) : ℕ := if b.requestInProgress ∧ b.dataReply = none then 1 else 0

/-- The four counters. -/
structure Counters where
  cacheMisses : ℕ
  cacheAccesses : ℕ
  silentUpgrades : ℕ
  cacheToCacheTransfers : ℕ

/-- The counters among the globals. -/
def Globals.counters (g : Globals) : Counters :=
  ⟨g.cacheMisses, g.cacheAccesses, g.silentUpgrades, g.cacheToCacheTransfers⟩

/-! ### The counters after each outcome -/

@[simp] theorem Globals.raise_counters (g : Globals) (b : Bool) :
    (g.raise b).counters = g.counters := by
  cases b <;> rfl

theorem Simulator.served_counters (T : Table P.State) (s : Simulator P n) (i : Fin n) (m : Mreq)
    (op : Access) : (s.served T i m op).globals.counters =
    { s.globals.counters with
      cacheAccesses := s.globals.cacheAccesses + 1
      silentUpgrades :=
        s.globals.silentUpgrades + if T.silent (s.states m.addr i) op then 1 else 0 } := by
  simp only [Simulator.served, Ctx.served]
  split <;> rfl

theorem Simulator.queued_counters (T : Table P.State) (s : Simulator P n) (i : Fin n) (m : Mreq)
    (op q : Access) : (s.queued T i m op q).globals.counters =
    { s.globals.counters with
      cacheAccesses := s.globals.cacheAccesses + 1
      cacheMisses := s.globals.cacheMisses + 1 } := rfl

theorem Simulator.observed_counters (T : Table P.State) (s : Simulator P n) (i : Fin n) (m : Mreq)
    (q : Access) : (s.observed T i m q).globals.counters =
    { s.globals.counters with
      cacheToCacheTransfers := s.globals.cacheToCacheTransfers +
        if T.supplies (s.states m.addr i) then 1 else 0 } := by
  show (Globals.raise _ _).counters = _
  rw [Globals.raise_counters]
  rcases e : T.supplies (s.states m.addr i) with - | - <;> simp [Simulator.snoopCtx, e] <;> rfl

/-! ### The ledger -/

/-- How the counters relate to the history and the bus. -/
structure Ledger (T : Table P.State) (s : Simulator P n) : Prop where
  accesses : s.globals.cacheAccesses = ∑ i : Fin n, (accepts (.L1 i) s.globals.log).length
  misses : s.globals.cacheMisses =
    grantCount s.globals.log + s.globals.bus.pendingRequests.length
  replies : s.globals.cacheToCacheTransfers + memoryReplyCount n s.globals.log +
    s.globals.bus.owed = grantCount s.globals.log
  upgrades : s.globals.silentUpgrades + s.globals.cacheMisses ≤ s.globals.cacheAccesses
  silent : (∀ x op, T.silent x op = false) → s.globals.silentUpgrades = 0

section Events

variable {log : List Event} {i : Fin n} {m : Mreq}

/-- Taking an operation makes one list of operations longer by one. -/
theorem sum_accepts_accepted :
    ∑ j : Fin n, (accepts (.L1 j) (.accepted (.L1 i) m :: log)).length =
      ∑ j : Fin n, (accepts (.L1 j) log).length + 1 := by
  have hone : ∑ j : Fin n, (if j = i then 1 else 0) = 1 := by simp
  rw [← hone, ← Finset.sum_add_distrib]
  apply Finset.sum_congr rfl
  intro j _
  rcases eq_or_ne j i with rfl | hj
  · simp [accepts]
  · simp [accepts, hj, Fin.val_inj, hj.symm]

@[simp] theorem grantCount_nil : grantCount [] = 0 := rfl

@[simp] theorem grantCount_accepted {mid : ModuleID} :
    grantCount (.accepted mid m :: log) = grantCount log := rfl

@[simp] theorem grantCount_answered {mid : ModuleID} :
    grantCount (.answered mid m :: log) = grantCount log := rfl

@[simp] theorem grantCount_snooped {mid : ModuleID} :
    grantCount (.snooped mid m :: log) = grantCount log := rfl

@[simp] theorem grantCount_requested {t : ℕ} :
    grantCount (.requested t m :: log) = grantCount log := rfl

theorem grantCount_request {t : ℕ} {mid : ModuleID} {q : Access} {a : Paddr} :
    grantCount (.granted t (busMreq mid q a) :: log) = grantCount log + 1 := by
  cases q <;> simp [grantCount, Event.isGrant, busMessage]

theorem grantCount_data {t : ℕ} (hm : m.msg = .DATA) :
    grantCount (.granted t m :: log) = grantCount log := by
  simp [grantCount, Event.isGrant, hm]

@[simp] theorem memoryReplyCount_accepted {mid : ModuleID} :
    memoryReplyCount n (.accepted mid m :: log) = memoryReplyCount n log := rfl

@[simp] theorem memoryReplyCount_answered {mid : ModuleID} :
    memoryReplyCount n (.answered mid m :: log) = memoryReplyCount n log := rfl

@[simp] theorem memoryReplyCount_snooped {mid : ModuleID} :
    memoryReplyCount n (.snooped mid m :: log) = memoryReplyCount n log := rfl

@[simp] theorem memoryReplyCount_granted {t : ℕ} :
    memoryReplyCount n (.granted t m :: log) = memoryReplyCount n log := rfl

@[simp] theorem memoryReplyCount_busMreq {t : ℕ} {mid : ModuleID} {q : Access} {a : Paddr} :
    memoryReplyCount n (.requested t (busMreq mid q a) :: log) = memoryReplyCount n log := by
  simp [memoryReplyCount, Event.isMemoryReply]

@[simp] theorem memoryReplyCount_cache {t : ℕ} {j : ℕ} {a : Paddr} {dest : ModuleID} :
    memoryReplyCount n (.requested t (dataMreq (.L1 j) a dest) :: log) =
      memoryReplyCount n log := by
  simp [memoryReplyCount, Event.isMemoryReply]

@[simp] theorem memoryReplyCount_memory {t : ℕ} {a : Paddr} {dest : ModuleID} :
    memoryReplyCount n (.requested t (dataMreq (.MC n) a dest) :: log) =
      memoryReplyCount n log + 1 := by
  simp [memoryReplyCount, Event.isMemoryReply]

end Events

section Ledger

variable {s : Simulator P n} {i k : Fin n} {m : Mreq} {op q : Access} {a : LineAddr}
  {rest : List Mreq}

theorem Ledger.new (P : Protocol) (T : Table P.State) (traces : Fin n → Trace) :
    Ledger T (.new P traces) where
  accesses := by simp [Simulator.new, Globals.new, accepts]
  misses := rfl
  replies := rfl
  upgrades := le_rfl
  silent _ := rfl

theorem Ledger.served (h : Ledger T s) : Ledger T (s.served T i m op) := by
  have hc := Simulator.served_counters T s i m op
  simp only [Globals.counters, Counters.mk.injEq] at hc
  obtain ⟨hmisses, haccesses, hsilent, htransfers⟩ := hc
  refine ⟨?_, ?_, ?_, ?_, ?_⟩
  · rw [haccesses, Simulator.served_log, h.accesses]
    exact sum_accepts_accepted.symm
  · rw [hmisses, Simulator.served_log, Simulator.served_bus]
    exact h.misses
  · rw [htransfers, Simulator.served_log, Simulator.served_bus]
    exact h.replies
  · have := h.upgrades
    rw [hmisses, haccesses, hsilent]
    split <;> omega
  · intro hT
    rw [hsilent, hT, h.silent hT]
    rfl

theorem Ledger.queued (h : Ledger T s) : Ledger T (s.queued T i m op q) := by
  have hc := Simulator.queued_counters T s i m op q
  simp only [Globals.counters, Counters.mk.injEq] at hc
  obtain ⟨hmisses, haccesses, hsilent, htransfers⟩ := hc
  refine ⟨?_, ?_, ?_, ?_, ?_⟩
  · rw [haccesses, Simulator.queued_log, h.accesses]
    exact sum_accepts_accepted.symm
  · rw [hmisses, Simulator.queued_log, Simulator.queued_bus, h.misses]
    simp
    omega
  · rw [htransfers, Simulator.queued_log, Simulator.queued_bus]
    simpa [Bus.owed] using h.replies
  · have := h.upgrades
    rw [hmisses, haccesses, hsilent]
    omega
  · intro hT
    rw [hsilent]
    exact h.silent hT

/-- A reply of a cache settles what the open request is owed. -/
theorem Ledger.observed (h : Ledger T s) (hprog : s.globals.bus.requestInProgress = true)
    (hreply : T.supplies (s.states m.addr i) → s.globals.bus.dataReply = none) :
    Ledger T (s.observed T i m q) := by
  have hc := Simulator.observed_counters T s i m q
  simp only [Globals.counters, Counters.mk.injEq] at hc
  obtain ⟨hmisses, haccesses, hsilent, htransfers⟩ := hc
  have hr := h.replies
  refine ⟨?_, ?_, ?_, ?_, ?_⟩
  · rw [haccesses, Simulator.observed_log, h.accesses, observedEvents]
    split <;> rfl
  · rw [hmisses, Simulator.observed_log, Simulator.observed_bus, h.misses, observedEvents]
    split <;> rfl
  · rw [htransfers, Simulator.observed_log, Simulator.observed_bus, observedEvents]
    rcases e : T.supplies (s.states m.addr i) with - | -
    · simpa [Bus.owed] using hr
    · simp [Bus.owed, hprog, hreply e] at hr ⊢
      omega
  · rw [hmisses, haccesses, hsilent]
    exact h.upgrades
  · rw [hsilent]
    exact h.silent

theorem Ledger.filled (h : Ledger T s) : Ledger T (s.filled T i m) :=
  ⟨h.accesses, h.misses, h.replies, h.upgrades, h.silent⟩

/-- A grant moves a request from the queue to the history, and opens it. -/
theorem Ledger.grantRequest (h : Ledger T s) (hprog : s.globals.bus.requestInProgress = false)
    (hd : s.globals.bus.dataReply = none)
    (hq : s.globals.bus.pendingRequests = busMreq (.L1 k) q a :: rest) :
    Ledger T (s.withGlobals (s.globals.grantRequest (busMreq (.L1 k) q a) rest)) := by
  have hm := h.misses
  have hr := h.replies
  have hlog : (s.globals.grantRequest (busMreq (.L1 k) q a) rest).log =
    .granted s.globals.globalClock (busMreq (.L1 k) q a) :: s.globals.log := rfl
  refine ⟨h.accesses, ?_, ?_, h.upgrades, h.silent⟩
  · show s.globals.cacheMisses = grantCount (_ :: s.globals.log) + rest.length
    rw [hq, List.length_cons] at hm
    rw [grantCount_request]
    omega
  · show s.globals.cacheToCacheTransfers + memoryReplyCount n s.globals.log + _ =
      grantCount (_ :: s.globals.log)
    simp [Bus.owed, hprog] at hr
    rw [grantCount_request]
    simp [Bus.owed, Simulator.withGlobals, Globals.grantRequest, Globals.record, hd]
    omega

theorem Ledger.grantData (h : Ledger T s) (hm : m.msg = .DATA)
    (hd : s.globals.bus.dataReply = some m) :
    Ledger T (s.withGlobals (s.globals.grantData m)) := by
  have hr := h.replies
  refine ⟨h.accesses, ?_, ?_, h.upgrades, h.silent⟩
  · show s.globals.cacheMisses = grantCount (_ :: s.globals.log) + _
    rw [grantCount_data hm]
    exact h.misses
  · show s.globals.cacheToCacheTransfers + memoryReplyCount n s.globals.log + _ =
      grantCount (_ :: s.globals.log)
    rw [grantCount_data hm]
    simpa [Bus.owed, hd, Simulator.withGlobals, Globals.grantData, Globals.record] using hr

/-- The data of the memory controller settle what the open request is owed. -/
theorem Ledger.lookedUp (h : Ledger T s) (hprog : s.globals.bus.requestInProgress = true)
    (hd : s.globals.bus.dataReply = none) : Ledger T s.lookedUp := by
  have hr := h.replies
  refine ⟨h.accesses, h.misses, ?_, h.upgrades, h.silent⟩
  show s.globals.cacheToCacheTransfers + memoryReplyCount n (_ :: s.globals.log) + _ =
    grantCount s.globals.log
  rw [memoryReplyCount_memory]
  simp [Bus.owed, hprog, hd] at hr
  simp [Bus.owed, Simulator.lookedUp, Globals.reply, Globals.record]
  omega

/-- **The books are kept by every move.** -/
theorem Ledger.preserved (T : Table P.State) (traces : Fin n → Trace) :
    Preserves T traces (Ledger T) := by
  intro s s' tx stage _ hmove h
  cases hmove with
  | quiet => exact h
  | served i op a _ _ => exact h.served
  | queued i op q a _ _ => exact h.queued
  | observed i k q a _ hprog hreply =>
      have haddr : (busMreq (.L1 k) q a).addr = a := busMreq_addr _ q a
      exact h.observed hprog (by rwa [haddr])
  | filled k q m _ _ => exact h.filled
  | node i nd _ => exact ⟨h.accesses, h.misses, h.replies, h.upgrades, h.silent⟩
  | grantRequest k q a rest hprog hd hq => exact h.grantRequest hprog hd hq
  | grantData m hm _ hd => exact h.grantData hm hd
  | grantNothing => exact ⟨h.accesses, h.misses, h.replies, h.upgrades, h.silent⟩
  | lookedUp hprog hd => exact h.lookedUp hprog hd
  | controller mc => exact ⟨h.accesses, h.misses, h.replies, h.upgrades, h.silent⟩
  | advance => exact ⟨h.accesses, h.misses, h.replies, h.upgrades, h.silent⟩

end Ledger

/-! ### The end of a run -/

/-- When every processor is done, its cache has taken its whole trace. -/
theorem Good.accepts_eq {s : Simulator P n} {tx : Tx n} {stage : Fin n → Stage}
    (h : Good T traces s tx stage) (hdone : s.done = true) (i : Fin n) :
    accepts (.L1 i) s.globals.log = (traces i).lines.map (TraceLine.mreq i) := by
  have hN := h.inv.nodes i
  have hi : (s.Nd i).processor.done = true := by
    simp only [Simulator.done, decide_eq_true_eq] at hdone
    exact hdone i
  simp only [Processor.done, Bool.and_eq_true] at hi
  have hledger := hN.ledger
  rw [h.idle_of_done hdone i, hN.ended hi.1] at hledger
  simpa [Stage.proc] using hledger.symm

/-- **At the end of a run the statistics agree: accesses with the traces, misses
with the requests granted, and misses with the replies of caches and memory.** -/
theorem statistics_conserved (p : ProtocolKind) {n : ℕ} (traces : Fin n → Trace) :
    ∃ N s, (∀ fuel, N ≤ fuel → (Simulator.new p.protocol traces).run fuel = .ok (some s)) ∧
      s.globals.cacheAccesses = ∑ i, (traces i).lines.length ∧
      s.globals.cacheMisses = grantCount s.globals.log ∧
      s.globals.cacheMisses =
        s.globals.cacheToCacheTransfers + memoryReplyCount n s.globals.log ∧
      (p = .MI_PRO ∨ p = .MSI_PRO ∨ p = .MOSI_PRO → s.globals.silentUpgrades = 0) ∧
      s.globals.silentUpgrades + s.globals.cacheMisses ≤ s.globals.cacheAccesses := by
  obtain ⟨N, s, tx, stage, hrun, hdone, h, hL⟩ := run_ends_with p.implements p.lawful
    (Ledger.preserved p.table traces) (Ledger.new p.protocol p.table traces)
  obtain ⟨hpending, hprog, -⟩ := h.quiet_of_done hdone
  have hmisses : s.globals.cacheMisses = grantCount s.globals.log := by
    rw [hL.misses, hpending]
    rfl
  have hreplies := hL.replies
  have howed : s.globals.bus.owed = 0 := by simp [Bus.owed, hprog]
  refine ⟨N, s, hrun, ?_, hmisses, by omega, ?_, hL.upgrades⟩
  · rw [hL.accesses]
    apply Finset.sum_congr rfl
    intro i _
    rw [h.accepts_eq hdone i, List.length_map]
  · intro hp
    apply hL.silent
    rcases hp with rfl | rfl | rfl <;> exact fun _ _ => rfl

end ProjectArchive.Coherence
