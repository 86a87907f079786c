/-
ProjectArchive/Coherence/Weight.lean

A measure of the work that is left.

Every operation of a trace passes the places fetched, queued, asked, told,
replied, delivered in this order, except that a hit takes a short cut, and the
only place where it stays for more than one cycle without another operation
making progress is the memory lookup, which the clock bounds.  `Node.rank`
weighs what the registers of a node hold, `Tx.weight` the open transaction,
and `Simulator.weight` adds the queue; no outcome of a tick increases it.
-/
import ProjectArchive.Coherence.Transaction
import Mathlib.Algebra.BigOperators.Fin
import Mathlib.Algebra.Order.BigOperators.Group.Finset

namespace ProjectArchive.Coherence

open SnoopLine

variable {P : Protocol} {T : Table P.State} {n : ℕ}

/-! ### The measure -/

/-- The weight of the open transaction.  Between two cycles (`rest = 1`) a
lookup weighs one more than during a cycle (`rest = 0`). -/
def Tx.weight (g : Globals) (mc : MemoryController) (rest : ℕ) : Tx n → ℕ
  | .idle => 0
  | .told .. => 2
  | .asked .. =>
      if g.bus.dataReply.isSome then 3
      else if mc.requestInProgress then 3 + rest + (mc.dataTime - g.globalClock)
      else hitTime + 3

/-- The weight of a simulator. -/
def Simulator.weight (s : Simulator P n) (tx : Tx n) (rest : ℕ) : ℕ :=
  (∑ i, (s.Nd i).rank) + (hitTime + 4) * s.globals.bus.pendingRequests.length +
    tx.weight s.globals s.mc rest

section Weight

variable {s s' : Simulator P n} {i k : Fin n} {tx : Tx n} {op q : Access} {a : LineAddr}
  {m : Mreq} {rest : List Mreq}

/-- The ranks of all nodes, when one node changes. -/
theorem sum_rank_eq (s s' : Simulator P n) (i : Fin n) (h : ∀ j, j ≠ i → s'.Nd j = s.Nd j) :
    (∑ j, (s'.Nd j).rank) + (s.Nd i).rank = (∑ j, (s.Nd j).rank) + (s'.Nd i).rank := by
  have hrest : ∑ j ∈ Finset.univ.erase i, (s'.Nd j).rank =
      ∑ j ∈ Finset.univ.erase i, (s.Nd j).rank := by
    apply Finset.sum_congr rfl
    intro j hj
    rw [h j (Finset.ne_of_mem_erase hj)]
  have h₁ := Finset.sum_erase_add Finset.univ (fun j => (s'.Nd j).rank) (Finset.mem_univ i)
  have h₂ := Finset.sum_erase_add Finset.univ (fun j => (s.Nd j).rank) (Finset.mem_univ i)
  omega

theorem Simulator.setNode_Nd_ne {j : Fin n} {nd : Node P} (hj : j ≠ i) :
    (s.setNode i nd).Nd j = s.Nd j := by
  simp [Simulator.setNode, hj]

/-- A node that is replaced changes the weight by its rank. -/
theorem Simulator.weight_setNode (s : Simulator P n) (i : Fin n) (nd : Node P) (tx : Tx n)
    (r : ℕ) : (s.setNode i nd).weight tx r + (s.Nd i).rank = s.weight tx r + nd.rank := by
  have hsum := sum_rank_eq s (s.setNode i nd) i fun j hj => Simulator.setNode_Nd_ne hj
  rw [show (s.setNode i nd).Nd i = nd by simp [Simulator.setNode]] at hsum
  have hglobals : (s.setNode i nd).globals = s.globals := rfl
  have hmc : (s.setNode i nd).mc = s.mc := rfl
  simp only [Simulator.weight, hglobals, hmc]
  omega

theorem Tx.weight_congr {g g' : Globals} {mc : MemoryController} {r : ℕ}
    (hreply : g'.bus.dataReply = g.bus.dataReply) (hclock : g'.globalClock = g.globalClock) :
    tx.weight g' mc r = tx.weight g mc r := by
  cases tx <;> simp only [Tx.weight, hreply, hclock]

/-! ### The outcomes -/

theorem Simulator.weight_served (hreq : (s.Nd i).cache.procRequest = some m)
    (hbuf : (s.Nd i).processor.inboundRequestBuf = none) :
    (s.served T i m op).weight tx 0 < s.weight tx 0 := by
  have hsum := sum_rank_eq s (s.served T i m op) i fun j hj => Simulator.served_Nd_ne hj
  have hrank : ((s.served T i m op).Nd i).rank < (s.Nd i).rank := by
    simp [Node.rank, Simulator.served_processor, Simulator.served_procRequest, hreq, hbuf]
  have htx : tx.weight (s.served T i m op).globals s.mc 0 = tx.weight s.globals s.mc 0 :=
    Tx.weight_congr (by rw [Simulator.served_bus]) Simulator.served_clock
  simp only [Simulator.weight, Simulator.served_bus]
  rw [show (s.served T i m op).mc = s.mc from rfl, htx]
  omega

theorem Simulator.weight_queued (hreq : (s.Nd i).cache.procRequest = some m) :
    (s.queued T i m op q).weight tx 0 < s.weight tx 0 := by
  have hsum := sum_rank_eq s (s.queued T i m op q) i fun j hj => Simulator.queued_Nd_ne hj
  have hrank : ((s.queued T i m op q).Nd i).rank + (hitTime + 5) = (s.Nd i).rank := by
    simp [Node.rank, Simulator.queued_processor, Simulator.queued_procRequest, hreq]
    omega
  have htx : tx.weight (s.queued T i m op q).globals s.mc 0 = tx.weight s.globals s.mc 0 :=
    Tx.weight_congr rfl rfl
  simp only [Simulator.weight, Simulator.queued_bus, List.length_append, List.length_singleton,
    Nat.mul_add]
  rw [show (s.queued T i m op q).mc = s.mc from rfl, htx]
  omega

theorem Simulator.weight_observed {seen : ℕ} (hmc : s.mc.requestInProgress = false) :
    (s.observed T i m q).weight (.asked k q a (seen + 1)) 0 ≤
      s.weight (.asked k q a seen) 0 := by
  have hsum := sum_rank_eq s (s.observed T i m q) i fun j hj => Simulator.observed_Nd_ne hj
  have hrank : ((s.observed T i m q).Nd i).rank = (s.Nd i).rank := by
    simp [Node.rank, Simulator.observed_processor, Simulator.observed_procRequest]
  have htx : (Tx.asked k q a (seen + 1)).weight (s.observed T i m q).globals s.mc 0 ≤
      (Tx.asked k q a seen).weight s.globals s.mc 0 := by
    simp only [Tx.weight, Simulator.observed_bus, hmc]
    rcases e : T.supplies (s.states m.addr i) with - | -
    · simp
    · simp only [if_true, Option.isSome_some, Bool.false_eq_true, if_false]
      split <;> simp
  simp only [Simulator.weight, Simulator.observed_bus] at htx ⊢
  rw [show (s.observed T i m q).mc = s.mc from rfl]
  omega

/-- The data make room for the answer. -/
theorem Simulator.weight_filled (hbuf : (s.Nd k).processor.inboundRequestBuf = none) :
    (s.filled T k m).weight .idle 0 < s.weight (.told k q a) 0 := by
  have hsum := sum_rank_eq s (s.filled T k m) k fun j hj => Simulator.filled_Nd_ne hj
  have hrank : ((s.filled T k m).Nd k).rank = (s.Nd k).rank + 1 := by
    simp [Node.rank, Simulator.filled_processor, Simulator.filled_procRequest, hbuf]
    omega
  simp only [Simulator.weight, Simulator.filled_bus, Tx.weight]
  omega

/-! ### The bus and the memory controller -/

theorem Simulator.weight_grantRequest (hq : s.globals.bus.pendingRequests = m :: rest)
    (hd : s.globals.bus.dataReply = none) (hmc : s.mc.requestInProgress = false) :
    (s.withGlobals (s.globals.grantRequest m rest)).weight (.asked k q a 0) 0 <
      s.weight .idle 1 := by
  simp only [Simulator.weight, Simulator.withGlobals, Globals.grantRequest, Globals.record,
    Tx.weight, hq, hd, hmc, List.length_cons, Nat.mul_add]
  simp
  omega

theorem Simulator.weight_grantData (seen : ℕ) (hd : s.globals.bus.dataReply = some m) :
    (s.withGlobals (s.globals.grantData m)).weight (.told k q a) 0 <
      s.weight (.asked k q a seen) 1 := by
  simp [Simulator.weight, Simulator.withGlobals, Globals.grantData, Globals.record, Tx.weight, hd]

theorem Simulator.weight_wait (seen : ℕ) (hd : s.globals.bus.dataReply = none)
    (hmc : s.mc.requestInProgress = true) :
    (s.withGlobals s.globals.grantNothing).weight (.asked k q a seen) 0 <
      s.weight (.asked k q a seen) 1 := by
  simp [Simulator.weight, Simulator.withGlobals, Globals.grantNothing, Tx.weight, hd, hmc]

end Weight

end ProjectArchive.Coherence
