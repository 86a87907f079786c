/-
ProjectArchive/Coherence/Transaction.lean

Bus transactions, with their timing.

A request granted at clock `c` is observed by every cache in that cycle.  If a
cache supplies the data, the bus grants them at `c + 1`, and the memory
controller drops its lookup; otherwise the controller sends the data at
`c + 100` and the bus grants them at `c + 101`.

`Moment` says where bus and memory controller are while the caches of a cycle
are ticked, `Rest` where they are between two cycles, and `Closed` that every
transaction in the history went as above.
-/
import ProjectArchive.Coherence.Invariant

namespace ProjectArchive.Coherence

open SnoopLine

variable {P : Protocol} {T : Table P.State} {n : ℕ}

/-! ### Exchanges -/

@[simp] theorem exchanges_accepted (mid : ModuleID) (m : Mreq) (past : List Event) :
    exchanges (.accepted mid m :: past) = exchanges past := rfl

@[simp] theorem exchanges_snooped (mid : ModuleID) (m : Mreq) (past : List Event) :
    exchanges (.snooped mid m :: past) = exchanges past := rfl

@[simp] theorem exchanges_answered (mid : ModuleID) (m : Mreq) (past : List Event) :
    exchanges (.answered mid m :: past) = exchanges past := rfl

@[simp] theorem exchanges_granted (t : ℕ) (m : Mreq) (past : List Event) :
    exchanges (.granted t m :: past) = ⟨t, m, [], past⟩ :: exchanges past := rfl

@[simp] theorem exchanges_busMreq (t : ℕ) (mid : ModuleID) (q : Access) (addr : Paddr)
    (past : List Event) :
    exchanges (.requested t (busMreq mid q addr) :: past) = exchanges past := by
  rcases e : exchanges past with - | ⟨x, xs⟩ <;> simp [exchanges, e]

theorem exchanges_dataMreq {t : ℕ} {mid dest : ModuleID} {addr : Paddr} {past : List Event}
    {x : Exchange} {xs : List Exchange} (h : exchanges past = x :: xs) :
    exchanges (.requested t (dataMreq mid addr dest) :: past) =
      { x with replies := x.replies ++ [(t, dataMreq mid addr dest)] } :: xs := by
  simp [exchanges, h]

/-- The data of a cache, in the cycle of the request. -/
def Exchange.CacheReply (n : ℕ) (x : Exchange) (m : Mreq) : Prop :=
  (∃ j : Fin n, m.srcMid = .L1 j) ∧ x.replies = [(x.clock, m)]

/-- The data of the memory controller, 100 cycles after the request. -/
def Exchange.MemoryReply (n : ℕ) (x : Exchange) (m : Mreq) : Prop :=
  m.srcMid = .MC n ∧ x.replies = [(x.clock + hitTime, m)]

/-- The exchange `x` is a request of a cache. -/
def Exchange.IsRequest (n : ℕ) (x : Exchange) : Prop :=
  ∃ (k : Fin n) (q : Access) (addr : LineAddr), x.message = busMreq (.L1 k) q addr

/-- The message of `y` is the answer to the request `x`. -/
structure Exchange.Answers (n : ℕ) (x y : Exchange) : Prop where
  request : x.IsRequest n
  data : y.message.msg = .DATA
  addr : y.message.addr = x.message.addr
  dest : y.message.destMid = x.message.srcMid
  silent : y.replies = []
  source : x.CacheReply n y.message ∧ y.clock = x.clock + 1 ∨
    x.MemoryReply n y.message ∧ y.clock = x.clock + hitTime + 1

/-- Requests and answers alternate, and the last request is answered. -/
inductive Closed (n : ℕ) : List Exchange → Prop
  | nil : Closed n []
  | cons {x y : Exchange} {xs : List Exchange} : x.Answers n y → Closed n xs →
      Closed n (y :: x :: xs)

theorem Closed.replies_le_one {l : List Exchange} (h : Closed n l) :
    ∀ x ∈ l, x.replies.length ≤ 1 := by
  induction h with
  | nil =>
      intro x hx
      cases hx
  | @cons x y xs ha _ ih =>
      intro z hz
      rcases List.mem_cons.mp hz with rfl | hz
      · simp [ha.silent]
      rcases List.mem_cons.mp hz with rfl | hz
      · rcases ha.source with ⟨hr, -⟩ | ⟨hr, -⟩ <;> simp [hr.2]
      · exact ih z hz

/-! ### The open transaction -/

/-- The request `q` of cache `k` is open since the clock was `c`, with the
replies so far. -/
structure Asked (n : ℕ) (g : Globals) (k : Fin n) (q : Access) (a : LineAddr) (c : ℕ)
    (replies : List (ℕ × Mreq)) : Prop where
  inProgress : g.bus.requestInProgress = true
  head : ∃ past xs, exchanges g.log = ⟨c, busMreq (.L1 k) q a, replies, past⟩ :: xs ∧ Closed n xs
  last : ∃ past, TracedAt g.log (busMreq (.L1 k) q a) past

/-- In the cycle of the request at most one cache has replied. -/
def Replied (n : ℕ) (g : Globals) (k : Fin n) (a : LineAddr) (replies : List (ℕ × Mreq)) : Prop :=
  (replies = [] ∧ g.bus.dataReply = none) ∨
    ∃ j : Fin n, replies = [(g.globalClock, dataMreq (.L1 j) a (.L1 k))] ∧
      g.bus.dataReply = some (dataMreq (.L1 j) a (.L1 k))

/-- Bus and memory controller while `i` caches of the cycle have been ticked. -/
inductive Moment (n : ℕ) (g : Globals) (mc : MemoryController) (i : ℕ) : Tx n → Prop
  /-- Nothing happens on the bus. -/
  | quiet (hcur : g.bus.currentRequest = none) (hprog : g.bus.requestInProgress = false)
      (hreply : g.bus.dataReply = none) (hmc : mc.requestInProgress = false)
      (hclosed : Closed n (exchanges g.log)) : Moment n g mc i .idle
  /-- Everybody waits for memory. -/
  | waiting {k : Fin n} {q : Access} {a : LineAddr} {c : ℕ} (hcur : g.bus.currentRequest = none)
      (hask : Asked n g k q a c []) (hreply : g.bus.dataReply = none)
      (hmc : mc = ⟨true, c + hitTime, a, .L1 k⟩) (hlo : c < g.globalClock)
      (hhi : g.globalClock ≤ c + hitTime) : Moment n g mc i (.asked k q a n)
  /-- A request is on the bus. -/
  | asked {k : Fin n} {q : Access} {a : LineAddr} {replies : List (ℕ × Mreq)}
      (hcur : g.bus.currentRequest = some (busMreq (.L1 k) q a))
      (hask : Asked n g k q a g.globalClock replies) (hreplied : Replied n g k a replies)
      (hmc : mc.requestInProgress = false) : Moment n g mc i (.asked k q a i)
  /-- Data are on the bus and their requester is still to be ticked. -/
  | told {k : Fin n} {q : Access} {a : LineAddr} {m : Mreq} (hik : i ≤ k)
      (hcur : g.bus.currentRequest = some m) (hm : m.msg = .DATA) (haddr : m.addr = a)
      (hdest : m.destMid = .L1 k) (hprog : g.bus.requestInProgress = false)
      (hreply : g.bus.dataReply = none) (hclosed : Closed n (exchanges g.log))
      (hgranted : lastGranted g.log = some m)
      (hlast : ∃ past, TracedAt g.log (busMreq (.L1 k) q a) past) : Moment n g mc i (.told k q a)
  /-- Data are on the bus and their requester has taken them. -/
  | taken {k : Fin n} {m : Mreq} (hki : k.val < i) (hcur : g.bus.currentRequest = some m)
      (hm : m.msg = .DATA) (hdest : m.destMid = .L1 k)
      (hprog : g.bus.requestInProgress = false) (hreply : g.bus.dataReply = none)
      (hclosed : Closed n (exchanges g.log)) : Moment n g mc i .idle

/-- Bus and memory controller between two cycles. -/
inductive Rest (n : ℕ) (g : Globals) (mc : MemoryController) : Tx n → Prop
  | idle (hprog : g.bus.requestInProgress = false) (hreply : g.bus.dataReply = none)
      (hmc : mc.requestInProgress = false) (hclosed : Closed n (exchanges g.log)) :
      Rest n g mc .idle
  | waiting {k : Fin n} {q : Access} {a : LineAddr} {c : ℕ} (hask : Asked n g k q a c [])
      (hreply : g.bus.dataReply = none) (hmc : mc = ⟨true, c + hitTime, a, .L1 k⟩)
      (hlo : c < g.globalClock) (hhi : g.globalClock ≤ c + hitTime) : Rest n g mc (.asked k q a n)
  | cache {k : Fin n} {q : Access} {a : LineAddr} {c : ℕ} (j : Fin n)
      (hask : Asked n g k q a c [(c, dataMreq (.L1 j) a (.L1 k))])
      (hreply : g.bus.dataReply = some (dataMreq (.L1 j) a (.L1 k)))
      (hclock : g.globalClock = c + 1) : Rest n g mc (.asked k q a n)
  | memory {k : Fin n} {q : Access} {a : LineAddr} {c : ℕ}
      (hask : Asked n g k q a c [(c + hitTime, dataMreq (.MC n) a (.L1 k))])
      (hreply : g.bus.dataReply = some (dataMreq (.MC n) a (.L1 k)))
      (hclock : g.globalClock = c + hitTime + 1) : Rest n g mc (.asked k q a n)

/-- Between two cycles the history is one of closed transactions, but for the
newest, which may be open for at most the time of a memory lookup. -/
theorem Rest.exchanges {g : Globals} {mc : MemoryController} {tx : Tx n} (h : Rest n g mc tx) :
    Closed n (exchanges g.log) ∨ ∃ x xs, exchanges g.log = x :: xs ∧ x.IsRequest n ∧
      Closed n xs ∧ (x.replies = [] ∨ ∃ m, x.CacheReply n m ∨ x.MemoryReply n m) ∧
      g.globalClock ≤ x.clock + hitTime + 1 := by
  cases h with
  | idle _ _ _ hclosed => exact Or.inl hclosed
  | @waiting k q a c hask _ _ _ hhi =>
      obtain ⟨past, xs, hx, hxs⟩ := hask.head
      exact Or.inr ⟨_, xs, hx, ⟨k, q, a, rfl⟩, hxs, Or.inl rfl, Nat.le_succ_of_le hhi⟩
  | @cache k q a c j hask _ hclock =>
      obtain ⟨past, xs, hx, hxs⟩ := hask.head
      refine Or.inr ⟨_, xs, hx, ⟨k, q, a, rfl⟩, hxs, Or.inr ⟨_, Or.inl ⟨⟨j, rfl⟩, rfl⟩⟩, ?_⟩
      rw [hclock]
      exact Nat.add_le_add_right (Nat.le_add_right _ _) 1
  | @memory k q a c hask _ hclock =>
      obtain ⟨past, xs, hx, hxs⟩ := hask.head
      exact Or.inr ⟨_, xs, hx, ⟨k, q, a, rfl⟩, hxs, Or.inr ⟨_, Or.inr ⟨rfl, rfl⟩⟩,
        Nat.le_of_eq hclock⟩

/-- Nobody is answered twice. -/
theorem Rest.replies_le_one {g : Globals} {mc : MemoryController} {tx : Tx n}
    (h : Rest n g mc tx) : ∀ x ∈ Coherence.exchanges g.log, x.replies.length ≤ 1 := by
  rcases h.exchanges with hclosed | ⟨x, xs, hx, -, hxs, hr, -⟩
  · exact hclosed.replies_le_one
  · intro z hz
    rw [hx] at hz
    rcases List.mem_cons.mp hz with rfl | hz
    · rcases hr with hr | ⟨m, hr | hr⟩
      · simp [hr]
      · simp [hr.2]
      · simp [hr.2]
    · exact hxs.replies_le_one z hz

section Frame

variable {g g' : Globals} {mc : MemoryController} {i : ℕ} {tx : Tx n} {k : Fin n} {q : Access}
  {a : LineAddr} {c : ℕ} {replies : List (ℕ × Mreq)}

theorem Asked.frame (h : Asked n g k q a c replies)
    (hprog : g'.bus.requestInProgress = g.bus.requestInProgress)
    (hexchanges : exchanges g'.log = exchanges g.log)
    (hlast : ∀ m past, TracedAt g.log m past → TracedAt g'.log m past) :
    Asked n g' k q a c replies :=
  ⟨hprog.trans h.inProgress, hexchanges ▸ h.head, h.last.imp fun past => hlast _ past⟩

/-- The open request is the newest message granted. -/
theorem Asked.granted (h : Asked n g k q a c replies) :
    lastGranted g.log = some (busMreq (.L1 k) q a) := by
  obtain ⟨past, xs, hx, -⟩ := h.head
  rw [lastGranted_eq, hx]
  rfl

/-- What a processor's request does not change. -/
theorem Moment.frame (h : Moment n g mc i tx)
    (hcur : g'.bus.currentRequest = g.bus.currentRequest)
    (hprog : g'.bus.requestInProgress = g.bus.requestInProgress)
    (hreply : g'.bus.dataReply = g.bus.dataReply) (hclock : g'.globalClock = g.globalClock)
    (hexchanges : exchanges g'.log = exchanges g.log)
    (hlast : ∀ m past, TracedAt g.log m past → TracedAt g'.log m past) : Moment n g' mc i tx := by
  cases h with
  | quiet h₁ h₂ h₃ h₄ h₅ =>
      exact .quiet (hcur.trans h₁) (hprog.trans h₂) (hreply.trans h₃) h₄ (hexchanges ▸ h₅)
  | waiting h₁ h₂ h₃ h₄ h₅ h₆ =>
      exact .waiting (hcur.trans h₁) (h₂.frame hprog hexchanges hlast) (hreply.trans h₃) h₄
        (hclock ▸ h₅) (hclock ▸ h₆)
  | asked h₁ h₂ h₃ h₄ =>
      refine .asked (hcur.trans h₁) (hclock ▸ h₂.frame hprog hexchanges hlast) ?_ h₄
      rcases h₃ with ⟨hr, hd⟩ | ⟨j, hr, hd⟩
      · exact Or.inl ⟨hr, hreply.trans hd⟩
      · exact Or.inr ⟨j, hclock ▸ hr, hreply.trans hd⟩
  | told h₁ h₂ h₃ h₄ h₅ h₆ h₇ h₈ h₉ h₁₀ =>
      refine .told h₁ (hcur.trans h₂) h₃ h₄ h₅ (hprog.trans h₆) (hreply.trans h₇)
        (hexchanges ▸ h₈) ?_ (h₁₀.imp fun past => hlast _ past)
      rw [lastGranted_eq, hexchanges, ← lastGranted_eq]
      exact h₉
  | taken h₁ h₂ h₃ h₄ h₅ h₆ h₇ =>
      exact .taken h₁ (hcur.trans h₂) h₃ h₄ (hprog.trans h₅) (hreply.trans h₆) (hexchanges ▸ h₇)

end Frame

section Moment

variable {s : Simulator P n} {i k : Fin n} {tx : Tx n} {op q : Access} {a : LineAddr} {m : Mreq}
  {j : ℕ}

/-! ### The processor's request -/

theorem Moment.served (h : Moment n s.globals s.mc j tx) :
    Moment n (s.served T i m op).globals s.mc j tx := by
  apply h.frame
  · simp
  · simp
  · simp
  · simp
  · simp
  · intro m' past hm'
    rw [Simulator.served_log]
    exact hm'.accepted.answered

theorem Moment.queued (h : Moment n s.globals s.mc j tx) :
    Moment n (s.queued T i m op q).globals s.mc j tx := by
  apply h.frame
  · simp
  · simp
  · simp
  · rfl
  · simp
  · intro m' past hm'
    rw [Simulator.queued_log]
    exact hm'.accepted.requested

/-! ### The message on the bus -/

theorem TracedAt.observed {log past : List Event} {m' : Mreq} (h : TracedAt log m' past)
    (hg : lastGranted log = some m) : TracedAt (observedEvents T s i m ++ log) m' past := by
  unfold observedEvents
  split
  · exact (h.snooped hg).requested
  · exact h.snooped hg

/-- A cache that supplies finds the data slot empty, so the reply it adds is
the only one. -/
theorem Moment.observed {replies : List (ℕ × Mreq)}
    (hcur : s.globals.bus.currentRequest = some (busMreq (.L1 k) q a))
    (hask : Asked n s.globals k q a s.globals.globalClock replies)
    (hreplied : Replied n s.globals k a replies) (hmc : s.mc.requestInProgress = false)
    (hsupplies : T.supplies (s.states a i) → s.globals.bus.dataReply = none) :
    Moment n (s.observed T i (busMreq (.L1 k) q a) q).globals s.mc (i + 1)
      (.asked k q a (i + 1)) := by
  have haddr : (busMreq (.L1 k) q a).addr = a := busMreq_addr _ q a
  obtain ⟨past, xs, hx, hxs⟩ := hask.head
  rcases e : T.supplies (s.states a i) with - | -
  · refine .asked ?_ (⟨?_, ⟨past, xs, ?_, hxs⟩, ?_⟩ : Asked n _ k q a _ replies) ?_ hmc
    · rw [Simulator.observed_bus]; exact hcur
    · rw [Simulator.observed_bus]; exact hask.inProgress
    · simp [observedEvents, e, hx]
    · rw [Simulator.observed_log]
      exact hask.last.imp fun past hpast => hpast.observed hask.granted
    · simpa [Replied, e] using hreplied
  · have hd := hsupplies e
    have hnil : replies = [] := by
      rcases hreplied with ⟨hr, -⟩ | ⟨j, -, hj⟩
      · exact hr
      · rw [hd] at hj; cases hj
    subst hnil
    refine .asked ?_ (⟨?_, ⟨past, xs, ?_, hxs⟩, ?_⟩ :
      Asked n _ k q a _ [(s.globals.globalClock, dataMreq (.L1 i) a (.L1 k))]) ?_ hmc
    · rw [Simulator.observed_bus]; exact hcur
    · rw [Simulator.observed_bus]; exact hask.inProgress
    · have hx' : exchanges (.snooped (.L1 i) (busMreq (.L1 k) q a) :: s.globals.log) = _ := hx
      simp [observedEvents, e, exchanges_dataMreq hx']
    · rw [Simulator.observed_log]
      exact hask.last.imp fun past hpast => hpast.observed hask.granted
    · refine Or.inr ⟨i, ?_, ?_⟩
      · rw [Simulator.observed_clock]
      · simp [e]

theorem Moment.filled (hcur : s.globals.bus.currentRequest = some m) (hm : m.msg = .DATA)
    (hdest : m.destMid = .L1 k) (hprog : s.globals.bus.requestInProgress = false)
    (hreply : s.globals.bus.dataReply = none) (hclosed : Closed n (exchanges s.globals.log)) :
    Moment n (s.filled T k m).globals s.mc (k + 1) .idle :=
  .taken (Nat.lt_succ_self k) hcur hm hdest hprog hreply hclosed

end Moment

end ProjectArchive.Coherence
