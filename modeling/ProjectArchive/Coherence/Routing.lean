/-
ProjectArchive/Coherence/Routing.lean

Who answers the requests on the bus, and when.

`transactions_routed` reads the shape of the history off the resting bus:
requests and data alternate, every answer goes to its requester after 1 or 101
cycles, and the requests are granted in the order in which they came.

Under MOSI and MOESIF a cache that supplies a line keeps doing so, hence
`no_write_back`: the memory controller answers only for lines that nobody has
stored to, although no data is ever written back.  The argument is about the
past: the controller's data testify that the line had no stores when they were
sent, and the number of stores never shrinks.
-/
import ProjectArchive.Coherence.Run

namespace ProjectArchive.Coherence

open SnoopLine Exec

variable {P : Protocol} {T : Table P.State} {n : ℕ} {traces : Fin n → Trace}

/-! ### Replaying a history -/

/-- The number of completed stores never shrinks. -/
theorem latest_mono {past log : List Event} (h : past <:+ log) (addr : Paddr) :
    (versions past).latest addr ≤ (versions log).latest addr := by
  induction log with
  | nil => rw [List.suffix_nil.mp h]
  | cons e log ih =>
      rcases List.suffix_cons_iff.mp h with rfl | h
      · exact le_rfl
      · exact (ih h).trans (Versions.latest_le_step e)

/-- An exchange is in the history, and so are its replies, after its grant. -/
theorem exchanges_suffix {log : List Event} {x : Exchange} (hx : x ∈ exchanges log) :
    x.past <:+ log ∧ ∀ r ∈ x.replies,
      ∃ past, (.requested r.1 r.2 :: past) <:+ log ∧ x.past <:+ past := by
  induction log generalizing x with
  | nil => cases hx
  | cons e log ih =>
      have older : x ∈ exchanges log → x.past <:+ e :: log ∧ ∀ r ∈ x.replies,
          ∃ past, (.requested r.1 r.2 :: past) <:+ e :: log ∧ x.past <:+ past := by
        intro hx
        obtain ⟨hp, hr⟩ := ih hx
        refine ⟨hp.trans (List.suffix_cons _ _), fun r h => ?_⟩
        obtain ⟨past, hpast, hle⟩ := hr r h
        exact ⟨past, hpast.trans (List.suffix_cons _ _), hle⟩
      cases e with
      | granted t m =>
          rcases List.mem_cons.mp hx with rfl | hx
          · exact ⟨List.suffix_cons _ _, fun r h => by cases h⟩
          · exact older hx
      | requested t m =>
          rcases hl : exchanges log with - | ⟨y, ys⟩
          · simp [exchanges, hl] at hx
          · by_cases hm : m.msg = .DATA
            · simp only [exchanges, hl, hm, if_true] at hx
              rcases List.mem_cons.mp hx with rfl | hx
              · -- the newest exchange has got the newest reply
                obtain ⟨hp, hr⟩ := ih (x := y) (by simp [hl])
                refine ⟨hp.trans (List.suffix_cons _ _), fun r h => ?_⟩
                rcases List.mem_append.mp h with h | h
                · obtain ⟨past, hpast, hle⟩ := hr r h
                  exact ⟨past, hpast.trans (List.suffix_cons _ _), hle⟩
                · obtain rfl := List.mem_singleton.mp h
                  exact ⟨log, List.suffix_refl _, hp⟩
              · exact older (by simp [hl, hx])
            · simp only [exchanges, hl, hm, if_false] at hx
              exact older (by rwa [hl])
      | accepted mid m => exact older hx
      | snooped mid m => exact older hx
      | answered mid m => exact older hx

/-! ### Atomic transactions -/

/-- **Requests and data alternate; every data message goes to the requester
before it, 1 cycle after the request if a cache supplies it and 101 cycles
after if memory does; and requests are granted in order.** -/
theorem transactions_routed (p : ProtocolKind) {n : ℕ} (traces : Fin n → Trace) (k : ℕ) :
    ∃ s, Simulator.cycles p.protocol traces k = .ok s ∧
      (Closed n (exchanges s.globals.log) ∨
        ∃ x xs, exchanges s.globals.log = x :: xs ∧ x.IsRequest n ∧ Closed n xs ∧
          (x.replies = [] ∨ ∃ m, x.CacheReply n m ∨ x.MemoryReply n m) ∧
          s.globals.globalClock ≤ x.clock + hitTime + 1) ∧
      requests s.globals.log = grants s.globals.log ++ s.globals.bus.pendingRequests := by
  obtain ⟨s, hs, tx, stage, h⟩ := Simulator.cycles_ends p.implements p.lawful traces k
  exact ⟨s, hs, h.rest.exchanges, h.inv.fifo⟩

/-! ### Suppliers for ever -/

/-- Once a store to a line has completed, a request for the line is answered by
one cache, in the cycle of its grant, and memory sends no data for the line. -/
structure NoWriteBack (n : ℕ) (log : List Event) : Prop where
  supplied : ∀ x ∈ exchanges log, x.message.msg ≠ .DATA →
    0 < (versions x.past).latest x.message.addr →
    ∃ j : Fin n, x.replies = [(x.clock, dataMreq (.L1 j) x.message.addr x.message.srcMid)]
  silent : ∀ past t m, (.requested t m :: past) <:+ log → m.msg = .DATA → m.srcMid = .MC n →
    (versions past).latest m.addr = 0

/-- Memory supplies only lines that nobody has stored to. -/
theorem LookedUp.silent (hT : T.Lawful) (hK : T.Keeps) {log past : List Event} {t : ℕ} {m : Mreq}
    (h : LookedUp T n log) (hs : (.requested t m :: past) <:+ log) (hm : m.msg = .DATA)
    (hsrc : m.srcMid = .MC n) : (versions past).latest m.addr = 0 := by
  obtain ⟨L, hL, hlatest, k, q, seen, shared, had, hph, hall⟩ := h past t m hs hm hsrc
  rw [← hlatest]
  exact (hL.sticky hT hK).latest_eq_zero hph hall

/-- An exchange that memory answered is about a line without stores. -/
theorem LookedUp.latest_eq_zero (hT : T.Lawful) (hK : T.Keeps) {log : List Event} {x : Exchange}
    {m : Mreq} (h : LookedUp T n log) (hx : x ∈ exchanges log) (hr : x.MemoryReply n m)
    (hm : m.msg = .DATA) : (versions x.past).latest m.addr = 0 := by
  obtain ⟨past, hpast, hle⟩ := (exchanges_suffix hx).2 (x.clock + hitTime, m) (by simp [hr.2])
  have hzero := h.silent hT hK hpast hm hr.1
  have := latest_mono hle m.addr
  exact Nat.le_zero.mp (this.trans hzero.le)

/-- The data that a request is owed. -/
structure Exchange.Owed (x : Exchange) (m : Mreq) : Prop where
  data : m.msg = .DATA
  addr : m.addr = x.message.addr
  dest : m.destMid = x.message.srcMid

theorem Exchange.Owed.replies_eq {x : Exchange} {m : Mreq} (h : x.Owed m)
    (hr : x.CacheReply n m) :
    ∃ j : Fin n, x.replies = [(x.clock, dataMreq (.L1 j) x.message.addr x.message.srcMid)] := by
  obtain ⟨⟨j, hj⟩, hr⟩ := hr
  refine ⟨j, hr.trans ?_⟩
  have heq : m = dataMreq (.L1 j) x.message.addr x.message.srcMid :=
    Mreq.ext' h.data (h.addr.trans x.message.aligned.symm) hj h.dest
  rw [heq]

/-- The answered requests. -/
theorem Closed.owed {l : List Exchange} (h : Closed n l) {x : Exchange} (hx : x ∈ l)
    (hm : x.message.msg ≠ .DATA) :
    ∃ m, x.Owed m ∧ (x.CacheReply n m ∨ x.MemoryReply n m) := by
  induction h with
  | nil => cases hx
  | @cons y z xs ha _ ih =>
      rcases List.mem_cons.mp hx with rfl | hx
      · exact absurd ha.data hm
      rcases List.mem_cons.mp hx with rfl | hx
      · refine ⟨z.message, ⟨ha.data, ha.addr, ha.dest⟩, ?_⟩
        exact ha.source.imp And.left And.left
      · exact ih hx

/-- While a request is open, every older one has been answered. -/
theorem Asked.owed {g : Globals} {k : Fin n} {q : Access} {a : LineAddr} {c : ℕ}
    {replies : List (ℕ × Mreq)} (h : Asked n g k q a c replies) {x : Exchange}
    (hx : x ∈ exchanges g.log) (hm : x.message.msg ≠ .DATA) :
    (∃ past, x = ⟨c, busMreq (.L1 k) q a, replies, past⟩) ∨
      ∃ m, x.Owed m ∧ (x.CacheReply n m ∨ x.MemoryReply n m) := by
  obtain ⟨past, xs, hl, hxs⟩ := h.head
  rw [hl] at hx
  rcases List.mem_cons.mp hx with rfl | hx
  · exact Or.inl ⟨past, rfl⟩
  · exact Or.inr (hxs.owed hx hm)

section Good

variable {s : Simulator P n} {tx : Tx n} {stage : Fin n → Stage}

/-- A request is answered, or memory is looking its line up and nobody has
stored to it. -/
theorem Good.owed (hT : T.Lawful) (hK : T.Keeps) (h : Good T traces s tx stage) {x : Exchange}
    (hx : x ∈ exchanges s.globals.log) (hm : x.message.msg ≠ .DATA) :
    (∃ m, x.Owed m ∧ (x.CacheReply n m ∨ x.MemoryReply n m)) ∨
      (versions s.globals.log).latest x.message.addr = 0 := by
  cases h.rest with
  | idle _ _ _ hclosed => exact Or.inl (hclosed.owed hx hm)
  | @waiting k q a c hask hreply _ _ _ =>
      rcases hask.owed hx hm with ⟨past, rfl⟩ | howed
      · right
        show (versions s.globals.log).latest (busMreq (.L1 k) q a).addr = 0
        rw [busMreq_addr]
        apply ((h.inv.lines a).sticky hT hK).latest_eq_zero (Globals.phase_asked_none rfl hreply)
        exact fun i => i.isLt
      · exact Or.inl howed
  | @cache k q a c j hask _ _ =>
      rcases hask.owed hx hm with ⟨past, rfl⟩ | howed
      · exact Or.inl ⟨dataMreq (.L1 j) a (.L1 k), ⟨rfl, rfl, rfl⟩, Or.inl ⟨⟨j, rfl⟩, rfl⟩⟩
      · exact Or.inl howed
  | @memory k q a c hask _ _ =>
      rcases hask.owed hx hm with ⟨past, rfl⟩ | howed
      · exact Or.inl ⟨dataMreq (.MC n) a (.L1 k), ⟨rfl, rfl, rfl⟩, Or.inr ⟨rfl, rfl⟩⟩
      · exact Or.inl howed

theorem Good.noWriteBack (hT : T.Lawful) (hK : T.Keeps) (h : Good T traces s tx stage) :
    NoWriteBack n s.globals.log where
  supplied := by
    intro x hx hm hpos
    rcases h.owed hT hK hx hm with ⟨m, ho, hr | hr⟩ | hzero
    · exact ho.replies_eq hr
    · have := h.inv.lookedUp.latest_eq_zero hT hK hx hr ho.data
      rw [ho.addr] at this
      omega
    · have := latest_mono (exchanges_suffix hx).1 x.message.addr
      omega
  silent := fun _ _ _ hs hm hsrc => h.inv.lookedUp.silent hT hK hs hm hsrc

end Good

/-- **MOSI and MOESIF never need a write-back.** -/
theorem no_write_back {n : ℕ} (traces : Fin n → Trace) (k : ℕ) :
    (∃ s, Simulator.cycles MOSI.protocol traces k = .ok s ∧ NoWriteBack n s.globals.log) ∧
      ∃ s, Simulator.cycles MOESIF.protocol traces k = .ok s ∧ NoWriteBack n s.globals.log := by
  constructor
  · obtain ⟨s, hs, tx, stage, h⟩ := Simulator.cycles_ends MOSI.implements MOSI.table_lawful traces k
    exact ⟨s, hs, h.noWriteBack MOSI.table_lawful MOSI.table_keeps⟩
  · obtain ⟨s, hs, tx, stage, h⟩ :=
      Simulator.cycles_ends MOESIF.implements MOESIF.table_lawful traces k
    exact ⟨s, hs, h.noWriteBack MOESIF.table_lawful MOESIF.table_keeps⟩

end ProjectArchive.Coherence
