/-
ProjectArchive/Coherence/Waiting.lean

How long a processor waits, and how long a run takes.

The bus serves its requests in the order in which they were passed to it, and
every transaction is over within `hitTime + 4` cycles.  `Tx.delay` measures what
is ahead of a request: the rest of the open transaction, and a whole one for
every request in between.  Nobody overtakes, so a cycle decreases it until the
request is answered (`CycleSteps.delay_lt`), and no more than one request of
each cache is ahead to begin with.

The run time is bounded by the weight which decreases with every cycle.
-/
import ProjectArchive.Coherence.CacheSteps

namespace ProjectArchive.Coherence

open SnoopLine Exec Relation

variable {P : Protocol} {T : Table P.State} {n : ℕ} {traces : Fin n → Trace}

/-! ### The place of a request -/

/-- The requests ahead of the one of cache `k`. -/
def ahead (k : ℕ) : List Mreq → ℕ
  | [] => 0
  | m :: l => if m.srcMid = .L1 k then 0 else ahead k l + 1

/-- Cache `k` has a request in the list. -/
def Asks (k : ℕ) (l : List Mreq) : Prop := ∃ m ∈ l, m.srcMid = .L1 k

section Ahead

variable {k : ℕ} {m : Mreq} {l l' : List Mreq}

theorem ahead_cons_self (h : m.srcMid = .L1 k) : ahead k (m :: l) = 0 := if_pos h

theorem ahead_cons_ne (h : m.srcMid ≠ .L1 k) : ahead k (m :: l) = ahead k l + 1 := if_neg h

theorem Asks.of_cons (h : Asks k (m :: l)) (hm : m.srcMid ≠ .L1 k) : Asks k l := by
  obtain ⟨m', hm', hk⟩ := h
  rcases List.mem_cons.mp hm' with rfl | hm'
  · exact absurd hk hm
  · exact ⟨m', hm', hk⟩

theorem Asks.append (h : Asks k l) (l' : List Mreq) : Asks k (l ++ l') := by
  obtain ⟨m, hm, hk⟩ := h
  exact ⟨m, List.mem_append_left l' hm, hk⟩

/-- Nobody overtakes. -/
theorem Asks.ahead_append (h : Asks k l) (l' : List Mreq) : ahead k (l ++ l') = ahead k l := by
  induction l with
  | nil =>
      obtain ⟨m, hm, -⟩ := h
      cases hm
  | cons m l ih =>
      by_cases hm : m.srcMid = .L1 k
      · rw [List.cons_append, ahead_cons_self hm, ahead_cons_self hm]
      · rw [List.cons_append, ahead_cons_ne hm, ahead_cons_ne hm, ih (h.of_cons hm)]

theorem Asks.ahead_lt (h : Asks k l) : ahead k l < l.length := by
  induction l with
  | nil =>
      obtain ⟨m, hm, -⟩ := h
      cases hm
  | cons m l ih =>
      by_cases hm : m.srcMid = .L1 k
      · rw [ahead_cons_self hm]
        exact Nat.succ_pos _
      · rw [ahead_cons_ne hm]
        exact Nat.succ_lt_succ (ih (h.of_cons hm))

end Ahead

/-! ### The delay of a request -/

/-- The requests that are not answered yet, in the order in which they will be. -/
def Tx.queue (tx : Tx n) (g : Globals) : List Mreq := tx.request ++ g.bus.pendingRequests

/-- A bound on the cycles until the request of cache `k` is answered. -/
def Tx.delay (tx : Tx n) (g : Globals) (mc : MemoryController) (rest k : ℕ) : ℕ :=
  tx.weight g mc rest +
    (hitTime + 4) * (ahead k (tx.queue g) + if tx.request = [] then 1 else 0)

/-- The request of cache `k` is answered, or will be within `w` cycles. -/
def Due (k : Fin n) (w : ℕ) (c : Config P n) : Prop :=
  (∃ a, c.stage k = .replied a) ∨
    Asks k (c.tx.queue c.sim.globals) ∧ c.tx.delay c.sim.globals c.sim.mc 0 k ≤ w

section Steps

variable {c c' : Config P n} {k : Fin n} {w : ℕ}

/-- The bus grants something to somebody. -/
theorem BusStep.due (hstep : BusStep c c') (hasks : Asks k (c.tx.queue c.sim.globals)) :
    Asks k (c'.tx.queue c'.sim.globals) ∧
      c'.tx.delay c'.sim.globals c'.sim.mc 0 k < c.tx.delay c.sim.globals c.sim.mc 1 k := by
  cases hstep with
  | @quiet s stage hq =>
      obtain ⟨m, hm, -⟩ := hasks
      have hnil : (Tx.idle : Tx n).queue s.globals = [] := hq
      rw [hnil] at hm
      cases hm
  | @request s stage k' q a rest hreply hmc hq =>
      have hsame : (Tx.asked k' q a 0 : Tx n).queue (s.globals.grantRequest (busMreq (.L1 k') q a)
          rest) = (Tx.idle : Tx n).queue s.globals := hq.symm
      refine ⟨?_, ?_⟩
      · show Asks k ((Tx.asked k' q a 0 : Tx n).queue (s.globals.grantRequest _ rest))
        rw [hsame]
        exact hasks
      · show (Tx.asked k' q a 0 : Tx n).delay (s.globals.grantRequest _ rest) s.mc 0 k <
          (Tx.idle : Tx n).delay s.globals s.mc 1 k
        unfold Tx.delay
        rw [hsame]
        simp [Tx.weight, Tx.request, Globals.grantRequest, Globals.record, hreply, hmc, Nat.mul_add]
        omega
  | @wait s stage k' q a hreply hmc =>
      refine ⟨hasks, ?_⟩
      show (Tx.asked k' q a n : Tx n).delay s.globals.grantNothing s.mc 0 k <
        (Tx.asked k' q a n : Tx n).delay s.globals s.mc 1 k
      unfold Tx.delay
      simp [Tx.weight, Tx.queue, Tx.request, Globals.grantNothing, hreply, hmc]
  | @data s stage k' q a m hreply hm haddr =>
      refine ⟨hasks, ?_⟩
      show (Tx.told k' q a : Tx n).delay (s.globals.grantData m) s.mc 0 k <
        (Tx.asked k' q a n : Tx n).delay s.globals s.mc 1 k
      unfold Tx.delay
      simp [Tx.weight, Tx.queue, Tx.request, Globals.grantData, Globals.record, hreply]

theorem CacheStep.due (hstep : CacheStep T c c') (h : Due k w c) : Due k w c' := by
  cases hstep with
  | @served s tx stage i op a hst hhit =>
      rcases h with ⟨b, hb⟩ | ⟨hasks, hdelay⟩
      · have hne : k ≠ i := by
          rintro rfl
          exact absurd (hst.symm.trans hb) (by simp)
        exact .inl ⟨b, (Function.update_of_ne hne ..).trans hb⟩
      · have hqueue : tx.queue (s.served T i (opMreq i op a) op).globals = tx.queue s.globals := by
          unfold Tx.queue
          rw [Simulator.served_bus]
        have hweight : tx.weight (s.served T i (opMreq i op a) op).globals s.mc 0 =
            tx.weight s.globals s.mc 0 :=
          Tx.weight_congr (by rw [Simulator.served_bus]) Simulator.served_clock
        refine .inr ⟨?_, ?_⟩
        · show Asks k (tx.queue (s.served T i (opMreq i op a) op).globals)
          rw [hqueue]
          exact hasks
        · show tx.delay (s.served T i (opMreq i op a) op).globals s.mc 0 k ≤ w
          unfold Tx.delay
          rw [hqueue, hweight]
          exact hdelay
  | @queued s tx stage i op q a hst hmiss =>
      rcases h with ⟨b, hb⟩ | ⟨hasks, hdelay⟩
      · have hne : k ≠ i := by
          rintro rfl
          exact absurd (hst.symm.trans hb) (by simp)
        exact .inl ⟨b, (Function.update_of_ne hne ..).trans hb⟩
      · have hqueue : tx.queue (s.queued T i (opMreq i op a) op q).globals =
            tx.queue s.globals ++ [busMreq (.L1 i) q (opMreq i op a).addr] := by
          unfold Tx.queue
          rw [Simulator.queued_bus, List.append_assoc]
        have hweight : tx.weight (s.queued T i (opMreq i op a) op q).globals s.mc 0 =
            tx.weight s.globals s.mc 0 := Tx.weight_congr rfl rfl
        refine .inr ⟨?_, ?_⟩
        · show Asks k (tx.queue (s.queued T i (opMreq i op a) op q).globals)
          rw [hqueue]
          exact hasks.append _
        · show tx.delay (s.queued T i (opMreq i op a) op q).globals s.mc 0 k ≤ w
          unfold Tx.delay
          rw [hqueue, hweight, hasks.ahead_append]
          exact hdelay
  | @observed s stage i k' q a hcur hmc =>
      refine h.imp_right fun ⟨hasks, hdelay⟩ => ?_
      have hqueue : (Tx.asked k' q a (i + 1) : Tx n).queue
          (s.observed T i (busMreq (.L1 k') q a) q).globals =
          (Tx.asked k' q a i : Tx n).queue s.globals := by
        unfold Tx.queue
        rw [Simulator.observed_bus]
        rfl
      have hweight : (Tx.asked k' q a (i + 1) : Tx n).weight
          (s.observed T i (busMreq (.L1 k') q a) q).globals s.mc 0 ≤
          (Tx.asked k' q a i : Tx n).weight s.globals s.mc 0 := by
        simp only [Tx.weight, Simulator.observed_bus, hmc]
        rcases T.supplies (s.states (busMreq (.L1 k') q a).addr i) with - | -
        · simp
        · simp only [if_true, Option.isSome_some, Bool.false_eq_true, if_false]
          split <;> simp
      refine ⟨?_, ?_⟩
      · show Asks k ((Tx.asked k' q a (i + 1) : Tx n).queue
          (s.observed T i (busMreq (.L1 k') q a) q).globals)
        rw [hqueue]
        exact hasks
      · show (Tx.asked k' q a (i + 1) : Tx n).delay
          (s.observed T i (busMreq (.L1 k') q a) q).globals s.mc 0 k ≤ w
        refine le_trans ?_ hdelay
        unfold Tx.delay
        rw [hqueue]
        exact Nat.add_le_add_right hweight _
  | @filled s stage k' op q a m hst hcur hm haddr =>
      rcases eq_or_ne k k' with rfl | hne
      · exact .inl ⟨a, Function.update_self ..⟩
      · rcases h with ⟨b, hb⟩ | ⟨hasks, hdelay⟩
        · exact .inl ⟨b, (Function.update_of_ne hne ..).trans hb⟩
        · have hsrc : (busMreq (.L1 k') q a).srcMid ≠ .L1 k := by
            rw [busMreq_srcMid, ne_eq, ModuleID.L1_inj, Fin.val_inj]
            exact hne.symm
          have hcons : (Tx.told k' q a : Tx n).queue s.globals =
              busMreq (.L1 k') q a :: s.globals.bus.pendingRequests := rfl
          rw [hcons] at hasks
          refine .inr ⟨hasks.of_cons hsrc, ?_⟩
          show (Tx.idle : Tx n).delay (s.filled T k' m).globals s.mc 0 k ≤ w
          refine le_trans ?_ hdelay
          show _ ≤ (Tx.told k' q a : Tx n).delay s.globals s.mc 0 k
          unfold Tx.delay
          rw [hcons, ahead_cons_ne hsrc]
          simp [Tx.weight, Tx.queue, Tx.request]

theorem MemStep.delay_le {tx : Tx n} {g g' : Globals} {mc mc' : MemoryController}
    (hstep : MemStep n tx g mc g' mc') :
    tx.queue g' = tx.queue g ∧
      tx.delay { g' with globalClock := g'.globalClock + 1 } mc' 1 k ≤ tx.delay g mc 0 k := by
  cases hstep with
  | idle busy => exact ⟨rfl, le_rfl⟩
  | started k' q a hcur hmc =>
      refine ⟨rfl, Nat.add_le_add_right ?_ _⟩
      rcases hd : g.bus.dataReply with - | d
      · simp [Tx.weight, hd, hmc, hitTime]
      · simp [Tx.weight, hd]
  | early k' q a hreply hmc htime =>
      refine ⟨rfl, Nat.add_le_add_right ?_ _⟩
      simp [Tx.weight, hreply, hmc]
      omega
  | expired k' q a hreply hmc htime haddr =>
      refine ⟨rfl, Nat.add_le_add_right ?_ _⟩
      simp [Tx.weight, hreply, hmc, Globals.reply, Globals.record]

/-- A cycle answers the request, or brings its answer closer. -/
theorem CycleSteps.delay_lt (hT : T.Lawful) (hsteps : CycleSteps T traces c c')
    (hasks : Asks k (c.tx.queue c.sim.globals)) :
    (∀ addr, T.waits (c'.sim.states addr k) = none) ∨
      Asks k (c'.tx.queue c'.sim.globals) ∧
        c'.tx.delay c'.sim.globals c'.sim.mc 1 k < c.tx.delay c.sim.globals c.sim.mc 1 k := by
  obtain ⟨c₁, c₂, g, hbus, hI₁, hcaches, htx, hmem, hclock, hstates⟩ := hsteps.steps
  obtain ⟨hasks₁, hlt⟩ := hbus.due hasks
  obtain ⟨hI₂, hdue⟩ := CacheStep.preserves hT
    (J := Due k (c₁.tx.delay c₁.sim.globals c₁.sim.mc 0 k)) (fun hstep _ h => hstep.due h)
    hcaches hI₁ (.inr ⟨hasks₁, le_rfl⟩)
  rcases hdue with ⟨a, ha⟩ | ⟨hasks₂, hle⟩
  · refine .inl fun addr => ?_
    rw [hstates]
    exact (hI₂.waits addr k).trans (by rw [ha]; rfl)
  · obtain ⟨hqueue, hmemle⟩ := hmem.delay_le (k := k)
    refine .inr ⟨?_, ?_⟩
    · rw [hclock, ← htx]
      show Asks k (c₂.tx.queue g)
      rw [hqueue]
      exact hasks₂
    · rw [hclock, ← htx]
      exact Nat.lt_of_le_of_lt (hmemle.trans hle) hlt

end Steps

/-! ### The longest wait -/

section Bound

variable {s : Simulator P n} {tx : Tx n} {stage : Fin n → Stage}

/-- A cache has at most one request on the bus. -/
theorem Inv.queue_length_le (h : Inv T traces s tx stage) : (tx.queue s.globals).length ≤ n := by
  have hsources : ∀ m ∈ tx.queue s.globals, ∃ i : Fin n, m.srcMid = .L1 i := by
    intro m hm
    rcases List.mem_append.mp hm with hm | hm
    · cases tx with
      | idle => cases hm
      | asked k q a seen =>
          obtain rfl := List.mem_singleton.mp hm
          exact ⟨k, busMreq_srcMid ..⟩
      | told k q a =>
          obtain rfl := List.mem_singleton.mp hm
          exact ⟨k, busMreq_srcMid ..⟩
    · exact h.sources m hm
  have hnodup : ((tx.queue s.globals).map Mreq.srcMid).Nodup := by
    rw [List.nodup_iff_count_le_one]
    intro mid
    by_cases hmid : ∃ i : Fin n, mid = .L1 i
    · obtain ⟨i, rfl⟩ := hmid
      rw [List.count_eq_countP, List.countP_map, List.countP_eq_length_filter]
      have hqueued := (h.nodes i).queued
      have hcount : ((tx.queue s.globals).filter fun m => m.srcMid = .L1 i).length ≤ 1 := by
        unfold Tx.queue
        rw [hqueued]
        cases stage i <;> simp [Stage.queue]
      refine le_trans (le_of_eq ?_) hcount
      congr 1
    · rw [List.count_eq_zero.mpr]
      · exact Nat.zero_le 1
      · intro hmem
        obtain ⟨m, hm, rfl⟩ := List.mem_map.mp hmem
        exact hmid (hsources m hm)
  have hsub : ((tx.queue s.globals).map Mreq.srcMid).toFinset ⊆
      Finset.univ.image fun i : Fin n => ModuleID.L1 i := by
    intro mid hmid
    obtain ⟨m, hm, rfl⟩ := List.mem_map.mp (List.mem_toFinset.mp hmid)
    obtain ⟨i, hi⟩ := hsources m hm
    exact Finset.mem_image.mpr ⟨i, Finset.mem_univ i, hi.symm⟩
  calc (tx.queue s.globals).length = ((tx.queue s.globals).map Mreq.srcMid).toFinset.card := by
        rw [List.toFinset_card_of_nodup hnodup, List.length_map]
    _ ≤ (Finset.univ.image fun i : Fin n => ModuleID.L1 i).card := Finset.card_le_card hsub
    _ ≤ n := Finset.card_image_le.trans_eq (Finset.card_fin n)

/-- The open transaction is over within the time of a memory lookup. -/
theorem Rest.weight_le {g : Globals} {mc : MemoryController} (h : Rest n g mc tx) :
    tx.weight g mc 1 ≤ hitTime + 3 := by
  cases h with
  | idle _ _ _ _ => exact Nat.zero_le _
  | waiting hask hreply hmc hlo hhi =>
      simp [Tx.weight, hreply, hmc]
      omega
  | cache j hask hreply hclock => simp [Tx.weight, hreply]
  | memory hask hreply hclock => simp [Tx.weight, hreply]

/-- The delay of a request is at most a whole transaction for each cache. -/
theorem Good.delay_le (h : Good T traces s tx stage) {k : Fin n}
    (hasks : Asks k (tx.queue s.globals)) :
    tx.delay s.globals s.mc 1 k ≤ (hitTime + 4) * n := by
  have hahead : ahead k (tx.queue s.globals) + 1 ≤ n :=
    (Nat.succ_le_of_lt hasks.ahead_lt).trans h.inv.queue_length_le
  have hmul : (hitTime + 4) * (ahead k (tx.queue s.globals) + 1) ≤ (hitTime + 4) * n :=
    Nat.mul_le_mul_left _ hahead
  have hweight := h.rest.weight_le
  unfold Tx.delay
  rw [Nat.mul_add] at hmul ⊢
  cases tx with
  | idle => simpa [Tx.weight, Tx.request] using hmul
  | asked k' q a seen =>
      rw [if_neg (by simp [Tx.request])]
      omega
  | told k' q a =>
      rw [if_neg (by simp [Tx.request])]
      omega

theorem Tx.delay_pos {g : Globals} {mc : MemoryController} {k : ℕ} : 0 < tx.delay g mc 1 k := by
  unfold Tx.delay
  cases tx with
  | idle =>
      have hnil : (Tx.idle : Tx n).request = [] := rfl
      rw [if_pos hnil]
      exact Nat.add_pos_right _ (Nat.mul_pos (Nat.succ_pos _) (Nat.succ_pos _))
  | asked k' q a seen =>
      refine Nat.add_pos_left ?_ _
      simp only [Tx.weight]
      split_ifs <;> omega
  | told k' q a => exact Nat.add_pos_left (Nat.succ_pos 1) _

/-- A cache that waits for the bus is answered within the delay of its request. -/
theorem Good.answered_within (hP : Implements P T) (hT : T.Lawful) (w : ℕ) {t : ℕ}
    (hs : Simulator.cycles P traces t = .ok s) (h : Good T traces s tx stage) {k : Fin n}
    (hasks : Asks k (tx.queue s.globals)) (hw : tx.delay s.globals s.mc 1 k ≤ w) :
    ∃ d s', d ≤ w ∧ Simulator.cycles P traces (t + d) = .ok s' ∧
      ∀ addr, T.waits (s'.states addr k) = none := by
  induction w generalizing s tx stage t with
  | zero => exact absurd (Nat.lt_of_lt_of_le Tx.delay_pos hw) (Nat.lt_irrefl 0)
  | succ w ih =>
      obtain ⟨s', hs', tx', stage', hsteps⟩ := h.cycle_steps hP hT
      have hcycles : Simulator.cycles P traces (t + 1) = .ok s' := by
        rw [Simulator.cycles, hs]
        exact hs'
      rcases hsteps.delay_lt hT hasks with hnone | ⟨hasks', hlt⟩
      · exact ⟨1, s', Nat.succ_le_succ (Nat.zero_le _), hcycles, hnone⟩
      · obtain ⟨d, s'', hd, hs'', hnone⟩ := ih hcycles hsteps.good hasks'
          (Nat.le_of_lt_succ (Nat.lt_of_lt_of_le hlt hw))
        refine ⟨d + 1, s'', Nat.succ_le_succ hd, ?_, hnone⟩
        rw [show t + (d + 1) = t + 1 + d by omega]
        exact hs''

end Bound

/-- **No processor starves.**  Whatever the others do, a cache that waits for the
bus is answered within a memory lookup and four cycles for each cache of the
system. -/
theorem bounded_waiting (p : ProtocolKind) {n : ℕ} (traces : Fin n → Trace) (t : ℕ) (i : Fin n) :
    ∃ d s, d ≤ (hitTime + 4) * n ∧ Simulator.cycles p.protocol traces (t + d) = .ok s ∧
      ∀ addr, p.table.waits (s.states addr i) = none := by
  obtain ⟨s, hs, tx, stage, h⟩ := Simulator.cycles_ends p.implements p.lawful traces t
  by_cases hasks : Asks i (tx.queue s.globals)
  · obtain ⟨d, s', hd, hs', hnone⟩ :=
      h.answered_within p.implements p.lawful _ hs hasks (h.delay_le hasks)
    exact ⟨d, s', hd, hs', hnone⟩
  · refine ⟨0, s, Nat.zero_le _, hs, fun addr => ?_⟩
    rw [h.inv.waits]
    have hqueued := (h.inv.nodes i).queued
    cases hst : stage i with
    | waiting op q a =>
        rw [hst] at hqueued
        have hmem : busMreq (.L1 i) q a ∈ tx.queue s.globals := by
          have hmem : busMreq (.L1 i) q a ∈ (tx.queue s.globals).filter
              fun m => m.srcMid = .L1 i := by
            unfold Tx.queue
            rw [hqueued]
            exact List.mem_singleton_self _
          exact (List.mem_filter.mp hmem).1
        exact absurd ⟨_, hmem, busMreq_srcMid ..⟩ hasks
    | _ => rfl

/-! ### The run time -/

section Time

variable {c c' : Config P n} {s s' : Simulator P n} {tx : Tx n} {stage : Fin n → Stage}

theorem BusStep.clock (hstep : BusStep c c') :
    c'.sim.globals.globalClock = c.sim.globals.globalClock := by
  cases hstep <;> rfl

theorem CacheStep.clock (hstep : CacheStep T c c') :
    c'.sim.globals.globalClock = c.sim.globals.globalClock := by
  cases hstep with
  | served i op a hst hhit => exact Simulator.served_clock
  | queued i op q a hst hmiss => rfl
  | observed i k q a hcur hmc => exact Simulator.observed_clock
  | filled k op q a m hst hcur hm haddr => rfl

theorem MemStep.clock {g g' : Globals} {mc mc' : MemoryController}
    (hstep : MemStep n tx g mc g' mc') : g'.globalClock = g.globalClock := by
  cases hstep <;> rfl

/-- The clock counts the cycles. -/
theorem CycleSteps.clock (hT : T.Lawful) (hsteps : CycleSteps T traces c c') :
    c'.sim.globals.globalClock = c.sim.globals.globalClock + 1 := by
  obtain ⟨c₁, c₂, g, hbus, hI₁, hcaches, -, hmem, hclock, -⟩ := hsteps.steps
  obtain ⟨-, h₂⟩ := CacheStep.preserves hT
    (J := fun c₂ => c₂.sim.globals.globalClock = c.sim.globals.globalClock)
    (fun hstep _ h => hstep.clock.trans h) hcaches hI₁ hbus.clock
  rw [hclock]
  exact congrArg (· + 1) (hmem.clock.trans h₂)

/-- The main loop ends after `k` cycles. -/
def EndsAfter (k : ℕ) (s s' : Simulator P n) : Prop :=
  (∀ fuel < k, s.run fuel = .ok none) ∧ (∀ fuel, k ≤ fuel → s.run fuel = .ok (some s')) ∧
    s'.globals.globalClock = s.globals.globalClock + k

theorem EndsAfter.last (hs : s.cycle = .ok s') (hdone : s'.done = true)
    (hclock : s'.globals.globalClock = s.globals.globalClock + 1) : EndsAfter 1 s s' := by
  refine ⟨?_, ?_, hclock⟩
  · intro fuel hfuel
    obtain rfl := Nat.lt_one_iff.mp hfuel
    rfl
  · intro fuel hfuel
    obtain ⟨fuel, rfl⟩ := Nat.exists_eq_succ_of_ne_zero (Nat.pos_iff_ne_zero.mp hfuel)
    rw [Simulator.run_step hs, if_pos hdone]

theorem EndsAfter.step {k : ℕ} {s'' : Simulator P n} (hs : s.cycle = .ok s')
    (hdone : s'.done = false) (hclock : s'.globals.globalClock = s.globals.globalClock + 1)
    (h : EndsAfter k s' s'') : EndsAfter (k + 1) s s'' := by
  obtain ⟨hearly, hlate, hend⟩ := h
  refine ⟨?_, ?_, by omega⟩
  · rintro (- | fuel) hfuel
    · rfl
    · rw [Simulator.run_step hs, hdone]
      exact hearly fuel (Nat.lt_of_succ_lt_succ hfuel)
  · rintro (- | fuel) hfuel
    · exact absurd hfuel (Nat.not_succ_le_zero k)
    · rw [Simulator.run_step hs, hdone]
      exact hlate fuel (Nat.le_of_succ_le_succ hfuel)

/-- A run that is not done ends within its weight. -/
theorem Good.endsAfter (hP : Implements P T) (hT : T.Lawful) (w : ℕ) {s : Simulator P n}
    {tx : Tx n} {stage : Fin n → Stage} (h : Good T traces s tx stage) (hdone : s.done = false)
    (hw : s.weight tx 1 ≤ w) : ∃ k s', k ≤ w ∧ EndsAfter k s s' := by
  induction w generalizing s tx stage with
  | zero =>
      obtain ⟨s', hs', tx', stage', h', -, hlt⟩ := h.cycle hP hT
      exact absurd (Nat.lt_of_lt_of_le (hlt hdone) hw) (Nat.not_lt_zero _)
  | succ w ih =>
      obtain ⟨s', hs', tx', stage', h', -, hlt⟩ := h.cycle hP hT
      obtain ⟨tx₁, stage₁, hsteps⟩ := (h.cycle_steps hP hT).of_ok hs'
      have hclock := hsteps.clock hT
      rcases hd : s'.done with - | -
      · obtain ⟨k, s'', hk, hends⟩ := ih h' hd
          (Nat.le_of_lt_succ (Nat.lt_of_lt_of_le (hlt hdone) hw))
        exact ⟨k + 1, s'', Nat.succ_le_succ hk, hends.step hs' hd hclock⟩
      · exact ⟨1, s', Nat.succ_le_succ (Nat.zero_le w), .last hs' hd hclock⟩

end Time

theorem Simulator.weight_new (traces : Fin n → Trace) : (Simulator.new P traces).weight .idle 1 =
    ∑ i, ((hitTime + 6) * (traces i).lines.length + 1) := by
  simp [Simulator.weight, Simulator.new, Globals.new, Tx.weight, Node.rank, Processor.new,
    HashTable.new, Bus.new]

/-- **`Simulator::run` ends after as many cycles as the clock shows, and no
operation costs more than a memory lookup and six cycles.** -/
theorem run_time_le (p : ProtocolKind) {n : ℕ} (traces : Fin n → Trace) :
    ∃ k s, (∀ fuel < k, (Simulator.new p.protocol traces).run fuel = .ok none) ∧
      (∀ fuel, k ≤ fuel → (Simulator.new p.protocol traces).run fuel = .ok (some s)) ∧
      s.globals.globalClock = k ∧
      k ≤ ∑ i, ((hitTime + 6) * (traces i).lines.length + 1) + 1 := by
  have hinit := Good.init p.implements p.lawful traces
  obtain ⟨s, hs, tx, stage, h, -, hlt⟩ := hinit.cycle p.implements p.lawful
  obtain ⟨tx', stage', hsteps⟩ := (hinit.cycle_steps p.implements p.lawful).of_ok hs
  have hclock := hsteps.clock p.lawful
  rcases hd : s.done with - | -
  · -- there is a processor, and it was not done at the start
    have hnew : (Simulator.new p.protocol traces).done = false := by
      simp only [Simulator.done, decide_eq_false_iff_not, not_forall] at hd ⊢
      obtain ⟨i, -⟩ := hd
      exact ⟨i, by simp [Simulator.new, Processor.new, Processor.done]⟩
    have hweight := hlt hnew
    rw [Simulator.weight_new] at hweight
    obtain ⟨k, s', hk, hends⟩ := h.endsAfter p.implements p.lawful _ hd le_rfl
    obtain ⟨hearly, hlate, hend⟩ := hends.step hs hd hclock
    refine ⟨k + 1, s', hearly, hlate, ?_, by omega⟩
    rw [hend]
    exact Nat.zero_add _
  · obtain ⟨hearly, hlate, hend⟩ := EndsAfter.last hs hd hclock
    refine ⟨1, s, hearly, hlate, ?_, Nat.succ_le_succ (Nat.zero_le _)⟩
    rw [hend]
    exact Nat.zero_add _

end ProjectArchive.Coherence
