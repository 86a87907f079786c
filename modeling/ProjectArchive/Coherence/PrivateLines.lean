/-
ProjectArchive/Coherence/PrivateLines.lean

Traces without sharing.

When no line is accessed by two processors, the history of a line at its only
user depends on the operations of that processor alone, whatever else happens
on the bus: nobody supplies data, nobody raises the shared line, and a snooped
request changes no state.  `Undisturbed` is that statement, move by move; the
statistics of a run then are tallies over the traces, and the five protocols
can be compared.
-/
import ProjectArchive.Coherence.Statistics
import ProjectArchive.Library.SnoopPrivate

namespace ProjectArchive.Coherence

open SnoopLine Exec

variable {P : Protocol} {T : Table P.State} {n : ℕ} {traces : Fin n → Trace}

/-! ### Private traces -/

/-- The lines a trace accesses. -/
def Trace.linesOf (t : Trace) : Finset Paddr := (t.lines.map fun l => lineOf l.2).toFinset

/-- The accesses of a trace to one line. -/
def Trace.accesses (t : Trace) (a : Paddr) : List TraceLine := t.lines.filter fun l => lineOf l.2 = a

/-- The lines whose first access is a load and that are later stored to. -/
def Trace.upgradedLines (t : Trace) : Finset Paddr :=
  t.linesOf.filter fun a =>
    (t.accesses a).head?.map Prod.fst = some 'r' ∧ ∃ l ∈ t.accesses a, l.1 = 'w'

/-- No line is accessed by two processors. -/
def PrivateTraces (traces : Fin n → Trace) : Prop :=
  ∀ i j, i ≠ j → Disjoint (traces i).linesOf (traces j).linesOf

/-- The number of distinct lines. -/
def distinctLines (traces : Fin n → Trace) : ℕ :=
  (Finset.univ.biUnion fun i => (traces i).linesOf).card

/-- The number of lines whose first access is a load and that are later stored to. -/
def upgradableLines (traces : Fin n → Trace) : ℕ :=
  (Finset.univ.biUnion fun i => (traces i).upgradedLines).card

/-! ### Private tables -/

/-- The states of a private line under MI. -/
def MI.privateState : Touch → MI.State
  | .untouched => .I
  | _ => .M

/-- The states of a private line under MSI. -/
def MSI.privateState : Touch → MSI.State
  | .untouched => .I
  | .loaded => .S
  | .stored => .M

/-- The states of a private line under MESI. -/
def MESI.privateState : Touch → MESI.State
  | .untouched => .I
  | .loaded => .E
  | .stored => .M

/-- The states of a private line under MOSI. -/
def MOSI.privateState : Touch → MOSI.State
  | .untouched => .I
  | .loaded => .S
  | .stored => .M

/-- The states of a private line under MOESIF. -/
def MOESIF.privateState : Touch → MOESIF.State
  | .untouched => .I
  | .loaded => .E
  | .stored => .M

theorem MI.table_private : MI.table.Private MI.privateState := by
  constructor
  all_goals try (intro t; cases t)
  all_goals try (intro op; cases op)
  all_goals try (intro q; cases q)
  all_goals decide

theorem MSI.table_private : MSI.table.Private MSI.privateState := by
  constructor
  all_goals try (intro t; cases t)
  all_goals try (intro op; cases op)
  all_goals try (intro q; cases q)
  all_goals decide

theorem MESI.table_private : MESI.table.Private MESI.privateState := by
  constructor
  all_goals try (intro t; cases t)
  all_goals try (intro op; cases op)
  all_goals try (intro q; cases q)
  all_goals decide

theorem MOSI.table_private : MOSI.table.Private MOSI.privateState := by
  constructor
  all_goals try (intro t; cases t)
  all_goals try (intro op; cases op)
  all_goals try (intro q; cases q)
  all_goals decide

theorem MOESIF.table_private : MOESIF.table.Private MOESIF.privateState := by
  constructor
  all_goals try (intro t; cases t)
  all_goals try (intro op; cases op)
  all_goals try (intro q; cases q)
  all_goals decide

/-! Which operations on private lines miss. -/

theorem MI.misses_private (t : Touch) (op : Access) :
    MI.table.misses MI.privateState t op = decide (t = .untouched) := by
  cases t <;> cases op <;> rfl

theorem MSI.misses_private (t : Touch) (op : Access) :
    MSI.table.misses MSI.privateState t op = (decide (t = .untouched) || t.upgrades op) := by
  cases t <;> cases op <;> rfl

theorem MESI.misses_private (t : Touch) (op : Access) :
    MESI.table.misses MESI.privateState t op = decide (t = .untouched) := by
  cases t <;> cases op <;> rfl

theorem MOSI.misses_private (t : Touch) (op : Access) :
    MOSI.table.misses MOSI.privateState t op = (decide (t = .untouched) || t.upgrades op) := by
  cases t <;> cases op <;> rfl

theorem MOESIF.misses_private (t : Touch) (op : Access) :
    MOESIF.table.misses MOESIF.privateState t op = decide (t = .untouched) := by
  cases t <;> cases op <;> rfl

theorem MESI.silent_private (t : Touch) (op : Access) :
    MESI.table.silent (MESI.privateState t) op = t.upgrades op := by
  cases t <;> cases op <;> rfl

theorem MOESIF.silent_private (t : Touch) (op : Access) :
    MOESIF.table.silent (MOESIF.privateState t) op = t.upgrades op := by
  cases t <;> cases op <;> rfl

/-! ### The operations a cache has taken -/

/-- The access of a processor's request. -/
def opOf : Message → Access
  | .LOAD => .read
  | _ => .write

@[simp] theorem opOf_opMessage (op : Access) : opOf (opMessage op) = op := by
  cases op <;> rfl

/-- The operations cache `i` has taken, newest first. -/
def taken (i : ℕ) (log : List Event) : List (Paddr × Access) :=
  (accepts (.L1 i) log).reverse.map fun m => (m.addr, opOf m.msg)

/-- The operations of a trace, newest first. -/
def Trace.history (t : Trace) : List (Paddr × Access) :=
  t.lines.reverse.map fun l => (lineOf l.2, TraceLine.access l)

section Taken

variable {s : Simulator P n} {tx : Tx n} {stage : Fin n → Stage} {i j : ℕ} {log : List Event}
  {op : Access} {a : LineAddr}

theorem taken_accepted_self :
    taken i (.accepted (.L1 i) (opMreq i op a) :: log) = (a.1, op) :: taken i log := by
  simp [taken, accepts]

theorem taken_accepted_ne (m : Mreq) (h : j ≠ i) :
    taken j (.accepted (.L1 i) m :: log) = taken j log := by
  simp [taken, accepts, h.symm]

theorem TraceLine.mreq_addr (i : ℕ) (l : TraceLine) : (TraceLine.mreq i l).addr = lineOf l.2 :=
  opMreq_addr i (TraceLine.access l) (TraceLine.line l)

theorem Trace.map_mreq (t : Trace) (i : ℕ) :
    ((t.lines.map (TraceLine.mreq i)).reverse.map fun m => (m.addr, opOf m.msg)) = t.history := by
  rw [Trace.history, ← List.map_reverse, List.map_map]
  apply List.map_congr_left
  intro l _
  exact Prod.ext (TraceLine.mreq_addr i l) (opOf_opMessage (TraceLine.access l))

theorem Trace.map_fst_history (t : Trace) :
    (t.history.map Prod.fst).toFinset = t.linesOf := by
  ext a
  simp [Trace.history, Trace.linesOf]

/-- A cache takes only operations of its trace. -/
theorem Inv.taken_subset (h : Inv T traces s tx stage) (i : Fin n) {a : Paddr}
    (ha : a ∈ (taken i s.globals.log).map Prod.fst) : a ∈ (traces i).linesOf := by
  have hsub : accepts (.L1 i) s.globals.log ⊆ (traces i).lines.map (TraceLine.mreq i) := by
    rw [(h.nodes i).ledger, List.append_assoc]
    exact List.subset_append_left _ _
  simp only [taken, List.map_map, List.mem_map, List.mem_reverse] at ha
  obtain ⟨m, hm, rfl⟩ := ha
  obtain ⟨l, hl, rfl⟩ := List.mem_map.mp (hsub hm)
  simp only [Trace.linesOf, List.mem_toFinset, List.mem_map]
  exact ⟨l, hl, (TraceLine.mreq_addr i l).symm⟩

end Taken

/-! ### Undisturbed lines -/

/-- Every line at every cache is as the operations of that cache left it, and
the counters are tallies over these operations. -/
structure Undisturbed (T : Table P.State) (st : Touch → P.State) (s : Simulator P n) : Prop where
  shared : s.globals.bus.sharedLine = false
  transfers : s.globals.cacheToCacheTransfers = 0
  lines : ∀ (i : Fin n) a, PrivateState T st (s.states a i) (opsAt a (taken i s.globals.log))
  misses : s.globals.cacheMisses = ∑ i : Fin n, tally (T.misses st) (taken i s.globals.log)
  silent : s.globals.silentUpgrades =
    ∑ i : Fin n, tally (fun t op => T.silent (st t) op) (taken i s.globals.log)

/-- A tally after one more operation of processor `i`. -/
theorem sum_tally_accepted (f : Touch → Access → Bool) (i : Fin n) (op : Access) (a : LineAddr)
    (log : List Event) :
    ∑ j : Fin n, tally f (taken j (.accepted (.L1 i) (opMreq i op a) :: log)) =
      ∑ j : Fin n, tally f (taken j log) +
        if f (touch (opsAt a.1 (taken i log))) op then 1 else 0 := by
  have hone : ∀ b : ℕ, ∑ j : Fin n, (if j = i then b else 0) = b := fun b => by simp
  rw [← hone (if f (touch (opsAt a.1 (taken i log))) op then 1 else 0), ← Finset.sum_add_distrib]
  apply Finset.sum_congr rfl
  intro j _
  rcases eq_or_ne j i with rfl | hj
  · rw [taken_accepted_self, if_pos rfl]
    rfl
  · rw [taken_accepted_ne _ (Fin.val_ne_of_ne hj), if_neg hj]
    rfl

section Undisturbed

variable {st : Touch → P.State} {s s' : Simulator P n} {tx : Tx n} {stage : Fin n → Stage}
  {i k : Fin n} {m : Mreq} {op q : Access} {a : LineAddr}

theorem Undisturbed.new (hP : Implements P T) (hst : T.Private st) (traces : Fin n → Trace) :
    Undisturbed T st (.new P traces) where
  shared := rfl
  transfers := rfl
  lines i a := by
    have hinit : (Simulator.new P traces).states a i = T.init := by
      show (AList.lookup a (∅ : AList fun _ : Paddr => P.State)).getD P.init = T.init
      rw [AList.lookup_empty, Option.getD_none, hP.init]
    rw [hinit]
    exact .init hst
  misses := by simp [Simulator.new, Globals.new, taken, accepts, tally]
  silent := by simp [Simulator.new, Globals.new, taken, accepts, tally]

/-- What neither counts nor takes an operation nor changes a state disturbs nothing. -/
theorem Undisturbed.frame (h : Undisturbed T st s)
    (hshared : s'.globals.bus.sharedLine = false)
    (hcounters : s'.globals.counters = s.globals.counters)
    (hstates : ∀ b, s'.states b = s.states b)
    (htaken : ∀ j : Fin n, taken j s'.globals.log = taken j s.globals.log) :
    Undisturbed T st s' := by
  simp only [Globals.counters, Counters.mk.injEq] at hcounters
  obtain ⟨hmisses, -, hsilent, htransfers⟩ := hcounters
  refine ⟨hshared, htransfers.trans h.transfers, ?_, ?_, ?_⟩
  · intro j b
    rw [hstates, htaken]
    exact h.lines j b
  · simp only [hmisses, htaken]
    exact h.misses
  · simp only [hsilent, htaken]
    exact h.silent

/-- Taking an operation changes one line of one cache. -/
theorem Undisturbed.lines_update (h : Undisturbed T st s) (i : Fin n) (op : Access) (a : LineAddr)
    (hself : s'.states a = Function.update (s.states a) i (T.request (s.states a i) op).1)
    (hother : ∀ b, b ≠ a.1 → s'.states b = s.states b)
    (htaken : ∀ j : Fin n, taken j s'.globals.log =
      taken j (.accepted (.L1 i) (opMreq i op a) :: s.globals.log))
    (hnew : PrivateState T st (T.request (s.states a i) op).1
      (op :: opsAt a.1 (taken i s.globals.log))) (j : Fin n) (b : Paddr) :
    PrivateState T st (s'.states b j) (opsAt b (taken j s'.globals.log)) := by
  rw [htaken]
  rcases eq_or_ne j i with rfl | hj
  · rw [taken_accepted_self]
    rcases eq_or_ne b a.1 with rfl | hb
    · rw [hself, Function.update_self, opsAt_cons_self]
      exact hnew
    · rw [hother b hb, opsAt_cons_ne hb]
      exact h.lines j b
  · rw [taken_accepted_ne _ (Fin.val_ne_of_ne hj)]
    rcases eq_or_ne b a.1 with rfl | hb
    · rw [hself, Function.update_of_ne hj]
      exact h.lines j a
    · rw [hother b hb]
      exact h.lines j b

theorem Undisturbed.served (hst : T.Private st) (h : Undisturbed T st s)
    (hw : T.waits (s.states a i) = none) (hhit : (T.request (s.states a i) op).2 = none) :
    Undisturbed T st (s.served T i (opMreq i op a) op) := by
  have haddr : (opMreq i op a).addr = a := opMreq_addr i op a
  have hx := (h.lines i a).eq_of_waits hst hw
  have hc := Simulator.served_counters T s i (opMreq i op a) op
  simp only [Globals.counters, Counters.mk.injEq] at hc
  obtain ⟨hmisses, -, hsilent, htransfers⟩ := hc
  have htaken : ∀ j : Fin n, taken j (s.served T i (opMreq i op a) op).globals.log =
      taken j (.accepted (.L1 i) (opMreq i op a) :: s.globals.log) := by
    intro j
    rw [Simulator.served_log]
    rfl
  refine ⟨?_, htransfers.trans h.transfers, ?_, ?_, ?_⟩
  · rw [Simulator.served_bus]
    exact h.shared
  · apply h.lines_update i op a ?_ ?_ htaken
      ((h.lines i a).hit hst hw hhit)
    · have hself : (s.served T i (opMreq i op a) op).states (opMreq i op a).addr = _ :=
        Simulator.served_states_self
      rwa [haddr] at hself
    · intro b hb
      exact Simulator.served_states_ne (haddr.symm ▸ hb)
  · have hhit' : T.misses st (touch (opsAt a.1 (taken i s.globals.log))) op = false := by
      rw [Table.misses, ← hx, hhit]
      rfl
    simp only [hmisses, htaken]
    rw [sum_tally_accepted, hhit']
    exact h.misses
  · simp only [hsilent, htaken]
    rw [sum_tally_accepted, ← h.silent, haddr, hx]

theorem Undisturbed.queued (hst : T.Private st) (h : Undisturbed T st s)
    (hw : T.waits (s.states a i) = none) (hmiss : (T.request (s.states a i) op).2 = some q)
    (hsilent : ∀ t op, T.misses st t op → T.silent (st t) op = false) :
    Undisturbed T st (s.queued T i (opMreq i op a) op q) := by
  have haddr : (opMreq i op a).addr = a := opMreq_addr i op a
  have hx := (h.lines i a).eq_of_waits hst hw
  have htaken : ∀ j : Fin n, taken j (s.queued T i (opMreq i op a) op q).globals.log =
      taken j (.accepted (.L1 i) (opMreq i op a) :: s.globals.log) := fun _ => rfl
  have hmiss' : T.misses st (touch (opsAt a.1 (taken i s.globals.log))) op = true := by
    rw [Table.misses, ← hx, hmiss]
    rfl
  refine ⟨h.shared, h.transfers, ?_, ?_, ?_⟩
  · apply h.lines_update i op a ?_ ?_ htaken
      ((h.lines i a).miss hst hw hmiss)
    · have hself : (s.queued T i (opMreq i op a) op q).states (opMreq i op a).addr = _ :=
        Simulator.queued_states_self
      rwa [haddr] at hself
    · intro b hb
      exact Simulator.queued_states_ne (haddr.symm ▸ hb)
  · simp only [htaken]
    rw [sum_tally_accepted, hmiss']
    exact congrArg (· + 1) h.misses
  · simp only [htaken]
    rw [sum_tally_accepted, hsilent _ _ hmiss']
    exact h.silent

/-- A request on the bus is nobody's business but the requester's, and the
requester does not react to it. -/
theorem Undisturbed.observe_eq (hst : T.Private st) (htr : PrivateTraces traces)
    (hI : Inv T traces s tx stage) (h : Undisturbed T st s)
    (hw : T.waits (s.states a k) = some q) :
    T.observe (s.states a i) q = s.states a i ∧ T.supplies (s.states a i) = false ∧
      T.asserts (s.states a i) q = false := by
  rcases eq_or_ne i k with rfl | hik
  · exact (h.lines i a).observe_own hst hw
  · have hk : a.1 ∈ (taken k s.globals.log).map Prod.fst := by
      by_contra hmem
      exact (h.lines k a).ne_nil hst hw (opsAt_eq_nil.mpr hmem)
    have hi : a.1 ∉ (taken i s.globals.log).map Prod.fst := fun hi =>
      Finset.disjoint_left.mp (htr i k hik) (hI.taken_subset i hi) (hI.taken_subset k hk)
    have hline := h.lines i a
    rw [opsAt_eq_nil.mpr hi] at hline
    exact hline.observe_other hst q

theorem Undisturbed.observed (hst : T.Private st) (htr : PrivateTraces traces)
    (hI : Inv T traces s tx stage) (h : Undisturbed T st s)
    (hw : T.waits (s.states a k) = some q) :
    Undisturbed T st (s.observed T i (busMreq (.L1 k) q a) q) := by
  have haddr : (busMreq (.L1 k) q a).addr = a := busMreq_addr _ q a
  obtain ⟨hobserve, hsupplies, hasserts⟩ := h.observe_eq (i := i) hst htr hI hw
  apply h.frame
  · rw [Simulator.observed_bus, haddr, hasserts, Bool.or_false]
    exact h.shared
  · rw [Simulator.observed_counters, haddr, hsupplies]
    rfl
  · intro b
    rcases eq_or_ne b (busMreq (.L1 k) q a).addr with rfl | hb
    · rw [Simulator.observed_states_self, haddr, hobserve, Function.update_eq_self]
    · exact Simulator.observed_states_ne hb
  · intro j
    rw [Simulator.observed_log, observedEvents, haddr, hsupplies]
    rfl

theorem Undisturbed.filled (hst : T.Private st) (h : Undisturbed T st s)
    (hw : T.waits (s.states m.addr k) = some q) : Undisturbed T st (s.filled T k m) := by
  refine ⟨h.shared, h.transfers, ?_, h.misses, h.silent⟩
  intro j b
  show PrivateState T st _ (opsAt b (taken j s.globals.log))
  rcases eq_or_ne b m.addr with rfl | hb
  · rw [Simulator.filled_states_self, h.shared]
    rcases eq_or_ne j k with rfl | hj
    · rw [Function.update_self]
      exact (h.lines j m.addr).fill hst hw
    · rw [Function.update_of_ne hj]
      exact h.lines j m.addr
  · rw [Simulator.filled_states_ne hb]
    exact h.lines j b

/-- **Foreign traffic never disturbs a private line.** -/
theorem Undisturbed.preserved (hst : T.Private st)
    (hsilent : ∀ t op, T.misses st t op → T.silent (st t) op = false)
    (htr : PrivateTraces traces) : Preserves T traces (Undisturbed T st) := by
  intro s s' tx stage hI hmove h
  cases hmove with
  | quiet => exact h
  | served i op a hw hhit => exact h.served hst hw hhit
  | queued i op q a hw hmiss => exact h.queued hst hw hmiss hsilent
  | observed i k q a hw _ _ => exact h.observed hst htr hI hw
  | filled k q m hw _ => exact h.filled hst hw
  | node i nd hentries =>
      exact h.frame h.shared rfl (Simulator.setNode_states hentries) fun _ => rfl
  | grantRequest k q a rest _ _ _ => exact h.frame rfl rfl (fun _ => rfl) fun _ => rfl
  | grantData m _ _ _ => exact h.frame h.shared rfl (fun _ => rfl) fun _ => rfl
  | grantNothing => exact h.frame h.shared rfl (fun _ => rfl) fun _ => rfl
  | lookedUp _ _ => exact h.frame h.shared rfl (fun _ => rfl) fun _ => rfl
  | controller mc => exact h.frame h.shared rfl (fun _ => rfl) fun _ => rfl
  | advance => exact h.frame h.shared rfl (fun _ => rfl) fun _ => rfl

end Undisturbed

/-! ### Counting lines -/

theorem opsAt_history (t : Trace) (a : Paddr) :
    opsAt a t.history = (t.accesses a).reverse.map TraceLine.access := by
  simp [opsAt, Trace.history, Trace.accesses, List.filter_map, Function.comp_def]

/-- The upgrades of a history are those of its trace. -/
theorem Trace.upgradedLines_history (t : Trace) :
    SnoopLine.upgradedLines t.history = t.upgradedLines := by
  have hop : ∀ {a} {l : TraceLine}, l ∈ t.accesses a → (TraceLine.access l = .write ↔ l.1 = 'w') := by
    intro a l hl
    rcases t.operations l (List.mem_of_mem_filter hl) with h | h <;> simp [TraceLine.access, h]
  have hread : ∀ {l : TraceLine}, TraceLine.access l = .read ↔ l.1 = 'r' := by
    intro l
    by_cases h : l.1 = 'r' <;> simp [TraceLine.access, h]
  ext a
  rw [SnoopLine.upgradedLines, Trace.upgradedLines, Trace.map_fst_history, Finset.mem_filter,
    Finset.mem_filter]
  apply and_congr_right
  intro _
  rw [Upgraded, opsAt_history, List.map_reverse, List.getLast?_reverse, List.mem_reverse,
    List.head?_map]
  apply and_congr
  · rcases (t.accesses a).head? with - | l
    · simp
    · simpa using hread
  · rw [List.mem_map]
    constructor
    · rintro ⟨l, hl, hw⟩
      exact ⟨l, hl, (hop hl).mp hw⟩
    · rintro ⟨l, hl, hw⟩
      exact ⟨l, hl, (hop hl).mpr hw⟩

theorem sum_tally_untouched (h : PrivateTraces traces) :
    ∑ i, tally (fun t _ => t = .untouched) (traces i).history = distinctLines traces := by
  rw [distinctLines, Finset.card_biUnion fun i _ j _ hij => h i j hij]
  apply Finset.sum_congr rfl
  intro i _
  rw [tally_untouched, Trace.map_fst_history]

theorem sum_tally_upgrades (h : PrivateTraces traces) {f : Touch → Access → Bool}
    (hf : ∀ t op, f t op = t.upgrades op) :
    ∑ i, tally f (traces i).history = upgradableLines traces := by
  have hsub : ∀ i, (traces i).upgradedLines ⊆ (traces i).linesOf := fun i =>
    Finset.filter_subset _ _
  rw [upgradableLines, Finset.card_biUnion fun i _ j _ hij =>
    (h i j hij).mono (hsub i) (hsub j)]
  apply Finset.sum_congr rfl
  intro i _
  rw [tally_congr hf, tally_upgrades, Trace.upgradedLines_history]

/-! ### The statistics of private traces -/

/-- A run on private traces ends with the tallies of the traces. -/
theorem Implements.private_run {st : Touch → P.State} (hP : Implements P T) (hT : T.Lawful)
    (hst : T.Private st) (hsilent : ∀ t op, T.misses st t op → T.silent (st t) op = false)
    (htr : PrivateTraces traces) :
    ∃ N s, (∀ fuel, N ≤ fuel → (Simulator.new P traces).run fuel = .ok (some s)) ∧
      s.globals.cacheToCacheTransfers = 0 ∧
      s.globals.cacheMisses = ∑ i, tally (T.misses st) (traces i).history ∧
      s.globals.silentUpgrades = ∑ i, tally (fun t op => T.silent (st t) op) (traces i).history := by
  obtain ⟨N, s, tx, stage, hrun, hdone, h, hU⟩ :=
    run_ends_with hP hT (Undisturbed.preserved hst hsilent htr) (Undisturbed.new hP hst traces)
  have htaken : ∀ i : Fin n, taken i s.globals.log = (traces i).history := by
    intro i
    rw [taken, h.accepts_eq hdone i]
    exact (traces i).map_mreq i
  refine ⟨N, s, hrun, hU.transfers, ?_, ?_⟩
  · rw [hU.misses]
    exact Finset.sum_congr rfl fun i _ => by rw [htaken]
  · rw [hU.silent]
    exact Finset.sum_congr rfl fun i _ => by rw [htaken]

/-- A protocol whose only misses on private lines are the first operations. -/
theorem Implements.private_first {st : Touch → P.State} (hP : Implements P T) (hT : T.Lawful)
    (hst : T.Private st) (hmisses : ∀ t op, T.misses st t op = decide (t = .untouched))
    (hsilent : ∀ op, T.silent (st .untouched) op = false) (htr : PrivateTraces traces) :
    ∃ N s, (∀ fuel, N ≤ fuel → (Simulator.new P traces).run fuel = .ok (some s)) ∧
      s.globals.cacheToCacheTransfers = 0 ∧ s.globals.cacheMisses = distinctLines traces ∧
      s.globals.silentUpgrades = ∑ i, tally (fun t op => T.silent (st t) op) (traces i).history := by
  have hs : ∀ t op, T.misses st t op → T.silent (st t) op = false := by
    intro t op hm
    rw [hmisses, decide_eq_true_eq] at hm
    rw [hm, hsilent]
  obtain ⟨N, s, hrun, htransfers, hm, hu⟩ := hP.private_run hT hst hs htr
  refine ⟨N, s, hrun, htransfers, ?_, hu⟩
  rw [hm, ← sum_tally_untouched htr]
  exact Finset.sum_congr rfl fun i _ => tally_congr hmisses _

/-- A protocol that misses on private lines also for every upgrade. -/
theorem Implements.private_upgrades {st : Touch → P.State} (hP : Implements P T) (hT : T.Lawful)
    (hst : T.Private st)
    (hmisses : ∀ t op, T.misses st t op = (decide (t = .untouched) || t.upgrades op))
    (hsilent : ∀ t op, T.silent (st t) op = false) (htr : PrivateTraces traces) :
    ∃ N s, (∀ fuel, N ≤ fuel → (Simulator.new P traces).run fuel = .ok (some s)) ∧
      s.globals.cacheToCacheTransfers = 0 ∧
      s.globals.cacheMisses = distinctLines traces + upgradableLines traces := by
  obtain ⟨N, s, hrun, htransfers, hm, -⟩ :=
    hP.private_run hT hst (fun t op _ => hsilent t op) htr
  refine ⟨N, s, hrun, htransfers, ?_⟩
  have hexcl : ∀ (t : Touch) (op : Access),
      ¬ (decide (t = .untouched) = true ∧ t.upgrades op = true) := by
    intro t op
    cases t <;> simp [Touch.upgrades]
  rw [hm, ← sum_tally_untouched htr, ← sum_tally_upgrades htr fun _ _ => rfl,
    ← Finset.sum_add_distrib]
  apply Finset.sum_congr rfl
  intro i _
  rw [tally_congr hmisses, tally_or hexcl]

/-- **On private traces no cache supplies another, and the protocols differ
only in how they account for the first store to a line that was loaded: a miss
under MSI and MOSI, a silent upgrade under MESI and MOESIF, nothing under MI.** -/
theorem private_traces_statistics {n : ℕ} (traces : Fin n → Trace) (h : PrivateTraces traces) :
    ∃ N, ∃ s : ∀ p : ProtocolKind, Simulator p.protocol n,
      (∀ p fuel, N ≤ fuel → (Simulator.new p.protocol traces).run fuel = .ok (some (s p))) ∧
      (∀ p, (s p).globals.cacheToCacheTransfers = 0) ∧
      (∀ p, p = .MI_PRO ∨ p = .MESI_PRO ∨ p = .MOESIF_PRO →
        (s p).globals.cacheMisses = distinctLines traces) ∧
      (∀ p, p = .MSI_PRO ∨ p = .MOSI_PRO →
        (s p).globals.cacheMisses = distinctLines traces + upgradableLines traces) ∧
      (∀ p, p = .MESI_PRO ∨ p = .MOESIF_PRO →
        (s p).globals.silentUpgrades = upgradableLines traces) ∧
      (s .MSI_PRO).globals.cacheMisses =
        (s .MESI_PRO).globals.cacheMisses + (s .MESI_PRO).globals.silentUpgrades := by
  obtain ⟨N₁, s₁, hrun₁, ht₁, hm₁, -⟩ := MI.implements.private_first MI.table_lawful
    MI.table_private MI.misses_private (fun _ => rfl) h
  obtain ⟨N₂, s₂, hrun₂, ht₂, hm₂⟩ := MSI.implements.private_upgrades MSI.table_lawful
    MSI.table_private MSI.misses_private (fun _ _ => rfl) h
  obtain ⟨N₃, s₃, hrun₃, ht₃, hm₃, hu₃⟩ := MESI.implements.private_first MESI.table_lawful
    MESI.table_private MESI.misses_private (fun op => MESI.silent_private .untouched op) h
  obtain ⟨N₄, s₄, hrun₄, ht₄, hm₄⟩ := MOSI.implements.private_upgrades MOSI.table_lawful
    MOSI.table_private MOSI.misses_private (fun _ _ => rfl) h
  obtain ⟨N₅, s₅, hrun₅, ht₅, hm₅, hu₅⟩ := MOESIF.implements.private_first MOESIF.table_lawful
    MOESIF.table_private MOESIF.misses_private (fun op => MOESIF.silent_private .untouched op) h
  have hu₃ := hu₃.trans (sum_tally_upgrades h MESI.silent_private)
  have hu₅ := hu₅.trans (sum_tally_upgrades h MOESIF.silent_private)
  let s : ∀ p : ProtocolKind, Simulator p.protocol n :=
    ProtocolKind.rec s₁ s₂ s₃ s₄ s₅
  refine ⟨N₁ + N₂ + N₃ + N₄ + N₅, s, ?_, ?_, ?_, ?_, ?_, ?_⟩
  · intro p fuel hfuel
    cases p with
    | MI_PRO => exact hrun₁ fuel (by omega)
    | MSI_PRO => exact hrun₂ fuel (by omega)
    | MESI_PRO => exact hrun₃ fuel (by omega)
    | MOSI_PRO => exact hrun₄ fuel (by omega)
    | MOESIF_PRO => exact hrun₅ fuel (by omega)
  · intro p
    cases p with
    | MI_PRO => exact ht₁
    | MSI_PRO => exact ht₂
    | MESI_PRO => exact ht₃
    | MOSI_PRO => exact ht₄
    | MOESIF_PRO => exact ht₅
  · rintro p (rfl | rfl | rfl)
    exacts [hm₁, hm₃, hm₅]
  · rintro p (rfl | rfl)
    exacts [hm₂, hm₄]
  · rintro p (rfl | rfl)
    exacts [hu₃, hu₅]
  · show s₂.globals.cacheMisses = s₃.globals.cacheMisses + s₃.globals.silentUpgrades
    rw [hm₂, hm₃, hu₃]

/-- Two processors: one loads a line and stores to it, the other stores to the
next line. -/
def neighbours : Fin 2 → Trace
  | 0 => ⟨[('r', 0x10), ('w', 0x18)], by decide⟩
  | 1 => ⟨[('w', 0x40)], by decide⟩

theorem neighbours_private : PrivateTraces neighbours := by
  unfold PrivateTraces
  decide

/-- The two processors miss twice under MESI, and three times under MSI. -/
theorem private_traces_statistics_neighbours :
    ∃ N, ∃ s : ∀ p : ProtocolKind, Simulator p.protocol 2,
      (∀ p fuel, N ≤ fuel → (Simulator.new p.protocol neighbours).run fuel = .ok (some (s p))) ∧
      (s .MESI_PRO).globals.cacheMisses = 2 ∧ (s .MSI_PRO).globals.cacheMisses = 3 ∧
      (s .MESI_PRO).globals.silentUpgrades = 1 := by
  obtain ⟨N, s, hrun, -, hfirst, hupgrades, hsilent, -⟩ :=
    private_traces_statistics neighbours neighbours_private
  have hD : distinctLines neighbours = 2 := by decide
  have hU : upgradableLines neighbours = 1 := by decide
  refine ⟨N, s, hrun, ?_, ?_, ?_⟩
  · rw [hfirst .MESI_PRO (by simp), hD]
  · rw [hupgrades .MSI_PRO (by simp), hD, hU]
  · rw [hsilent .MESI_PRO (by simp), hU]

end ProjectArchive.Coherence
