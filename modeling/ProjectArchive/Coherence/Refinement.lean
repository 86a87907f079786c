/-
ProjectArchive/Coherence/Refinement.lean

The simulator refines the abstract line, address by address.

`Simulator.view s tx addr` reads a `SnoopLine.Line` off a simulator: the states
are the entries of the caches, versions and copies come from the history, and
the phase from the bus, given which transaction `tx` is open.  Each outcome of
a tick is one step of the view at its own address and no step at any other:

    served    hit          granted (a request)   grant
    queued    miss         granted (its data)    send
    observed  observe      lookedUp              lookup
    filled    fill
-/
import ProjectArchive.Coherence.Tick

namespace ProjectArchive.Coherence

open SnoopLine

variable {P : Protocol} {T : Table P.State} {n : ℕ}

/-! ### The view -/

/-- The open bus transaction: its requester, the kind of the request and its
line.  While it is asked, the first `seen` caches have observed it. -/
inductive Tx (n : ℕ)
  | idle
  | asked (k : Fin n) (q : Access) (addr : LineAddr) (seen : ℕ)
  | told (k : Fin n) (q : Access) (addr : LineAddr)

/-- Another cache than `k` had a copy when the newest request was granted. -/
def hadCopy (log : List Event) (k : Fin n) (addr : Paddr) : Prop :=
  ∃ m past, lastRequest log = some (m, past) ∧
    ∃ j : Fin n, j ≠ k ∧ copies past (.L1 j) addr = true

/-- The phase of the line at `addr`. -/
def Globals.phase (g : Globals) (tx : Tx n) (addr : Paddr) : Phase (Fin n) :=
  match tx with
  | .idle => .idle
  | .asked k q b seen =>
      if addr = b then
        .asked k q (fun i => i.val < seen) (g.bus.dataReply.map fun _ => (versions g.log).reply)
          g.bus.sharedLine (hadCopy g.log k addr)
      else .idle
  | .told k q b =>
      if addr = b then
        .told k q (versions g.log).current g.bus.sharedLine (hadCopy g.log k addr)
      else .idle

/-- The line at `addr`, as the simulator and its history show it. -/
def Simulator.view (s : Simulator P n) (tx : Tx n) (addr : Paddr) : Line P.State (Fin n) where
  st := s.states addr
  held i := (versions s.globals.log).held (.L1 i) addr
  copy i := copies s.globals.log (.L1 i) addr = true
  latest := (versions s.globals.log).latest addr
  mem := (versions s.globals.log).memory addr
  phase := s.globals.phase tx addr

theorem Globals.phase_asked {g : Globals} {k : Fin n} {q : Access} {b : LineAddr} {seen : ℕ}
    {a : Paddr} (h : a = b) : g.phase (.asked k q b seen) a =
      .asked k q (fun i => i.val < seen) (g.bus.dataReply.map fun _ => (versions g.log).reply)
        g.bus.sharedLine (hadCopy g.log k a) := if_pos h

theorem Globals.phase_asked_some {g : Globals} {k : Fin n} {q : Access} {b : LineAddr} {seen : ℕ}
    {a : Paddr} {m : Mreq} (h : a = b) (hd : g.bus.dataReply = some m) :
    g.phase (.asked k q b seen) a = .asked k q (fun i => i.val < seen)
      (some (versions g.log).reply) g.bus.sharedLine (hadCopy g.log k a) := by
  rw [Globals.phase_asked h, hd]
  rfl

theorem Globals.phase_asked_none {g : Globals} {k : Fin n} {q : Access} {b : LineAddr} {seen : ℕ}
    {a : Paddr} (h : a = b) (hd : g.bus.dataReply = none) :
    g.phase (.asked k q b seen) a = .asked k q (fun i => i.val < seen) none g.bus.sharedLine
      (hadCopy g.log k a) := by
  rw [Globals.phase_asked h, hd]
  rfl

theorem Globals.phase_told {g : Globals} {k : Fin n} {q : Access} {b : LineAddr} {a : Paddr}
    (h : a = b) : g.phase (.told k q b) a =
      .told k q (versions g.log).current g.bus.sharedLine (hadCopy g.log k a) := if_pos h

theorem Globals.phase_asked_ne {g : Globals} {k : Fin n} {q : Access} {b : LineAddr} {seen : ℕ}
    {a : Paddr} (h : a ≠ b) : g.phase (.asked k q b seen) a = .idle := if_neg h

theorem Globals.phase_told_ne {g : Globals} {k : Fin n} {q : Access} {b : LineAddr} {a : Paddr}
    (h : a ≠ b) : g.phase (.told k q b) a = .idle := if_neg h

theorem Globals.phase_congr {g g' : Globals} {tx : Tx n} {a : Paddr} (hbus : g'.bus = g.bus)
    (hreply : (versions g'.log).reply = (versions g.log).reply)
    (hcurrent : (versions g'.log).current = (versions g.log).current)
    (hlast : lastRequest g'.log = lastRequest g.log) : g'.phase tx a = g.phase tx a := by
  cases tx <;> simp only [Globals.phase, hadCopy, hbus, hreply, hcurrent, hlast]

section View

variable {s : Simulator P n} {i k : Fin n} {m : Mreq} {op q : Access} {a : Paddr} {b : LineAddr}
  {tx : Tx n} {seen : ℕ}

/-! ### The processor's request -/

theorem Simulator.view_served (hm : m.msg = opMessage op) :
    (s.served T i m op).view tx m.addr = (s.view tx m.addr).hit T i op := by
  apply Line.ext
  · cases op <;> exact Simulator.served_states_self
  · funext j
    rcases eq_or_ne j i with rfl | hj
    · cases op <;> simp [Simulator.view, Line.hit, Line.setSt, Line.complete, Versions.step, hm,
        opMessage, Versions.setHeld]
    · cases op <;> simp [Simulator.view, Line.hit, Line.setSt, Line.complete, Versions.step, hm,
        opMessage, Versions.setHeld, hj, Fin.val_inj]
  · funext j
    cases op <;> simp [Simulator.view, Line.hit, Line.setSt, Line.complete, copies]
  · cases op <;> simp [Simulator.view, Line.hit, Line.setSt, Line.complete, Versions.step, hm,
      opMessage]
  · cases op <;> simp [Simulator.view, Line.hit, Line.setSt, Line.complete]
  · rw [show ((s.view tx m.addr).hit T i op).phase = s.globals.phase tx m.addr by
      cases op <;> rfl]
    apply Globals.phase_congr Simulator.served_bus <;> simp [lastRequest]

theorem Simulator.view_served_ne (ha : a ≠ m.addr) :
    (s.served T i m op).view tx a = s.view tx a := by
  have ha' : a ≠ (answerMreq (.L1 i) m.addr).addr := by simpa using ha
  apply Line.ext
  · exact Simulator.served_states_ne ha
  · funext j
    simp only [Simulator.view, Simulator.served_log, versions_cons]
    rw [Versions.step_answered_held_ne ha']
    rfl
  · funext j
    simp [Simulator.view, copies]
  · simp only [Simulator.view, Simulator.served_log, versions_cons]
    rw [Versions.step_answered_latest_ne ha']
    rfl
  · simp [Simulator.view]
  · apply Globals.phase_congr Simulator.served_bus <;> simp [lastRequest]

theorem Simulator.view_queued :
    (s.queued T i m op q).view tx m.addr = (s.view tx m.addr).miss T i op := by
  apply Line.ext
  · exact Simulator.queued_states_self
  · funext j
    simp [Simulator.view, Line.miss, Line.setSt]
  · funext j
    simp [Simulator.view, Line.miss, Line.setSt, copies]
  · simp [Simulator.view, Line.miss, Line.setSt]
  · simp [Simulator.view, Line.miss, Line.setSt]
  · cases tx <;>
      simp [Simulator.view, Line.miss, Line.setSt, Globals.phase, hadCopy,
         lastRequest]

theorem Simulator.view_queued_ne (ha : a ≠ m.addr) :
    (s.queued T i m op q).view tx a = s.view tx a := by
  apply Line.ext
  · exact Simulator.queued_states_ne ha
  · funext j
    simp [Simulator.view]
  · funext j
    simp [Simulator.view, copies]
  · simp [Simulator.view]
  · simp [Simulator.view]
  · cases tx <;>
      simp [Simulator.view, Globals.phase, hadCopy, lastRequest]

/-! ### The message on the bus -/

theorem Simulator.view_observed (hm : m.msg = busMessage q) (hb : m.addr = b) :
    (s.observed T i m q).view (.asked k q b (i + 1)) m.addr =
      (s.view (.asked k q b i) m.addr).observe T i := by
  have hdata : m.msg ≠ .DATA := by simp [hm]
  have hseen : (fun j : Fin n => j.val < i.val + 1) = fun j : Fin n => j.val < i.val ∨ j = i := by
    funext j
    apply propext
    rw [Fin.ext_iff]
    omega
  rw [Line.observe_asked T i (Globals.phase_asked hb)]
  apply Line.ext
  · exact Simulator.observed_states_self
  · rcases e : T.supplies (s.states m.addr i) with - | - <;>
      simp [Simulator.view, observedEvents, e, Versions.step_snooped_request hdata]
  · funext j
    rcases e : T.supplies (s.states m.addr i) with - | - <;> cases q <;>
      rcases eq_or_ne j i with rfl | hj <;>
      simp_all [Simulator.view, observedEvents, copies, busMessage, Fin.val_inj]
  · rcases e : T.supplies (s.states m.addr i) with - | - <;>
      simp [Simulator.view, observedEvents, e, Versions.step_snooped_request hdata]
  · rcases e : T.supplies (s.states m.addr i) with - | - <;>
      simp [Simulator.view, observedEvents, e, Versions.step_snooped_request hdata]
  · show (s.observed T i m q).globals.phase (.asked k q b (i + 1)) m.addr = _
    rw [Globals.phase_asked hb, hseen]
    rcases e : T.supplies (s.states m.addr i) with - | - <;>
      simp [Simulator.view, observedEvents, e, Versions.step_snooped_request hdata, hadCopy,
        lastRequest]

theorem Simulator.view_observed_ne (hm : m.msg = busMessage q) (hb : m.addr = b)
    (ha : a ≠ m.addr) : (s.observed T i m q).view (.asked k q b (i + 1)) a =
      s.view (.asked k q b i) a := by
  have hdata : m.msg ≠ .DATA := by simp [hm]
  have hab : a ≠ b := hb ▸ ha
  apply Line.ext
  · exact Simulator.observed_states_ne ha
  · rcases e : T.supplies (s.states m.addr i) with - | - <;>
      simp [Simulator.view, observedEvents, e, Versions.step_snooped_request hdata]
  · funext j
    rcases e : T.supplies (s.states m.addr i) with - | - <;>
      simp [Simulator.view, observedEvents, e, copies, ha]
  · rcases e : T.supplies (s.states m.addr i) with - | - <;>
      simp [Simulator.view, observedEvents, e, Versions.step_snooped_request hdata]
  · rcases e : T.supplies (s.states m.addr i) with - | - <;>
      simp [Simulator.view, observedEvents, e, Versions.step_snooped_request hdata]
  · exact (Globals.phase_asked_ne hab).trans (Globals.phase_asked_ne hab).symm

theorem Simulator.view_filled (hm : m.msg = .DATA) (hb : m.addr = b)
    (hop : (versions s.globals.log).op (.L1 k) = opMessage op) :
    (s.filled T k m).view .idle m.addr = (s.view (.told k q b) m.addr).fill T op := by
  rw [Line.fill_told T op (Globals.phase_told hb)]
  apply Line.ext
  · cases op <;> exact Simulator.filled_states_self
  · funext j
    rcases eq_or_ne j k with rfl | hj <;> cases op <;>
      simp_all [Simulator.view, Line.complete, Versions.step, Versions.setHeld, opMessage,
        Fin.val_inj]
  · funext j
    rcases eq_or_ne j k with rfl | hj <;> cases op <;>
      simp_all [Simulator.view, Line.complete, copies, Fin.val_inj]
  · cases op <;>
      simp [Simulator.view, Line.complete, Versions.step, Versions.setHeld, hm, hop, opMessage]
  · cases op <;>
      simp [Simulator.view, Line.complete, Versions.step_snooped_data hm, Versions.setHeld]
  · cases op <;> rfl

theorem Simulator.view_filled_ne (hm : m.msg = .DATA) (hb : m.addr = b) (ha : a ≠ m.addr) :
    (s.filled T k m).view .idle a = s.view (.told k q b) a := by
  have ha' : a ≠ (answerMreq (.L1 k) m.addr).addr := by simpa using ha
  have hab : a ≠ b := hb ▸ ha
  apply Line.ext
  · exact Simulator.filled_states_ne ha
  · funext j
    simp only [Simulator.view, Simulator.filled_log, versions_cons]
    rw [Versions.step_answered_held_ne ha', Versions.step_snooped_data hm,
      Versions.setHeld_held_ne ha]
  · funext j
    simp [Simulator.view, copies, ha]
  · simp only [Simulator.view, Simulator.filled_log, versions_cons]
    rw [Versions.step_answered_latest_ne ha', Versions.step_snooped_data hm]
    rfl
  · simp [Simulator.view, Versions.step_snooped_data hm, Versions.setHeld]
  · exact (Globals.phase_told_ne hab).symm

/-! ### The bus and the memory controller -/

/-- The simulator with other globals. -/
def Simulator.withGlobals (s : Simulator P n) (g : Globals) : Simulator P n :=
  { s with globals := g }

variable {rest : List Mreq}

theorem Simulator.view_grantRequest (hm : m.msg = busMessage q) (hb : m.addr = b)
    (hd : s.globals.bus.dataReply = none) :
    (s.withGlobals (s.globals.grantRequest m rest)).view (.asked k q b 0) m.addr =
      (s.view .idle m.addr).grant k q := by
  have hdata : m.msg ≠ .DATA := by simp [hm]
  have hlog : (s.globals.grantRequest m rest).log =
      .granted s.globals.globalClock m :: s.globals.log := rfl
  apply Line.ext
  · rfl
  · simp [Simulator.view, Simulator.withGlobals, hlog, Versions.step_granted_request hdata,
      Line.grant]
  · simp [Simulator.view, Simulator.withGlobals, hlog, copies, Line.grant]
  · simp [Simulator.view, Simulator.withGlobals, hlog, Versions.step_granted_request hdata,
      Line.grant]
  · simp [Simulator.view, Simulator.withGlobals, hlog, Versions.step_granted_request hdata,
      Line.grant]
  · simp only [Simulator.view, Simulator.withGlobals, Globals.phase_asked hb, Line.grant]
    simp [Globals.grantRequest, Globals.record, hd, hadCopy, lastRequest, hdata]

theorem Simulator.view_grantRequest_ne (hm : m.msg = busMessage q) (hb : m.addr = b)
    (ha : a ≠ m.addr) :
    (s.withGlobals (s.globals.grantRequest m rest)).view (.asked k q b 0) a =
      s.view .idle a := by
  have hdata : m.msg ≠ .DATA := by simp [hm]
  have hlog : (s.globals.grantRequest m rest).log =
      .granted s.globals.globalClock m :: s.globals.log := rfl
  apply Line.ext
  · rfl
  · simp [Simulator.view, Simulator.withGlobals, hlog, Versions.step_granted_request hdata]
  · simp [Simulator.view, Simulator.withGlobals, hlog, copies]
  · simp [Simulator.view, Simulator.withGlobals, hlog, Versions.step_granted_request hdata]
  · simp [Simulator.view, Simulator.withGlobals, hlog, Versions.step_granted_request hdata]
  · exact Globals.phase_asked_ne (hb ▸ ha)

theorem Simulator.view_grantData (seen : ℕ) (hm : m.msg = .DATA) (hb : m.addr = b)
    (hd : s.globals.bus.dataReply = some m) :
    (s.withGlobals (s.globals.grantData m)).view (.told k q b) m.addr =
      (s.view (.asked k q b seen) m.addr).send := by
  have hlog : (s.globals.grantData m).log =
      .granted s.globals.globalClock m :: s.globals.log := rfl
  rw [Line.send_asked (Globals.phase_asked_some hb hd)]
  apply Line.ext
  · rfl
  · simp [Simulator.view, Simulator.withGlobals, hlog, Versions.step_granted_data hm]
  · simp [Simulator.view, Simulator.withGlobals, hlog, copies]
  · simp [Simulator.view, Simulator.withGlobals, hlog, Versions.step_granted_data hm]
  · simp [Simulator.view, Simulator.withGlobals, hlog, Versions.step_granted_data hm]
  · simp only [Simulator.view, Simulator.withGlobals, Globals.phase_told hb]
    simp [Globals.grantData, Globals.record, hadCopy, lastRequest, hm,
      Versions.step_granted_data hm]

theorem Simulator.view_grantData_ne (seen : ℕ) (hm : m.msg = .DATA) (hb : m.addr = b) (ha : a ≠ m.addr) :
    (s.withGlobals (s.globals.grantData m)).view (.told k q b) a =
      s.view (.asked k q b seen) a := by
  have hlog : (s.globals.grantData m).log =
      .granted s.globals.globalClock m :: s.globals.log := rfl
  have hab : a ≠ b := hb ▸ ha
  apply Line.ext
  · rfl
  · simp [Simulator.view, Simulator.withGlobals, hlog, Versions.step_granted_data hm]
  · simp [Simulator.view, Simulator.withGlobals, hlog, copies]
  · simp [Simulator.view, Simulator.withGlobals, hlog, Versions.step_granted_data hm]
  · simp [Simulator.view, Simulator.withGlobals, hlog, Versions.step_granted_data hm, ha]
  · exact (Globals.phase_told_ne hab).trans (Globals.phase_asked_ne hab).symm

theorem Simulator.view_lookedUp (hb : s.mc.dataAddr = b)
    (hd : s.globals.bus.dataReply = none) :
    s.lookedUp.view (.asked k q b seen) s.mc.dataAddr =
      (s.view (.asked k q b seen) s.mc.dataAddr).lookup := by
  have hlog : s.lookedUp.globals.log = .requested s.globals.globalClock
      (dataMreq (.MC n) s.mc.dataAddr s.mc.dataTarget) :: s.globals.log := rfl
  have haddr : (dataMreq (.MC n) s.mc.dataAddr s.mc.dataTarget).addr = s.mc.dataAddr := by
    rw [hb]; exact b.2
  rw [Line.lookup_asked (Globals.phase_asked_none hb hd)]
  apply Line.ext
  · rfl
  · simp [Simulator.view, hlog]
  · simp [Simulator.view, hlog, copies]
  · simp [Simulator.view, hlog]
  · simp [Simulator.view, hlog]
  · simp only [Simulator.view, Globals.phase_asked hb]
    simp [Simulator.lookedUp, Globals.reply, Globals.record, hadCopy, lastRequest, haddr]

theorem Simulator.view_lookedUp_ne (ha : a ≠ s.mc.dataAddr) (hb : s.mc.dataAddr = b) :
    s.lookedUp.view (.asked k q b seen) a = s.view (.asked k q b seen) a := by
  have hlog : s.lookedUp.globals.log = .requested s.globals.globalClock
      (dataMreq (.MC n) s.mc.dataAddr s.mc.dataTarget) :: s.globals.log := rfl
  have hab : a ≠ b := hb ▸ ha
  apply Line.ext
  · rfl
  · simp [Simulator.view, hlog]
  · simp [Simulator.view, hlog, copies]
  · simp [Simulator.view, hlog]
  · simp [Simulator.view, hlog]
  · exact (Globals.phase_asked_ne hab).trans (Globals.phase_asked_ne hab).symm

end View

end ProjectArchive.Coherence
