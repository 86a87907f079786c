/-
ProjectArchive/Coherence/Compatibility.lean

Which states of a line are compatible, protocol by protocol.

The invariants of the abstract line, read off a state between two cycles: a
cache that may write is alone, at most one cache supplies, and a shared copy
has a guard.  For MESI and MOESIF also how a read is filled: exclusively if and
only if no other cache had a copy while the read was on the bus.
-/
import ProjectArchive.Coherence.Run

namespace ProjectArchive.Coherence

open SnoopLine Exec

variable {P : Protocol} {T : Table P.State} {n : ℕ} {traces : Fin n → Trace}

section Good

variable {s s' : Simulator P n} {tx : Tx n} {stage : Fin n → Stage} {i j : Fin n} {a : Paddr}

/-! ### Reading the invariants off -/

theorem Good.alone (hT : T.Lawful) (h : Good T traces s tx stage)
    (hi : T.exclusive (s.states a i)) (hj : T.holds (s.states a j)) : i = j :=
  (h.inv.coherent hT a).alone i j hi hj

theorem Good.single (hT : T.Lawful) (h : Good T traces s tx stage)
    (hi : T.supplies (s.states a i)) (hj : T.supplies (s.states a j)) : i = j :=
  (h.inv.coherent hT a).single i j hi hj

/-- Beside a cache that may write, nobody holds the line. -/
theorem Good.apart (hT : T.Lawful) (h : Good T traces s tx stage) (hij : j ≠ i)
    (hi : T.exclusive (s.states a i)) : T.holds (s.states a j) = false := by
  by_contra hj
  exact hij (h.alone hT hi (by simpa using hj)).symm

/-- At most one cache supplies the line or may write it. -/
theorem Good.unique (hT : T.Lawful) (h : Good T traces s tx stage)
    (hi : T.supplies (s.states a i) ∨ T.exclusive (s.states a i))
    (hj : T.supplies (s.states a j) ∨ T.exclusive (s.states a j)) : i = j := by
  rcases hi with hi | hi
  · rcases hj with hj | hj
    · exact h.single hT hi hj
    · exact (h.alone hT hj (hT.holds_of_supplies hi)).symm
  · apply h.alone hT hi
    rcases hj with hj | hj
    · exact hT.holds_of_supplies hj
    · exact hT.holds_of_exclusive hj

/-- Between two cycles an open write request has ended every copy. -/
theorem Good.reading (hT : T.Lawful) (h : Good T traces s tx stage)
    (hi : T.holds (s.states a i)) : (s.view tx a).Reading := by
  have open_ : ∀ {k q b}, tx = .asked k q b n → (s.view tx a).Reading := by
    rintro k q b rfl
    by_cases hab : a = b
    · have hph : (s.view (.asked k q b n) a).phase = _ := Globals.phase_asked hab
      cases q with
      | read => simp [Line.Reading, hph]
      | write =>
          have := ((h.inv.coherent hT a).asked hph).gone rfl i i.isLt
          rw [show (s.view (.asked k .write b n) a).st i = s.states a i from rfl, hi] at this
          cases this
    · have hph : (s.view (.asked k q b n) a).phase = .idle := Globals.phase_asked_ne hab
      simp [Line.Reading, hph]
  cases h.rest with
  | idle _ _ _ _ => exact trivial
  | waiting _ _ _ _ _ => exact open_ rfl
  | cache _ _ _ _ => exact open_ rfl
  | memory _ _ _ => exact open_ rfl

/-- A copy that raises the shared line has a guard. -/
theorem Good.guarded (hT : T.Lawful) (hS : T.Signals) (hH : T.Hands)
    (h : Good T traces s tx stage) (hi : T.holds (s.states a i))
    (ha : T.asserts (s.states a i) .read) :
    ∃ j, T.supplies (s.states a j) ∨ T.exclusive (s.states a j) :=
  (h.inv.lines a).guarded hT hS hH (h.reading hT hi) i ha

/-- How a line that waited for a read is filled. -/
theorem Good.filled (hS : T.Signals) (h : Good T traces s tx stage) (hk : Kept T i s s')
    (hw : T.waits (s.states a i) = some .read) (hne : s'.states a i ≠ s.states a i) :
    ∃ past shared, lastRequest s'.globals.log = some (busMreq (.L1 i) .read a, past) ∧
      s'.states a i = T.fill (s.states a i) shared ∧
      ∀ now, past <:+ now → now <:+ s'.globals.log →
        lastGranted now = some (busMreq (.L1 i) .read a) →
        (shared = false ↔ ∀ j : Fin n, j ≠ i → copies now (.L1 j) a = false) := by
  rcases hk a hw with heq | ⟨past, shared, hp, hfill, hshared⟩
  · exact absurd heq hne
  · refine ⟨past, shared, hp.1, hfill, ?_⟩
    intro now hpast hnow hg
    have haddr : (busMreq (.L1 i) .read a).addr = a := by
      rw [h.inv.waits] at hw
      obtain ⟨op, b, -, rfl⟩ := Stage.waitsAt_eq_some hw
      exact b.2
    have hcopies : ∀ mid, copies now mid a = copies past mid a := by
      intro mid
      have := hp.2 rfl now hpast hnow hg mid
      rwa [haddr] at this
    simp only [hcopies, ← Bool.not_eq_true, hshared hS]
    push Not
    rfl

end Good

/-! ### MI and MSI -/

/-- A cache without a copy is in I or in a transient state. -/
theorem MI.rest_of_holds {x : MI.State} (hx : MI.table.holds x = false) :
    x ∈ [MI.State.I, .IM] := by
  cases x with
  | M => cases hx
  | _ => simp

/-- A cache without a copy is in I or in a transient state. -/
theorem MSI.rest_of_holds {x : MSI.State} (hx : MSI.table.holds x = false) :
    x ∈ [MSI.State.I, .IS, .IM, .SM] := by
  cases x with
  | S => cases hx
  | M => cases hx
  | _ => simp

/-- **MI and MSI: beside a writer nobody reads or writes.** -/
theorem mi_msi_single_writer {n : ℕ} (traces : Fin n → Trace) (k : ℕ) :
    (∃ s, Simulator.cycles MI.protocol traces k = .ok s ∧
      ∀ (a : Paddr) (i j : Fin n), s.states a i = MI.State.M → j ≠ i →
        s.states a j ∈ [MI.State.I, .IM]) ∧
    ∃ s, Simulator.cycles MSI.protocol traces k = .ok s ∧
      ∀ (a : Paddr) (i j : Fin n), s.states a i = MSI.State.M → j ≠ i →
        s.states a j ∈ [MSI.State.I, .IS, .IM, .SM] := by
  constructor
  · obtain ⟨s, hs, tx, stage, h⟩ := Simulator.cycles_ends MI.implements MI.table_lawful traces k
    refine ⟨s, hs, ?_⟩
    intro a i j hi hij
    exact MI.rest_of_holds (h.apart MI.table_lawful hij (by rw [hi]; rfl))
  · obtain ⟨s, hs, tx, stage, h⟩ := Simulator.cycles_ends MSI.implements MSI.table_lawful traces k
    refine ⟨s, hs, ?_⟩
    intro a i j hi hij
    exact MSI.rest_of_holds (h.apart MSI.table_lawful hij (by rw [hi]; rfl))

/-! ### MOSI -/

/-- The owners are the states that supply. -/
theorem MOSI.supplies_of_owner {x : MOSI.State} (hx : x ∈ [MOSI.State.M, .O, .OM]) :
    MOSI.table.supplies x := by
  simp only [List.mem_cons, List.not_mem_nil, or_false] at hx
  rcases hx with rfl | rfl | rfl <;> rfl

/-- The readable states hold a copy. -/
theorem MOSI.holds_of_mem {x : MOSI.State} (hx : x ∈ [MOSI.State.S, .O]) :
    MOSI.table.holds x := by
  simp only [List.mem_cons, List.not_mem_nil, or_false] at hx
  rcases hx with rfl | rfl <;> rfl

/-- **MOSI: one owner, no copy beside a writer, and one supplier per request.** -/
theorem mosi_compatible {n : ℕ} (traces : Fin n → Trace) (k : ℕ) :
    ∃ s, Simulator.cycles MOSI.protocol traces k = .ok s ∧
      (∀ (a : Paddr) (i j : Fin n), s.states a i ∈ [MOSI.State.M, .O, .OM] →
        s.states a j ∈ [MOSI.State.M, .O, .OM] → i = j) ∧
      (∀ (a : Paddr) (i j : Fin n), s.states a i = MOSI.State.M →
        s.states a j ∉ [MOSI.State.S, .O]) ∧
      ∀ x ∈ exchanges s.globals.log, x.replies.length ≤ 1 := by
  obtain ⟨s, hs, tx, stage, h⟩ := Simulator.cycles_ends MOSI.implements MOSI.table_lawful traces k
  refine ⟨s, hs, ?_, ?_, h.rest.replies_le_one⟩
  · intro a i j hi hj
    exact h.single MOSI.table_lawful (MOSI.supplies_of_owner hi) (MOSI.supplies_of_owner hj)
  · intro a i j hi hj
    have hij := h.alone MOSI.table_lawful (by rw [hi]; rfl) (MOSI.holds_of_mem hj)
    rw [← hij, hi] at hj
    exact absurd hj (by decide)

/-! ### MESI -/

/-- M and E may write without asking. -/
theorem MESI.exclusive_of_mem {x : MESI.State} (hx : x ∈ [MESI.State.M, .E]) :
    MESI.table.exclusive x := by
  simp only [List.mem_cons, List.not_mem_nil, or_false] at hx
  rcases hx with rfl | rfl <;> rfl

/-- A cache without a copy is in I or in a transient state. -/
theorem MESI.rest_of_holds {x : MESI.State} (hx : MESI.table.holds x = false) :
    x ∈ [MESI.State.I, .IS, .IM, .SM] := by
  cases x with
  | S => cases hx
  | E => cases hx
  | M => cases hx
  | _ => simp

/-- A read is filled exclusively exactly when the shared line is down. -/
theorem MESI.fill_IS (shared : Bool) :
    MESI.table.fill MESI.State.IS shared ∈ [MESI.State.E, .S] ∧
      (MESI.table.fill MESI.State.IS shared = MESI.State.E ↔ shared = false) := by
  cases shared with
  | false => exact ⟨List.mem_cons_self, iff_of_true rfl rfl⟩
  | true => exact ⟨List.mem_cons_of_mem _ (List.mem_singleton_self _), iff_of_false nofun nofun⟩

/-- **MESI: a cache in M or E is alone, and a read is filled exclusively if and
only if no other cache had a copy while it was on the bus.** -/
theorem mesi_compatible {n : ℕ} (traces : Fin n → Trace) (k : ℕ) :
    ∃ s s', Simulator.cycles MESI.protocol traces k = .ok s ∧ s.cycle = .ok s' ∧
      (∀ (a : Paddr) (i j : Fin n), s.states a i ∈ [MESI.State.M, .E] → j ≠ i →
        s.states a j ∈ [MESI.State.I, .IS, .IM, .SM]) ∧
      ∀ (a : Paddr) (i : Fin n), s.states a i = MESI.State.IS → s'.states a i ≠ MESI.State.IS →
        s'.states a i ∈ [MESI.State.E, .S] ∧
        ∃ past, lastRequest s'.globals.log = some (busMreq (.L1 i) .read a, past) ∧
          ∀ now, past <:+ now → now <:+ s'.globals.log →
            lastGranted now = some (busMreq (.L1 i) .read a) →
            (s'.states a i = MESI.State.E ↔
              ∀ j : Fin n, j ≠ i → copies now (.L1 j) a = false) := by
  obtain ⟨s, s', hs, hs', ⟨tx, stage, h⟩, -, hk⟩ :=
    Simulator.cycles_step MESI.implements MESI.table_lawful traces k
  refine ⟨s, s', hs, hs', ?_, ?_⟩
  · intro a i j hi hij
    exact MESI.rest_of_holds (h.apart MESI.table_lawful hij (MESI.exclusive_of_mem hi))
  · intro a i hi hne
    obtain ⟨past, shared, hlast, hfill, hshared⟩ :=
      h.filled MESI.table_signals (hk i) (by rw [hi]; rfl) (hi ▸ hne)
    rw [hi] at hfill
    rw [hfill]
    refine ⟨(MESI.fill_IS shared).1, past, hlast, ?_⟩
    intro now hpast hnow hg
    exact (MESI.fill_IS shared).2.trans (hshared now hpast hnow hg)

/-! ### MOESIF -/

/-- The owners and the forwarders supply. -/
theorem MOESIF.supplies_or_exclusive {x : MOESIF.State}
    (hx : x ∈ [MOESIF.State.M, .E, .O, .F, .OM, .FM]) :
    MOESIF.table.supplies x ∨ MOESIF.table.exclusive x := by
  simp only [List.mem_cons, List.not_mem_nil, or_false] at hx
  rcases hx with rfl | rfl | hx
  · exact .inl rfl
  · exact .inr rfl
  · left
    rcases hx with rfl | rfl | rfl | rfl <;> rfl

/-- M and E may write without asking. -/
theorem MOESIF.exclusive_of_mem {x : MOESIF.State} (hx : x ∈ [MOESIF.State.M, .E]) :
    MOESIF.table.exclusive x := by
  simp only [List.mem_cons, List.not_mem_nil, or_false] at hx
  rcases hx with rfl | rfl <;> rfl

/-- A guard that may not write is an owner or a forwarder. -/
theorem MOESIF.guard_of_shared {x : MOESIF.State}
    (hx : MOESIF.table.supplies x ∨ MOESIF.table.exclusive x)
    (hne : MOESIF.table.exclusive x = false) : x ∈ [MOESIF.State.O, .F, .OM, .FM] := by
  cases x with
  | O | F | OM | FM => simp
  | E | M => cases hne
  | I | S | IS | IM | SM => rcases hx with hx | hx <;> cases hx

/-- A read is filled exclusively exactly when the shared line is down. -/
theorem MOESIF.fill_IS (shared : Bool) :
    MOESIF.table.fill MOESIF.State.IS shared ∈ [MOESIF.State.E, .S] ∧
      (MOESIF.table.fill MOESIF.State.IS shared = MOESIF.State.E ↔ shared = false) := by
  cases shared with
  | false => exact ⟨List.mem_cons_self, iff_of_true rfl rfl⟩
  | true => exact ⟨List.mem_cons_of_mem _ (List.mem_singleton_self _), iff_of_false nofun nofun⟩

/-- **MOESIF: one owner or forwarder, no copy beside M or E, shared copies have
an owner or forwarder, and a read is filled exclusively if and only if no other
cache had a copy while it was on the bus.** -/
theorem moesif_compatible {n : ℕ} (traces : Fin n → Trace) (k : ℕ) :
    ∃ s s', Simulator.cycles MOESIF.protocol traces k = .ok s ∧ s.cycle = .ok s' ∧
      (∀ (a : Paddr) (i j : Fin n), s.states a i ∈ [MOESIF.State.M, .E, .O, .F, .OM, .FM] →
        s.states a j ∈ [MOESIF.State.M, .E, .O, .F, .OM, .FM] → i = j) ∧
      (∀ (a : Paddr) (i j : Fin n), s.states a i ∈ [MOESIF.State.M, .E] → j ≠ i →
        s.states a j ≠ MOESIF.State.S) ∧
      (∀ (a : Paddr) (i : Fin n), s.states a i = MOESIF.State.S →
        ∃! j, s.states a j ∈ [MOESIF.State.O, .F, .OM, .FM]) ∧
      ∀ (a : Paddr) (i : Fin n), s.states a i = MOESIF.State.IS →
        s'.states a i ≠ MOESIF.State.IS →
        s'.states a i ∈ [MOESIF.State.E, .S] ∧
        ∃ past, lastRequest s'.globals.log = some (busMreq (.L1 i) .read a, past) ∧
          ∀ now, past <:+ now → now <:+ s'.globals.log →
            lastGranted now = some (busMreq (.L1 i) .read a) →
            (s'.states a i = MOESIF.State.E ↔
              ∀ j : Fin n, j ≠ i → copiesInPlace now (.L1 j) a = false) := by
  obtain ⟨s, s', hs, hs', ⟨tx, stage, h⟩, ⟨tx', stage', h'⟩, hk⟩ :=
    Simulator.cycles_step MOESIF.implements MOESIF.table_lawful traces k
  refine ⟨s, s', hs, hs', ?_, ?_, ?_, ?_⟩
  · intro a i j hi hj
    exact h.unique MOESIF.table_lawful (MOESIF.supplies_or_exclusive hi)
      (MOESIF.supplies_or_exclusive hj)
  · intro a i j hi hij hj
    have := h.apart MOESIF.table_lawful hij (MOESIF.exclusive_of_mem hi)
    rw [hj] at this
    cases this
  · intro a i hi
    have hhold : MOESIF.table.holds (s.states a i) := by rw [hi]; rfl
    obtain ⟨j, hj⟩ := h.guarded MOESIF.table_lawful MOESIF.table_signals MOESIF.table_hands
      hhold (by rw [hi]; rfl)
    -- the guard is not in M or E, or it would be alone
    have hx : MOESIF.table.exclusive (s.states a j) = false := by
      by_contra hx
      have hji := h.alone MOESIF.table_lawful (by simpa using hx) hhold
      rw [hji, hi] at hx
      exact hx rfl
    refine ⟨j, MOESIF.guard_of_shared hj hx, ?_⟩
    intro l hl
    refine h.unique MOESIF.table_lawful (MOESIF.supplies_or_exclusive ?_) hj
    exact List.mem_cons_of_mem _ (List.mem_cons_of_mem _ hl)
  · intro a i hi hne
    obtain ⟨past, shared, hlast, hfill, hshared⟩ :=
      h.filled MOESIF.table_signals (hk i) (by rw [hi]; rfl) (hi ▸ hne)
    rw [hi] at hfill
    rw [hfill]
    refine ⟨(MOESIF.fill_IS shared).1, past, hlast, ?_⟩
    intro now hpast hnow hg
    simp only [(h'.inv.fresh.suffix hnow).copiesInPlace_eq]
    exact (MOESIF.fill_IS shared).2.trans (hshared now hpast hnow hg)

end ProjectArchive.Coherence
