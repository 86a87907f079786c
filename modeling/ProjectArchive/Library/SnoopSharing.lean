/-
ProjectArchive/Library/SnoopSharing.lean

What a line tells about its copies.

`Coherent` says who may hold the latest version.  The three invariants of this
file say more, each for the tables that satisfy some further laws:

* `Tracked` (laws `Table.Signals`): the states that raise the shared line are
  those of the caches with a copy, except that a writer whose copy was
  invalidated keeps raising it.  That never misleads a reader, because then
  the invalidating writer has a copy: when a read is filled, the shared line
  is high if and only if another cache had a copy when the read was granted;
* `Guarded` (law `Table.Hands`): a line with a copy has a cache that supplies
  it or may write it;
* `Sticky` (laws `Table.Keeps`): once a store has completed, some cache
  supplies the line for ever, so memory is never asked again.
-/
import ProjectArchive.Library.SnoopInvariants

namespace SnoopLine

variable {σ ι : Type*} {T : Table σ}

/-! ### Further laws -/

/-- The shared line signals copies, and decides how a read is filled. -/
@[mk_iff]
structure Table.Signals (T : Table σ) : Prop where
  init_asserts : T.asserts T.init .read = false
  request_asserts : ∀ {s op}, T.proper s → T.waits s = none →
    T.asserts (T.request s op).1 .read = T.asserts s .read
  observe_asserts : ∀ {s}, T.proper s → T.asserts (T.observe s .read) .read = T.asserts s .read
  fill_asserts : ∀ {s q sh}, T.proper s → T.waits s = some q → T.asserts (T.fill s sh) .read
  reader_asserts : ∀ {s}, T.proper s → T.waits s = some .read → T.asserts s .read = false
  fill_exclusive : ∀ {s sh}, T.proper s → T.waits s = some .read →
    T.exclusive (T.fill s sh) = !sh

/-- Whoever may write a line supplies it after a read. -/
@[mk_iff]
structure Table.Hands (T : Table σ) : Prop where
  observe_supplies : ∀ {s}, T.proper s → T.supplies s ∨ T.exclusive s →
    T.supplies (T.observe s .read)

/-- Observing a read keeps the duty to supply. -/
@[mk_iff]
structure Table.Keeps (T : Table σ) : Prop where
  observe_keeps : ∀ {s}, T.proper s → T.supplies s → T.supplies (T.observe s .read)
  reader_supplies : ∀ {s}, T.proper s → T.waits s = some .read → T.supplies s = false

section Decidable

variable [Fintype σ] [DecidableEq σ] (T : Table σ)

instance Table.Signals.decidable : Decidable T.Signals := decidable_of_iff _ T.signals_iff.symm

instance Table.Hands.decidable : Decidable T.Hands := decidable_of_iff _ T.hands_iff.symm

instance Table.Keeps.decidable : Decidable T.Keeps := decidable_of_iff _ T.keeps_iff.symm

end Decidable

section Request

variable {s : σ} {op : Access}

/-- No access of the processor takes the duty to supply away. -/
theorem Table.Lawful.request_supplies (hT : T.Lawful) (hp : T.proper s) (hw : T.waits s = none)
    (hs : T.supplies s) : T.supplies (T.request s op).1 := by
  rcases hq : (T.request s op).2 with - | q
  · cases op with
    | read => rwa [hT.hit_read hp hw hq]
    | write => exact (hT.hit_write hp hw hq).2.2
  · rwa [hT.miss_supplies hp hw hq]

/-- No access of the processor takes both the duty to supply and the right to
write away. -/
theorem Table.Lawful.request_guards (hT : T.Lawful) (hp : T.proper s) (hw : T.waits s = none)
    (hs : T.supplies s ∨ T.exclusive s) :
    T.supplies (T.request s op).1 ∨ T.exclusive (T.request s op).1 := by
  rcases hs with hs | hx
  · exact Or.inl (hT.request_supplies hp hw hs)
  rcases hq : (T.request s op).2 with - | q
  · cases op with
    | read => rw [hT.hit_read hp hw hq]; exact Or.inr hx
    | write => exact Or.inl (hT.hit_write hp hw hq).2.2
  · rw [(hT.miss_exclusive hp hw hq).1] at hx; cases hx

end Request

/-! ### Copies and the shared line -/

/-- No write request is open. -/
def Line.Reading (L : Line σ ι) : Prop :=
  match L.phase with
  | .idle => True
  | .asked _ q .. | .told _ q .. => q = .read

/-- The shared line tells the truth about copies. -/
structure Tracked (T : Table σ) (L : Line σ ι) : Prop where
  copied : ∀ i, L.copy i → T.asserts (L.st i) .read
  -- a dead copy may assert, but only beside a live one
  live : L.Reading → ∀ i, T.asserts (L.st i) .read → ∃ j, L.copy j
  asked : ∀ {k seen reply shared had}, L.phase = .asked k .read seen reply shared had →
    (shared = true ↔ ∃ i, seen i ∧ T.asserts (L.st i) .read) ∧ (had ↔ ∃ j, j ≠ k ∧ L.copy j)
  told : ∀ {k v shared had}, L.phase = .told k .read v shared had →
    (shared = true ↔ had) ∧ (had ↔ ∃ j, j ≠ k ∧ L.copy j)

theorem Tracked.init (hS : T.Signals) : Tracked T (Line.init T : Line σ ι) where
  copied := fun i hi => by cases hi
  live := fun _ i hi => by
    rw [show (Line.init T : Line σ ι).st i = T.init from rfl, hS.init_asserts] at hi
    cases hi
  asked := fun h => by cases h
  told := fun h => by cases h

section Steps

variable {L L' : Line σ ι} {i k : ι} {q op : Access} {seen : ι → Prop} {reply : Option ℕ}
  {v : ℕ} {shared : Bool} {had : Prop}

/-- Nothing changes but one state, which signals as before. -/
theorem Tracked.of_asserts (h : Tracked T L)
    (hst : ∀ j, T.asserts (L'.st j) .read = T.asserts (L.st j) .read) (hcopy : L'.copy = L.copy)
    (hphase : L'.phase = L.phase) : Tracked T L' where
  copied := fun j hj => by
    rw [hcopy] at hj
    rw [hst]; exact h.copied j hj
  live := fun hr j hj => by
    rw [hst] at hj
    rw [hcopy]; exact h.live (by rwa [Line.Reading, hphase] at hr) j hj
  asked := fun hph => by
    simp only [hst, hcopy]
    exact h.asked (hphase ▸ hph)
  told := fun hph => by
    rw [hcopy]
    exact h.told (hphase ▸ hph)

variable [DecidableEq ι]

theorem Tracked.hit (hS : T.Signals) (h : Tracked T L) (hp : T.proper (L.st i))
    (hw : T.waits (L.st i) = none) : Tracked T (L.hit T i op) := by
  refine h.of_asserts (fun j => ?_) ?_ ?_
  · rcases eq_or_ne j i with rfl | hj
    · rw [show (L.hit T j op).st j = (T.request (L.st j) op).1 by
        cases op <;> simp [Line.hit, Line.setSt, Line.complete]]
      exact hS.request_asserts hp hw
    · cases op <;> simp [Line.hit, Line.setSt, Line.complete, hj]
  · cases op <;> rfl
  · cases op <;> rfl

theorem Tracked.miss (hS : T.Signals) (h : Tracked T L) (hp : T.proper (L.st i))
    (hw : T.waits (L.st i) = none) : Tracked T (L.miss T i op) := by
  refine h.of_asserts (fun j => ?_) rfl rfl
  rcases eq_or_ne j i with rfl | hj
  · simpa [Line.miss, Line.setSt] using hS.request_asserts hp hw
  · simp [Line.miss, Line.setSt, hj]

omit [DecidableEq ι] in
theorem Tracked.grant (h : Tracked T L) (hph : L.phase = .idle) : Tracked T (L.grant k q) where
  copied := h.copied
  live := fun _ => h.live (by simp [Line.Reading, hph])
  asked := by
    rintro k' seen reply shared had ⟨⟩
    simp [Line.grant]
  told := fun e => by cases e

theorem Tracked.observe (hS : T.Signals) (h : Tracked T L) (hp : T.proper (L.st i))
    (hph : L.phase = .asked k q seen reply shared had) (hi : ¬ seen i) :
    Tracked T (L.observe T i) := by
  cases q with
  | write =>
      -- while a write is open only the copies matter, and the observer loses its own
      refine ⟨?_, ?_, ?_, ?_⟩
      · intro j hj
        rcases eq_or_ne j i with rfl | hji
        · simp [Line.observe, hph] at hj
        · have hj' : L.copy j := by simpa [Line.observe, hph, hji] using hj
          simpa [Line.observe, hph, hji] using h.copied j hj'
      · intro hr
        simp [Line.Reading, Line.observe, hph] at hr
      · intro k' seen' reply' shared' had' e
        simp [Line.observe, hph] at e
      · intro k' v' shared' had' e
        simp [Line.observe, hph] at e
  | read =>
      have hst : ∀ j, T.asserts ((L.observe T i).st j) .read = T.asserts (L.st j) .read := by
        intro j
        rcases eq_or_ne j i with rfl | hji
        · simpa [Line.observe, hph] using hS.observe_asserts hp
        · simp [Line.observe, hph, hji]
      have hcopy : (L.observe T i).copy = L.copy := by simp [Line.observe, hph]
      refine ⟨?_, ?_, ?_, ?_⟩
      · intro j hj
        rw [hcopy] at hj
        rw [hst]; exact h.copied j hj
      · intro _ j hj
        rw [hst] at hj
        rw [hcopy]; exact h.live (by simp [Line.Reading, hph]) j hj
      · intro k' seen' reply' shared' had' e
        simp only [hst, hcopy]
        simp only [Line.observe, hph, Phase.asked.injEq] at e
        obtain ⟨rfl, -, rfl, -, rfl, rfl⟩ := e
        obtain ⟨hshared, hhad⟩ := h.asked hph
        refine ⟨?_, hhad⟩
        rw [Bool.or_eq_true, hshared]
        constructor
        · rintro (⟨j, hj, hja⟩ | hia)
          · exact ⟨j, Or.inl hj, hja⟩
          · exact ⟨i, Or.inr rfl, hia⟩
        · rintro ⟨j, hj | rfl, hja⟩
          · exact Or.inl ⟨j, hj, hja⟩
          · exact Or.inr hja
      · intro k' v' shared' had' e
        simp [Line.observe, hph] at e

omit [DecidableEq ι] in
theorem Tracked.lookup (h : Tracked T L) (hph : L.phase = .asked k q seen none shared had) :
    Tracked T L.lookup := by
  rw [Line.lookup_asked hph]
  refine ⟨h.copied, fun hr => h.live (by simpa [Line.Reading, hph] using hr), ?_,
    (fun e => by cases e)⟩
  rintro k' seen' reply' shared' had' ⟨⟩
  exact h.asked hph

omit [DecidableEq ι] in
/-- Once every cache has observed the read, the shared line is high if and
only if another cache had a copy. -/
theorem Tracked.send (hS : T.Signals) (h : Tracked T L) (hp : T.proper (L.st k))
    (hw : T.waits (L.st k) = some q) (hph : L.phase = .asked k q seen (some v) shared had)
    (hall : ∀ i, seen i) : Tracked T L.send := by
  rw [Line.send_asked hph]
  refine ⟨h.copied, fun hr => h.live (by simpa [Line.Reading, hph] using hr),
    (fun e => by cases e), ?_⟩
  rintro k' v' shared' had' ⟨⟩
  obtain ⟨hshared, hhad⟩ := h.asked hph
  refine ⟨?_, hhad⟩
  rw [hshared, hhad]
  constructor
  · rintro ⟨i, -, hi⟩
    obtain ⟨j, hj⟩ := h.live (by simp [Line.Reading, hph]) i hi
    refine ⟨j, ?_, hj⟩
    -- the requester does not signal, so it is not the one with a copy
    rintro rfl
    have := h.copied j hj
    rw [hS.reader_asserts hp hw] at this; cases this
  · rintro ⟨j, -, hj⟩
    exact ⟨j, hall j, h.copied j hj⟩

theorem Tracked.fill (hS : T.Signals) (h : Tracked T L) (hp : T.proper (L.st k))
    (hw : T.waits (L.st k) = some q) (hph : L.phase = .told k q v shared had) :
    Tracked T (L.fill T op) := by
  have phase' : (L.fill T op).phase = .idle := by
    cases op <;> simp [Line.fill, Line.complete, hph]
  have copy_self : (L.fill T op).copy k := by
    cases op <;> simp [Line.fill, Line.complete, hph]
  refine ⟨?_, fun _ _ _ => ⟨k, copy_self⟩, (fun e => by rw [phase'] at e; cases e),
    (fun e => by rw [phase'] at e; cases e)⟩
  intro j hj
  rcases eq_or_ne j k with rfl | hjk
  · have : (L.fill T op).st j = T.fill (L.st j) shared := by
      cases op <;> simp [Line.fill, Line.complete, hph]
    rw [this]; exact hS.fill_asserts hp hw
  · have hst : (L.fill T op).st j = L.st j := by
      cases op <;> simp [Line.fill, Line.complete, hph, hjk]
    have hcopy : (L.fill T op).copy j = L.copy j := by
      cases op <;> simp [Line.fill, Line.complete, hph, hjk]
    rw [hst]; exact h.copied j (hcopy ▸ hj)

theorem Tracked.step (hS : T.Signals) (hC : Coherent T L) (h : Tracked T L)
    (hs : Step T L L') : Tracked T L' := by
  cases hs with
  | hit i op hw _ => exact h.hit hS (hC.proper i) hw
  | miss i op hw _ => exact h.miss hS (hC.proper i) hw
  | grant k q hph _ => exact h.grant hph
  | observe i hph hi => exact h.observe hS (hC.proper i) hph hi
  | lookup hph _ => exact h.lookup hph
  | send hph hall => exact h.send hS (hC.proper _) (hC.asked hph).waits hph hall
  | fill op hph _ => exact h.fill hS (hC.proper _) (hC.told hph).waits hph

end Steps

/-! ### Guards -/

/-- A line with a copy has a cache that supplies it or may write it. -/
def Guarded (T : Table σ) (L : Line σ ι) : Prop :=
  L.Reading → ∀ i, T.asserts (L.st i) .read → ∃ j, T.supplies (L.st j) ∨ T.exclusive (L.st j)

theorem Guarded.init (hS : T.Signals) : Guarded T (Line.init T : Line σ ι) := by
  intro _ i hi
  rw [show (Line.init T : Line σ ι).st i = T.init from rfl, hS.init_asserts] at hi
  cases hi

section Steps

variable {L L' : Line σ ι} {i k : ι} {q op : Access} {seen : ι → Prop} {reply : Option ℕ}
  {v : ℕ} {shared : Bool} {had : Prop} [DecidableEq ι]

/-- Cache `i` handles an access of its processor, at once or not. -/
theorem Guarded.access (hT : T.Lawful) (hS : T.Signals) (h : Guarded T L)
    (hp : T.proper (L.st i)) (hw : T.waits (L.st i) = none)
    (hst : L'.st = Function.update L.st i (T.request (L.st i) op).1)
    (hphase : L'.phase = L.phase) : Guarded T L' := by
  intro hr j hj
  have hj' : T.asserts (L.st j) .read := by
    rcases eq_or_ne j i with rfl | hji
    · rw [hst, Function.update_self, hS.request_asserts hp hw] at hj
      exact hj
    · rwa [hst, Function.update_of_ne hji] at hj
  obtain ⟨l, hl⟩ := h (by rwa [Line.Reading, hphase] at hr) j hj'
  refine ⟨l, ?_⟩
  rw [hst]
  rcases eq_or_ne l i with rfl | hli
  · rw [Function.update_self]; exact hT.request_guards hp hw hl
  · rwa [Function.update_of_ne hli]

theorem Guarded.observe (hS : T.Signals) (hH : T.Hands) (h : Guarded T L)
    (hp : T.proper (L.st i)) (hph : L.phase = .asked k q seen reply shared had) :
    Guarded T (L.observe T i) := by
  intro hr j hj
  obtain rfl : q = .read := by simpa [Line.Reading, Line.observe, hph] using hr
  have hst : (L.observe T i).st = Function.update L.st i (T.observe (L.st i) .read) := by
    simp [Line.observe, hph]
  have hj' : T.asserts (L.st j) .read := by
    rcases eq_or_ne j i with rfl | hji
    · rw [hst, Function.update_self, hS.observe_asserts hp] at hj
      exact hj
    · rwa [hst, Function.update_of_ne hji] at hj
  obtain ⟨l, hl⟩ := h (by simp [Line.Reading, hph]) j hj'
  refine ⟨l, ?_⟩
  rw [hst]
  rcases eq_or_ne l i with rfl | hli
  · rw [Function.update_self]; exact Or.inl (hH.observe_supplies hp hl)
  · rwa [Function.update_of_ne hli]

/-- The requester is filled exclusively, or next to the guard of the copies
that raised the shared line. -/
theorem Guarded.fill (hT : T.Lawful) (hS : T.Signals) (hC : Coherent T L) (hTr : Tracked T L)
    (h : Guarded T L) (hph : L.phase = .told k q v shared had) : Guarded T (L.fill T op) := by
  intro _ _ _
  have hB := hC.told hph
  have hp := hC.proper k
  have hst : (L.fill T op).st = Function.update L.st k (T.fill (L.st k) shared) := by
    cases op <;> simp [Line.fill, Line.complete, hph]
  rw [hst]
  cases q with
  | write =>
      refine ⟨k, Or.inr ?_⟩
      rw [Function.update_self]; exact (hT.fill_write hp hB.waits).1
  | read =>
      rcases hsh : shared with - | -
      · refine ⟨k, Or.inr ?_⟩
        rw [Function.update_self, hS.fill_exclusive hp hB.waits]
        rfl
      · obtain ⟨hshared, hhad⟩ := hTr.told hph
        obtain ⟨i, -, hi⟩ := hhad.mp (hshared.mp hsh)
        obtain ⟨j, hj⟩ := h (by simp [Line.Reading, hph]) i (hTr.copied i hi)
        have hjk : j ≠ k := by
          rintro rfl
          have hhold : T.holds (L.st j) := by
            rcases hj with hj | hj
            · exact hT.holds_of_supplies hj
            · exact hT.holds_of_exclusive hj
          have := hTr.copied j (hC.copied j hhold)
          rw [hS.reader_asserts hp hB.waits] at this; cases this
        exact ⟨j, by rwa [Function.update_of_ne hjk]⟩

theorem Guarded.step (hT : T.Lawful) (hS : T.Signals) (hH : T.Hands) (hC : Coherent T L)
    (hTr : Tracked T L) (h : Guarded T L) (hs : Step T L L') : Guarded T L' := by
  cases hs with
  | hit i op hw _ =>
      have hst : (L.hit T i op).st = Function.update L.st i (T.request (L.st i) op).1 := by
        cases op <;> rfl
      exact h.access hT hS (hC.proper i) hw hst (by cases op <;> rfl)
  | miss i op hw _ => exact h.access hT hS (hC.proper i) hw rfl rfl
  | grant k q hph _ => exact fun _ => h (by simp [Line.Reading, hph])
  | observe i hph _ => exact h.observe hS hH (hC.proper i) hph
  | lookup hph _ =>
      intro hr
      simpa [Line.lookup, hph] using h (by simpa [Line.Reading, Line.lookup, hph] using hr)
  | send hph _ =>
      intro hr
      simpa [Line.send, hph] using h (by simpa [Line.Reading, Line.send, hph] using hr)
  | fill op hph _ => exact h.fill hT hS hC hTr hph

end Steps

/-! ### Suppliers for ever -/

/-- Once a store has completed, some cache supplies the line, and a request
is answered by a cache. -/
structure Sticky (T : Table σ) (L : Line σ ι) : Prop where
  idle : L.phase = .idle → 0 < L.latest → ∃ i, T.supplies (L.st i)
  answered : ∀ {k q seen reply shared had}, L.phase = .asked k q seen reply shared had →
    0 < L.latest → reply ≠ none ∨ ∃ i, ¬ seen i ∧ T.supplies (L.st i)
  asked : ∀ {k seen reply shared had}, L.phase = .asked k .read seen reply shared had →
    0 < L.latest → ∃ i, T.supplies (L.st i)
  told : ∀ {k v shared had}, L.phase = .told k .read v shared had → 0 < L.latest →
    ∃ i, T.supplies (L.st i)

theorem Sticky.init : Sticky T (Line.init T : Line σ ι) where
  idle := fun _ h => absurd h (Nat.lt_irrefl 0)
  answered := fun e => by cases e
  asked := fun e => by cases e
  told := fun e => by cases e

section Steps

variable {L L' : Line σ ι} {i k : ι} {q op : Access} {seen : ι → Prop} {reply : Option ℕ}
  {v : ℕ} {shared : Bool} {had : Prop} [DecidableEq ι]

/-- The writer of a hit supplies, and has not observed the open request. -/
theorem Sticky.hit (hT : T.Lawful) (hC : Coherent T L) (h : Sticky T L)
    (hw : T.waits (L.st i) = none) (hhit : (T.request (L.st i) op).2 = none) :
    Sticky T (L.hit T i op) := by
  have hp := hC.proper i
  cases op with
  | read => rw [Line.hit_read hT hp hw hhit]; exact h
  | write =>
      obtain ⟨hx, -, hs⟩ := hT.hit_write hp hw hhit
      have hs' : T.supplies ((L.hit T i .write).st i) := by
        simpa [Line.hit, Line.setSt, Line.complete] using hs
      refine ⟨fun _ _ => ⟨i, hs'⟩, ?_, fun _ _ => ⟨i, hs'⟩, fun _ _ => ⟨i, hs'⟩⟩
      intro k q seen reply shared had hph _
      have hA := hC.asked (show L.phase = _ from hph)
      refine Or.inr ⟨i, fun hi => ?_, hs'⟩
      rw [hA.calm i hi] at hx; cases hx

theorem Sticky.miss (hT : T.Lawful) (hC : Coherent T L) (h : Sticky T L)
    (hw : T.waits (L.st i) = none) (hmiss : (T.request (L.st i) op).2 = some q) :
    Sticky T (L.miss T i op) := by
  have hst : ∀ j, T.supplies ((L.miss T i op).st j) = T.supplies (L.st j) := by
    intro j
    rcases eq_or_ne j i with rfl | hj
    · simpa [Line.miss, Line.setSt] using hT.miss_supplies (hC.proper j) hw hmiss
    · simp [Line.miss, Line.setSt, hj]
  refine ⟨?_, ?_, ?_, ?_⟩ <;> simp only [hst]
  exacts [h.idle, h.answered, h.asked, h.told]

omit [DecidableEq ι] in
theorem Sticky.grant (h : Sticky T L) (hph : L.phase = .idle) : Sticky T (L.grant k q) where
  idle := fun e => by cases e
  answered := by
    rintro k' q' seen reply shared had ⟨⟩ hl
    obtain ⟨i, hi⟩ := h.idle hph hl
    exact Or.inr ⟨i, fun e => e, hi⟩
  asked := fun _ => h.idle hph
  told := fun e => by cases e

theorem Sticky.observe (hK : T.Keeps) (hC : Coherent T L) (h : Sticky T L)
    (hph : L.phase = .asked k q seen reply shared had) : Sticky T (L.observe T i) := by
  have hlat : (L.observe T i).latest = L.latest := by simp [Line.observe, hph]
  have hst : (L.observe T i).st = Function.update L.st i (T.observe (L.st i) q) := by
    simp [Line.observe, hph]
  refine ⟨?_, ?_, ?_, ?_⟩
  · intro e; simp [Line.observe, hph] at e
  · intro k' q' seen' reply' shared' had' e hl
    rw [hlat] at hl
    simp only [Line.observe, hph, Phase.asked.injEq] at e
    obtain ⟨rfl, rfl, rfl, rfl, -, -⟩ := e
    rcases hs : T.supplies (L.st i) with - | -
    · -- the observer does not supply, so the supplier is still to come
      rcases h.answered hph hl with hr | ⟨j, hj, hsj⟩
      · exact Or.inl (by simpa using hr)
      · have hji : j ≠ i := by
          rintro rfl
          rw [hs] at hsj; cases hsj
        exact Or.inr ⟨j, not_or.mpr ⟨hj, hji⟩, by rwa [hst, Function.update_of_ne hji]⟩
    · exact Or.inl (by simp)
  · intro k' seen' reply' shared' had' e hl
    rw [hlat] at hl
    simp only [Line.observe, hph, Phase.asked.injEq] at e
    obtain ⟨rfl, rfl, -⟩ := e
    obtain ⟨j, hj⟩ := h.asked hph hl
    refine ⟨j, ?_⟩
    rw [hst]
    rcases eq_or_ne j i with rfl | hji
    · rw [Function.update_self]; exact hK.observe_keeps (hC.proper j) hj
    · rwa [Function.update_of_ne hji]
  · intro k' v' shared' had' e; simp [Line.observe, hph] at e

omit [DecidableEq ι] in
/-- Memory is asked only for lines nobody has stored to. -/
theorem Sticky.latest_eq_zero (h : Sticky T L)
    (hph : L.phase = .asked k q seen none shared had) (hall : ∀ i, seen i) : L.latest = 0 := by
  by_contra hl
  rcases h.answered hph (Nat.pos_of_ne_zero hl) with hr | ⟨i, hi, -⟩
  · exact hr rfl
  · exact hi (hall i)

omit [DecidableEq ι] in
theorem Sticky.lookup (h : Sticky T L) (hph : L.phase = .asked k q seen none shared had) :
    Sticky T L.lookup := by
  rw [Line.lookup_asked hph]
  refine ⟨(fun e => by cases e), ?_, ?_, (fun e => by cases e)⟩
  · rintro k' q' seen' reply' shared' had' ⟨⟩ _
    exact Or.inl (by simp)
  · rintro k' seen' reply' shared' had' ⟨⟩ hl
    exact h.asked hph hl

omit [DecidableEq ι] in
theorem Sticky.send (h : Sticky T L) (hph : L.phase = .asked k q seen (some v) shared had) :
    Sticky T L.send := by
  rw [Line.send_asked hph]
  refine ⟨(fun e => by cases e), (fun e => by cases e), (fun e => by cases e), ?_⟩
  rintro k' v' shared' had' ⟨⟩ hl
  exact h.asked hph hl

theorem Sticky.fill (hT : T.Lawful) (hK : T.Keeps) (hC : Coherent T L) (h : Sticky T L)
    (hph : L.phase = .told k q v shared had) (hop : op = .write → q = .write) :
    Sticky T (L.fill T op) := by
  have hB := hC.told hph
  have hp := hC.proper k
  have hst : (L.fill T op).st = Function.update L.st k (T.fill (L.st k) shared) := by
    cases op <;> simp [Line.fill, Line.complete, hph]
  have hphase : (L.fill T op).phase = .idle := by
    cases op <;> simp [Line.fill, Line.complete, hph]
  refine ⟨?_, (fun e => by rw [hphase] at e; cases e), (fun e => by rw [hphase] at e; cases e),
    (fun e => by rw [hphase] at e; cases e)⟩
  intro _ hl
  rw [hst]
  cases q with
  | write =>
      refine ⟨k, ?_⟩
      rw [Function.update_self]; exact (hT.fill_write hp hB.waits).2
  | read =>
      obtain rfl : op = .read := by
        cases op with
        | read => rfl
        | write => exact absurd (hop rfl) (by decide)
      obtain ⟨j, hj⟩ := h.told hph (by simpa [Line.fill, Line.complete, hph] using hl)
      have hjk : j ≠ k := by
        rintro rfl
        rw [hK.reader_supplies hp hB.waits] at hj; cases hj
      exact ⟨j, by rwa [Function.update_of_ne hjk]⟩

theorem Sticky.step (hT : T.Lawful) (hK : T.Keeps) (hC : Coherent T L) (h : Sticky T L)
    (hs : Step T L L') : Sticky T L' := by
  cases hs with
  | hit i op hw hhit => exact h.hit hT hC hw hhit
  | miss i op hw hmiss => exact h.miss hT hC hw hmiss
  | grant k q hph _ => exact h.grant hph
  | observe i hph _ => exact h.observe hK hC hph
  | lookup hph _ => exact h.lookup hph
  | send hph _ => exact h.send hph
  | fill op hph hop => exact h.fill hT hK hC hph hop

end Steps

/-! ### Runs -/

section Runs

variable [DecidableEq ι] {L : Line σ ι}

/-- The shared line of a reachable line tells the truth. -/
theorem Reach.tracked (hT : T.Lawful) (hS : T.Signals) (h : Reach T L) : Tracked T L := by
  induction h with
  | init => exact .init hS
  | step hr hs ih => exact ih.step hS (hr.coherent hT) hs

/-- The copies of a reachable line have a guard. -/
theorem Reach.guarded (hT : T.Lawful) (hS : T.Signals) (hH : T.Hands) (h : Reach T L) :
    Guarded T L := by
  induction h with
  | init => exact .init hS
  | step hr hs ih => exact ih.step hT hS hH (hr.coherent hT) (hr.tracked hT hS) hs

/-- A reachable line that was stored to is supplied by a cache. -/
theorem Reach.sticky (hT : T.Lawful) (hK : T.Keeps) (h : Reach T L) : Sticky T L := by
  induction h with
  | init => exact .init
  | step hr hs ih => exact ih.step hT hK (hr.coherent hT) hs

end Runs

end SnoopLine
