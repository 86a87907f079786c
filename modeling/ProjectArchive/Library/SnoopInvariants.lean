/-
ProjectArchive/Library/SnoopInvariants.lean

The invariants of the abstract line.

`Coherent` is the one every lawful table has: a cache that holds the line
holds its latest version, a cache that may write is alone, at most one cache
supplies, and while a transaction is open the data it will deliver are known
to be the latest.  Each constructor of `Step` has its preservation lemma;
`Reach.coherent` is the induction over runs.
-/
import ProjectArchive.Library.SnoopLine

namespace SnoopLine

variable {σ ι : Type*} {T : Table σ}

/-! ### The invariant -/

/-- While the line is asked for. -/
structure AskedOk (T : Table σ) (L : Line σ ι) (k : ι) (q : Access) (seen : ι → Prop)
    (reply : Option ℕ) (shared : Bool) : Prop where
  waits : T.waits (L.st k) = some q
  -- observing a request ends exclusivity, and a write request ends every copy
  calm : ∀ i, seen i → T.exclusive (L.st i) = false
  gone : q = .write → ∀ i, seen i → T.holds (L.st i) = false
  low : T.exclusiveFill → q = .read → shared = false → ∀ i, seen i → T.holds (L.st i) = false
  -- a supplied reply is current and nobody else is left to supply one
  replied : ∀ v, reply = some v → v = L.latest ∧
    ∀ i, ¬ seen i → T.supplies (L.st i) = false ∧ T.exclusive (L.st i) = false
  unreplied : reply = none → (∃ i, ¬ seen i ∧ T.supplies (L.st i)) ∨ L.mem = L.latest

/-- While the data are on the bus. -/
structure ToldOk (T : Table σ) (L : Line σ ι) (k : ι) (q : Access) (v : ℕ)
    (shared : Bool) : Prop where
  waits : T.waits (L.st k) = some q
  current : v = L.latest
  mem : L.mem = L.latest
  calm : ∀ i, T.exclusive (L.st i) = false
  gone : q = .write → ∀ i, T.holds (L.st i) = false
  low : T.exclusiveFill → q = .read → shared = false → ∀ i, T.holds (L.st i) = false

/-- The invariant of the line. -/
structure Coherent (T : Table σ) (L : Line σ ι) : Prop where
  proper : ∀ i, T.proper (L.st i)
  current : ∀ i, T.holds (L.st i) → L.held i = L.latest
  copied : ∀ i, T.holds (L.st i) → L.copy i
  alone : ∀ i j, T.exclusive (L.st i) → T.holds (L.st j) → i = j
  single : ∀ i j, T.supplies (L.st i) → T.supplies (L.st j) → i = j
  idle : L.phase = .idle → (∃ i, T.supplies (L.st i)) ∨ L.mem = L.latest
  asked : ∀ {k q seen reply shared had}, L.phase = .asked k q seen reply shared had →
    AskedOk T L k q seen reply shared
  told : ∀ {k q v shared had}, L.phase = .told k q v shared had → ToldOk T L k q v shared

theorem Coherent.init (hT : T.Lawful) : Coherent T (Line.init T : Line σ ι) where
  proper := fun _ => hT.init_proper
  current := fun i hi => by simp [Line.init, hT.init_holds] at hi
  copied := fun i hi => by simp [Line.init, hT.init_holds] at hi
  alone := fun i j _ hj => by simp [Line.init, hT.init_holds] at hj
  single := fun i j hi _ => by
    have := hT.holds_of_supplies hi
    simp [Line.init, hT.init_holds] at this
  idle := fun _ => Or.inr rfl
  asked := fun h => by cases h
  told := fun h => by cases h

/-! ### A cache and its processor -/

section Request

variable [DecidableEq ι] {L : Line σ ι} {i : ι} {op q : Access}

/-- A hit that reads changes nothing. -/
theorem Line.hit_read (hT : T.Lawful) (hp : T.proper (L.st i)) (hw : T.waits (L.st i) = none)
    (hhit : (T.request (L.st i) .read).2 = none) : L.hit T i .read = L := by
  have hs := hT.hit_read hp hw hhit
  cases L
  simp_all [Line.hit, Line.setSt, Line.complete]

/-- A hit that writes: the writer was exclusive, so nobody else held the line. -/
theorem Coherent.hit_write (hT : T.Lawful) (h : Coherent T L) (hw : T.waits (L.st i) = none)
    (hhit : (T.request (L.st i) .write).2 = none) : Coherent T (L.hit T i .write) := by
  have hp := h.proper i
  obtain ⟨hx, hx', hs'⟩ := hT.hit_write hp hw hhit
  have hv' := hT.holds_of_exclusive hx'
  have hw' := hT.hit_waits hp hw hhit
  have hp' : T.proper (T.request (L.st i) .write).1 := hT.request_proper hp hw
  have other : ∀ j, j ≠ i → T.holds (L.st j) = false := by
    intro j hj
    by_contra hv
    exact hj (h.alone i j hx (by simpa using hv)).symm
  have st_ne : ∀ j, j ≠ i → (L.hit T i .write).st j = L.st j := by
    intro j hj
    simp [Line.hit, Line.setSt, Line.complete, hj]
  have st_self : (L.hit T i .write).st i = (T.request (L.st i) .write).1 := by
    simp [Line.hit, Line.setSt, Line.complete]
  refine ⟨?_, ?_, ?_, ?_, ?_, ?_, ?_, ?_⟩
  · intro j
    rcases eq_or_ne j i with rfl | hj
    · rwa [st_self]
    · rw [st_ne j hj]; exact h.proper j
  · intro j hv
    rcases eq_or_ne j i with rfl | hj
    · have := h.current j (hT.holds_of_exclusive hx)
      simp [Line.hit, Line.setSt, Line.complete, this]
    · rw [st_ne j hj, other j hj] at hv; cases hv
  · intro j hv
    rcases eq_or_ne j i with rfl | hj
    · exact h.copied j (hT.holds_of_exclusive hx)
    · rw [st_ne j hj, other j hj] at hv; cases hv
  · intro j j' hxj hvj'
    have hj : j = i := by
      by_contra hj
      rw [st_ne j hj] at hxj
      have := hT.holds_of_exclusive hxj
      rw [other j hj] at this; cases this
    have hj' : j' = i := by
      by_contra hj'
      rw [st_ne j' hj', other j' hj'] at hvj'; cases hvj'
    rw [hj, hj']
  · intro j j' hsj hsj'
    have only : ∀ j, T.supplies ((L.hit T i .write).st j) → j = i := by
      intro j hsj
      by_contra hj
      rw [st_ne j hj] at hsj
      have := hT.holds_of_supplies hsj
      rw [other j hj] at this; cases this
    rw [only j hsj, only j' hsj']
  · intro _
    exact Or.inl ⟨i, by rw [st_self]; exact hs'⟩
  · -- an open request: the writer has not observed it yet
    intro k q seen reply shared had hph
    have hA := h.asked (show L.phase = _ from hph)
    have hnot : ¬ seen i := fun hi => by rw [hA.calm i hi] at hx; cases hx
    have hne : ∀ j, seen j → j ≠ i := fun j hj e => hnot (e ▸ hj)
    refine ⟨?_, ?_, ?_, ?_, ?_, ?_⟩
    · have hk : k ≠ i := by
        rintro rfl
        rw [hA.waits] at hw; cases hw
      rw [st_ne k hk]; exact hA.waits
    · intro j hj
      rw [st_ne j (hne j hj)]; exact hA.calm j hj
    · intro hq j hj
      rw [st_ne j (hne j hj)]; exact hA.gone hq j hj
    · intro he hq hsh j hj
      rw [st_ne j (hne j hj)]; exact hA.low he hq hsh j hj
    · intro v hv
      have := ((hA.replied v hv).2 i hnot).2
      rw [this] at hx; cases hx
    · intro _
      exact Or.inl ⟨i, hnot, by rw [st_self]; exact hs'⟩
  · intro k q v shared had hph
    have := (h.told (show L.phase = _ from hph)).calm i
    rw [this] at hx; cases hx

theorem Coherent.hit (hT : T.Lawful) (h : Coherent T L) (hw : T.waits (L.st i) = none)
    (hhit : (T.request (L.st i) op).2 = none) : Coherent T (L.hit T i op) := by
  cases op with
  | read => rw [Line.hit_read hT (h.proper i) hw hhit]; exact h
  | write => exact h.hit_write hT hw hhit

/-- A miss changes the state of one cache and neither creates a holder, an
exclusive cache or a supplier, nor removes a supplier. -/
theorem Coherent.miss (hT : T.Lawful) (h : Coherent T L) (hw : T.waits (L.st i) = none)
    (hmiss : (T.request (L.st i) op).2 = some q) : Coherent T (L.miss T i op) := by
  have hp := h.proper i
  obtain ⟨-, hx'⟩ := hT.miss_exclusive hp hw hmiss
  have st_ne : ∀ j, j ≠ i → (L.miss T i op).st j = L.st j := by
    intro j hj
    simp [Line.miss, Line.setSt, hj]
  have st_self : (L.miss T i op).st i = (T.request (L.st i) op).1 := by
    simp [Line.miss, Line.setSt]
  have hproper : ∀ j, T.proper ((L.miss T i op).st j) := by
    intro j
    rcases eq_or_ne j i with rfl | hj
    · rw [st_self]; exact hT.request_proper hp hw
    · rw [st_ne j hj]; exact h.proper j
  have holds : ∀ j, T.holds ((L.miss T i op).st j) → T.holds (L.st j) := by
    intro j hv
    rcases eq_or_ne j i with rfl | hj
    · rw [st_self] at hv; exact hT.miss_holds hp hw hmiss hv
    · rwa [st_ne j hj] at hv
  have exclusive : ∀ j, T.exclusive ((L.miss T i op).st j) → T.exclusive (L.st j) := by
    intro j hx
    rcases eq_or_ne j i with rfl | hj
    · rw [st_self, hx'] at hx; cases hx
    · rwa [st_ne j hj] at hx
  have supplies : ∀ j, T.supplies ((L.miss T i op).st j) = T.supplies (L.st j) := by
    intro j
    rcases eq_or_ne j i with rfl | hj
    · rw [st_self]; exact hT.miss_supplies hp hw hmiss
    · rw [st_ne j hj]
  have holds_false : ∀ {j}, T.holds (L.st j) = false → T.holds ((L.miss T i op).st j) = false := by
    intro j hv
    by_contra hv'
    have := holds j (by simpa using hv')
    rw [hv] at this; cases this
  have exclusive_false : ∀ {j}, T.exclusive (L.st j) = false →
      T.exclusive ((L.miss T i op).st j) = false := by
    intro j hv
    by_contra hv'
    have := exclusive j (by simpa using hv')
    rw [hv] at this; cases this
  have waits : ∀ {k q'}, T.waits (L.st k) = some q' →
      T.waits ((L.miss T i op).st k) = some q' := by
    intro k q' hk
    have hki : k ≠ i := by
      rintro rfl
      rw [hk] at hw; cases hw
    rwa [st_ne k hki]
  refine ⟨hproper, fun j hv => h.current j (holds j hv), fun j hv => h.copied j (holds j hv),
    fun j j' hx hv => h.alone j j' (exclusive j hx) (holds j' hv), ?_, ?_, ?_, ?_⟩
  · intro j j' hsj hsj'
    rw [supplies] at hsj hsj'
    exact h.single j j' hsj hsj'
  · intro hph
    rcases h.idle (show L.phase = _ from hph) with ⟨j, hj⟩ | hmem
    · exact Or.inl ⟨j, by rwa [supplies]⟩
    · exact Or.inr hmem
  · intro k q' seen reply shared had hph
    have hA := h.asked (show L.phase = _ from hph)
    refine ⟨waits hA.waits, fun j hj => exclusive_false (hA.calm j hj),
      fun hq j hj => holds_false (hA.gone hq j hj),
      fun he hq hsh j hj => holds_false (hA.low he hq hsh j hj), ?_, ?_⟩
    · intro v hv
      obtain ⟨hlat, hrest⟩ := hA.replied v hv
      refine ⟨hlat, fun j hj => ⟨?_, exclusive_false (hrest j hj).2⟩⟩
      rw [supplies]; exact (hrest j hj).1
    · intro hr
      rcases hA.unreplied hr with ⟨j, hj, hsj⟩ | hmem
      · exact Or.inl ⟨j, hj, by rwa [supplies]⟩
      · exact Or.inr hmem
  · intro k q' v shared had hph
    have hB := h.told (show L.phase = _ from hph)
    exact ⟨waits hB.waits, hB.current, hB.mem, fun j => exclusive_false (hB.calm j),
      fun hq j => holds_false (hB.gone hq j), fun he hq hsh j => holds_false (hB.low he hq hsh j)⟩

end Request

/-! ### The transaction -/

section Transaction

variable [DecidableEq ι] {L : Line σ ι} {i k : ι} {op q : Access} {seen : ι → Prop}
  {reply : Option ℕ} {shared : Bool} {had : Prop} {v : ℕ}

omit [DecidableEq ι] in
theorem Coherent.grant (h : Coherent T L) (hph : L.phase = .idle)
    (hk : T.waits (L.st k) = some q) : Coherent T (L.grant k q) := by
  refine ⟨h.proper, h.current, h.copied, h.alone, h.single, (fun e => by cases e), ?_,
    (fun e => by cases e)⟩
  rintro k' q' seen' reply' shared' had' ⟨⟩
  refine ⟨hk, ?_, ?_, ?_, ?_, ?_⟩
  · intro j hj; exact hj.elim
  · intro _ j hj; exact hj.elim
  · intro _ _ _ j hj; exact hj.elim
  · intro v hv; cases hv
  · intro _
    rcases h.idle hph with ⟨j, hj⟩ | hmem
    · exact Or.inl ⟨j, not_false, hj⟩
    · exact Or.inr hmem

omit [DecidableEq ι] in
/-- A supplier that has not observed the open request is the first to reply. -/
theorem Coherent.reply_none (h : Coherent T L) (hph : L.phase = .asked k q seen reply shared had)
    (hi : ¬ seen i) (hs : T.supplies (L.st i)) : reply = none := by
  rcases reply with - | v
  · rfl
  · have := (((h.asked hph).replied v rfl).2 i hi).1
    rw [this] at hs; cases hs

section Observe

variable {x : σ}

/-- What an observer keeps, it had. -/
theorem Table.Lawful.observe_holds (hT : T.Lawful) (hp : T.proper x)
    (hv : T.holds (T.observe x q)) : q = .read ∧ T.holds x := by
  cases q with
  | read => exact ⟨rfl, hT.observe_read_holds hp hv⟩
  | write =>
      rw [hT.observe_write hp] at hv
      cases hv

theorem Table.Lawful.observe_calm (hT : T.Lawful) (hp : T.proper x) :
    T.exclusive (T.observe x q) = false := by
  cases q with
  | read => exact hT.observe_read_exclusive hp
  | write =>
      by_contra hx
      have hholds := hT.holds_of_exclusive (T := T) (by simpa using hx)
      rw [hT.observe_write hp] at hholds
      cases hholds

theorem Table.Lawful.observe_supplies (hT : T.Lawful) (hp : T.proper x)
    (hs : T.supplies (T.observe x q)) : T.supplies x ∨ T.exclusive x := by
  obtain ⟨rfl, -⟩ := hT.observe_holds hp (hT.holds_of_supplies hs)
  exact hT.observe_read_supplies hp hs

theorem Line.observe_st_self (hph : L.phase = .asked k q seen reply shared had) :
    (L.observe T i).st i = T.observe (L.st i) q := by
  simp [Line.observe, hph]

theorem Line.observe_st_ne (hph : L.phase = .asked k q seen reply shared had) {j : ι}
    (hj : j ≠ i) : (L.observe T i).st j = L.st j := by
  simp [Line.observe, hph, hj]

theorem Line.observe_phase (hph : L.phase = .asked k q seen reply shared had) :
    (L.observe T i).phase = .asked k q (fun j => seen j ∨ j = i)
      (if T.supplies (L.st i) then some (L.held i) else reply)
      (shared || T.asserts (L.st i) q) had := by
  simp [Line.observe, hph]

theorem Line.observe_versions (hph : L.phase = .asked k q seen reply shared had) :
    (L.observe T i).latest = L.latest ∧ (L.observe T i).mem = L.mem ∧
      (L.observe T i).held = L.held := by
  simp [Line.observe, hph]

/-- Who holds the line after a request has been observed held it before. -/
theorem Coherent.observe_holds (hT : T.Lawful) (h : Coherent T L)
    (hph : L.phase = .asked k q seen reply shared had) {j : ι}
    (hv : T.holds ((L.observe T i).st j)) : T.holds (L.st j) := by
  rcases eq_or_ne j i with rfl | hj
  · rw [Line.observe_st_self hph] at hv
    exact (hT.observe_holds (h.proper j) hv).2
  · rwa [Line.observe_st_ne hph hj] at hv

/-- A new supplier was exclusive, so there is no other one. -/
theorem Coherent.observe_single (hT : T.Lawful) (h : Coherent T L)
    (hph : L.phase = .asked k q seen reply shared had) (j j' : ι)
    (hsj : T.supplies ((L.observe T i).st j)) (hsj' : T.supplies ((L.observe T i).st j')) :
    j = j' := by
  have only : ∀ j, T.supplies ((L.observe T i).st j) →
      T.supplies ((L.observe T i).st i) → j = i := by
    intro j hsj hsi
    by_contra hj
    rw [Line.observe_st_ne hph hj] at hsj
    rw [Line.observe_st_self hph] at hsi
    rcases hT.observe_supplies (h.proper i) hsi with hs | hx
    · exact hj (h.single j i hsj hs)
    · exact hj (h.alone i j hx (hT.holds_of_supplies hsj)).symm
  rcases eq_or_ne j i with rfl | hj
  · exact (only j' hsj' hsj).symm
  · rcases eq_or_ne j' i with rfl | hj'
    · exact only j hsj hsj'
    · rw [Line.observe_st_ne hph hj] at hsj
      rw [Line.observe_st_ne hph hj'] at hsj'
      exact h.single j j' hsj hsj'

/-- The open transaction after its request has been observed by one more cache. -/
theorem AskedOk.observe (hT : T.Lawful) (h : Coherent T L)
    (hph : L.phase = .asked k q seen reply shared had) (hi : ¬ seen i) :
    AskedOk T (L.observe T i) k q (fun j => seen j ∨ j = i)
      (if T.supplies (L.st i) then some (L.held i) else reply)
      (shared || T.asserts (L.st i) q) := by
  have hA := h.asked hph
  have hp := h.proper i
  have st_self := Line.observe_st_self (T := T) (i := i) hph
  have st_ne : ∀ j, j ≠ i → (L.observe T i).st j = L.st j :=
    fun j hj => Line.observe_st_ne hph hj
  obtain ⟨latest', mem', -⟩ := Line.observe_versions (T := T) (i := i) hph
  refine ⟨?_, ?_, ?_, ?_, ?_, ?_⟩
  · rcases eq_or_ne k i with rfl | hk
    · rw [st_self, hT.observe_waits hp]; exact hA.waits
    · rw [st_ne k hk]; exact hA.waits
  · rintro j (hj | rfl)
    · have hji : j ≠ i := fun e => hi (e ▸ hj)
      rw [st_ne j hji]; exact hA.calm j hj
    · rw [st_self]; exact hT.observe_calm hp
  · rintro hq j (hj | rfl)
    · have hji : j ≠ i := fun e => hi (e ▸ hj)
      rw [st_ne j hji]; exact hA.gone hq j hj
    · subst hq
      rw [st_self]; exact hT.observe_write hp
  · intro he hq hsh j hj
    simp only [Bool.or_eq_false_iff] at hsh
    rcases hj with hj | rfl
    · have hji : j ≠ i := fun e => hi (e ▸ hj)
      rw [st_ne j hji]; exact hA.low he hq hsh.1 j hj
    · by_contra hv
      rw [st_self] at hv
      subst hq
      have hasserts := hT.observe_read_asserts he hp (hT.observe_holds hp (by simpa using hv)).2
      rw [hsh.2] at hasserts
      cases hasserts
  · -- the reply, if there is one by now, is the latest version
    intro v hv
    rw [latest']
    split at hv
    · rename_i hs
      have hhold := hT.holds_of_supplies hs
      refine ⟨by rw [← Option.some.inj hv]; exact h.current i hhold, ?_⟩
      intro j hj
      obtain ⟨-, hji⟩ := not_or.mp hj
      rw [st_ne j hji]
      constructor
      · by_contra hsj
        exact hji (h.single j i (by simpa using hsj) hs)
      · by_contra hxj
        exact hji (h.alone j i (by simpa using hxj) hhold)
    · obtain ⟨hlat, hrest⟩ := hA.replied v hv
      refine ⟨hlat, fun j hj => ?_⟩
      obtain ⟨hj, hji⟩ := not_or.mp hj
      rw [st_ne j hji]
      exact hrest j hj
  · intro hr
    rw [latest', mem']
    split at hr
    · cases hr
    · rename_i hs
      rcases hA.unreplied hr with ⟨j, hj, hsj⟩ | hmem
      · have hji : j ≠ i := fun e => hs (e ▸ hsj)
        exact Or.inl ⟨j, not_or.mpr ⟨hj, hji⟩, by rw [st_ne j hji]; exact hsj⟩
      · exact Or.inr hmem

theorem Coherent.observe (hT : T.Lawful) (h : Coherent T L)
    (hph : L.phase = .asked k q seen reply shared had) (hi : ¬ seen i) :
    Coherent T (L.observe T i) := by
  have hp := h.proper i
  have st_self := Line.observe_st_self (T := T) (i := i) hph
  have phase' := Line.observe_phase (T := T) (i := i) hph
  obtain ⟨latest', -, held'⟩ := Line.observe_versions (T := T) (i := i) hph
  refine ⟨?_, ?_, ?_, ?_, h.observe_single hT hph, ?_, ?_, ?_⟩
  · intro j
    rcases eq_or_ne j i with rfl | hj
    · rw [st_self]; exact hT.observe_proper hp
    · rw [Line.observe_st_ne hph hj]; exact h.proper j
  · intro j hv
    rw [latest', held']
    exact h.current j (h.observe_holds hT hph hv)
  · intro j hv
    have hcopy := h.copied j (h.observe_holds hT hph hv)
    rcases eq_or_ne j i with rfl | hj
    · rw [st_self] at hv
      obtain ⟨rfl, -⟩ := hT.observe_holds hp hv
      simpa [Line.observe, hph] using hcopy
    · simp only [Line.observe, hph]
      split <;> simp [hj, hcopy]
  · intro j j' hx hv
    rcases eq_or_ne j i with rfl | hj
    · rw [st_self, hT.observe_calm hp] at hx
      cases hx
    · rw [Line.observe_st_ne hph hj] at hx
      exact h.alone j j' hx (h.observe_holds hT hph hv)
  · intro e; rw [phase'] at e; cases e
  · intro k' q' seen' reply' shared' had' e
    rw [phase'] at e
    cases e
    exact .observe hT h hph hi
  · intro k' q' v shared' had' e; rw [phase'] at e; cases e

end Observe

omit [DecidableEq ι] in
theorem Coherent.lookup (h : Coherent T L) (hph : L.phase = .asked k q seen none shared had)
    (hall : ∀ i, seen i) : Coherent T L.lookup := by
  have hA := h.asked hph
  have hmem : L.mem = L.latest := by
    rcases hA.unreplied rfl with ⟨j, hj, -⟩ | hmem
    · exact absurd (hall j) hj
    · exact hmem
  rw [Line.lookup_asked hph]
  refine ⟨h.proper, h.current, h.copied, h.alone, h.single, (fun e => by cases e), ?_,
    (fun e => by cases e)⟩
  rintro k' q' seen' reply' shared' had' ⟨⟩
  refine ⟨hA.waits, hA.calm, hA.gone, hA.low, ?_, fun e => by cases e⟩
  intro v hv
  refine ⟨by rw [← Option.some.inj hv, hmem], fun j hj => absurd (hall j) hj⟩

omit [DecidableEq ι] in
theorem Coherent.send (h : Coherent T L) (hph : L.phase = .asked k q seen (some v) shared had)
    (hall : ∀ i, seen i) : Coherent T L.send := by
  have hA := h.asked hph
  have hv := (hA.replied v rfl).1
  rw [Line.send_asked hph]
  refine ⟨h.proper, h.current, h.copied, h.alone, h.single, (fun e => by cases e),
    (fun e => by cases e), ?_⟩
  rintro k' q' v' shared' had' ⟨⟩
  exact ⟨hA.waits, hv, hv, fun j => hA.calm j (hall j), fun hq j => hA.gone hq j (hall j),
    fun he hq hsh j => hA.low he hq hsh j (hall j)⟩

theorem Coherent.fill (hT : T.Lawful) (h : Coherent T L) (hph : L.phase = .told k q v shared had)
    (hop : op = .write → q = .write) : Coherent T (L.fill T op) := by
  have hB := h.told hph
  have hp := h.proper k
  have st_ne : ∀ j, j ≠ k → (L.fill T op).st j = L.st j := by
    intro j hj
    cases op <;> simp [Line.fill, Line.complete, hph, hj]
  have st_self : (L.fill T op).st k = T.fill (L.st k) shared := by
    cases op <;> simp [Line.fill, Line.complete, hph]
  have phase' : (L.fill T op).phase = .idle := by
    cases op <;> simp [Line.fill, Line.complete, hph]
  have copy_ne : ∀ j, j ≠ k → (L.fill T op).copy j = L.copy j := by
    intro j hj
    cases op <;> simp [Line.fill, Line.complete, hph, hj]
  have held_self : (L.fill T op).held k = (L.fill T op).latest := by
    have := hB.current
    cases op <;> simp [Line.fill, Line.complete, hph, this]
  -- nobody is exclusive, and with a write request nobody else holds the line
  have other_holds : q = .write → ∀ j, j ≠ k → T.holds ((L.fill T op).st j) = false := by
    intro hq j hj
    rw [st_ne j hj]; exact hB.gone hq j
  have other_alone : T.exclusive (T.fill (L.st k) shared) → ∀ j, j ≠ k →
      T.holds ((L.fill T op).st j) = false := by
    intro hx j hj
    cases q with
    | write => exact other_holds rfl j hj
    | read =>
        obtain ⟨he, hsh⟩ := hT.fill_read_exclusive hp hB.waits hx
        rw [st_ne j hj]; exact hB.low he rfl hsh j
  refine ⟨?_, ?_, ?_, ?_, ?_, ?_, ?_, ?_⟩
  · intro j
    rcases eq_or_ne j k with rfl | hj
    · rw [st_self]; exact hT.fill_proper hp hB.waits
    · rw [st_ne j hj]; exact h.proper j
  · intro j hv
    rcases eq_or_ne j k with rfl | hj
    · exact held_self
    · cases op with
      | write => rw [other_holds (hop rfl) j hj] at hv; cases hv
      | read =>
          rw [st_ne j hj] at hv
          simpa [Line.fill, Line.complete, hph, hj] using h.current j hv
  · intro j hv
    rcases eq_or_ne j k with rfl | hj
    · cases op <;> simp [Line.fill, Line.complete, hph]
    · rw [st_ne j hj] at hv
      rw [copy_ne j hj]; exact h.copied j hv
  · intro j j' hx hv
    have hj : j = k := by
      by_contra hj
      rw [st_ne j hj, hB.calm j] at hx; cases hx
    subst hj
    by_contra hj'
    rw [st_self] at hx
    rw [other_alone hx j' (Ne.symm hj')] at hv; cases hv
  · -- a read is filled without the duty to supply
    have only : ∀ j, T.supplies ((L.fill T op).st j) →
        T.supplies ((L.fill T op).st k) → j = k := by
      intro j hsj hsk
      by_contra hj
      cases q with
      | write =>
          have := hT.holds_of_supplies hsj
          rw [other_holds rfl j hj] at this; cases this
      | read =>
          rw [st_self, hT.fill_read_supplies hp hB.waits] at hsk; cases hsk
    intro j j' hsj hsj'
    rcases eq_or_ne j k with rfl | hj
    · exact (only j' hsj' hsj).symm
    · rcases eq_or_ne j' k with rfl | hj'
      · exact only j hsj hsj'
      · rw [st_ne j hj] at hsj
        rw [st_ne j' hj'] at hsj'
        exact h.single j j' hsj hsj'
  · intro _
    cases q with
    | write => exact Or.inl ⟨k, by rw [st_self]; exact (hT.fill_write hp hB.waits).2⟩
    | read =>
        have hr : op = .read := by
          cases op with
          | read => rfl
          | write => exact absurd (hop rfl) (by decide)
        subst hr
        exact Or.inr (by simpa [Line.fill, Line.complete, hph] using hB.mem)
  · intro k' q' seen reply shared' had' e; rw [phase'] at e; cases e
  · intro k' q' v' shared' had' e; rw [phase'] at e; cases e

end Transaction

/-! ### Runs -/

variable [DecidableEq ι]

theorem Coherent.step (hT : T.Lawful) {L L' : Line σ ι} (h : Coherent T L) (hs : Step T L L') :
    Coherent T L' := by
  cases hs with
  | hit i op hw hhit => exact h.hit hT hw hhit
  | miss i op hw hmiss => exact h.miss hT hw hmiss
  | grant k q hph hk => exact h.grant hph hk
  | observe i hph hi => exact h.observe hT hph hi
  | lookup hph hall => exact h.lookup hph hall
  | send hph hall => exact h.send hph hall
  | fill op hph hop => exact h.fill hT hph hop

/-- **Every reachable line is coherent.** -/
theorem Reach.coherent (hT : T.Lawful) {L : Line σ ι} (h : Reach T L) : Coherent T L := by
  induction h with
  | init => exact .init hT
  | step _ hs ih => exact ih.step hT hs

end SnoopLine
