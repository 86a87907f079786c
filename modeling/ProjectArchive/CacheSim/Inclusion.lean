/-
ProjectArchive/CacheSim/Inclusion.lean

The inclusion property: a cache with more ways has all the hits of one with
fewer.

Both runs represent runs of an LRU cache, so that the blocks of a set are the
blocks accessed last in either (`access_counted`), and the `ways` last blocks
are among the `ways'` last ones.
-/
import ProjectArchive.CacheSim.Refinement

namespace ProjectArchive.CacheSim

open Exec Lru

/-- The access that led from `s` to `s'` was a hit. -/
def Hit (s s' : Sim) : Prop := s'.readHits = s.readHits + 1 ∨ s'.writeHits = s.writeHits + 1

/-- The first simulator has counted no more hits than the second. -/
structure FewerHits (s₁ s₂ : Sim) : Prop where
  readHits : s₁.readHits ≤ s₂.readHits
  writeHits : s₁.writeHits ≤ s₂.writeHits

section Inclusion

variable {blocksize cachesize₁ cachesize₂ ways₁ ways₂ : ℕ} {trace : List (BitVec 64 × Bool)}
  {s₁ s₁' s₂ s₂' : Sim} {hit₁ hit₂ write : Bool}

/-- The blocks accessed last in the smaller sets are among those in the larger ones. -/
theorem RecentlyAccessed.more_ways
    (hsets : setsOf blocksize cachesize₁ ways₁ = setsOf blocksize cachesize₂ ways₂)
    (hways : ways₁ ≤ ways₂) {physicalAddr : BitVec 64}
    (h : RecentlyAccessed blocksize cachesize₁ ways₁ trace physicalAddr) :
    RecentlyAccessed blocksize cachesize₂ ways₂ trace physicalAddr := by
  unfold RecentlyAccessed at h ⊢
  rw [← hsets]
  exact recent_subset hways _ h

theorem Counted.hit_iff (h : Counted s₁ hit₁ write s₁') : Hit s₁ s₁' ↔ hit₁ = true := by
  unfold Hit
  rw [h.readHits, h.writeHits]
  cases hit₁ <;> cases write <;> simp

/-- An access that is a hit in the second simulator if it is one in the first. -/
theorem FewerHits.access (h : FewerHits s₁ s₂) (h₁ : Counted s₁ hit₁ write s₁')
    (h₂ : Counted s₂ hit₂ write s₂') (himp : hit₁ = true → hit₂ = true) : FewerHits s₁' s₂' := by
  have hle : ∀ c : Bool, (hit₁ && c).toNat ≤ (hit₂ && c).toNat := by
    intro c
    cases hit₁ with
    | false => simp
    | true => rw [himp rfl]
  constructor
  · rw [h₁.readHits, h₂.readHits]
    exact Nat.add_le_add h.readHits (hle _)
  · rw [h₁.writeHits, h₂.writeHits]
    exact Nat.add_le_add h.writeHits (hle _)

/-- The two runs so far, and the next access in both. -/
theorem fewerHits_run {b m : ℕ} (hb : blocksize = 2 ^ b)
    (hm₁ : setsOf blocksize cachesize₁ ways₁ = 2 ^ m)
    (hm₂ : setsOf blocksize cachesize₂ ways₂ = 2 ^ m) (hpos : 1 ≤ ways₁) (hways : ways₁ ≤ ways₂)
    (htrace : ∀ x ∈ trace, x.1.toNat < 2 ^ 32) :
    Ends ((cachesimInit blocksize cachesize₁ ways₁).run trace) fun s₁ =>
      Ends ((cachesimInit blocksize cachesize₂ ways₂).run trace) fun s₂ => FewerHits s₁ s₂ := by
  induction trace using List.reverseRecOn with
  | nil => exact .ok (.ok ⟨le_rfl, le_rfl⟩)
  | append_singleton trace x ih =>
      have htrace' : ∀ y ∈ trace, y.1.toNat < 2 ^ 32 := fun y hy =>
        htrace y (List.mem_append_left _ hy)
      have hx : x.1.toNat < 2 ^ 32 := htrace x (by simp)
      obtain ⟨s₁, hs₁, s₂, hs₂, h⟩ := ih htrace'
      obtain ⟨t₁, ht₁, s₁', hs₁', hcount₁⟩ := access_counted hb hm₁ hpos htrace' x.1 hx x.2
      obtain ⟨t₂, ht₂, s₂', hs₂', hcount₂⟩ :=
        access_counted hb hm₂ (hpos.trans hways) htrace' x.1 hx x.2
      obtain rfl := Except.ok.inj (hs₁.symm.trans ht₁)
      obtain rfl := Except.ok.inj (hs₂.symm.trans ht₂)
      refine ⟨s₁', ?_, s₂', ?_, h.access hcount₁ hcount₂ ?_⟩
      · rw [Sim.run_append, hs₁, ok_bind, Sim.run, hs₁', ok_bind]
        rfl
      · rw [Sim.run_append, hs₂, ok_bind, Sim.run, hs₂', ok_bind]
        rfl
      · simp only [decide_eq_true_eq]
        exact RecentlyAccessed.more_ways (hm₁.trans hm₂.symm) hways

/-- **Inclusion.**  With more ways, every access that was a hit still is one, and
neither kind of hits gets fewer. -/
theorem hits_of_more_ways {b m : ℕ} (hb : blocksize = 2 ^ b)
    (hm₁ : setsOf blocksize cachesize₁ ways₁ = 2 ^ m)
    (hm₂ : setsOf blocksize cachesize₂ ways₂ = 2 ^ m) (hpos : 1 ≤ ways₁) (hways : ways₁ ≤ ways₂)
    (htrace : ∀ x ∈ trace, x.1.toNat < 2 ^ 32) :
    Ends ((cachesimInit blocksize cachesize₁ ways₁).run trace) fun s₁ =>
      Ends ((cachesimInit blocksize cachesize₂ ways₂).run trace) fun s₂ =>
        s₁.readHits ≤ s₂.readHits ∧ s₁.writeHits ≤ s₂.writeHits ∧
        ∀ physicalAddr : BitVec 64, physicalAddr.toNat < 2 ^ 32 → ∀ write,
          Ends (s₁.cachesimAccess physicalAddr write) fun s₁' =>
            Ends (s₂.cachesimAccess physicalAddr write) fun s₂' => Hit s₁ s₁' → Hit s₂ s₂' := by
  obtain ⟨s₁, hs₁, s₂, hs₂, h⟩ := fewerHits_run hb hm₁ hm₂ hpos hways htrace
  refine ⟨s₁, hs₁, s₂, hs₂, h.readHits, h.writeHits, ?_⟩
  intro physicalAddr haddr write
  obtain ⟨t₁, ht₁, s₁', hs₁', hcount₁⟩ := access_counted hb hm₁ hpos htrace physicalAddr haddr write
  obtain ⟨t₂, ht₂, s₂', hs₂', hcount₂⟩ :=
    access_counted hb hm₂ (hpos.trans hways) htrace physicalAddr haddr write
  obtain rfl := Except.ok.inj (hs₁.symm.trans ht₁)
  obtain rfl := Except.ok.inj (hs₂.symm.trans ht₂)
  refine ⟨s₁', hs₁', s₂', hs₂', ?_⟩
  show Hit s₁ s₁' → Hit s₂ s₂'
  rw [hcount₁.hit_iff, hcount₂.hit_iff, decide_eq_true_eq, decide_eq_true_eq]
  exact RecentlyAccessed.more_ways (hm₁.trans hm₂.symm) hways

end Inclusion

/-- Two sets of four-byte blocks, with two and with three ways. -/
theorem hits_of_more_ways_two_three :
    Ends ((cachesimInit 4 16 2).run [(0#64, false), (8#64, true), (16#64, false)]) fun s₁ =>
      Ends ((cachesimInit 4 24 3).run [(0#64, false), (8#64, true), (16#64, false)]) fun s₂ =>
        s₁.readHits ≤ s₂.readHits ∧ s₁.writeHits ≤ s₂.writeHits ∧
        ∀ physicalAddr : BitVec 64, physicalAddr.toNat < 2 ^ 32 → ∀ write,
          Ends (s₁.cachesimAccess physicalAddr write) fun s₁' =>
            Ends (s₂.cachesimAccess physicalAddr write) fun s₂' => Hit s₁ s₁' → Hit s₂ s₂' :=
  hits_of_more_ways (b := 2) (m := 1) rfl rfl rfl (by decide) (by decide) (by simp)

end ProjectArchive.CacheSim
