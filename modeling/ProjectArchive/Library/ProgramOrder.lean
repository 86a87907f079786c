/-
ProjectArchive/Library/ProgramOrder.lean

Straight-line programs as data flow: the instructions are numbered in program
order, `issues k` says that the instruction `k` is carried out at all and
`writes k r` that it writes the register `r`.

`LastWriter writes r j p` says that `p` is the closest instruction before `j`
that writes `r`, that is, the producer of the value which `j` reads from `r`.
Renaming hardware gives the instructions that are carried out consecutive
numbers; these are `Nat.count issues`, and `count_eq_iff` says that they
identify their instructions.  When the instructions are executed in order and
`held j` is what the cells hold before the instruction `j`, a cell holds what its
last writer has left there: `LastWriter.value`.
-/
import Mathlib.Data.Nat.Count

namespace ProgramOrder

variable {ρ : Type*} {writes : ℕ → ρ → Prop} {r : ρ} {i j p q : ℕ}

/-- The closest writer of `r` before `j`. -/
structure LastWriter (writes : ℕ → ρ → Prop) (r : ρ) (j p : ℕ) : Prop where
  lt : p < j
  wrote : writes p r
  last : ∀ k, p < k → k < j → ¬ writes k r

theorem LastWriter.unique (hp : LastWriter writes r j p) (hq : LastWriter writes r j q) :
    p = q := by
  rcases Nat.lt_trichotomy p q with h | h | h
  · exact absurd hq.wrote (hp.last q h hq.lt)
  · exact h
  · exact absurd hp.wrote (hq.last p h hp.lt)

/-- Instructions that do not write `r` do not change its last writer. -/
theorem lastWriter_congr (hij : i ≤ j) (h : ∀ k, i ≤ k → k < j → ¬ writes k r) :
    LastWriter writes r j p ↔ LastWriter writes r i p := by
  constructor
  · intro hp
    have hlt : p < i := by
      by_contra hge
      exact h p (Nat.le_of_not_lt hge) hp.lt hp.wrote
    exact ⟨hlt, hp.wrote, fun k hk hki => hp.last k hk (hki.trans_le hij)⟩
  · intro hp
    refine ⟨hp.lt.trans_le hij, hp.wrote, ?_⟩
    intro k hk hkj
    rcases Nat.lt_or_ge k i with hki | hik
    · exact hp.last k hk hki
    · exact h k hik hkj

/-- An instruction that writes `r` is the last writer for its successor. -/
theorem lastWriter_succ_of_writes (h : writes j r) : LastWriter writes r (j + 1) p ↔ p = j := by
  have hj : LastWriter writes r (j + 1) j :=
    ⟨Nat.lt_succ_self j, h, fun k hk hkj => absurd hkj (Nat.not_lt.mpr hk)⟩
  constructor
  · intro hp
    exact hp.unique hj
  · rintro rfl
    exact hj

theorem lastWriter_succ_of_not_writes (h : ¬ writes j r) :
    LastWriter writes r (j + 1) p ↔ LastWriter writes r j p := by
  refine lastWriter_congr (Nat.le_succ j) ?_
  intro k hk hkj
  obtain rfl : k = j := Nat.le_antisymm (Nat.le_of_lt_succ hkj) hk
  exact h

theorem not_lastWriter_zero : ¬ LastWriter writes r 0 p := fun h => Nat.not_lt_zero p h.lt

section Numbers

variable {issues : ℕ → Prop} [DecidablePred issues]

/-- Skipping an instruction does not use up a number. -/
theorem count_congr (hij : i ≤ j) (h : ∀ k, i ≤ k → k < j → ¬ issues k) :
    Nat.count issues j = Nat.count issues i := by
  induction j, hij using Nat.le_induction with
  | base => rfl
  | succ j hij ih =>
      rw [Nat.count_succ, if_neg (h j hij (Nat.lt_succ_self j)), Nat.add_zero]
      exact ih fun k hik hkj => h k hik (hkj.trans (Nat.lt_succ_self j))

/-- The numbers identify the instructions that are carried out. -/
theorem count_eq_iff (hi : issues i) (hj : issues j) :
    Nat.count issues i = Nat.count issues j ↔ i = j := by
  constructor
  · exact fun h => Nat.count_injective hi hj h
  · rintro rfl
    rfl

end Numbers

section Values

variable {β : Type*} (held : ℕ → ρ → β)

/-- A cell keeps its value while no instruction writes it. -/
theorem value_congr (hframe : ∀ k, ¬ writes k r → held (k + 1) r = held k r) (hij : i ≤ j)
    (h : ∀ k, i ≤ k → k < j → ¬ writes k r) : held j r = held i r := by
  induction j, hij using Nat.le_induction with
  | base => rfl
  | succ j hij ih =>
      rw [hframe j (h j hij (Nat.lt_succ_self j))]
      exact ih fun k hik hkj => h k hik (hkj.trans (Nat.lt_succ_self j))

/-- A cell holds what its last writer has left there. -/
theorem LastWriter.value (h : LastWriter writes r j p)
    (hframe : ∀ k, ¬ writes k r → held (k + 1) r = held k r) : held j r = held (p + 1) r :=
  value_congr held hframe h.lt h.last

end Values

end ProgramOrder
