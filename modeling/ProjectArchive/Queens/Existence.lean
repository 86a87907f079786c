/-
ProjectArchive/Queens/Existence.lean

For which numbers of queens there is a placement.

An even number of queens is placed on two knight's-move diagonals, or, when its
remainder by six is two, on the four parts that two such diagonals leave when
they wrap around.  Neither placement uses the long diagonal, so an odd number
of queens is placed by adding one in the corner.
-/
import ProjectArchive.Queens.BackTrackSearch

namespace ProjectArchive.Queens

open DepthFirst

/-- The path with the row `f c` in every column `c`. -/
def rows (n : ℕ) (f : ℕ → ℤ) : List ℤ := (List.range n).map f

/-- The rows `f` attack each other nowhere on an `n` by `n` board. -/
structure Peaceful (n : ℕ) (f : ℕ → ℤ) : Prop where
  range : ∀ c < n, 1 ≤ f c ∧ f c ≤ n
  apart : ∀ c d, c < d → d < n → constraint c d (f c) (f d) = true

theorem Peaceful.isPlacement {n : ℕ} {f : ℕ → ℤ} (h : Peaceful n f) : IsPlacement n (rows n f) := by
  have hlen : (rows n f).length = n := by simp [rows]
  have hget : ∀ c < n, (rows n f).getD c 0 = f c := by
    intro c hc
    simp [rows, List.getD_eq_getElem?_getD, hc]
  refine ⟨hlen, ?_, consistent_iff.mpr ?_⟩
  · intro v hv
    obtain ⟨c, hc, rfl⟩ := List.mem_map.mp hv
    exact h.range c (List.mem_range.mp hc)
  · intro c d hcd hd
    rw [hlen] at hd
    rw [hget c (by omega), hget d hd]
    exact h.apart c d hcd hd

/-- The long diagonal is free, so a queen can be added in the corner. -/
theorem Peaceful.corner {n : ℕ} {f : ℕ → ℤ} (h : Peaceful n f) (hfree : ∀ c < n, f c ≠ c + 1) :
    Peaceful (n + 1) fun c => if c < n then f c else n + 1 := by
  refine ⟨?_, ?_⟩
  · intro c _
    split
    · have := h.range c ‹_›
      omega
    · omega
  · intro c d hcd hd
    rw [if_pos (show c < n by omega)]
    split
    · exact h.apart c d hcd ‹_›
    · have hrange := h.range c (by omega)
      have hdiagonal := hfree c (by omega)
      rw [constraint_iff]
      constructor <;> omega

/-- Two diagonals of knight's moves on a board of size `2 m`. -/
def knightRows (m c : ℕ) : ℤ := if c < m then 2 * c + 2 else 2 * c + 1 - 2 * m

/-- Two such diagonals that wrap around, the second the first after half a turn. -/
def wrappedRows (m c : ℕ) : ℤ :=
  if 2 * c ≤ m then 2 * c + m
  else if c < m then 2 * c - m
  else if 2 * c + 3 ≤ 3 * m then 2 * c + 3 - m
  else 2 * c + 3 - 3 * m

theorem knightRows_peaceful {m : ℕ} (hm : m % 3 ≠ 1) : Peaceful (2 * m) (knightRows m) := by
  refine ⟨?_, ?_⟩
  · intro c hc
    unfold knightRows
    split <;> omega
  · intro c d hcd hd
    rw [constraint_iff, knightRows, knightRows]
    split_ifs <;> constructor <;> omega

theorem wrappedRows_peaceful {m : ℕ} (hm : m % 3 = 1) (hfour : 4 ≤ m) :
    Peaceful (2 * m) (wrappedRows m) := by
  refine ⟨?_, ?_⟩
  · intro c hc
    unfold wrappedRows
    split_ifs <;> omega
  · intro c d hcd hd
    rw [constraint_iff, wrappedRows, wrappedRows]
    split_ifs <;> constructor <;> omega

theorem knightRows_free {m c : ℕ} (hc : c < 2 * m) : knightRows m c ≠ c + 1 := by
  unfold knightRows
  split <;> omega

theorem wrappedRows_free {m c : ℕ} (hm : 4 ≤ m) (hc : c < 2 * m) : wrappedRows m c ≠ c + 1 := by
  unfold wrappedRows
  split_ifs <;> omega

/-- An even board from four on has a placement off the long diagonal. -/
theorem exists_peaceful_even {m : ℕ} (hm : 2 ≤ m) :
    ∃ f, Peaceful (2 * m) f ∧ ∀ c < 2 * m, f c ≠ c + 1 := by
  by_cases hmod : m % 3 = 1
  · have hfour : 4 ≤ m := by omega
    exact ⟨wrappedRows m, wrappedRows_peaceful hmod hfour, fun c hc => wrappedRows_free hfour hc⟩
  · exact ⟨knightRows m, knightRows_peaceful hmod, fun c hc => knightRows_free hc⟩

/-- **There is a placement of `n` queens iff `n` is neither two nor three.** -/
theorem exists_placement_iff {n : ℕ} : (∃ p, IsPlacement n p) ↔ n ≠ 2 ∧ n ≠ 3 := by
  constructor
  · rintro ⟨p, hp⟩
    have hsome := pathTree_complete hp
    constructor
    · rintro rfl
      exact absurd hsome (by decide)
    · rintro rfl
      exact absurd hsome (by decide)
  · rintro ⟨htwo, hthree⟩
    rcases Nat.lt_or_ge n 4 with hsmall | hfour
    · obtain rfl | rfl : n = 0 ∨ n = 1 := by omega
      · exact ⟨[], rfl, by simp, rfl⟩
      · exact ⟨[1], rfl, by simp, rfl⟩
    · obtain ⟨f, hf, hfree⟩ := exists_peaceful_even (m := n / 2) (by omega)
      rcases Nat.mod_two_eq_zero_or_one n with heven | hodd
      · rw [show 2 * (n / 2) = n by omega] at hf
        exact ⟨_, hf.isPlacement⟩
      · have hcorner := hf.corner hfree
        rw [show 2 * (n / 2) + 1 = n by omega] at hcorner
        exact ⟨_, hcorner.isPlacement⟩

end ProjectArchive.Queens
