/-
ProjectArchive/Library/Gshare.lean

A branch predictor with a global history, as a function of the past.

A branch is looked up in a table of two-bit counters, at the exclusive or of a
hash of its address and the last `g` outcomes.  There is no table here: the past
is the list of the branches that have been resolved, the latest first, and the
counter at an index is what the outcomes of the branches that were looked up
there have made of it.
-/
import Mathlib.Algebra.Ring.Nat
import Mathlib.Tactic.Common

namespace Gshare

/-- A branch that has been resolved. -/
structure Outcome (α : Type*) where
  addr : α
  taken : Bool

variable {α : Type*} (hash : α → ℕ) (g : ℕ)

/-- The outcomes as a number, with the latest as its lowest bit. -/
def bits : List (Outcome α) → ℕ
  | [] => 0
  | branch :: past => 2 * bits past + branch.taken.toNat

/-- The index of an address. -/
def index (past : List (Outcome α)) (addr : α) : ℕ := hash addr ^^^ bits (past.take g)

/-- The outcomes of the branches that were looked up at the index `i`. -/
def outcomesAt (i : ℕ) : List (Outcome α) → List Bool
  | [] => []
  | branch :: past =>
      if index hash g past branch.addr = i then branch.taken :: outcomesAt i past
      else outcomesAt i past

/-- A two-bit counter after some outcomes; it starts at "weakly not taken". -/
def counter : List Bool → ℕ
  | [] => 1
  | true :: outcomes => min 3 (counter outcomes + 1)
  | false :: outcomes => counter outcomes - 1

/-- The prediction for an address. -/
def predicts (past : List (Outcome α)) (addr : α) : Bool :=
  2 ≤ counter (outcomesAt hash g (index hash g past addr) past)

theorem counter_le (outcomes : List Bool) : counter outcomes ≤ 3 := by
  induction outcomes with
  | nil => exact Nat.le_of_ble_eq_true rfl
  | cons taken outcomes ih =>
      cases taken with
      | true => exact Nat.min_le_left 3 _
      | false => exact Nat.le_trans (Nat.sub_le _ 1) ih

theorem bits_take (past : List (Outcome α)) : bits (past.take g) = bits past % 2 ^ g := by
  induction g generalizing past with
  | zero =>
      rw [Nat.pow_zero, Nat.mod_one]
      rfl
  | succ g ih =>
      cases past with
      | nil => exact (Nat.zero_mod _).symm
      | cons branch past =>
          have htaken : branch.taken.toNat < 2 := Bool.toNat_lt branch.taken
          have hhalf : (2 * bits past + branch.taken.toNat) / 2 = bits past := by omega
          rw [List.take_succ_cons, bits, bits, ih, Nat.pow_succ, Nat.mul_comm (2 ^ g) 2,
            Nat.mod_mul, hhalf]
          omega

/-- A history that is kept in a register of `w` bits. -/
theorem bits_take_take (w : ℕ) (past : List (Outcome α)) :
    bits (past.take w) % 2 ^ g = bits (past.take (min g w)) := by
  rw [← bits_take, List.take_take]

end Gshare
