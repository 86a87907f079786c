/-
ProjectArchive/Library/Block.lean

Blocks of memory that are accessed by index.

An access outside of a block is a fault.  `Holds c a l` says that the cells from
the address `a` on hold the list `l`; as with list segments, what a block holds
is cut and joined by `holds_append` and left alone by writes elsewhere
(`Holds.congr`).  `shiftLeft` is the loop that moves cells to the left by one,
and `shiftLeft_ends` what it does to a list.
-/
import ProjectArchive.Library.Exec
import Mathlib.Data.Int.Basic
import Mathlib.Logic.Function.Basic

namespace Memory

open Exec

variable {α : Type*}

/-- What goes wrong: a cell outside of a block is accessed. -/
inductive Fault
  | outOfBounds
  deriving DecidableEq, Repr

/-- A block of cells; what `cell` says outside of the block means nothing. -/
structure Block (α : Type*) where
  size : ℕ
  cell : ℕ → α

namespace Block

/-- `b[a]`. -/
def load (b : Block α) (a : ℤ) : Except Fault α :=
  if 0 ≤ a ∧ a < b.size then .ok (b.cell a.toNat) else .error .outOfBounds

/-- The block after `b[a] = x`, inside of the block. -/
def set (b : Block α) (a : ℕ) (x : α) : Block α := { b with cell := Function.update b.cell a x }

/-- `b[a] = x`. -/
def store (b : Block α) (a : ℤ) (x : α) : Except Fault (Block α) :=
  if 0 ≤ a ∧ a < b.size then .ok (b.set a.toNat x) else .error .outOfBounds

variable {b : Block α} {a n : ℕ} {x : α} {l l' : List α}

theorem load_natCast (ha : a < b.size) : b.load a = .ok (b.cell a) := by
  unfold load
  rw [if_pos ⟨Int.natCast_nonneg a, Int.ofNat_lt.mpr ha⟩, Int.toNat_natCast]

theorem store_natCast (ha : a < b.size) : b.store a x = .ok (b.set a x) := by
  unfold store
  rw [if_pos ⟨Int.natCast_nonneg a, Int.ofNat_lt.mpr ha⟩, Int.toNat_natCast]

theorem load_eq_error (h : b.size = 0) (a : ℤ) : b.load a = .error .outOfBounds := by
  unfold load
  rw [h]
  exact if_neg fun ha => absurd ha.2 (Int.not_lt.mpr ha.1)

@[simp] theorem set_size : (b.set a x).size = b.size := rfl

@[simp] theorem set_cell_self : (b.set a x).cell a = x := Function.update_self ..

theorem set_cell_ne (h : n ≠ a) : (b.set a x).cell n = b.cell n := Function.update_of_ne h ..

end Block

/-! ### What a block holds -/

/-- The cells from `a` on hold a list. -/
def Holds (c : ℕ → α) : ℕ → List α → Prop
  | _, [] => True
  | a, x :: l => c a = x ∧ Holds c (a + 1) l

variable {c c' : ℕ → α} {a : ℕ} {x : α} {l l' : List α}

theorem holds_append : Holds c a (l ++ l') ↔ Holds c a l ∧ Holds c (a + l.length) l' := by
  induction l generalizing a with
  | nil => simp [Holds]
  | cons x l ih =>
      rw [List.cons_append, Holds, Holds, ih, List.length_cons, Nat.add_assoc, Nat.add_comm 1,
        and_assoc]

theorem Holds.congr (h : Holds c a l) (hc : ∀ n, a ≤ n → n < a + l.length → c' n = c n) :
    Holds c' a l := by
  induction l generalizing a with
  | nil => trivial
  | cons x l ih =>
      rw [List.length_cons] at hc
      refine ⟨(hc a (Nat.le_refl a) (by omega)).trans h.1, ih h.2 ?_⟩
      intro n hle hlt
      exact hc n (by omega) (by omega)

theorem holds_iff : Holds c a l ↔ ∀ j x, l[j]? = some x → c (a + j) = x := by
  induction l generalizing a with
  | nil => simp [Holds]
  | cons y l ih =>
      rw [Holds, ih]
      constructor
      · rintro ⟨hy, hl⟩ j x hj
        rcases j with - | j
        · exact hy.trans (Option.some.inj hj)
        · rw [← Nat.add_assoc, Nat.add_right_comm]
          exact hl j x hj
      · intro h
        refine ⟨h 0 y rfl, ?_⟩
        intro j x hj
        rw [Nat.add_assoc, Nat.add_comm 1]
        exact h (j + 1) x hj

theorem Holds.map_range (h : Holds c a l) : (List.range l.length).map (fun j => c (a + j)) = l := by
  refine List.ext_getElem (by simp) ?_
  intro j _ hj
  rw [List.getElem_map, List.getElem_range]
  exact holds_iff.mp h j l[j] (List.getElem?_eq_getElem hj)

/-! ### Moving cells -/

/-- `for (; rounds > 0; rounds--, a++) b[a] = b[a + 1]`. -/
def shiftLeft : ℕ → ℤ → Block α → Except Fault (Block α)
  | 0, _, b => .ok b
  | rounds + 1, a, b => do
      let x ← b.load (a + 1)
      let b ← b.store a x
      shiftLeft rounds (a + 1) b

/-- The first element of a list is overwritten, and the others move up to it. -/
theorem shiftLeft_ends {b : Block α} (h : Holds b.cell a (x :: l)) (hsize : a + l.length < b.size) :
    Ends (shiftLeft l.length a b) fun b' => b'.size = b.size ∧ Holds b'.cell a l ∧
      ∀ n, n < a ∨ a + l.length ≤ n → b'.cell n = b.cell n := by
  induction l generalizing a x b with
  | nil => exact .ok ⟨rfl, trivial, fun _ _ => rfl⟩
  | cons y l ih =>
      rw [List.length_cons] at hsize
      have hload : b.load ((a : ℤ) + 1) = .ok y := by
        rw [← Int.natCast_succ, Block.load_natCast (by omega)]
        exact congrArg Except.ok h.2.1
      have hrest : Holds (b.set a y).cell (a + 1) (y :: l) := by
        refine h.2.congr ?_
        intro n hle _
        exact Block.set_cell_ne (Nat.ne_of_gt hle)
      obtain ⟨b', hshift, hsize', hl, hothers⟩ := ih hrest (by rw [Block.set_size]; omega)
      refine ⟨b', ?_, hsize', ⟨?_, hl⟩, ?_⟩
      · rw [List.length_cons, shiftLeft]
        rw [hload, ok_bind, Block.store_natCast (by omega), ok_bind]
        exact hshift
      · rw [hothers a (.inl (Nat.lt_succ_self a)), Block.set_cell_self]
      · intro n hn
        rw [List.length_cons] at hn
        rw [hothers n (by omega), Block.set_cell_ne (by omega)]

/-- An element of a list is moved to the end of it. -/
theorem rotate_ends {b : Block α} {l₁ l₂ : List α} (h : Holds b.cell a (l₁ ++ x :: l₂))
    (hsize : a + (l₁.length + l₂.length) < b.size) :
    Ends (shiftLeft l₂.length ((a : ℤ) + l₁.length) b >>= fun b =>
        b.store (a + (l₁.length + l₂.length)) x)
      fun b' => b'.size = b.size ∧ Holds b'.cell a (l₁ ++ l₂ ++ [x]) ∧
        ∀ n, n < a ∨ a + (l₁.length + l₂.length) < n → b'.cell n = b.cell n := by
  obtain ⟨h₁, h₂⟩ := holds_append.mp h
  obtain ⟨b₁, hshift, hsize₁, hl₂, hothers⟩ := shiftLeft_ends h₂ (by omega)
  have haddr : (a : ℤ) + (l₁.length + l₂.length) = (a + (l₁.length + l₂.length) : ℕ) := by
    rw [Int.natCast_add, Int.natCast_add]
  rw [← Int.natCast_add, hshift, ok_bind, haddr, Block.store_natCast (by omega)]
  refine .ok ⟨hsize₁, ?_, ?_⟩
  · refine holds_append.mpr ⟨holds_append.mpr ⟨h₁.congr ?_, hl₂.congr ?_⟩, ?_, trivial⟩
    · intro n hle hlt
      rw [Block.set_cell_ne (by omega), hothers n (by omega)]
    · intro n hle hlt
      rw [Block.set_cell_ne (by omega)]
    · rw [List.length_append, Block.set_cell_self]
  · intro n hn
    rw [Block.set_cell_ne (by omega), hothers n (by omega)]

end Memory
