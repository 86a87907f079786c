/-
ProjectArchive/Library/Exec.lean

Total correctness for computations that may fail, and loops over the first
`k` of `n` indices.

`Ends x Q` says that `x` returns, and returns something that satisfies `Q`.
The loop rule `Ends.loop` carries an invariant indexed by the number of rounds
done, as a `for (i = 0; i < n; i++)` is annotated on paper.
-/
import Mathlib.Tactic.Common

namespace Exec

universe u v

variable {ε : Type v} {α β : Type u}

/-! ### Computations that return -/

@[simp] theorem ok_bind (a : α) (f : α → Except ε β) : (Except.ok a >>= f) = f a := rfl

/-- The computation returns a value that satisfies `Q`. -/
def Ends (x : Except ε α) (Q : α → Prop) : Prop := ∃ a, x = .ok a ∧ Q a

theorem Ends.ok {a : α} {Q : α → Prop} (h : Q a) : Ends (.ok a : Except ε α) Q := ⟨a, rfl, h⟩

theorem Ends.of_eq {x : Except ε α} {a : α} {Q : α → Prop} (hx : x = .ok a) (h : Q a) :
    Ends x Q := ⟨a, hx, h⟩

theorem Ends.bind {x : Except ε α} {f : α → Except ε β} {Q : α → Prop} {R : β → Prop}
    (hx : Ends x Q) (hf : ∀ a, Q a → Ends (f a) R) : Ends (x >>= f) R := by
  obtain ⟨a, rfl, ha⟩ := hx
  exact hf a ha

theorem Ends.mono {x : Except ε α} {Q R : α → Prop} (hx : Ends x Q) (h : ∀ a, Q a → R a) :
    Ends x R := by
  obtain ⟨a, rfl, ha⟩ := hx
  exact ⟨a, rfl, h a ha⟩

theorem Ends.of_ok {x : Except ε α} {a : α} {Q : α → Prop} (hx : Ends x Q) (ha : x = .ok a) :
    Q a := by
  obtain ⟨b, hb, hQ⟩ := hx
  obtain rfl := Except.ok.inj (hb.symm.trans ha)
  exact hQ

theorem bind_eq_ok {x : Except ε α} {f : α → Except ε β} {b : β} (h : x >>= f = .ok b) :
    ∃ a, x = .ok a ∧ f a = .ok b := by
  rcases x with e | a
  · cases h
  · exact ⟨a, rfl, h⟩

/-! ### Loops -/

/-- Run `f` for the indices below `k`, in increasing order. -/
def loop {n : ℕ} (f : Fin n → α → Except ε α) : (k : ℕ) → k ≤ n → α → Except ε α
  | 0, _, a => .ok a
  | k + 1, hk, a => do
      let a ← loop f k (Nat.le_of_succ_le hk) a
      f ⟨k, hk⟩ a

/-- `for (int i = 0; i < n; i++)`. -/
def forAll {n : ℕ} (f : Fin n → α → Except ε α) (a : α) : Except ε α := loop f n (Nat.le_refl n) a

variable {n : ℕ} {f : Fin n → α → Except ε α}

/-- The loop rule: an invariant indexed by the rounds done. -/
theorem Ends.loop (Inv : ℕ → α → Prop) {a : α} (h0 : Inv 0 a)
    (hf : ∀ (i : Fin n) a, Inv i a → Ends (f i a) (Inv (i + 1))) :
    ∀ (k : ℕ) (hk : k ≤ n), Ends (Exec.loop f k hk a) (Inv k) := by
  intro k
  induction k with
  | zero => exact fun _ => .ok h0
  | succ k ih =>
      intro hk
      refine Ends.bind (ih (Nat.le_of_succ_le hk)) ?_
      intro a ha
      exact hf ⟨k, hk⟩ a ha

theorem Ends.forAll (Inv : ℕ → α → Prop) {a : α} (h0 : Inv 0 a)
    (hf : ∀ (i : Fin n) a, Inv i a → Ends (f i a) (Inv (i + 1))) :
    Ends (Exec.forAll f a) (Inv n) :=
  Ends.loop Inv h0 hf n (Nat.le_refl n)

/-! ### Loop indices -/

section Indices

variable {n : ℕ} {i j : Fin n}

/-- The indices still to come after the round `i`. -/
theorem ne_of_later (h : i.val + 1 ≤ j) : j ≠ i := by
  rintro rfl
  exact Nat.not_succ_le_self _ h

/-- The indices done before the round `i`. -/
theorem lt_of_earlier (h : j.val < i + 1) (hne : j ≠ i) : j.val < i :=
  Nat.lt_of_le_of_ne (Nat.le_of_lt_succ h) (Fin.val_ne_of_ne hne)

end Indices

end Exec
