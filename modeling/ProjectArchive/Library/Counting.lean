/-
ProjectArchive/Library/Counting.lean

Counting threads by the points they have reached.

A step of a concurrent system moves one thread, so that the number of threads
at some points changes by the thread that moves: `card_update` for a fixed
family of threads, `countP_set` for the calls in progress of a function, and
`countP_eraseIdx` for one that returns.  They are stated as equations between
sums, from which `omega` finds the change.
-/
import Mathlib.Algebra.BigOperators.Fin
import Mathlib.Algebra.Order.Group.Nat
import Mathlib.Data.Fintype.Card

namespace Counting

/-- The number of a proposition. -/
def one (P : Prop) [Decidable P] : ℕ := if P then 1 else 0

@[simp] theorem one_true {P : Prop} [Decidable P] (h : P) : one P = 1 := if_pos h

@[simp] theorem one_false {P : Prop} [Decidable P] (h : ¬P) : one P = 0 := if_neg h

theorem one_le {P : Prop} [Decidable P] : one P ≤ 1 := by
  by_cases h : P
  · rw [one_true h]
  · rw [one_false h]
    exact Nat.zero_le 1

/-! ### Threads -/

section Threads

variable {ι α : Type*} [Fintype ι] [DecidableEq ι] (P : α → Prop) [DecidablePred P]

/-- The number of threads at some points. -/
def number (f : ι → α) : ℕ := (Finset.univ.filter fun i => P (f i)).card

omit [DecidableEq ι] in
theorem number_eq_sum (f : ι → α) : number P f = ∑ i, one (P (f i)) := Finset.card_filter ..

/-- One thread moves. -/
theorem number_update (f : ι → α) (i : ι) (x : α) :
    number P (Function.update f i x) + one (P (f i)) = number P f + one (P x) := by
  have hsum : ∀ g : ι → α, number P g = one (P (g i)) + ∑ j ∈ Finset.univ.erase i, one (P (g j)) := by
    intro g
    rw [number_eq_sum]
    exact (Finset.add_sum_erase _ _ (Finset.mem_univ i)).symm
  have hrest : ∑ j ∈ Finset.univ.erase i, one (P (Function.update f i x j)) =
      ∑ j ∈ Finset.univ.erase i, one (P (f j)) := by
    apply Finset.sum_congr rfl
    intro j hj
    rw [Function.update_of_ne (Finset.ne_of_mem_erase hj)]
  rw [hsum, hsum f, hrest, Function.update_self]
  omega

/-- A thread moves to one of the points only from one of them. -/
theorem number_update_le {P : α → Prop} [DecidablePred P] {f : ι → α} {i : ι} {x : α}
    (h : P x → P (f i)) : number P (Function.update f i x) ≤ number P f := by
  have hupdate := number_update P f i x
  by_cases hx : P x
  · rw [one_true hx, one_true (h hx)] at hupdate
    omega
  · rw [one_false hx] at hupdate
    omega

omit [DecidableEq ι] in
theorem number_pos {P : α → Prop} [DecidablePred P] {f : ι → α} {i : ι} (h : P (f i)) :
    0 < number P f :=
  Finset.card_pos.mpr ⟨i, Finset.mem_filter.mpr ⟨Finset.mem_univ i, h⟩⟩

omit [DecidableEq ι] in
theorem number_eq_zero_iff {P : α → Prop} [DecidablePred P] {f : ι → α} :
    number P f = 0 ↔ ∀ i, ¬P (f i) := by
  rw [number, Finset.card_eq_zero, Finset.filter_eq_empty_iff]
  exact ⟨fun h i => h (Finset.mem_univ i), fun h i _ => h i⟩

omit [DecidableEq ι] in
/-- All threads are at the points. -/
theorem of_card_le_number {P : α → Prop} [DecidablePred P] {f : ι → α}
    (h : Fintype.card ι ≤ number P f) (i : ι) : P (f i) := by
  have hall : Finset.univ.filter (fun j => P (f j)) = Finset.univ :=
    Finset.eq_univ_of_card _ (Nat.le_antisymm (Finset.card_le_univ _) h)
  have hi : i ∈ Finset.univ.filter fun j => P (f j) := by
    rw [hall]
    exact Finset.mem_univ i
  exact (Finset.mem_filter.mp hi).2

omit [DecidableEq ι] in
/-- More points, more threads. -/
theorem number_mono {P Q : α → Prop} [DecidablePred P] [DecidablePred Q] {f : ι → α}
    (h : ∀ x, P x → Q x) : number P f ≤ number Q f := by
  apply Finset.card_le_card
  intro i hi
  rw [Finset.mem_filter] at hi ⊢
  exact ⟨hi.1, h _ hi.2⟩

end Threads

/-! ### Calls -/

section Calls

variable {α : Type*} {P : α → Prop} [DecidablePred P] {l : List α} {k : ℕ} {a : α}

/-- A call in progress goes on. -/
theorem countP_set (ha : l[k]? = some a) (b : α) :
    (l.set k b).countP (fun x => P x) + one (P a) = l.countP (fun x => P x) + one (P b) := by
  obtain ⟨hk, rfl⟩ := List.getElem?_eq_some_iff.mp ha
  have hpos : one (P l[k]) ≤ l.countP fun x => P x := by
    by_cases h : P l[k]
    · rw [one_true h]
      exact List.countP_pos_iff.mpr ⟨_, List.getElem_mem hk, by simpa⟩
    · rw [one_false h]
      exact Nat.zero_le _
  rw [List.countP_set hk]
  simp only [one, decide_eq_true_eq] at hpos ⊢
  omega

/-- A call returns. -/
theorem countP_eraseIdx (ha : l[k]? = some a) :
    (l.eraseIdx k).countP (fun x => P x) + one (P a) = l.countP fun x => P x := by
  obtain ⟨hk, rfl⟩ := List.getElem?_eq_some_iff.mp ha
  have hperm := (List.getElem_cons_eraseIdx_perm hk).countP_eq fun x => decide (P x)
  rw [List.countP_cons] at hperm
  rw [← hperm, one]
  simp only [decide_eq_true_eq]

end Calls

end Counting
