/-
ProjectArchive/Library/Sweep.lean

`for (int i = 0; i < n; i++)` over a state, when no round can fail; how many
entries of an array have a property; and the order of the events in a log.

`sweep f a` runs the rounds `f 0`, …, `f (n - 1)` on `a`.  `sweep_induction` is
the loop rule, with an invariant indexed by the number of rounds done;
`beside f g` does with `f` what it would do without `g`, and `sweepLog f log a`
puts together what the rounds log.
`total w rows` adds up the weights of the entries of an array and `count p rows`
is the number of entries with `p`; `total_update` and `count_update` say how
they change with one entry, without subtraction.  `Precedes a b log` says that
every occurrence of `b` in a log comes after an occurrence of `a`; a log grows
at its end, and `precedes_append_singleton` says what has to hold when it does.
-/
import Mathlib.Algebra.BigOperators.Group.Finset.Basic
import Mathlib.Algebra.Order.BigOperators.Group.Finset
import Mathlib.Data.Fintype.BigOperators
import Mathlib.Data.List.Nodup

namespace Sweep

variable {α : Type*} {n : ℕ} {f : Fin n → α → α}

/-- The rounds below `k`. -/
def upTo (f : Fin n → α → α) : (k : ℕ) → k ≤ n → α → α
  | 0, _, a => a
  | k + 1, hk, a => f ⟨k, hk⟩ (upTo f k (Nat.le_of_succ_le hk) a)

/-- All rounds. -/
def sweep (f : Fin n → α → α) (a : α) : α := upTo f n (Nat.le_refl n) a

/-- An invariant indexed by the rounds done. -/
theorem upTo_induction (Inv : ℕ → α → Prop) {a : α} (h0 : Inv 0 a)
    (hf : ∀ (i : Fin n) a, Inv i a → Inv (i + 1) (f i a)) (k : ℕ) (hk : k ≤ n) :
    Inv k (upTo f k hk a) := by
  induction k with
  | zero => exact h0
  | succ k ih => exact hf ⟨k, hk⟩ _ (ih (Nat.le_of_succ_le hk))

theorem sweep_induction (Inv : ℕ → α → Prop) {a : α} (h0 : Inv 0 a)
    (hf : ∀ (i : Fin n) a, Inv i a → Inv (i + 1) (f i a)) : Inv n (sweep f a) :=
  upTo_induction Inv h0 hf n (Nat.le_refl n)

/-- What every round preserves. -/
theorem sweep_preserves {P : α → Prop} {a : α} (h0 : P a) (hf : ∀ i a, P a → P (f i a)) :
    P (sweep f a) :=
  sweep_induction (fun _ => P) h0 hf

/-! ### A second component -/

section Beside

variable {β : Type*} {g : Fin n → α → β → β}

/-- A round that also changes a second component, which it does not read. -/
def beside (f : Fin n → α → α) (g : Fin n → α → β → β) (i : Fin n) (p : α × β) : α × β :=
  (f i p.1, g i p.1 p.2)

theorem sweep_beside_fst (p : α × β) : (sweep (beside f g) p).1 = sweep f p.1 := by
  have hupTo : ∀ (k : ℕ) (hk : k ≤ n), (upTo (beside f g) k hk p).1 = upTo f k hk p.1 := by
    intro k hk
    induction k with
    | zero => rfl
    | succ k ih => exact congrArg (f ⟨k, hk⟩) (ih (Nat.le_of_succ_le hk))
  exact hupTo n (Nat.le_refl n)

end Beside

/-! ### What the rounds log -/

section Log

variable {β : Type*}

/-- What the rounds below `k` log, one after the other. -/
def logUpTo (f : Fin n → α → α) (log : Fin n → α → List β) : (k : ℕ) → k ≤ n → α → List β
  | 0, _, _ => []
  | k + 1, hk, a =>
      logUpTo f log k (Nat.le_of_succ_le hk) a ++ log ⟨k, hk⟩ (upTo f k (Nat.le_of_succ_le hk) a)

/-- What all rounds log. -/
def sweepLog (f : Fin n → α → α) (log : Fin n → α → List β) (a : α) : List β :=
  logUpTo f log n (Nat.le_refl n) a

/-- What is logged under an invariant of the rounds. -/
theorem forall_sweepLog (Inv : ℕ → α → Prop) {log : Fin n → α → List β} {P : β → Prop} {a : α}
    (h0 : Inv 0 a) (hf : ∀ (i : Fin n) a, Inv i a → Inv (i + 1) (f i a))
    (hlog : ∀ (i : Fin n) a, Inv i a → ∀ x ∈ log i a, P x) : ∀ x ∈ sweepLog f log a, P x := by
  have hupTo : ∀ (k : ℕ) (hk : k ≤ n), ∀ x ∈ logUpTo f log k hk a, P x := by
    intro k hk
    induction k with
    | zero =>
        intro x hx
        cases hx
    | succ k ih =>
        intro x hx
        rcases List.mem_append.mp hx with hbefore | hlast
        · exact ih (Nat.le_of_succ_le hk) x hbefore
        · exact hlog ⟨k, hk⟩ _ (upTo_induction Inv h0 hf k (Nat.le_of_succ_le hk)) x hlast
  exact hupTo n (Nat.le_refl n)

end Log

/-! ### Adding up and counting entries -/

variable {β : Type*} {rows rows' : Fin n → β}

/-- The sum of the weights of the entries. -/
def total (w : β → ℕ) (rows : Fin n → β) : ℕ := ∑ i, w (rows i)

theorem total_update (w : β → ℕ) (rows : Fin n → β) (i : Fin n) (x : β) :
    total w (Function.update rows i x) + w (rows i) = total w rows + w x := by
  have hweights : (fun k => w (Function.update rows i x k)) =
      Function.update (fun k => w (rows k)) i (w x) := by
    funext k
    rcases eq_or_ne k i with rfl | hk
    · simp
    · simp [hk]
  have hsplit : ∑ k, w (rows k) = w (rows i) + ∑ k ∈ Finset.univ \ {i}, w (rows k) :=
    Finset.sum_eq_add_sum_sdiff_singleton i _ fun h => absurd (Finset.mem_univ i) h
  unfold total
  rw [hweights, Finset.sum_update_of_mem (Finset.mem_univ i), hsplit]
  omega

theorem total_comp_perm {w : β → ℕ} (σ : Equiv.Perm (Fin n)) : total w (rows ∘ σ) = total w rows :=
  Equiv.sum_comp σ fun i => w (rows i)

theorem total_congr {w : β → ℕ} (h : ∀ i, w (rows i) = w (rows' i)) : total w rows = total w rows' :=
  Finset.sum_congr rfl fun i _ => h i

theorem total_mono {w : β → ℕ} (h : ∀ i, w (rows i) ≤ w (rows' i)) : total w rows ≤ total w rows' :=
  Finset.sum_le_sum fun i _ => h i

theorem total_lt_total {w : β → ℕ} (h : ∀ i, w (rows i) ≤ w (rows' i)) {i : Fin n}
    (hi : w (rows i) < w (rows' i)) : total w rows < total w rows' :=
  Finset.sum_lt_sum (fun k _ => h k) ⟨i, Finset.mem_univ i, hi⟩

variable {p q : β → Bool}

/-- The number of entries with the property `p`. -/
def count (p : β → Bool) (rows : Fin n → β) : ℕ :=
  (Finset.univ.filter fun i => p (rows i) = true).card

theorem count_eq_total (p : β → Bool) (rows : Fin n → β) :
    count p rows = total (fun x => (p x).toNat) rows := by
  unfold count
  rw [Finset.card_filter]
  refine Finset.sum_congr rfl ?_
  intro i _
  show (if p (rows i) = true then 1 else 0) = (p (rows i)).toNat
  cases p (rows i) <;> rfl

theorem count_update (p : β → Bool) (rows : Fin n → β) (i : Fin n) (x : β) :
    count p (Function.update rows i x) + (p (rows i)).toNat = count p rows + (p x).toNat := by
  rw [count_eq_total, count_eq_total]
  exact total_update (fun x => (p x).toNat) rows i x

theorem count_congr (h : ∀ i, p (rows i) = q (rows' i)) :
    count p rows = count q rows' := by
  unfold count
  congr 1
  ext i
  simp [h i]

theorem count_comp_perm (σ : Equiv.Perm (Fin n)) : count p (rows ∘ σ) = count p rows := by
  rw [count_eq_total, count_eq_total]
  exact total_comp_perm σ

theorem count_eq_zero_iff : count p rows = 0 ↔ ∀ i, p (rows i) = false := by
  simp [count, Finset.filter_eq_empty_iff]

theorem count_ne_zero_iff : count p rows ≠ 0 ↔ ∃ i, p (rows i) = true := by
  rw [Ne, count_eq_zero_iff, not_forall]
  simp

theorem count_eq_card_iff : count p rows = n ↔ ∀ i, p (rows i) = true := by
  have hall := Finset.card_filter_eq_iff (s := Finset.univ) (p := fun i => p (rows i) = true)
  rw [Finset.card_fin] at hall
  unfold count
  simpa using hall

end Sweep

namespace EventLog

variable {α : Type*} {a b m : α} {log : List α}

/-- Every `b` comes after an `a`. -/
def Precedes (a b : α) (log : List α) : Prop := ∀ l₁ l₂, log = l₁ ++ b :: l₂ → a ∈ l₁

theorem precedes_of_not_mem (h : b ∉ log) : Precedes a b log := by
  rintro l₁ l₂ rfl
  simp at h

/-- One more event. -/
theorem precedes_append_singleton :
    Precedes a b (log ++ [m]) ↔ Precedes a b log ∧ (m = b → a ∈ log) := by
  constructor
  · intro h
    constructor
    · rintro l₁ l₂ rfl
      exact h l₁ (l₂ ++ [m]) (by simp)
    · rintro rfl
      exact h log [] rfl
  · rintro ⟨h, hm⟩ l₁ l₂ e
    rcases List.eq_nil_or_concat' l₂ with rfl | ⟨l₂, z, rfl⟩
    · -- the `b` is the new event
      obtain ⟨rfl, e'⟩ := List.append_inj' e rfl
      exact hm (List.head_eq_of_cons_eq e')
    · have e' : log ++ [m] = (l₁ ++ b :: l₂) ++ [z] := by simpa using e
      exact h l₁ l₂ (List.append_inj' e' rfl).1

theorem Precedes.trans {c : α} (hab : Precedes a b log) (hbc : Precedes b c log) :
    Precedes a c log := by
  rintro l₁ l₂ rfl
  obtain ⟨m₁, m₂, rfl⟩ := List.append_of_mem (hbc l₁ l₂ rfl)
  have ha : a ∈ m₁ := hab m₁ (m₂ ++ c :: l₂) (by simp)
  exact List.mem_append_left _ ha

/-- In a log without duplicates every `a` comes before every `b`. -/
theorem Precedes.not_mem_right (h : Precedes a b log) (hlog : log.Nodup) {l₁ l₂ : List α}
    (e : log = l₁ ++ b :: l₂) : a ∉ l₂ := by
  intro ha
  rw [e] at hlog
  have hdisj := (List.nodup_append.mp hlog).2.2 a (h l₁ l₂ e) a (List.mem_cons_of_mem b ha)
  exact hdisj rfl

end EventLog
