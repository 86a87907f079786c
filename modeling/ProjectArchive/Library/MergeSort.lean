/-
ProjectArchive/Library/MergeSort.lean

The merge sort of a C library's `qsort`: split at `n / 2`, sort both halves, and
merge, taking from the left half while `le` says so.

`le` need not be an order.  `msort` only ever asks it about an element and one
that stood further right, so all it takes for the result to be sorted by a key
is that `le` agrees with the key on such pairs (`pairwise_msort`).

`arrange le rows` sorts an array, by way of the indices of its entries, as a
library does with large entries; here the key may depend on the index too, and
the sorted array is `rows ∘ arrangement le rows`.
-/
import Mathlib.Data.List.FinRange
import Mathlib.Data.List.NodupEquivFin
import Mathlib.Data.List.Sort
import Mathlib.Tactic.Common

namespace MergeSort

variable {α : Type*} {le : α → α → Bool}

/-- The merge of `x :: xs` with a list; `rest` is the merge of `xs` with a list. -/
def mergeCons (le : α → α → Bool) (x : α) (xs : List α) (rest : List α → List α) :
    List α → List α
  | [] => x :: xs
  | y :: ys => if le x y then x :: rest (y :: ys) else y :: mergeCons le x xs rest ys

/-- The merge, by structural recursion, so that it can be evaluated. -/
def merge (le : α → α → Bool) : List α → List α → List α
  | [] => fun ys => ys
  | x :: xs => mergeCons le x xs (merge le xs)

theorem merge_eq (le : α → α → Bool) (xs ys : List α) : merge le xs ys = List.merge xs ys le := by
  induction xs generalizing ys with
  | nil => simp [merge]
  | cons x xs ih =>
      show mergeCons le x xs (merge le xs) ys = _
      induction ys with
      | nil => simp [mergeCons]
      | cons y ys ih' => rw [mergeCons, List.cons_merge_cons, ih', ih]

/-- The sort; `fuel` bounds the depth of the recursion. -/
def msortFuel (le : α → α → Bool) : ℕ → List α → List α
  | 0, l => l
  | fuel + 1, l =>
      if l.length ≤ 1 then l
      else
        merge le (msortFuel le fuel (l.take (l.length / 2)))
          (msortFuel le fuel (l.drop (l.length / 2)))

/-- The sort: a list of `n` elements is split at most `n` times in a row. -/
def msort (le : α → α → Bool) (l : List α) : List α := msortFuel le l.length l

theorem msortFuel_perm (le : α → α → Bool) (fuel : ℕ) (l : List α) :
    (msortFuel le fuel l).Perm l := by
  induction fuel generalizing l with
  | zero => exact List.Perm.refl l
  | succ fuel ih =>
      unfold msortFuel
      split
      · exact List.Perm.refl l
      · have hmerge := (List.merge_perm_append le).trans
          ((ih (l.take (l.length / 2))).append (ih (l.drop (l.length / 2))))
        rw [merge_eq]
        rwa [List.take_append_drop] at hmerge

theorem msort_perm (le : α → α → Bool) (l : List α) : (msort le l).Perm l :=
  msortFuel_perm le l.length l

/-! ### Sorting by a key -/

variable {key : α → ℕ}

/-- A merge depends on `le` between the two lists only. -/
theorem merge_congr {le' : α → α → Bool} :
    ∀ {l₁ l₂ : List α}, (∀ a ∈ l₁, ∀ b ∈ l₂, le a b = le' a b) →
      List.merge l₁ l₂ le = List.merge l₁ l₂ le'
  | [], l₂, _ => by simp
  | a :: l₁, [], _ => by simp
  | a :: l₁, b :: l₂, h => by
      have hab : le a b = le' a b := h a List.mem_cons_self b List.mem_cons_self
      have hleft : List.merge l₁ (b :: l₂) le = List.merge l₁ (b :: l₂) le' :=
        merge_congr fun x hx y hy => h x (List.mem_cons_of_mem a hx) y hy
      have hright : List.merge (a :: l₁) l₂ le = List.merge (a :: l₁) l₂ le' :=
        merge_congr fun x hx y hy => h x hx y (List.mem_cons_of_mem b hy)
      rw [List.cons_merge_cons, List.cons_merge_cons, hab, hleft, hright]

/-- The comparison by the key. -/
def keyLe (key : α → ℕ) (a b : α) : Bool := decide (key a ≤ key b)

/-- The sort is sorted by `key` if `le` agrees with `key` whenever it is asked. -/
theorem pairwise_msortFuel {fuel : ℕ} {l : List α} (hfuel : l.length ≤ fuel)
    (hle : l.Pairwise fun a b => le a b = keyLe key a b) :
    (msortFuel le fuel l).Pairwise fun a b => keyLe key a b = true := by
  induction fuel generalizing l with
  | zero =>
      obtain rfl : l = [] := List.length_eq_zero_iff.mp (Nat.le_zero.mp hfuel)
      exact List.Pairwise.nil
  | succ fuel ih =>
      unfold msortFuel
      split
      · -- at most one element
        match l with
        | [] => exact List.Pairwise.nil
        | [a] => exact List.pairwise_singleton _ a
      · rename_i hlen
        have hsplit : (l.take (l.length / 2) ++ l.drop (l.length / 2)).Pairwise
            fun a b => le a b = keyLe key a b := by
          rwa [List.take_append_drop]
        obtain ⟨htake, hdrop, hcross⟩ := List.pairwise_append.mp hsplit
        have hl := ih (by simp; omega) htake
        have hr := ih (by simp; omega) hdrop
        -- the halves hold the elements they held before
        have hmerge : List.merge (msortFuel le fuel (l.take (l.length / 2)))
              (msortFuel le fuel (l.drop (l.length / 2))) le =
            List.merge (msortFuel le fuel (l.take (l.length / 2)))
              (msortFuel le fuel (l.drop (l.length / 2))) (keyLe key) := by
          apply merge_congr
          intro a ha b hb
          exact hcross a ((msortFuel_perm le fuel _).mem_iff.mp ha) b
            ((msortFuel_perm le fuel _).mem_iff.mp hb)
        rw [merge_eq, hmerge]
        apply List.pairwise_merge _ _ _ _ hl hr
        · intro a b c hab hbc
          simp only [keyLe, decide_eq_true_eq] at hab hbc ⊢
          exact hab.trans hbc
        · intro a b
          simpa [keyLe] using Nat.le_total (key a) (key b)

theorem pairwise_msort {l : List α} (hle : l.Pairwise fun a b => le a b = keyLe key a b) :
    (msort le l).Pairwise fun a b => key a ≤ key b := by
  refine (pairwise_msortFuel (Nat.le_refl _) hle).imp ?_
  intro a b hab
  simpa [keyLe] using hab

/-! ### Sorting an array -/

section Array

variable {n : ℕ} (le : α → α → Bool) (rows : Fin n → α)

/-- The indices of the entries, in the order of the sorted array. -/
def order : List (Fin n) := msort (fun i j => le (rows i) (rows j)) (List.finRange n)

theorem order_perm : (order le rows).Perm (List.finRange n) := msort_perm _ _

theorem length_order : (order le rows).length = n := by
  rw [(order_perm le rows).length_eq, List.length_finRange]

theorem nodup_order : (order le rows).Nodup :=
  (order_perm le rows).nodup_iff.mpr (List.nodup_finRange n)

theorem mem_order (i : Fin n) : i ∈ order le rows :=
  (order_perm le rows).mem_iff.mpr (List.mem_finRange i)

/-- Where the entries of the sorted array come from. -/
def arrangement : Equiv.Perm (Fin n) :=
  (finCongr (length_order le rows).symm).trans
    ((nodup_order le rows).getEquivOfForallMemList (order le rows) (mem_order le rows))

/-- The sorted array. -/
def arrange : Fin n → α := rows ∘ arrangement le rows

variable {le rows}

/-- The array is sorted by a key of its indices if `le` agrees with the key. -/
theorem arrangement_monotone {key : Fin n → ℕ}
    (hle : ∀ i j, i < j → le (rows i) (rows j) = decide (key i ≤ key j)) :
    Monotone fun k => key (arrangement le rows k) := by
  have hpairs : (List.finRange n).Pairwise fun i j => le (rows i) (rows j) = keyLe key i j :=
    (List.pairwise_lt_finRange n).imp fun {i j} hij => hle i j hij
  have hsorted := List.pairwise_iff_get.mp (pairwise_msort hpairs)
  intro k l hkl
  rcases hkl.eq_or_lt with rfl | hlt
  · exact Nat.le_refl _
  · exact hsorted (Fin.cast (length_order le rows).symm k) (Fin.cast (length_order le rows).symm l) hlt

end Array

end MergeSort
