/-
ProjectArchive/Library/DirectMapped.lean

A direct-mapped cache, seen from the sequence of the accesses to it.

The access `a` is to the block `block a`, which belongs to the set
`set (block a)`.  In every set the cache holds the block that was accessed there
last, so `Finds accesses a` says that `a` is a hit after `accesses`.  Every
access is made once; `before accesses a` are the accesses before `a`, and
`misses accesses` are those which did not find their block.
-/
import Mathlib.Data.List.Nodup

namespace DirectMapped

variable {α β σ : Type*} [DecidableEq σ] (block : α → β) (set : β → σ)

/-- The last access to the set `i`. -/
def lastIn (accesses : List α) (i : σ) : Option α :=
  (accesses.filter fun a => set (block a) = i).getLast?

@[simp] theorem lastIn_nil (i : σ) : lastIn block set [] i = none := rfl

theorem lastIn_concat (accesses : List α) (a : α) (i : σ) :
    lastIn block set (accesses ++ [a]) i =
      if set (block a) = i then some a else lastIn block set accesses i := by
  unfold lastIn
  rw [List.filter_append]
  split
  · rename_i ha
    simp [ha]
  · rename_i ha
    simp [ha]

/-- The last access to a set is to this set. -/
theorem set_of_lastIn {accesses : List α} {a : α} {i : σ}
    (h : lastIn block set accesses i = some a) : set (block a) = i := by
  have hmem := List.mem_of_getLast? h
  simpa using (List.mem_filter.mp hmem).2

/-- After `accesses`, the last access to the set of `a` was to the block of `a`. -/
def Finds (accesses : List α) (a : α) : Prop :=
  (lastIn block set accesses (set (block a))).map block = some (block a)

instance [DecidableEq β] (accesses : List α) (a : α) : Decidable (Finds block set accesses a) :=
  inferInstanceAs (Decidable (_ = _))

section Misses

variable [DecidableEq α]

/-- The accesses before `a`. -/
def before (accesses : List α) (a : α) : List α := accesses.takeWhile fun b => b ≠ a

/-- What comes after `a` does not matter. -/
theorem before_append {accesses : List α} {a : α} (ha : a ∈ accesses) (later : List α) :
    before (accesses ++ later) a = before accesses a := by
  unfold before
  induction accesses with
  | nil => cases ha
  | cons b accesses ih =>
      rcases eq_or_ne b a with rfl | hne
      · simp
      · have hmem : a ∈ accesses := (List.mem_cons.mp ha).resolve_left hne.symm
        simpa [List.takeWhile_cons, hne] using ih hmem

theorem before_concat {accesses : List α} {a : α} (ha : a ∉ accesses) :
    before (accesses ++ [a]) a = accesses := by
  have hall : ∀ b ∈ accesses, decide (b ≠ a) = true := by
    intro b hb
    have hne : b ≠ a := fun heq => ha (heq ▸ hb)
    simp [hne]
  unfold before
  rw [List.takeWhile_append_of_pos hall]
  simp

variable [DecidableEq β]

/-- The accesses that did not find their block. -/
def misses (accesses : List α) : List α :=
  accesses.filter fun a => ¬ Finds block set (before accesses a) a

theorem misses_concat {accesses : List α} {a : α} (ha : a ∉ accesses) :
    misses block set (accesses ++ [a]) =
      misses block set accesses ++ if Finds block set accesses a then [] else [a] := by
  have hold : (accesses.filter fun b =>
      ¬ Finds block set (before (accesses ++ [a]) b) b) = misses block set accesses := by
    refine List.filter_congr ?_
    intro b hb
    rw [before_append hb]
  show (accesses ++ [a]).filter _ = _
  rw [List.filter_append, hold, List.filter_singleton, before_concat ha]
  by_cases hfinds : Finds block set accesses a <;> simp [hfinds]

end Misses

end DirectMapped
