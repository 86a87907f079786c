/-
ProjectArchive/Library/DepthFirst.lean

Depth-first search for the first goal of a tree, and loops that perform it.

A `Tree` is a finitely branching tree of bounded height; `Tree.first` is the
first goal in depth-first order, defined by recursion.  An iterative search
keeps, for every open level, the list of siblings it has still to try.
`Tree.resume` is what such a stack of lists stands for, and `Tree.search_or` is
the refinement rule: a loop each of whose rounds either opens a child, after
skipping siblings that lead nowhere, or closes a level that leads nowhere,
finds the first goal or ends up with nothing left to try.
-/
import Mathlib.Algebra.BigOperators.Group.List.Basic
import Mathlib.Algebra.GroupWithZero.Nat
import Mathlib.Logic.Relation
import Mathlib.Tactic.Common

namespace DepthFirst

/-- A finitely branching tree of bounded height, with goals. -/
structure Tree (ν : Type*) where
  children : ν → List ν
  goal : ν → Bool
  height : ν → ℕ
  height_lt : ∀ {x y}, y ∈ children x → height y < height x

namespace Tree

variable {ν : Type*} (T : Tree ν)

/-! ### The first goal -/

/-- The first goal at or below `x`, at most `d` levels down. -/
def within : ℕ → ν → Option ν
  | 0, x => if T.goal x then some x else none
  | d + 1, x => if T.goal x then some x else (T.children x).findSome? (within d)

/-- The first goal at or below `x`. -/
def first (x : ν) : Option ν := T.within (T.height x) x

/-- The number of nodes at or below `x`, at most `d` levels down. -/
def sizeWithin : ℕ → ν → ℕ
  | 0, _ => 1
  | d + 1, x => 1 + ((T.children x).map (sizeWithin d)).sum

/-- The number of nodes at or below `x`. -/
def size (x : ν) : ℕ := T.sizeWithin (T.height x) x

variable {T} {x y : ν} {d : ℕ}

theorem children_eq_nil (h : T.height x = 0) : T.children x = [] := by
  apply List.eq_nil_iff_forall_not_mem.mpr
  intro y hy
  have := T.height_lt hy
  omega

theorem findSome?_congr {α β : Type*} {f g : α → Option β} {l : List α}
    (h : ∀ a ∈ l, f a = g a) : l.findSome? f = l.findSome? g := by
  induction l with
  | nil => rfl
  | cons a l ih =>
      have ih := ih fun b hb => h b (List.mem_cons_of_mem _ hb)
      rw [List.findSome?_cons, List.findSome?_cons, h a (List.mem_cons_self ..), ih]

theorem within_eq_first (h : T.height x ≤ d) : T.within d x = T.first x := by
  induction d using Nat.strongRecOn generalizing x with
  | _ d ih =>
      rcases d with - | d
      · rw [first, Nat.le_zero.mp h]
      · rcases e : T.height x with - | k
        · simp [first, e, within, children_eq_nil e]
        · rw [first, e]
          simp only [within]
          split
          · rfl
          · apply findSome?_congr
            intro y hy
            have := T.height_lt hy
            rw [ih d (Nat.lt_succ_self d) (by omega), ih k (by omega) (by omega)]

/-- The first goal at or below a node is the node, or the first goal below. -/
theorem first_eq (x : ν) :
    T.first x = if T.goal x then some x else (T.children x).findSome? T.first := by
  rcases e : T.height x with - | k
  · simp [first, e, within, children_eq_nil e]
  · rw [first, e]
    simp only [within]
    split
    · rfl
    · apply findSome?_congr
      intro y hy
      have := T.height_lt hy
      exact within_eq_first (by omega)

theorem first_of_goal (h : T.goal x = true) : T.first x = some x := by
  rw [first_eq, if_pos h]

theorem first_of_not_goal (h : T.goal x = false) :
    T.first x = (T.children x).findSome? T.first := by
  rw [first_eq, if_neg (by simp [h])]

/-- A node has a goal at or below it iff it is one, or a child has. -/
theorem first_isSome_iff :
    (T.first x).isSome ↔ T.goal x = true ∨ ∃ y ∈ T.children x, (T.first y).isSome := by
  rw [first_eq]
  split
  · simp [*]
  · simp [*, List.findSome?_isSome_iff]

/-- An invariant of the tree holds of the first goal. -/
theorem first_induction {P : ν → Prop} (hP : ∀ x, P x → ∀ y ∈ T.children x, P y) {g : ν}
    (hx : P x) (h : T.first x = some g) : P g ∧ T.goal g = true := by
  induction k : T.height x using Nat.strongRecOn generalizing x with
  | _ k ih =>
      cases e : T.goal x with
      | true =>
          rw [first_of_goal e] at h
          obtain rfl := Option.some.inj h
          exact ⟨hx, e⟩
      | false =>
          rw [first_of_not_goal e] at h
          obtain ⟨y, hy, hg⟩ := List.exists_of_findSome?_eq_some h
          exact ih (T.height y) (k ▸ T.height_lt hy) (hP x hx y hy) hg rfl

variable {g k : ν}

variable (T) in
/-- `g` is a goal at or below `x`. -/
def Below (x g : ν) : Prop :=
  Relation.ReflTransGen (fun u v => v ∈ T.children u) x g ∧ T.goal g = true

theorem below_of_first (h : T.first x = some g) : T.Below x g :=
  first_induction (P := fun u => Relation.ReflTransGen (fun u v => v ∈ T.children u) x u)
    (fun _ hu _ hv => hu.tail hv) Relation.ReflTransGen.refl h

theorem first_isSome_of_below (h : T.Below x g) : (T.first x).isSome := by
  obtain ⟨hpath, hgoal⟩ := h
  induction hpath using Relation.ReflTransGen.head_induction_on with
  | refl => exact first_isSome_iff.mpr (Or.inl hgoal)
  | head hv _ ih => exact first_isSome_iff.mpr (Or.inr ⟨_, hv, ih⟩)

/-- A node leads nowhere iff there is no goal at or below it. -/
theorem first_eq_none_iff : T.first x = none ↔ ∀ g, ¬T.Below x g := by
  constructor
  · intro h g hg
    simpa [h] using first_isSome_of_below hg
  · intro h
    rcases e : T.first x with - | g
    · rfl
    · exact absurd (below_of_first e) (h g)

/-- If goals are leaves and siblings come in the order of the goals below them,
the first goal comes before all others. -/
theorem first_before {r : ν → ν → Prop} (hleaf : ∀ x, T.goal x = true → T.children x = [])
    (hr : ∀ x, (T.children x).Pairwise fun y z => ∀ g k, T.Below y g → T.Below z k → r g k)
    (h : T.first x = some g) (hk : T.Below x k) : k = g ∨ r g k := by
  induction e : T.height x using Nat.strongRecOn generalizing x with
  | _ d ih =>
      cases hx : T.goal x with
      | true =>
          rw [first_of_goal hx] at h
          obtain rfl := Option.some.inj h
          rcases Relation.ReflTransGen.cases_head hk.1 with rfl | ⟨z, hz, -⟩
          · exact Or.inl rfl
          · rw [hleaf x hx] at hz
            cases hz
      | false =>
          rw [first_of_not_goal hx] at h
          obtain ⟨before, y, after, hsplit, hy, hdead⟩ := List.findSome?_eq_some_iff.mp h
          rcases Relation.ReflTransGen.cases_head hk.1 with rfl | ⟨z, hz, hzk⟩
          · rw [hk.2] at hx
            cases hx
          · have hbelow : T.Below z k := ⟨hzk, hk.2⟩
            have hyx : y ∈ T.children x := by simp [hsplit]
            rw [hsplit] at hz
            rcases List.mem_append.mp hz with hz | hz
            · simpa [hdead z hz] using first_isSome_of_below hbelow
            · rcases List.mem_cons.mp hz with rfl | hz
              · exact ih (T.height z) (e ▸ T.height_lt hyx) hy hbelow rfl
              · have hpair := hr x
                rw [hsplit] at hpair
                have hafter := List.rel_of_pairwise_cons (List.pairwise_append.mp hpair).2.1 hz
                exact Or.inr (hafter g k (below_of_first hy) hbelow)

theorem sizeWithin_eq_size (h : T.height x ≤ d) : T.sizeWithin d x = T.size x := by
  induction d using Nat.strongRecOn generalizing x with
  | _ d ih =>
      rcases d with - | d
      · rw [size, Nat.le_zero.mp h]
      · rcases e : T.height x with - | k
        · simp [size, e, sizeWithin, children_eq_nil e]
        · rw [size, e]
          simp only [sizeWithin]
          congr 2
          apply List.map_congr_left
          intro y hy
          have := T.height_lt hy
          rw [ih d (Nat.lt_succ_self d) (by omega), ih k (by omega) (by omega)]

theorem size_eq (x : ν) : T.size x = 1 + ((T.children x).map T.size).sum := by
  rcases e : T.height x with - | k
  · simp [size, e, sizeWithin, children_eq_nil e]
  · rw [size, e]
    simp only [sizeWithin]
    congr 2
    apply List.map_congr_left
    intro y hy
    have := T.height_lt hy
    exact sizeWithin_eq_size (by omega)

/-! ### Stacks of siblings -/

variable (T)

/-- The siblings lead nowhere. -/
def Dead (xs : List ν) : Prop := ∀ u ∈ xs, T.first u = none

/-- What a search finds that has the siblings on the stack still to try. -/
def resume (stack : List (List ν)) : Option ν := stack.findSome? fun xs => xs.findSome? T.first

/-- A bound on the rounds such a search still needs. -/
def weight (stack : List (List ν)) : ℕ := (stack.map fun xs => 1 + 2 * (xs.map T.size).sum).sum

variable {T} {skipped rest xs : List ν} {stack : List (List ν)}

theorem resume_cons : T.resume (xs :: stack) = (xs.findSome? T.first).or (T.resume stack) := by
  rw [resume, List.findSome?_cons]
  rcases xs.findSome? T.first with - | y <;> rfl

theorem Dead.findSome? (h : T.Dead xs) : xs.findSome? T.first = none :=
  List.findSome?_eq_none_iff.mpr h

theorem Dead.resume (h : T.Dead xs) : T.resume (xs :: stack) = T.resume stack := by
  rw [resume_cons, h.findSome?]
  rfl

/-- Skipping dead siblings. -/
theorem Dead.resume_skip (h : T.Dead skipped) : T.resume ((skipped ++ x :: rest) :: stack) =
    (T.first x).or (T.resume (rest :: stack)) := by
  rw [resume_cons, List.findSome?_append, h.findSome?, List.findSome?_cons, resume_cons]
  rcases T.first x with - | y <;> simp

theorem weight_pick :
    T.weight (T.children x :: rest :: stack) < T.weight ((skipped ++ x :: rest) :: stack) := by
  have hx := T.size_eq x
  simp only [weight, List.map_cons, List.map_append, List.sum_cons, List.sum_append]
  omega

theorem weight_dead : T.weight stack < T.weight (xs :: stack) := by
  simp only [weight, List.map_cons, List.sum_cons]
  omega

/-- **The refinement rule.**  `R s stack` says that the state `s` of a loop has
the siblings on the stack still to try, `Exhausted s` that it has closed the
lowest level. -/
theorem search_or {σ : Type*} (step : σ → σ → Prop) (R : σ → List (List ν) → Prop)
    (Done : σ → ν → Prop) (Exhausted : σ → Prop)
    (hstep : ∀ s xs stack, R s (xs :: stack) →
      (∃ skipped x rest s', xs = skipped ++ x :: rest ∧ T.Dead skipped ∧ step s s' ∧
        (T.goal x = true → Done s' x) ∧
        (T.goal x = false → R s' (T.children x :: rest :: stack))) ∨
      (T.Dead xs ∧ (stack ≠ [] → ∃ s', step s s' ∧ R s' stack) ∧ (stack = [] → Exhausted s)))
    {s : σ} (h : R s (xs :: stack)) :
    (∃ s' g, Relation.ReflTransGen step s s' ∧ T.resume (xs :: stack) = some g ∧ Done s' g) ∨
      (T.resume (xs :: stack) = none ∧ ∃ s', Relation.ReflTransGen step s s' ∧ Exhausted s') := by
  induction w : T.weight (xs :: stack) using Nat.strongRecOn generalizing s xs stack with
  | _ w ih =>
      rcases hstep s xs stack h with
        ⟨skipped, x, rest, s', rfl, hdead, hs, hgoal, hopen⟩ | ⟨hdead, hclose, hlast⟩
      · cases e : T.goal x with
        | true =>
            refine Or.inl ⟨s', x, Relation.ReflTransGen.single hs, ?_, hgoal e⟩
            rw [hdead.resume_skip, first_of_goal e]
            rfl
        | false =>
            have hresume : T.resume ((skipped ++ x :: rest) :: stack) =
                T.resume (T.children x :: rest :: stack) := by
              rw [hdead.resume_skip, first_of_not_goal e, ← resume_cons]
            rw [hresume]
            rcases ih _ (w ▸ weight_pick) (hopen e) rfl with
              ⟨s'', g, hr, hg, hd⟩ | ⟨hnone, s'', hr, hd⟩
            · exact Or.inl ⟨s'', g, Relation.ReflTransGen.head hs hr, hg, hd⟩
            · exact Or.inr ⟨hnone, s'', Relation.ReflTransGen.head hs hr, hd⟩
      · rcases stack with - | ⟨ys, stack⟩
        · refine Or.inr ⟨?_, s, Relation.ReflTransGen.refl, hlast rfl⟩
          rw [hdead.resume]
          rfl
        · obtain ⟨s', hs, hR⟩ := hclose (by simp)
          rw [hdead.resume]
          rcases ih _ (w ▸ weight_dead) hR rfl with
            ⟨s'', g, hr, hg, hd⟩ | ⟨hnone, s'', hr, hd⟩
          · exact Or.inl ⟨s'', g, Relation.ReflTransGen.head hs hr, hg, hd⟩
          · exact Or.inr ⟨hnone, s'', Relation.ReflTransGen.head hs hr, hd⟩

/-- **The invariant rule.**  Every state of a deterministic search has something left
to try, or is one it ends in. -/
theorem search_reaches {σ : Type*} (step : σ → σ → Prop) (R : σ → List (List ν) → Prop)
    (Done : σ → ν → Prop) (Exhausted : σ → Prop)
    (hstep : ∀ s xs stack, R s (xs :: stack) →
      (∃ skipped x rest s', xs = skipped ++ x :: rest ∧ T.Dead skipped ∧ step s s' ∧
        (T.goal x = true → Done s' x) ∧
        (T.goal x = false → R s' (T.children x :: rest :: stack))) ∨
      (T.Dead xs ∧ (stack ≠ [] → ∃ s', step s s' ∧ R s' stack) ∧ (stack = [] → Exhausted s)))
    (hdet : ∀ s s' s'', step s s' → step s s'' → s' = s'')
    (hdone : ∀ s g s', Done s g → ¬step s s') (hexhausted : ∀ s s', Exhausted s → ¬step s s')
    {s s' : σ} (h : R s (xs :: stack)) (hr : Relation.ReflTransGen step s s') :
    (∃ xs stack, R s' (xs :: stack)) ∨ ∃ g, Done s' g := by
  induction hr with
  | refl => exact Or.inl ⟨xs, stack, h⟩
  | @tail t u _ htu ih =>
      rcases ih with ⟨xs, stack, ht⟩ | ⟨g, hg⟩
      · rcases hstep t xs stack ht with ⟨-, x, rest, u', -, -, hu', hgoal, hopen⟩ | ⟨-, hclose, hlast⟩
        · obtain rfl := hdet t u u' htu hu'
          cases e : T.goal x with
          | true => exact Or.inr ⟨x, hgoal e⟩
          | false => exact Or.inl ⟨_, _, hopen e⟩
        · rcases stack with - | ⟨ys, stack⟩
          · exact absurd htu (hexhausted t u (hlast rfl))
          · obtain ⟨u', hu', hR⟩ := hclose (by simp)
            obtain rfl := hdet t u u' htu hu'
            exact Or.inl ⟨ys, stack, hR⟩
      · exact absurd htu (hdone t g u hg)

end Tree

end DepthFirst
