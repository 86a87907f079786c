/-
ProjectArchive/Library/Skipping.lean

How many rounds a search takes, and a search that skips siblings.

Two loops search the same tree.  The first one opens every sibling
(`Tree.Thorough`); the second one may skip siblings that lead nowhere, and close
a level that has no others (`Tree.Skipping`).  Where the second one skips a
sibling, the first one goes through everything below it and comes back
(`Thorough.dead`).  So the second one is never later at a goal, however many
rounds the first one needs (`Skipping.no_later`).
-/
import ProjectArchive.Library.DepthFirst
import ProjectArchive.Library.Loop

/-! ### Rounds, counted -/

namespace Loop

variable {σ ε : Type*}

/-- `Steps step m s s'`: from `s` to `s'` in `m` rounds. -/
inductive Steps (step : σ → σ → Prop) : ℕ → σ → σ → Prop
  | refl (s) : Steps step 0 s s
  | head {m s t u} : step s t → Steps step m t u → Steps step (m + 1) s u

variable {step : σ → σ → Prop} {m k : ℕ} {s t u : σ}

theorem Steps.single (h : step s t) : Steps step 1 s t := .head h (.refl t)

theorem Steps.trans (h : Steps step m s t) (h' : Steps step k t u) : Steps step (m + k) s u := by
  induction h with
  | refl s =>
      rw [Nat.zero_add]
      exact h'
  | head hstep _ ih =>
      rw [Nat.add_right_comm]
      exact .head hstep (ih h')

variable {guard : σ → Bool} {body : σ → Except ε σ}

/-- A loop goes on after some rounds with the fuel that is left. -/
theorem Steps.whileLoop (h : Steps (Round guard body) m s t) (fuel : ℕ) :
    whileLoop guard body (m + fuel) s = whileLoop guard body fuel t := by
  induction h with
  | refl s => rw [Nat.zero_add]
  | head hround _ ih =>
      rw [Nat.add_right_comm, whileLoop_round hround]
      exact ih

/-- The fuel must suffice for all the rounds. -/
theorem Steps.le_of_whileLoop {fuel : ℕ} {r : σ} (h : Steps (Round guard body) m s t)
    (hr : Loop.whileLoop guard body fuel s = .ok (some r)) : m ≤ fuel := by
  induction h generalizing fuel with
  | refl s => exact Nat.zero_le fuel
  | head hround _ ih =>
      cases fuel with
      | zero =>
          unfold Loop.whileLoop at hr
          rw [if_pos hround.1] at hr
          cases hr
      | succ fuel =>
          rw [whileLoop_round hround] at hr
          exact Nat.succ_le_succ (ih hr)

end Loop

/-! ### Two searches of a tree -/

namespace DepthFirst

namespace Tree

open Loop

variable {ν σ τ : Type*} {T : Tree ν}

/-- A loop that opens every sibling. -/
structure Thorough (T : Tree ν) (step : σ → σ → Prop) (R : σ → List (List ν) → Prop)
    (Done : σ → ν → Prop) : Prop where
  pick : ∀ {s x rest stack}, R s ((x :: rest) :: stack) → ∃ s', step s s' ∧
    (T.goal x = true → Done s' x) ∧ (T.goal x = false → R s' (T.children x :: rest :: stack))
  close : ∀ {s xs stack}, R s ([] :: xs :: stack) → ∃ s', step s s' ∧ R s' (xs :: stack)

/-- A loop that may skip siblings that lead nowhere. -/
structure Skipping (T : Tree ν) (step : σ → σ → Prop) (R : σ → List (List ν) → Prop)
    (Done : σ → ν → Prop) : Prop where
  round : ∀ {s xs stack}, R s (xs :: stack) →
    (∃ skipped x rest s', xs = skipped ++ x :: rest ∧ T.Dead skipped ∧ step s s' ∧
      (T.goal x = true → Done s' x) ∧
      (T.goal x = false → R s' (T.children x :: rest :: stack))) ∨
    (T.Dead xs ∧ (stack ≠ [] → ∃ s', step s s' ∧ R s' stack))

variable {step : σ → σ → Prop} {R : σ → List (List ν) → Prop} {Done : σ → ν → Prop}
  {step' : τ → τ → Prop} {R' : τ → List (List ν) → Prop} {Done' : τ → ν → Prop}
  {xs rest : List ν} {stack : List (List ν)} {x g : ν} {s : σ} {t : τ}

/-- Nothing is found below a node that leads nowhere. -/
theorem dead_children (h : T.first x = none) : T.goal x = false ∧ T.Dead (T.children x) := by
  have hgoal : T.goal x = false := by
    cases e : T.goal x with
    | false => rfl
    | true =>
        rw [first_of_goal e] at h
        cases h
  rw [first_of_not_goal hgoal, List.findSome?_eq_none_iff] at h
  exact ⟨hgoal, h⟩

/-- The loop goes through siblings that lead nowhere one after the other, if it can do so with
each of them. -/
theorem Thorough.dead_of (hdead : ∀ y ∈ xs, ∀ {s rest}, R s ((y :: rest) :: stack) →
      ∃ m s', Steps step m s s' ∧ R s' (rest :: stack))
    (h : R s ((xs ++ rest) :: stack)) : ∃ m s', Steps step m s s' ∧ R s' (rest :: stack) := by
  induction xs generalizing s with
  | nil => exact ⟨0, s, .refl s, h⟩
  | cons y xs ih =>
      obtain ⟨m, s', hsteps, hs'⟩ := hdead y List.mem_cons_self h
      obtain ⟨m', s₂, hsteps', hs₂⟩ := ih (fun z hz => hdead z (List.mem_cons_of_mem _ hz)) hs'
      exact ⟨m + m', s₂, hsteps.trans hsteps', hs₂⟩

/-- The loop comes back from a sibling that leads nowhere. -/
theorem Thorough.dead_one (hT : Thorough T step R Done) (hx : T.first x = none)
    (h : R s ((x :: rest) :: stack)) : ∃ m s', Steps step m s s' ∧ R s' (rest :: stack) := by
  induction k : T.height x using Nat.strongRecOn generalizing x s rest stack with
  | _ k ih =>
      obtain ⟨hgoal, hchildren⟩ := dead_children hx
      obtain ⟨s', hstep, -, hopen⟩ := hT.pick h
      have hs' := hopen hgoal
      rw [← List.append_nil (T.children x)] at hs'
      obtain ⟨m, s₂, hsteps, hs₂⟩ := Thorough.dead_of
        (fun y hy _ _ hy' => ih (T.height y) (k ▸ T.height_lt hy) (hchildren y hy) hy' rfl) hs'
      obtain ⟨s₃, hstep', hs₃⟩ := hT.close hs₂
      exact ⟨m + 1 + 1, s₃, .head hstep (hsteps.trans (.single hstep')), hs₃⟩

/-- **The loop comes back from siblings that lead nowhere.** -/
theorem Thorough.dead (hT : Thorough T step R Done) (hxs : T.Dead xs)
    (h : R s ((xs ++ rest) :: stack)) : ∃ m s', Steps step m s s' ∧ R s' (rest :: stack) :=
  Thorough.dead_of (fun y hy _ _ hy' => hT.dead_one (hxs y hy) hy') h

/-- **Skipping is never later.**  Both loops come to the first goal, and the one that skips takes
no more rounds. -/
theorem Skipping.no_later (hS : Skipping T step' R' Done') (hT : Thorough T step R Done)
    (h : R s (xs :: stack)) (h' : R' t (xs :: stack)) (hg : T.resume (xs :: stack) = some g) :
    ∃ m s' m' t', m' ≤ m ∧ Steps step m s s' ∧ Done s' g ∧ Steps step' m' t t' ∧ Done' t' g := by
  induction w : T.weight (xs :: stack) using Nat.strongRecOn generalizing s t xs stack with
  | _ w ih =>
      rcases hS.round h' with
        ⟨skipped, x, rest, t', rfl, hdead, hstep', hgoal', hopen'⟩ | ⟨hdead, hclose'⟩
      · -- the first loop goes through what is skipped
        obtain ⟨m, s', hsteps, hs'⟩ := hT.dead hdead h
        obtain ⟨s₂, hstep, hgoal, hopen⟩ := hT.pick hs'
        rw [hdead.resume_skip] at hg
        cases e : T.goal x with
        | true =>
            rw [first_of_goal e] at hg
            obtain rfl := Option.some.inj hg
            exact ⟨m + 1, s₂, 1, t', by omega, hsteps.trans (.single hstep), hgoal e,
              .single hstep', hgoal' e⟩
        | false =>
            rw [first_of_not_goal e, ← resume_cons] at hg
            obtain ⟨k, u, k', u', hle, hu, hdone, hu', hdone'⟩ :=
              ih _ (w ▸ weight_pick) (hopen e) (hopen' e) hg rfl
            exact ⟨m + (k + 1), u, k' + 1, u', by omega, hsteps.trans (.head hstep hu), hdone,
              .head hstep' hu', hdone'⟩
      · rw [hdead.resume] at hg
        rcases stack with - | ⟨ys, stack⟩
        · cases hg
        · rw [← List.append_nil xs] at h
          obtain ⟨m, s', hsteps, hs'⟩ := hT.dead hdead h
          obtain ⟨s₂, hstep, hs₂⟩ := hT.close hs'
          obtain ⟨t', hstep', ht'⟩ := hclose' (List.cons_ne_nil _ _)
          obtain ⟨k, u, k', u', hle, hu, hdone, hu', hdone'⟩ :=
            ih _ (w ▸ weight_dead) hs₂ ht' hg rfl
          exact ⟨m + (k + 1), u, k' + 1, u', by omega, hsteps.trans (.head hstep hu), hdone,
            .head hstep' hu', hdone'⟩

end Tree

end DepthFirst
