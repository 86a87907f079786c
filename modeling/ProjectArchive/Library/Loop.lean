/-
ProjectArchive/Library/Loop.lean

`while` loops whose body may fail.

`whileLoop guard body fuel s` runs the loop for at most `fuel` rounds.  A loop
is reasoned about without its fuel: `Iterates` is the relation between a state
and the states some rounds later, and `Returns` and `Raises` say how the loop
ends.  `Iterates.returns` and `Iterates.raises` are the introduction rules,
`returns_of_measure` the rule for termination, and `of_whileLoop` the
elimination rule.  `roundsSatisfy` runs the loop and checks every round.
-/
import Mathlib.Logic.Relation
import Mathlib.Tactic.Common

namespace Loop

variable {σ ε : Type*}

/-- `while guard: body`, for at most `fuel` rounds; `none` when they do not
suffice. -/
def whileLoop (guard : σ → Bool) (body : σ → Except ε σ) : ℕ → σ → Except ε (Option σ)
  | 0, s => if guard s then .ok none else .ok (some s)
  | fuel + 1, s =>
      if guard s then
        match body s with
        | .ok s' => whileLoop guard body fuel s'
        | .error e => .error e
      else .ok (some s)

/-- One round. -/
def Round (guard : σ → Bool) (body : σ → Except ε σ) (s s' : σ) : Prop :=
  guard s = true ∧ body s = .ok s'

/-- Some rounds. -/
def Iterates (guard : σ → Bool) (body : σ → Except ε σ) : σ → σ → Prop :=
  Relation.ReflTransGen (Round guard body)

/-- The loop ends within `fuel` rounds, and `p` holds at the head of each of them. -/
def roundsSatisfy (guard : σ → Bool) (body : σ → Except ε σ) (p : σ → Bool) : ℕ → σ → Bool
  | 0, s => !guard s
  | fuel + 1, s =>
      !guard s || (p s &&
        match body s with
        | .ok s' => roundsSatisfy guard body p fuel s'
        | .error _ => true)

/-- The loop ends in `r`. -/
def Returns (guard : σ → Bool) (body : σ → Except ε σ) (s r : σ) : Prop :=
  ∃ N, ∀ fuel, N ≤ fuel → whileLoop guard body fuel s = .ok (some r)

/-- The loop fails with `e`. -/
def Raises (guard : σ → Bool) (body : σ → Except ε σ) (s : σ) (e : ε) : Prop :=
  ∃ N, ∀ fuel, N ≤ fuel → whileLoop guard body fuel s = .error e

variable {guard : σ → Bool} {body : σ → Except ε σ} {s s' r : σ} {e : ε}

theorem whileLoop_round (h : Round guard body s s') (fuel : ℕ) :
    whileLoop guard body (fuel + 1) s = whileLoop guard body fuel s' := by
  simp [whileLoop, h.1, h.2]

theorem whileLoop_exit (h : guard s = false) (fuel : ℕ) :
    whileLoop guard body fuel s = .ok (some s) := by
  cases fuel <;> simp [whileLoop, h]

/-- What the rounds of a loop satisfy holds at the head of every round it comes to. -/
theorem Iterates.satisfies {p : σ → Bool} {fuel : ℕ} (h : Iterates guard body s s')
    (hs : roundsSatisfy guard body p fuel s = true) (hg : guard s' = true) : p s' = true := by
  induction h using Relation.ReflTransGen.head_induction_on generalizing fuel with
  | refl =>
      cases fuel with
      | zero => simp [roundsSatisfy, hg] at hs
      | succ fuel =>
          simp only [roundsSatisfy, hg, Bool.not_true, Bool.false_or, Bool.and_eq_true] at hs
          exact hs.1
  | head hround _ ih =>
      cases fuel with
      | zero => simp [roundsSatisfy, hround.1] at hs
      | succ fuel =>
          simp only [roundsSatisfy, hround.1, hround.2, Bool.not_true, Bool.false_or,
            Bool.and_eq_true] at hs
          exact ih hs.2

/-- A loop that does something else after some rounds does it from the start. -/
theorem Iterates.lift {P : Except ε (Option σ) → Prop} (h : Iterates guard body s s')
    (hs : ∃ N, ∀ fuel, N ≤ fuel → P (whileLoop guard body fuel s')) :
    ∃ N, ∀ fuel, N ≤ fuel → P (whileLoop guard body fuel s) := by
  induction h using Relation.ReflTransGen.head_induction_on with
  | refl => exact hs
  | head hround _ ih =>
      obtain ⟨N, hN⟩ := ih
      refine ⟨N + 1, ?_⟩
      intro fuel hfuel
      obtain ⟨fuel, rfl⟩ : ∃ f, fuel = f + 1 := ⟨fuel - 1, by omega⟩
      rw [whileLoop_round hround]
      exact hN fuel (by omega)

theorem Iterates.returns (h : Iterates guard body s r) (hr : guard r = false) :
    Returns guard body s r :=
  h.lift (P := (· = .ok (some r))) ⟨0, fun fuel _ => whileLoop_exit hr fuel⟩

theorem Iterates.raises (h : Iterates guard body s s') (hg : guard s' = true)
    (he : body s' = .error e) : Raises guard body s e := by
  refine h.lift (P := (· = .error e)) ⟨1, ?_⟩
  intro fuel hfuel
  obtain ⟨fuel, rfl⟩ : ∃ f, fuel = f + 1 := ⟨fuel - 1, by omega⟩
  simp [whileLoop, hg, he]

/-- What a loop returns is some rounds later, where the guard is false. -/
theorem of_whileLoop {fuel : ℕ} (h : whileLoop guard body fuel s = .ok (some r)) :
    Iterates guard body s r ∧ guard r = false := by
  induction fuel generalizing s with
  | zero =>
      cases hg : guard s with
      | true => simp [whileLoop, hg] at h
      | false =>
          obtain rfl : s = r := by simpa [whileLoop, hg] using h
          exact ⟨Relation.ReflTransGen.refl, hg⟩
  | succ fuel ih =>
      cases hg : guard s with
      | false =>
          obtain rfl : s = r := by simpa [whileLoop, hg] using h
          exact ⟨Relation.ReflTransGen.refl, hg⟩
      | true =>
          rcases hb : body s with e | s'
          · simp [whileLoop, hg, hb] at h
          · have hround : Round guard body s s' := ⟨hg, hb⟩
            rw [whileLoop_round hround] at h
            obtain ⟨hi, hr⟩ := ih h
            exact ⟨Relation.ReflTransGen.head hround hi, hr⟩

/-- Two loops whose states correspond do the same. -/
theorem whileLoop_map {τ : Type*} (guard' : τ → Bool) (body' : τ → Except ε τ) (f : τ → σ)
    (hguard : ∀ x, guard' x = guard (f x)) (hbody : ∀ x, (body' x).map f = body (f x)) (fuel : ℕ)
    (x : τ) : (whileLoop guard' body' fuel x).map (Option.map f) = whileLoop guard body fuel (f x) := by
  induction fuel generalizing x with
  | zero =>
      unfold whileLoop
      rw [hguard]
      split <;> rfl
  | succ fuel ih =>
      unfold whileLoop
      rw [hguard, ← hbody]
      split
      · rcases e : body' x with e' | x'
        · rfl
        · exact ih x'
      · rfl

/-- The rule for termination: every round keeps the invariant and decreases the
measure. -/
theorem returns_of_measure (Inv : σ → Prop) (measure : σ → ℕ)
    (hround : ∀ s, Inv s → guard s = true →
      ∃ s', body s = .ok s' ∧ Inv s' ∧ measure s' < measure s)
    (h : Inv s) : ∃ r, Returns guard body s r ∧ Inv r ∧ guard r = false := by
  have hends : ∀ m s, Inv s → measure s < m →
      ∃ r, Iterates guard body s r ∧ Inv r ∧ guard r = false := by
    intro m
    induction m with
    | zero => exact fun s _ hm => absurd hm (Nat.not_lt_zero _)
    | succ m ih =>
        intro s hs hm
        cases hg : guard s with
        | false => exact ⟨s, Relation.ReflTransGen.refl, hs, hg⟩
        | true =>
            obtain ⟨s', hbody, hs', hlt⟩ := hround s hs hg
            obtain ⟨r, hi, hr⟩ := ih s' hs' (Nat.lt_of_lt_of_le hlt (Nat.le_of_lt_succ hm))
            exact ⟨r, Relation.ReflTransGen.head ⟨hg, hbody⟩ hi, hr⟩
  obtain ⟨r, hi, hinv, hr⟩ := hends _ s h (Nat.lt_succ_self _)
  exact ⟨r, hi.returns hr, hinv, hr⟩

/-- A loop returns one state, for whatever number of rounds. -/
theorem Returns.eq {fuel : ℕ} {r' : σ} (h : Returns guard body s r)
    (hr : whileLoop guard body fuel s = .ok (some r')) : r' = r := by
  obtain ⟨hi, hg⟩ := of_whileLoop hr
  obtain ⟨N, hN⟩ := h
  obtain ⟨M, hM⟩ := hi.returns hg
  have h₁ := hN (N + M) (by omega)
  have h₂ := hM (N + M) (by omega)
  exact Option.some.inj (Except.ok.inj (h₂.symm.trans h₁))

/-- A loop that fails does so for every greater number of rounds. -/
theorem raises_of_whileLoop {fuel : ℕ} (h : whileLoop guard body fuel s = .error e) :
    Raises guard body s e := by
  induction fuel generalizing s with
  | zero =>
      unfold whileLoop at h
      split at h <;> cases h
  | succ fuel ih =>
      cases hg : guard s with
      | false => simp [whileLoop, hg] at h
      | true =>
          rcases hb : body s with e' | s'
          · obtain rfl : e' = e := by simpa [whileLoop, hg, hb] using h
            exact Iterates.raises Relation.ReflTransGen.refl hg hb
          · have hround : Round guard body s s' := ⟨hg, hb⟩
            rw [whileLoop_round hround] at h
            have hi : Iterates guard body s s' := Relation.ReflTransGen.single hround
            exact Iterates.lift hi (P := (· = .error e)) (ih h)

/-- A loop that returns does not raise. -/
theorem Raises.not_returns (h : Raises guard body s e) (hr : Returns guard body s r) : False := by
  obtain ⟨N, hN⟩ := h
  obtain ⟨M, hM⟩ := hr
  have h₁ := hN (N + M) (by omega)
  have h₂ := hM (N + M) (by omega)
  rw [h₁] at h₂
  cases h₂

end Loop
