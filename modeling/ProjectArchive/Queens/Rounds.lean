/-
ProjectArchive/Queens/Rounds.lean

Forward checking is never slower than plain backtracking, in rounds of their
`while` loops.

`back_track_search` opens every consistent extension of its path; `bt_fc` skips
those that empty a later domain, which lead nowhere.  Both count a round with a
new value as a visited state and leave a level in the other rounds.
-/
import ProjectArchive.Library.Skipping
import ProjectArchive.Queens.BtFc

namespace ProjectArchive.Queens

open DepthFirst Exec Loop

variable {n : ℕ}

theorem BackTrack.thorough (n : ℕ) : Tree.Thorough (pathTree n)
    (Round (BackTrack.guard n) (BackTrack.body n)) (BackTrack.Searching n) (BackTrack.Ended n) where
  pick := by
    intro s x rest stack h
    rcases h.round with ⟨y, rest', s', hsplit, hround, hgoal, hopen⟩ | ⟨hnil, -⟩
    · obtain ⟨rfl, rfl⟩ := List.cons.inj hsplit
      exact ⟨s', hround, hgoal, hopen⟩
    · cases hnil
  close := by
    intro s xs stack h
    rcases h.round with ⟨y, rest', s', hsplit, -⟩ | ⟨-, s', hround, hclose, -⟩
    · cases hsplit
    · exact ⟨s', hround, hclose (List.cons_ne_nil _ _)⟩

theorem BtFc.skipping (n : ℕ) : Tree.Skipping (pathTree n)
    (Round (BtFc.guard n) BtFc.body) (BtFc.Searching n) (BtFc.Ended n) where
  round := by
    intro s xs stack h
    rcases h.round with ⟨dead, x, siblings, s', hpick⟩ | ⟨hdead, hclose, -⟩
    · exact .inl ⟨dead, x, siblings, s', hpick⟩
    · exact .inr ⟨hdead, hclose⟩

/-- Both loops, from their first round to their last. -/
theorem rounds_le (hn : 1 ≤ n) {p : List ℤ} (hp : (pathTree n).first [] = some p) :
    ∃ s m r m' r', BackTrack.init n = .ok s ∧ m' ≤ m ∧
      Steps (Round (BackTrack.guard n) (BackTrack.body n)) m s r ∧ BackTrack.Ended n r p ∧
      Steps (Round (BtFc.guard n) BtFc.body) m' (BtFc.start n) r' ∧ BtFc.Ended n r' p := by
  obtain ⟨s, hs, hinit⟩ := BackTrack.Searching.init hn
  rw [← pathTree_resume hn] at hp
  obtain ⟨m, r, m', r', hle, hsteps, hended, hsteps', hended'⟩ :=
    (BtFc.skipping n).no_later (BackTrack.thorough n) hinit (BtFc.Searching.start hn) hp
  exact ⟨s, m, r, m', r', hs, hle, hsteps, hended, hsteps', hended'⟩

/-- What `back_track_search` returns within some number of rounds is the first placement. -/
theorem first_of_backTrackSearch (hn : 1 ≤ n) {fuel : ℕ} {p : List ℤ}
    (h : BackTrack.backTrackSearch fuel n = .ok (some (.path p))) :
    (pathTree n).first [] = some p := by
  obtain ⟨N, hN⟩ := BackTrack.backTrackSearch_first hn
  -- more rounds change nothing
  have hmore : ∃ M, ∀ fuel', M ≤ fuel' →
      BackTrack.backTrackSearch fuel' n = .ok (some (.path p)) := by
    obtain ⟨s, hs, h⟩ := bind_eq_ok h
    obtain ⟨r, hr, h⟩ := bind_eq_ok h
    rcases r with - | r
    · cases h
    · obtain ⟨hiterates, hguard⟩ := of_whileLoop hr
      obtain ⟨M, hM⟩ := hiterates.returns hguard
      refine ⟨M, ?_⟩
      intro fuel' hfuel'
      show (BackTrack.init n >>= fun s =>
        whileLoop (BackTrack.guard n) (BackTrack.body n) fuel' s >>= _) = _
      rw [hs, ok_bind, hM fuel' hfuel', ok_bind]
      exact h
  obtain ⟨M, hM⟩ := hmore
  have hout := (hN (N + M) (Nat.le_add_right N M)).symm.trans (hM (N + M) (Nat.le_add_left M N))
  rcases hfirst : (pathTree n).first [] with - | q
  · rw [hfirst] at hout
    cases hout
  · rw [hfirst] at hout
    cases hout
    rfl

/-- **Forward checking takes no more rounds.**  Whenever `back_track_search` returns a placement
within some number of rounds of its loop, `bt_fc` returns the same one within as many. -/
theorem btFc_no_more_rounds (fuel n : ℕ) (p : List ℤ)
    (h : BackTrack.backTrackSearch fuel n = .ok (some (.path p))) :
    BtFc.btFc fuel n = .ok (some (.path p)) := by
  rcases Nat.eq_zero_or_pos n with rfl | hn
  · cases h
  · obtain ⟨s, m, r, m', r', hs, hle, hsteps, -, hsteps', hended'⟩ :=
      rounds_le hn (first_of_backTrackSearch hn h)
    obtain ⟨t, ht, h⟩ := bind_eq_ok h
    obtain rfl := Except.ok.inj (hs.symm.trans ht)
    obtain ⟨out, hout, h⟩ := bind_eq_ok h
    rcases out with - | out
    · cases h
    have hfuel : m' ≤ fuel := hle.trans (hsteps.le_of_whileLoop hout)
    have hguard : BtFc.guard n r' = false := by simp [BtFc.guard, hended'.level]
    have hi : ¬ r'.i = 0 := by
      rw [hended'.level]
      exact_mod_cast Nat.ne_of_gt hn
    have hloop := hsteps'.whileLoop (fuel - m')
    rw [Nat.add_sub_cancel' hfuel, whileLoop_exit hguard] at hloop
    show (BtFc.init n >>= fun s => whileLoop (BtFc.guard n) BtFc.body fuel s >>= _) = _
    rw [BtFc.init_eq, ok_bind, hloop, ok_bind]
    show Except.ok (some (BtFc.result r')) = _
    rw [BtFc.result, if_neg hi, hended'.path]

/-- Four queens, for which plain backtracking needs twelve rounds. -/
theorem btFc_no_more_rounds_four : BtFc.btFc 12 4 = .ok (some (.path [3, 1, 4, 2])) :=
  btFc_no_more_rounds 12 4 [3, 1, 4, 2] rfl

/-- Forward checking does with eight. -/
example : BtFc.btFc 8 4 = .ok (some (.path [3, 1, 4, 2])) ∧
    BackTrack.backTrackSearch 11 4 = .ok none := ⟨rfl, rfl⟩

end ProjectArchive.Queens
