/-
ProjectArchive/Queens/Ranking.lean

Which value the ranking of `dvo` selects.

The ranking is meant to put back the value that removes the fewest values from
the later domains.  As it never lowers its bound it puts back the value popped
last, the first of the domain, so its choice is the least constraining one
exactly when the first value of the domain happens to be.  On up to four queens
it always is; on more, it is not for the second queen, once the first is on one.
-/
import ProjectArchive.Queens.Dvo

namespace ProjectArchive.Queens

open DepthFirst Exec Loop

namespace Dvo

/-- The number of values that the value `v` of the queen `idx` removes from the
domains of the later queens. -/
def removals (idx v : ℤ) (later : List Queen) : ℕ :=
  (later.map fun q => q.position.countP fun w => !constraint idx q.idx v w).sum

/-- The queens after the level. -/
def laterQueens (s : State) : List Queen := s.chessBoard.drop (s.i.toNat + 1)

/-- The value that `select_value_fc` returns is a least constraining one. -/
def LeastConstraining (s : State) : Prop :=
  ∀ q alpha chessBoard, pyGet s.chessBoard s.i = .ok q →
    selectValueFc s.chessBoard s.i.toNat = .ok (some alpha, chessBoard) →
    ∀ v ∈ q.position, v ≠ alpha → passes q.idx v (laterQueens s) = true →
      removals q.idx alpha (laterQueens s) ≤ removals q.idx v (laterQueens s)

/-- The first value of the domain empties a later domain, or is a least constraining one. -/
def FirstIsLeast (s : State) : Prop :=
  ∀ q first tail, pyGet s.chessBoard s.i = .ok q → q.position = first :: tail →
    passes q.idx first (laterQueens s) = true →
    ∀ v ∈ tail, passes q.idx v (laterQueens s) = true →
      removals q.idx first (laterQueens s) ≤ removals q.idx v (laterQueens s)

section Search

variable {n : ℕ} {least : Bool} {s : State} {placed : List (ℤ × ℤ)} {q : Queen}
  {rest : List Queen} {below : List (List Assignment)}

/-- At the head of every round the search has something left to try. -/
theorem searching_of_reached (hn : 1 ≤ n)
    (hr : Iterates (guard n) (body n least) (init n) s) (hg : guard n s = true) :
    ∃ placed q rest below, Searching n least s placed q rest below := by
  have hreach := (orderTree least).search_reaches (Round (guard n) (body n least))
    (Remaining n least) (Ended n) (Stuck n least) (fun _ _ _ h => h.round)
    (by
      rintro s s' s'' ⟨-, h'⟩ ⟨-, h''⟩
      rw [h'] at h''
      exact Except.ok.inj h'')
    (by
      rintro s a s' hend ⟨hguard, -⟩
      simp [guard, hend.level] at hguard)
    (by
      rintro s s' ⟨-, hstuck⟩ ⟨-, h'⟩
      rw [hstuck] at h'
      cases h') (Remaining.init hn) hr
  rcases hreach with ⟨xs, stack, placed, q, rest, below, -, hs⟩ | ⟨a, hend⟩
  · exact ⟨placed, q, rest, below, hs⟩
  · simp [guard, hend.level] at hg

theorem Searching.get (h : Searching n least s placed q rest below) :
    pyGet s.chessBoard s.i = .ok q := by
  rw [h.level]
  exact h.board.get

theorem Searching.laterQueens_eq (h : Searching n least s placed q rest below) :
    laterQueens s = rest := by
  obtain ⟨before, hboard, hbefore⟩ := h.board
  rw [laterQueens, hboard, h.level, Int.toNat_natCast, ← OnLevel.before_length hbefore]
  simp

theorem Searching.leastConstraining_iff (h : Searching n least s placed q rest below) :
    LeastConstraining s ↔ FirstIsLeast s := by
  have hi : s.i.toNat = placed.length := by rw [h.level, Int.toNat_natCast]
  rw [LeastConstraining, FirstIsLeast, h.get, h.laterQueens_eq, hi]
  constructor
  · rintro hleast q' first tail hq' hd hpass v hv hv'
    obtain rfl := Except.ok.inj hq'
    obtain ⟨before, -, hsel⟩ := h.select_some hd hpass
    have hnodup := h.valid.nodup q (List.mem_cons_self ..)
    rw [hd] at hnodup
    have hne : v ≠ first := by
      rintro rfl
      exact (List.nodup_cons.mp hnodup).1 hv
    exact hleast q first _ rfl hsel v (hd ▸ List.mem_cons_of_mem _ hv) hne hv'
  · rintro hfirst q' alpha chessBoard hq' hsel v hv hne hv'
    obtain rfl := Except.ok.inj hq'
    -- no value is returned unless the first one is accepted
    by_cases hdead : ∀ v tail, q.position = v :: tail → passes q.idx v rest = false
    · obtain ⟨before, -, hnone⟩ := h.select_none hdead
      rw [hnone] at hsel
      cases hsel
    · push Not at hdead
      obtain ⟨first, tail, hd, hpass⟩ := hdead
      have hpass : passes q.idx first rest = true := by simpa using hpass
      obtain ⟨before, -, hsome⟩ := h.select_some hd hpass
      rw [hsome] at hsel
      obtain ⟨rfl, -⟩ : first = alpha ∧ _ = chessBoard := by
        have := Except.ok.inj hsel
        exact ⟨Option.some.inj (Prod.mk.inj this).1, (Prod.mk.inj this).2⟩
      rw [hd] at hv
      exact hfirst q first tail rfl hd hpass v (List.mem_of_ne_of_mem hne hv) hv'

end Search

/-- **When `dvo` selects a least constraining value.** -/
theorem dvo_leastConstraining_iff (n : ℕ) (least : Bool) (hn : 1 ≤ n) {s : State}
    (hr : Iterates (guard n) (body n least) (init n) s) (hg : guard n s = true) :
    LeastConstraining s ↔ FirstIsLeast s := by
  obtain ⟨placed, q, rest, below, h⟩ := searching_of_reached hn hr hg
  exact h.leastConstraining_iff

/-- After the first of five queens has been placed. -/
theorem dvo_leastConstraining_iff_five : ∃ s, body 5 true (init 5) = .ok s ∧
    (LeastConstraining s ↔ FirstIsLeast s) :=
  ⟨_, rfl, dvo_leastConstraining_iff 5 true (by decide)
    (Relation.ReflTransGen.single ⟨rfl, rfl⟩) rfl⟩

/-- Five queens, the first of which is on one: for the second, three removes five
values and four removes four. -/
theorem dvo_not_least_five : ¬∀ (n : ℕ) (least : Bool), 1 ≤ n → ∀ s,
    Iterates (guard n) (body n least) (init n) s → guard n s = true → LeastConstraining s := by
  intro h
  rcases e : body 5 true (init 5) with f | s
  · cases e
  · have hleast := h 5 true (by decide) s (Relation.ReflTransGen.single ⟨rfl, e⟩)
    obtain rfl := Except.ok.inj e
    have hfour := hleast rfl _ 3 _ rfl rfl 4 (by decide) (by decide) rfl
    exact absurd hfour (by decide)

/-! ### The number of queens -/

/-- `FirstIsLeast`, by going through the domain. -/
def firstIsLeast (s : State) : Bool :=
  match pyGet s.chessBoard s.i with
  | .error _ => true
  | .ok q =>
      match q.position with
      | [] => true
      | first :: tail =>
          !passes q.idx first (laterQueens s) || tail.all fun v =>
            !passes q.idx v (laterQueens s) ||
              decide (removals q.idx first (laterQueens s) ≤ removals q.idx v (laterQueens s))

theorem FirstIsLeast.of_firstIsLeast {s : State} (h : firstIsLeast s = true) :
    FirstIsLeast s := by
  intro q first tail hq hd hpass v hv hv'
  simp only [firstIsLeast, hq, hd, hpass, Bool.not_true, Bool.false_or, List.all_eq_true] at h
  simpa [hv'] using h v hv

/-- Small boards, in every round. -/
theorem roundsSatisfy_firstIsLeast : ∀ n < 5, ∀ least,
    roundsSatisfy (guard n) (body n least) firstIsLeast 20 (init n) = true := by
  decide

/-- A value is accepted that leaves a value to each of the queens `a` to `a + count - 1`. -/
theorem passes_of {idx v : ℤ} {queen : ℕ → Queen} {a count : ℕ}
    (h : ∀ k, a ≤ k → k < a + count →
      ∃ w ∈ (queen k).position, constraint idx (queen k).idx v w = true) :
    passes idx v ((List.range' a count).map queen) = true := by
  simp only [passes, pruned, List.all_map, List.all_eq_true, List.mem_range'_1]
  intro k hk
  obtain ⟨w, hw, hc⟩ := h k hk.1 hk.2
  have hmem : w ∈ (queen k).position.filter fun w => constraint idx (queen k).idx v w :=
    List.mem_filter.mpr ⟨hw, hc⟩
  simpa using List.ne_nil_of_mem hmem

/-- A value removes itself and the two on its diagonals from the domain of a later queen. -/
theorem countP_removed (idx k v : ℤ) (hk : idx < k) {d : List ℤ} (hd : d.Nodup) :
    (d.countP fun w => !constraint idx k v w) =
      (if v ∈ d then 1 else 0) + (if v + (k - idx) ∈ d then 1 else 0) +
        (if v - (k - idx) ∈ d then 1 else 0) := by
  have hcount : (d.countP fun w => !constraint idx k v w) =
      d.count v + d.count (v + (k - idx)) + d.count (v - (k - idx)) := by
    clear hd
    induction d with
    | nil => rfl
    | cons w d ih =>
        have hw : (!constraint idx k v w) = true ↔
            w = v ∨ w = v + (k - idx) ∨ w = v - (k - idx) := by
          rw [Bool.not_eq_true', ← Bool.not_eq_true, constraint_iff]
          omega
        simp only [List.countP_cons, List.count_cons, ih, hw, beq_iff_eq]
        split_ifs <;> omega
  rw [hcount, hd.count, hd.count, hd.count]

/-- The queen `k` of `n`, when the first one is on one. -/
def afterOne (n k : ℕ) : Queen where
  idx := k
  position := (values n).filter fun w => constraint 1 k 1 w
  assigned := false

theorem mem_afterOne {n k : ℕ} (hk : 2 ≤ k) {w : ℤ} :
    w ∈ (afterOne n k).position ↔ 2 ≤ w ∧ w ≤ n ∧ w ≠ k := by
  rw [afterOne, List.mem_filter, mem_values, constraint_iff]
  omega

theorem length_afterOne {n k : ℕ} (hk : 2 ≤ k) (hkn : k ≤ n) :
    (afterOne n k).position.length = n - 2 := by
  have hlength : (values n).length = n := by simp [values]
  have hcount := List.length_eq_countP_add_countP (fun w => constraint 1 k 1 w) (l := values n)
  have hremoved := countP_removed 1 k 1 (by omega) (values_nodup n)
  -- one and `k` are removed
  simp only [mem_values] at hremoved
  rw [if_pos (by omega), if_pos (by omega), if_neg (by omega)] at hremoved
  rw [afterOne, ← List.countP_eq_length_filter]
  simp only [Bool.not_eq_true, Bool.decide_eq_false] at hcount
  omega

section Second

variable {m : ℕ}

/-- The later queens when the first of five or more is on one: all have lost as many values,
so the board keeps its order. -/
theorem sorted_afterOne (least : Bool) :
    sortedBySize least
      (pruned 1 1 ((List.range' 2 m).map fun count : ℕ => Queen.new count (m + 1))) =
      (List.range' 2 m).map (afterOne (m + 1)) := by
  have hpruned : pruned 1 1 ((List.range' 2 m).map fun count : ℕ => Queen.new count (m + 1)) =
      (List.range' 2 m).map (afterOne (m + 1)) := by
    rw [pruned, List.map_map]
    rfl
  have hsize : ∀ q ∈ (List.range' 2 m).map (afterOne (m + 1)), q.getDomainSize = m + 1 - 2 := by
    intro q hq
    obtain ⟨k, hk, rfl⟩ := List.mem_map.mp hq
    rw [List.mem_range'_1] at hk
    exact length_afterOne (by omega) (by omega)
  rw [hpruned, sortedBySize]
  apply List.Pairwise.insertionSort_eq
  apply List.pairwise_of_forall_mem_list
  intro a ha b hb
  rw [hsize a ha, hsize b hb]
  simp

/-- The domain of the second queen. -/
theorem position_afterOne (hm : 4 ≤ m) :
    ∃ tail, (afterOne (m + 1) 2).position = 3 :: tail ∧ (4 : ℤ) ∈ tail := by
  obtain ⟨k, rfl⟩ : ∃ k, m = k + 4 := ⟨m - 4, by omega⟩
  have hvalues : values (k + 4 + 1) =
      1 :: 2 :: 3 :: 4 :: (List.range (k + 1)).map fun x : ℕ => (x : ℤ) + 5 := by
    have htail : (List.range (k + 1)).map ((fun x : ℕ => (x : ℤ) + 1) ∘ fun x => 4 + x) =
        (List.range (k + 1)).map fun x : ℕ => (x : ℤ) + 5 := by
      apply List.map_congr_left
      intro x _
      show ((4 + x : ℕ) : ℤ) + 1 = x + 5
      omega
    have hsplit : k + 4 + 1 = 4 + (k + 1) := by omega
    rw [values, hsplit, List.range_add, List.map_append, List.map_map, htail]
    rfl
  refine ⟨4 :: ((List.range (k + 1)).map fun x : ℕ => (x : ℤ) + 5).filter
    (fun w => constraint 1 2 1 w), ?_, List.mem_cons_self ..⟩
  rw [afterOne, hvalues]
  rfl

/-- Four removes fewer values than three. -/
theorem removals_afterOne (hm : 4 ≤ m) :
    removals 2 4 ((List.range' 3 (m - 1)).map (afterOne (m + 1))) <
      removals 2 3 ((List.range' 3 (m - 1)).map (afterOne (m + 1))) := by
  have hremoved : ∀ v : ℤ, ∀ k ∈ List.range' 3 (m - 1),
      ((afterOne (m + 1) k).position.countP fun w => !constraint 2 (afterOne (m + 1) k).idx v w) =
      (if 2 ≤ v ∧ v ≤ m + 1 ∧ v ≠ k then 1 else 0) +
        (if 2 ≤ v + (k - 2) ∧ v + (k - 2) ≤ m + 1 ∧ v + (k - 2) ≠ k then 1 else 0) +
        (if 2 ≤ v - (k - 2) ∧ v - (k - 2) ≤ m + 1 ∧ v - (k - 2) ≠ k then 1 else 0) := by
    intro v k hk
    rw [List.mem_range'_1] at hk
    have hnodup : (afterOne (m + 1) k).position.Nodup := (values_nodup _).filter _
    have h := countP_removed 2 k v (by omega) hnodup
    simp only [mem_afterOne (show 2 ≤ k by omega)] at h
    exact_mod_cast h
  rw [removals, removals, List.map_map, List.map_map]
  apply List.sum_lt_sum
  · -- no queen loses more by four than by three
    intro k hk
    simp only [Function.comp_apply, hremoved _ k hk]
    rw [List.mem_range'_1] at hk
    split_ifs <;> omega
  · -- the last queen but one loses less, as its upper diagonal has left the board
    have hk : m ∈ List.range' 3 (m - 1) := by
      rw [List.mem_range'_1]
      omega
    refine ⟨m, hk, ?_⟩
    simp only [Function.comp_apply, hremoved _ m hk]
    split_ifs <;> omega

/-- The first queen may take one. -/
theorem passes_one (hm : 4 ≤ m) :
    passes 1 1 ((List.range' 2 m).map fun count : ℕ => Queen.new count (m + 1)) = true := by
  apply passes_of
  intro k hk hkm
  obtain ⟨w, hw⟩ : ∃ w : ℤ, (1 ≤ w ∧ w ≤ (m + 1 : ℕ)) ∧
      1 ≠ w ∧ (1 - (k : ℤ)).natAbs ≠ (1 - w).natAbs := by
    by_cases h : k = 2
    · exact ⟨3, by omega⟩
    · exact ⟨2, by omega⟩
  exact ⟨w, mem_values.mpr hw.1, constraint_iff.mpr hw.2⟩

/-- The second queen may then take three, and four. -/
theorem passes_afterOne (hm : 4 ≤ m) {v : ℤ} (hv : v = 3 ∨ v = 4) :
    passes 2 v ((List.range' 3 (m - 1)).map (afterOne (m + 1))) = true := by
  apply passes_of
  intro k hk hkm
  obtain ⟨w, hw⟩ : ∃ w : ℤ, (2 ≤ w ∧ w ≤ (m + 1 : ℕ) ∧ w ≠ k) ∧
      v ≠ w ∧ (2 - (k : ℤ)).natAbs ≠ (v - w).natAbs := by
    by_cases h : v = k
    · -- two is on the diagonal
      rcases hv with rfl | rfl
      · exact ⟨5, by omega⟩
      · exact ⟨3, by omega⟩
    · exact ⟨2, by omega⟩
  exact ⟨w, (mem_afterOne (by omega)).mpr hw.1, constraint_iff.mpr hw.2⟩

/-- The second of five or more queens does not get its least constraining value. -/
theorem not_leastConstraining (least : Bool) (hm : 4 ≤ m) :
    ∃ s, Iterates (guard (m + 1)) (body (m + 1) least) (init (m + 1)) s ∧
      guard (m + 1) s = true ∧ ¬LeastConstraining s := by
  have hlater : (List.range' 2 m).map (afterOne (m + 1)) =
      afterOne (m + 1) 2 :: (List.range' 3 (m - 1)).map (afterOne (m + 1)) := by
    obtain ⟨k, rfl⟩ : ∃ k, m = k + 1 := ⟨m - 1, by omega⟩
    rw [List.range'_succ]
    rfl
  obtain ⟨tail, hvalues⟩ : ∃ tail, (Queen.new 1 (m + 1)).position = 1 :: tail := by
    show ∃ tail, values (m + 1) = 1 :: tail
    rw [values, List.range_succ_eq_map]
    exact ⟨_, rfl⟩
  obtain ⟨s, hround, -, hnext⟩ := (Searching.init m least).pick hvalues (passes_one hm)
  have hs := hnext _ _ ((sorted_afterOne least).trans hlater)
  refine ⟨s, Relation.ReflTransGen.single hround, hs.guard, ?_⟩
  rw [hs.leastConstraining_iff, FirstIsLeast, hs.get, hs.laterQueens_eq]
  intro hleast
  obtain ⟨tail, hd, hfour⟩ := position_afterOne hm
  have hle := hleast _ 3 tail rfl hd (passes_afterOne hm (.inl rfl)) 4 hfour
    (passes_afterOne hm (.inr rfl))
  exact Nat.not_le_of_lt (removals_afterOne hm) hle

end Second

/-- **Up to four queens, and only those, get a least constraining value in every round.** -/
theorem dvo_leastConstraining_always_iff (n : ℕ) (least : Bool) (hn : 1 ≤ n) :
    (∀ s, Iterates (guard n) (body n least) (init n) s → guard n s = true → LeastConstraining s) ↔
      n ≤ 4 := by
  constructor
  · intro h
    by_contra hlt
    obtain ⟨m, rfl⟩ : ∃ m, n = m + 1 := ⟨n - 1, by omega⟩
    obtain ⟨s, hr, hg, hnot⟩ := not_leastConstraining (m := m) least (by omega)
    exact hnot (h s hr hg)
  · intro hle s hr hg
    obtain ⟨placed, q, rest, below, hs⟩ := searching_of_reached hn hr hg
    rw [hs.leastConstraining_iff]
    have hrounds := roundsSatisfy_firstIsLeast n (by omega) least
    exact .of_firstIsLeast (hr.satisfies hrounds hg)

end Dvo

end ProjectArchive.Queens
