/-
ProjectArchive/Queens/Explored.lean

What forward checking has explored, at every round of its loop.

`Explored` adds to the invariant of the search what became of the values that
are no longer in the domains: the domain of a level on the path is what is left
at the front of the values that fit, and a value that is gone, the one on the
path apart, leads nowhere.  With the snapshots this gives the exact contents of
all domains and snapshots of a reachable state, and settles when the search
backs out of its lowest level.
-/
import ProjectArchive.Queens.BtFc
import ProjectArchive.Queens.Existence

namespace ProjectArchive.Queens

open DepthFirst Exec Loop

namespace BtFc

/-- The values of the variable `k` that fit a path, in ascending order. -/
def fitting (n : ℕ) (path : List ℤ) (k : ℕ) : List ℤ := (values n).filter fun v => fits path k v

/-- What the search has left behind on the levels up to the present one. -/
structure Explored (n : ℕ) (s : State) : Prop where
  front : ∀ j ≤ s.path.length, s.domainList.getD j [] <+: fitting n (s.path.take j) j
  /-- The values that have been tried lead nowhere. -/
  tried : ∀ j ≤ s.path.length, ∀ v ∈ fitting n (s.path.take j) j, v ∉ s.domainList.getD j [] →
    s.path[j]? ≠ some v → (pathTree n).first (s.path.take j ++ [v]) = none
  /-- A snapshot has the whole domain of its own level. -/
  saved : ∀ j ≤ s.path.length, ∀ snap, s.bookKeepingDomainList[j]? = some (some snap) →
    snap.getD j [] = fitting n (s.path.take j) j
  /-- A level without a snapshot has just been entered. -/
  entered : s.bookKeepingDomainList[s.path.length]? = some none →
    s.domainList.getD s.path.length [] = fitting n s.path s.path.length

section Explored

variable {n : ℕ} {s : State} {xs : List (List ℤ)} {stack : List (List (List ℤ))} {v : ℤ}

theorem mem_fitting {path : List ℤ} {k : ℕ} :
    v ∈ fitting n path k ↔ (1 ≤ v ∧ v ≤ n) ∧ fits path k v = true := by
  rw [fitting, List.mem_filter, mem_values]

/-- The snapshots after the first lines of the body. -/
theorem Explored.books (h : Searching n s stack) (he : Explored n s) {j : ℕ}
    (hj : j ≤ s.path.length) {snap : List (List ℤ)}
    (hsnap : (BtFc.books s)[j]? = some (some snap)) :
    snap.getD j [] = fitting n (s.path.take j) j := by
  unfold BtFc.books at hsnap
  rw [h.toNat] at hsnap
  split at hsnap
  · rename_i hnone
    rcases Nat.lt_or_eq_of_le hj with hlt | rfl
    · rw [List.getElem?_set_ne (by omega)] at hsnap
      exact he.saved j hj snap hsnap
    · rw [List.getElem?_set_self (by rw [h.books]; exact h.open_)] at hsnap
      obtain rfl := Option.some.inj (Option.some.inj hsnap)
      rw [List.take_length]
      exact he.entered hnone
  · exact he.saved j hj snap hsnap

theorem Explored.start (hn : 1 ≤ n) : Explored n (start n) := by
  have hwhole : (BtFc.start n).domainList.getD 0 [] = fitting n [] 0 := by
    rw [start_domain hn]
    exact (List.filter_eq_self.mpr fun v _ => rfl).symm
  have hzero : ∀ {j}, j ≤ (BtFc.start n).path.length → j = 0 := fun hj => Nat.le_zero.mp hj
  refine ⟨?_, ?_, ?_, fun _ => hwhole⟩
  · intro j hj
    obtain rfl := hzero hj
    rw [hwhole]
    exact List.prefix_refl _
  · intro j hj w hw hgone _
    obtain rfl := hzero hj
    rw [hwhole] at hgone
    exact absurd hw hgone
  · intro j hj snap hsnap
    simp [BtFc.start, List.getElem?_replicate] at hsnap

/-- A value of the present level that is gone leads nowhere, also when the values before
`v` have just been skipped. -/
theorem Explored.first_eq_none_of_gone (h : Searching n s stack) (he : Explored n s)
    {skipped rest : List ℤ}
    (hd : (s.domainList.getD s.path.length []).reverse = skipped ++ v :: rest)
    (hs : ∀ u ∈ skipped, Wipes n s.path.length u s.domainList) {w : ℤ}
    (hw : w ∈ fitting n s.path s.path.length) (hgone : w ∉ rest.reverse) (hne : w ≠ v) :
    (pathTree n).first (s.path ++ [w]) = none := by
  by_cases hin : w ∈ s.domainList.getD s.path.length []
  · have hmem : w ∈ skipped ++ v :: rest := hd ▸ List.mem_reverse.mpr hin
    have hskipped : w ∈ skipped := by
      rcases List.mem_append.mp hmem with hskipped | hrest
      · exact hskipped
      · rcases List.mem_cons.mp hrest with heq | hrest
        · exact absurd heq hne
        · exact absurd (List.mem_reverse.mpr hrest) hgone
    exact h.dead hin (hs w hskipped)
  · have hnone := he.tried _ le_rfl w (by rwa [List.take_length]) hin (by simp)
    rwa [List.take_length] at hnone

/-- The next level is entered. -/
theorem Explored.next (h : Searching n s stack) (he : Explored n s) {skipped rest : List ℤ}
    {dom' : List (List ℤ)}
    (hd : (s.domainList.getD s.path.length []).reverse = skipped ++ v :: rest)
    (hs : ∀ u ∈ skipped, Wipes n s.path.length u s.domainList)
    (hp : Pruned n s.path.length v (s.domainList.set s.path.length rest.reverse) dom')
    (hn : s.path.length + 1 < n) :
    Explored n {
      i := s.i + 1
      path := s.path ++ [v]
      domainList := dom'
      bookKeepingDomainList := BtFc.books s } := by
  have hopen := h.open_
  obtain ⟨-, -, hfresh⟩ := h.books_saved
  have hlast : (s.path ++ [v]).length = s.path.length + 1 := by simp
  have hself := hp.present (by rw [h.filtered.1]; exact hopen)
  have hnew : dom'.getD (s.path.length + 1) [] = fitting n (s.path ++ [v]) (s.path.length + 1) :=
    Pruned.next h.filtered hp hn
  have hfront : rest.reverse <+: s.domainList.getD s.path.length [] := by
    rw [← List.reverse_reverse (s.domainList.getD _ _), hd]
    simp
  have hnone : (BtFc.books s)[s.path.length + 1]? = some none := hfresh _ (Nat.lt_succ_self _) hn
  have hall : (s.path ++ [v]).take (s.path.length + 1) = s.path ++ [v] :=
    List.take_of_length_le (Nat.le_of_eq hlast)
  -- the levels below, the level that is left, and the new level
  have hcases : ∀ {j}, j ≤ (s.path ++ [v]).length →
      j < s.path.length ∨ j = s.path.length ∨ j = s.path.length + 1 := by
    intro j hj
    omega
  constructor
  case front =>
    intro j hj
    show dom'.getD j [] <+: fitting n ((s.path ++ [v]).take j) j
    rcases hcases hj with hlt | rfl | rfl
    · rw [hp.below hlt, take_append_of_le (Nat.le_of_lt hlt)]
      exact he.front j (Nat.le_of_lt hlt)
    · rw [hself, take_append_of_le le_rfl]
      exact hfront.trans (he.front _ le_rfl)
    · have hfull : dom'.getD (s.path.length + 1) [] =
          fitting n ((s.path ++ [v]).take (s.path.length + 1)) (s.path.length + 1) := by
        rw [hnew, hall]
      exact hfull ▸ List.prefix_refl _
  case tried =>
    intro j hj w hw hgone hpath
    have hw : w ∈ fitting n ((s.path ++ [v]).take j) j := hw
    have hgone : w ∉ dom'.getD j [] := hgone
    have hpath : (s.path ++ [v])[j]? ≠ some w := hpath
    show (pathTree n).first ((s.path ++ [v]).take j ++ [w]) = none
    rcases hcases hj with hlt | rfl | rfl
    · rw [take_append_of_le (Nat.le_of_lt hlt)] at hw ⊢
      rw [hp.below hlt] at hgone
      rw [List.getElem?_append_left hlt] at hpath
      exact he.tried j (Nat.le_of_lt hlt) w hw hgone hpath
    · rw [List.take_left] at hw ⊢
      rw [hself] at hgone
      refine he.first_eq_none_of_gone h hd hs hw hgone ?_
      rintro rfl
      simp at hpath
    · rw [hnew] at hgone
      rw [hall] at hw
      exact absurd hw hgone
  case saved =>
    intro j hj snap hsnap
    have hsnap : (BtFc.books s)[j]? = some (some snap) := hsnap
    show snap.getD j [] = fitting n ((s.path ++ [v]).take j) j
    rcases Nat.lt_or_eq_of_le hj with hlt | rfl
    · have hlt : j < s.path.length + 1 := hlast ▸ hlt
      rw [take_append_of_le (by omega)]
      exact he.books h (by omega) hsnap
    · have hsnap : (BtFc.books s)[(s.path ++ [v]).length]? = some (some snap) := hsnap
      rw [hlast, hnone] at hsnap
      cases hsnap
  case entered =>
    intro _
    show dom'.getD (s.path ++ [v]).length [] = fitting n (s.path ++ [v]) (s.path ++ [v]).length
    rw [hlast]
    exact hnew

/-- A level all of whose values wipe out a later domain leads nowhere. -/
theorem Explored.first_eq_none (h : Searching n s stack) (he : Explored n s)
    (hs : ∀ u ∈ s.domainList.getD s.path.length [], Wipes n s.path.length u s.domainList) :
    (pathTree n).first s.path = none := by
  have hgoal : (pathTree n).goal s.path = false := by
    have := h.open_
    simp [pathTree]
    omega
  rw [Tree.first_of_not_goal hgoal, List.findSome?_eq_none_iff]
  intro q hq
  obtain ⟨-, w, hw, hc, rfl⟩ := mem_extensions.mp hq
  by_cases hin : w ∈ s.domainList.getD s.path.length []
  · exact h.dead hin (hs w hin)
  · have hfit : w ∈ fitting n (s.path.take s.path.length) s.path.length := by
      rw [List.take_length]
      exact mem_fitting.mpr ⟨hw, (consistent_append.mp hc).2⟩
    have hnone := he.tried _ le_rfl w hfit hin (by simp)
    rwa [List.take_length] at hnone

/-- A level is abandoned. -/
theorem Explored.back (h : Searching n s stack) (he : Explored n s) (hpos : 0 < s.path.length)
    (hs : ∀ u ∈ s.domainList.getD s.path.length [], Wipes n s.path.length u s.domainList)
    {snap : List (List ℤ)} (hsnap : (BtFc.books s)[s.path.length - 1]? = some (some snap)) :
    Explored n (abandoned s snap) := by
  have hopen := h.open_
  have hdrop : s.path.dropLast.length + 1 = s.path.length := by
    rw [List.length_dropLast]
    omega
  have hdom : ∀ {j}, j < s.path.length →
      (abandoned s snap).domainList.getD j [] = s.domainList.getD j [] := by
    intro j hj
    rw [getD_abandoned h, if_pos hj]
  have hlevel : ∀ {j}, j ≤ (abandoned s snap).path.length → j < s.path.length := by
    intro j hj
    have hj : j ≤ s.path.dropLast.length := hj
    omega
  have htake : ∀ {j}, j < s.path.length → (abandoned s snap).path.take j = s.path.take j :=
    fun hj => take_dropLast hj
  constructor
  case front =>
    intro j hj
    have hj := hlevel hj
    rw [hdom hj, htake hj]
    exact he.front j (Nat.le_of_lt hj)
  case tried =>
    intro j hj w hw hgone hpath
    have hj := hlevel hj
    rw [htake hj] at hw ⊢
    rw [hdom hj] at hgone
    by_cases hw' : s.path[j]? = some w
    · -- the value that has just been abandoned
      have hlast : j = s.path.length - 1 := by
        by_contra hne
        apply hpath
        show s.path.dropLast[j]? = some w
        rw [List.getElem?_dropLast, if_pos (by omega), hw']
      have hsplit : s.path.take j ++ [w] = s.path := by
        obtain ⟨hlt, hget⟩ := List.getElem?_eq_some_iff.mp hw'
        rw [← hget, ← List.take_succ_eq_append_getElem hlt]
        exact List.take_of_length_le (by omega)
      rw [hsplit]
      exact he.first_eq_none h hs
    · exact he.tried j (Nat.le_of_lt hj) w hw hgone hw'
  case saved =>
    intro j hj snap' hsnap'
    have hj := hlevel hj
    have hsnap' : ((BtFc.books s).set s.path.length none)[j]? = some (some snap') := hsnap'
    rw [List.getElem?_set_ne (by omega)] at hsnap'
    rw [htake hj]
    exact he.books h (Nat.le_of_lt hj) hsnap'
  case entered =>
    intro hnone
    have hnone : ((BtFc.books s).set s.path.length none)[s.path.dropLast.length]? = some none := hnone
    rw [List.getElem?_set_ne (by omega), show s.path.dropLast.length = s.path.length - 1 by omega,
      hsnap] at hnone
    cases hnone

/-- The invariant of a round with `0 <= i < n`. -/
def Invariant (n : ℕ) (s : State) : Prop :=
  guard n s = true → ∃ stack, Searching n s stack ∧ Explored n s

theorem Invariant.round {s' : State} (h : Invariant n s) (hr : Round (guard n) body s s') :
    Invariant n s' := by
  obtain ⟨hg, hbody⟩ := hr
  obtain ⟨stack, hs, he⟩ := h hg
  obtain ⟨xs, stack, rfl⟩ : ∃ xs rest, stack = xs :: rest := ⟨_, _, hs.stack_eq⟩
  intro hg'
  rcases hs.select with ⟨skipped, v, rest, dom', hd, hskip, -, hp, hsel⟩ | ⟨hwipes, hsel⟩
  · have hs' : body s = _ := hs.body_eq
    rw [hsel, hbody] at hs'
    obtain rfl := Except.ok.inj hs'
    have hn : s.path.length + 1 < n := by
      have hlevel := hs.level
      simp [guard] at hg'
      omega
    have hmem : ∀ {u}, u ∈ skipped ++ v :: rest → u ∈ s.domainList.getD s.path.length [] := by
      intro u hu
      rw [← hd] at hu
      exact List.mem_reverse.mp hu
    obtain ⟨hv, hf⟩ := hs.left s.path.length le_rfl v (hmem (by simp))
    rw [List.take_length] at hf
    refine ⟨_, hs.next hv (consistent_append.mpr ⟨hs.consistent, hf⟩) ?_ hp hn,
      he.next hs hd hskip hp hn⟩
    intro w hw
    exact hmem (List.mem_append_right _ (List.mem_cons_of_mem _ (List.mem_reverse.mp hw)))
  · rcases Nat.eq_zero_or_pos s.path.length with hzero | hpos
    · -- below the lowest level the loop ends
      exfalso
      have hi : s'.i = s.i - 1 := by
        have hs' : body s = _ := hs.body_eq
        rw [hsel, hbody] at hs'
        rcases hget : pyGet (BtFc.books s) (s.i - 1) with e | - | snap
        · simp [hget, bind, Except.bind] at hs'
        · simp [hget, bind, Except.bind] at hs'
        · simp only [hget, ok_bind] at hs'
          obtain rfl := Except.ok.inj hs'
          rfl
      have hlevel := hs.level
      simp [guard, hi] at hg'
      omega
    · have hne : stack ≠ [] := by
        have hstack := hs.stack_eq
        rw [trail] at hstack
        obtain ⟨-, rfl⟩ := List.cons.inj hstack
        exact fun e => Nat.ne_of_gt hpos (trail_eq_nil.mp e)
      obtain ⟨snap, hsnap, ⟨-, hbody'⟩, hback⟩ := hs.back hne hsel
      rw [hbody] at hbody'
      obtain rfl := Except.ok.inj hbody'
      exact ⟨_, hback, he.back hs hpos hwipes hsnap⟩

theorem Invariant.run {s' : State} (h : Invariant n s) (hr : Iterates (guard n) body s s') :
    Invariant n s' := by
  induction hr with
  | refl => exact h
  | tail _ hround ih => exact ih.round hround

theorem Invariant.start (hn : 1 ≤ n) : Invariant n (start n) := fun _ =>
  ⟨_, Searching.start hn, Explored.start hn⟩

theorem getElem?_eq_some_getD {d : List (List ℤ)} {k : ℕ} (hk : k < d.length) :
    d[k]? = some (d.getD k []) := by
  rw [List.getD_eq_getElem?_getD, List.getElem?_eq_getElem hk, Option.getD_some]

theorem Filtered.getElem? {path : List ℤ} {dom : List (List ℤ)} (h : Filtered n path dom) {k : ℕ}
    (hk : path.length < k) (hkn : k < n) : dom[k]? = some (fitting n path k) := by
  rw [getElem?_eq_some_getD (by rw [h.1]; exact hkn), h.2 k hk hkn]
  rfl

/-- The domains and the snapshots at the head of a round. -/
structure Exact (n : ℕ) (s : State) : Prop where
  level : s.i = s.path.length
  consistent : consistent s.path = true
  domains : s.domainList.length = n
  later : ∀ k : ℕ, s.i < k → k < n → s.domainList[k]? = some (fitting n s.path k)
  present : ∃ d, s.domainList[s.i.toNat]? = some d ∧ d <+: fitting n s.path s.i.toNat ∧
    ∀ v ∈ fitting n s.path s.i.toNat, v ∉ d → ∀ q, IsPlacement n q → ¬s.path ++ [v] <+: q
  saved : ∀ j : ℕ, j < s.i → ∃ snap, s.bookKeepingDomainList[j]? = some (some snap) ∧
    snap.length = n ∧ ∀ k, j ≤ k → k < n → snap[k]? = some (fitting n (s.path.take j) k)
  fresh : ∀ j : ℕ, s.i < j → j < n → s.bookKeepingDomainList[j]? = some none
  /-- A dead end leaves the domains of the later levels as they were. -/
  unchanged : ∀ dom', selectValueFc s.domainList s.i.toNat = (none, dom') →
    ∀ k : ℕ, s.i < k → dom'[k]? = s.domainList[k]?

/-- A value of the present level that is no longer in its domain has no completion. -/
theorem Explored.no_completion (h : Searching n s stack) (he : Explored n s)
    (hv : v ∈ fitting n s.path s.path.length) (hgone : v ∉ s.domainList.getD s.path.length [])
    {q : List ℤ} (hq : IsPlacement n q) : ¬s.path ++ [v] <+: q := by
  have hfit := mem_fitting.mp hv
  have hnone := he.tried s.path.length le_rfl v (by rwa [List.take_length]) hgone (by simp)
  rw [List.take_length] at hnone
  refine (pathTree_none_iff ?_ ?_).mp hnone q hq
  · exact consistent_append.mpr ⟨h.consistent, hfit.2⟩
  · intro w hw
    rcases List.mem_append.mp hw with hw | hw
    · exact h.range w hw
    · obtain rfl := List.mem_singleton.mp hw
      exact hfit.1

theorem Explored.exact (h : Searching n s stack) (he : Explored n s) : Exact n s := by
  have hlevel := h.level
  have hopen := h.open_
  have hlen := h.filtered.1
  have hfront := he.front s.path.length le_rfl
  rw [List.take_length] at hfront
  refine ⟨h.level, h.consistent, hlen, ?_, ?_, ?_, ?_, ?_⟩
  · intro k hk hkn
    exact h.filtered.getElem? (by omega) hkn
  · rw [h.toNat]
    exact ⟨_, getElem?_eq_some_getD (by omega), hfront,
      fun v hv hgone q hq => he.no_completion h hv hgone hq⟩
  · intro j hj
    have hj : j < s.path.length := by omega
    obtain ⟨snap, hsnap, hfiltered⟩ := h.saved j hj
    refine ⟨snap, hsnap, hfiltered.1, ?_⟩
    intro k hjk hkn
    rcases Nat.lt_or_eq_of_le hjk with hlt | rfl
    · exact hfiltered.getElem? (by rw [List.length_take]; omega) hkn
    · rw [getElem?_eq_some_getD (by rw [hfiltered.1]; exact hkn),
        he.saved j (Nat.le_of_lt hj) snap hsnap]
  · intro j hj hjn
    exact h.fresh j (by omega) hjn
  · intro dom' hsel k hk
    rw [h.toNat] at hsel
    rcases h.select with ⟨skipped, v, rest, dom, -, -, -, -, hsel'⟩ | ⟨-, hsel'⟩
    · rw [hsel'] at hsel
      cases hsel
    · rw [hsel'] at hsel
      obtain rfl := (Prod.mk.inj hsel).2
      rw [List.getElem?_set_ne (by omega)]

end Explored

/-- **The domains of forward checking are exact** at the head of every round. -/
theorem btFc_exact (n : ℕ) (hn : 1 ≤ n) {s₀ s : State} (hinit : init n = .ok s₀)
    (hr : Iterates (guard n) body s₀ s) (hg : guard n s = true) : Exact n s := by
  rw [init_eq] at hinit
  obtain rfl := Except.ok.inj hinit
  obtain ⟨stack, hs, he⟩ := (Invariant.start hn).run hr hg
  exact he.exact hs

/-- Four queens, after the first has been placed. -/
theorem btFc_exact_four : Exact 4 {
    i := 1
    path := [4]
    domainList := [[1, 2, 3], [1, 2], [1, 3], [2, 3]]
    bookKeepingDomainList := [some (List.replicate 4 [1, 2, 3, 4]), none, none, none] } :=
  have hinit : init 4 = .ok (start 4) := rfl
  btFc_exact 4 (by decide) hinit (Relation.ReflTransGen.single ⟨rfl, rfl⟩) rfl

/-! ### Exhaustion -/

/-- `bt_fc` reports exhaustion: it ends without an exception, with the message iff
there is no placement, and a round that backs out of the lowest level ends it so. -/
structure Reports (n : ℕ) : Prop where
  returns : ∃ N out, (∀ fuel, N ≤ fuel → btFc fuel n = .ok (some out)) ∧
    (out = .inconsistent ↔ ¬∃ p, IsPlacement n p)
  backs_out : ∀ s₀ s, init n = .ok s₀ → Iterates (guard n) body s₀ s → guard n s = true →
    s.i = 0 → (selectValueFc s.domainList 0).1 = none →
    ∃ s', body s = .ok s' ∧ result s' = .inconsistent

section Reports

variable {n : ℕ}

/-- The lowest level is not abandoned if there is a placement. -/
theorem Explored.select_isSome {s : State} {stack : List (List (List ℤ))} (h : Searching n s stack)
    (he : Explored n s) (hi : s.i = 0) (hp : ∃ p, IsPlacement n p) :
    (selectValueFc s.domainList 0).1.isSome := by
  have hlen : s.path.length = 0 := by
    have := h.level
    omega
  rcases h.select with ⟨-, v, -, dom', -, -, -, -, hsel⟩ | ⟨hwipes, -⟩
  · rw [hlen] at hsel
    rw [hsel]
    rfl
  · exfalso
    obtain ⟨p, hp⟩ := hp
    have hnone := he.first_eq_none h hwipes
    rw [List.length_eq_zero_iff.mp hlen] at hnone
    simpa [hnone] using pathTree_complete hp

theorem reports_of_placement (hn : 1 ≤ n) (hp : ∃ p, IsPlacement n p) : Reports n := by
  refine ⟨?_, ?_⟩
  · obtain ⟨q, hq⟩ := hp
    obtain ⟨p, hp⟩ := Option.isSome_iff_exists.mp (pathTree_complete hq)
    obtain ⟨N, hN⟩ := btFc_eq hn hp
    exact ⟨N, _, hN, iff_of_false (by simp) (not_not.mpr ⟨q, hq⟩)⟩
  · intro s₀ s hinit hr hg hi hnone
    rw [init_eq] at hinit
    obtain rfl := Except.ok.inj hinit
    obtain ⟨stack, hs, he⟩ := (Invariant.start hn).run hr hg
    simpa [hnone] using he.select_isSome hs hi hp

theorem btFc_raises (hn : 1 ≤ n) (hp : ¬∃ p, IsPlacement n p) :
    ∃ N, ∀ fuel, N ≤ fuel → btFc fuel n = .error .typeError := by
  have htwo : 2 ≤ n := by
    by_contra hlt
    exact hp (exists_placement_iff.mpr (by omega))
  rcases btFc_first hn with ⟨p, hfirst, -⟩ | ⟨-, hraises⟩
  · exact absurd ⟨p, (pathTree_sound rfl (by simp) hfirst).2⟩ hp
  · exact hraises htwo

theorem not_reports (hn : 1 ≤ n) (hp : ¬∃ p, IsPlacement n p) : ¬Reports n := by
  intro h
  obtain ⟨N, out, hN, -⟩ := h.returns
  obtain ⟨M, hM⟩ := btFc_raises hn hp
  have hok := hN (N + M) (by omega)
  rw [hM (N + M) (by omega)] at hok
  cases hok

end Reports

/-- **When forward checking reports exhaustion.**  Whenever there is something to
report, the snapshot it resets from does not exist. -/
theorem btFc_reports_iff (n : ℕ) (hn : 1 ≤ n) : Reports n ↔ n ≠ 2 ∧ n ≠ 3 := by
  rw [← exists_placement_iff]
  constructor
  · intro h
    by_contra hp
    exact not_reports hn hp h
  · exact reports_of_placement hn

theorem btFc_reports_iff_four : Reports 4 ↔ 4 ≠ 2 ∧ 4 ≠ 3 := btFc_reports_iff 4 (by decide)

/-- Two queens. -/
theorem btFc_raises_two : btFc 1 2 = .error .typeError ∧ (¬∃ p, IsPlacement 2 p) ∧ ¬Reports 2 := by
  have hp : ¬∃ p, IsPlacement 2 p := by
    rw [exists_placement_iff]
    decide
  exact ⟨rfl, hp, not_reports (by decide) hp⟩

end BtFc

end ProjectArchive.Queens
