/-
ProjectArchive/Queens/BackTrackSearch.lean

Chronological backtracking, and the tree it searches.

The nodes of `pathTree n` are the consistent paths, the children of a path its
consistent extensions by one value, largest value first.  `trail` turns a path
and what is left of the domains of its levels into a stack of siblings of that
tree; it is shared with forward checking, which searches the same tree with
smaller domains.
-/
import ProjectArchive.Queens.Util
import ProjectArchive.Library.DepthFirst
import ProjectArchive.Library.Exec
import ProjectArchive.Library.Loop
import Mathlib.Data.Int.Order.Basic
import Mathlib.Data.List.Lex

namespace ProjectArchive.Queens

open DepthFirst Exec Loop

/-! ### The tree of consistent paths -/

/-- The consistent extensions of a path by the values of a domain, in the order
in which `pop` yields the values. -/
def siblings (p : List ℤ) (d : List ℤ) : List (List ℤ) :=
  (d.reverse.map fun v => p ++ [v]).filter fun q => consistent q

/-- The consistent extensions of a path. -/
def extensions (n : ℕ) (p : List ℤ) : List (List ℤ) :=
  if p.length < n then siblings p (values n) else []

theorem mem_siblings {p q d : List ℤ} :
    q ∈ siblings p d ↔ ∃ v ∈ d, consistent (p ++ [v]) = true ∧ q = p ++ [v] := by
  simp only [siblings, List.mem_filter, List.mem_map, List.mem_reverse]
  constructor
  · rintro ⟨⟨v, hv, rfl⟩, hc⟩
    exact ⟨v, hv, hc, rfl⟩
  · rintro ⟨v, hv, hc, rfl⟩
    exact ⟨⟨v, hv, rfl⟩, hc⟩

/-- The siblings around a value of the domain. -/
theorem siblings_split {p d skipped rest : List ℤ} {v : ℤ} (hd : d.reverse = skipped ++ v :: rest)
    (hv : consistent (p ++ [v]) = true) :
    siblings p d = (skipped.map fun v => p ++ [v]).filter (fun q => consistent q) ++
      (p ++ [v]) :: siblings p rest.reverse := by
  simp only [siblings, hd, List.map_append, List.map_cons, List.filter_append, List.filter_cons, hv,
    if_true, List.reverse_reverse]

/-- Values that do not fit have no siblings. -/
theorem siblings_filter (p d : List ℤ) :
    siblings p (d.filter fun v => fits p p.length v) = siblings p d := by
  rw [siblings, siblings, ← List.filter_reverse, List.filter_map, List.filter_map, List.filter_filter]
  congr 1
  apply List.filter_congr
  intro v _
  rw [Bool.eq_iff_iff, Bool.and_eq_true]
  simp only [Function.comp_apply, consistent_append]
  exact ⟨fun h => h.1, fun h => ⟨h, h.2⟩⟩

/-- The tree of consistent paths. -/
def pathTree (n : ℕ) : DepthFirst.Tree (List ℤ) where
  children := extensions n
  goal p := p.length = n
  height p := n - p.length
  height_lt := by
    intro p q hq
    unfold extensions at hq
    split at hq
    · obtain ⟨v, -, -, rfl⟩ := mem_siblings.mp hq
      simp only [List.length_append, List.length_singleton]
      omega
    · cases hq

section PathTree

variable {n : ℕ} {p q : List ℤ} {v : ℤ}

theorem pathTree_goal : (pathTree n).goal p = true ↔ p.length = n := by simp [pathTree]

theorem mem_extensions : q ∈ extensions n p ↔
    p.length < n ∧ ∃ v : ℤ, (1 ≤ v ∧ v ≤ n) ∧ consistent (p ++ [v]) = true ∧ q = p ++ [v] := by
  unfold extensions
  split
  · simp only [mem_siblings, mem_values]
    constructor
    · rintro ⟨v, hv, hc, rfl⟩
      exact ⟨‹_›, v, hv, hc, rfl⟩
    · rintro ⟨-, v, hv, hc, rfl⟩
      exact ⟨v, hv, hc, rfl⟩
  · simp [*]

/-- A goal at or below a path is a placement that starts with the path. -/
theorem pathTree_sound (hp : consistent p = true) (hr : ∀ v ∈ p, 1 ≤ v ∧ v ≤ n)
    (h : (pathTree n).first p = some q) : p <+: q ∧ IsPlacement n q := by
  obtain ⟨⟨hpre, hrange, hc⟩, hgoal⟩ := Tree.first_induction (T := pathTree n)
    (P := fun x => p <+: x ∧ (∀ v ∈ x, 1 ≤ v ∧ v ≤ n) ∧ consistent x = true)
    (by
      rintro x ⟨hpre, hrange, -⟩ y hy
      obtain ⟨-, v, hv, hc, rfl⟩ := mem_extensions.mp hy
      refine ⟨hpre.trans (List.prefix_append _ _), ?_, hc⟩
      intro w hw
      rcases List.mem_append.mp hw with hw | hw
      · exact hrange w hw
      · obtain rfl := List.mem_singleton.mp hw
        exact hv) ⟨List.prefix_refl p, hr, hp⟩ h
  exact ⟨hpre, pathTree_goal.mp hgoal, hrange, hc⟩

/-- A part of a consistent path is consistent. -/
theorem consistent_take (h : consistent q = true) (m : ℕ) : consistent (q.take m) = true := by
  rw [consistent_iff]
  intro i j hij hj
  have hlt : j < m ∧ j < q.length := by
    rw [List.length_take] at hj
    omega
  have hget : ∀ k, k < m → (q.take m).getD k 0 = q.getD k 0 := by
    intro k hk
    simp [List.getD_eq_getElem?_getD, hk]
  rw [hget i (by omega), hget j hlt.1]
  exact consistent_iff.mp h i j hij hlt.2

/-- A placement that starts with a path is a goal below the path. -/
theorem below_of_isPrefix (h : IsPlacement n q) (hp : p <+: q) : (pathTree n).Below p q := by
  -- from the whole placement backwards
  have hback : ∀ k, k ≤ n → (pathTree n).Below (q.take (n - k)) q := by
    intro k
    induction k with
    | zero =>
        intro _
        rw [Nat.sub_zero, List.take_of_length_le (Nat.le_of_eq h.length)]
        exact ⟨Relation.ReflTransGen.refl, pathTree_goal.mpr h.length⟩
    | succ k ih =>
        intro hk
        have hlt : n - (k + 1) < q.length := by
          rw [h.length]
          omega
        have htake : q.take (n - k) = q.take (n - (k + 1)) ++ [q[n - (k + 1)]] := by
          rw [← List.take_succ_eq_append_getElem hlt]
          congr 1
          omega
        refine ⟨Relation.ReflTransGen.head ?_ (ih (by omega)).1, pathTree_goal.mpr h.length⟩
        refine mem_extensions.mpr ⟨?_, q[n - (k + 1)], ?_, ?_, htake⟩
        · simp only [List.length_take, h.length]
          omega
        · exact h.range _ (List.getElem_mem hlt)
        · rw [← htake]
          exact consistent_take h.consistent (n - k)
  have hlen := hp.length_le
  rw [h.length] at hlen
  have hp' := hback (n - p.length) (by omega)
  rwa [Nat.sub_sub_self hlen, ← List.prefix_iff_eq_take.mp hp] at hp'

/-- Every placement is a goal, so the search of the tree finds one if there is one. -/
theorem pathTree_complete (h : IsPlacement n q) : ((pathTree n).first []).isSome :=
  Tree.first_isSome_of_below (below_of_isPrefix h List.nil_prefix)

theorem prefix_of_below (h : (pathTree n).Below p q) : p <+: q := by
  obtain ⟨hpath, -⟩ := h
  induction hpath with
  | refl => exact List.prefix_refl p
  | tail _ hstep ih =>
      obtain ⟨-, v, -, -, rfl⟩ := mem_extensions.mp hstep
      exact ih.trans (List.prefix_append _ _)

/-- A path leads nowhere iff no placement starts with it. -/
theorem pathTree_none_iff (hp : consistent p = true) (hr : ∀ v ∈ p, 1 ≤ v ∧ v ≤ n) :
    (pathTree n).first p = none ↔ ∀ q, IsPlacement n q → ¬p <+: q := by
  constructor
  · intro h q hq hpre
    exact Tree.first_eq_none_iff.mp h q (below_of_isPrefix hq hpre)
  · intro h
    rcases e : (pathTree n).first p with - | q
    · rfl
    · obtain ⟨hpre, hq⟩ := pathTree_sound hp hr e
      exact absurd hpre (h q hq)

/-- The values of a domain come in ascending order, so the last is popped first. -/
theorem values_reverse_pairwise (n : ℕ) : (values n).reverse.Pairwise fun v w => w < v := by
  rw [List.pairwise_reverse, values, List.pairwise_map]
  refine List.pairwise_lt_range.imp ?_
  intro a b hab
  omega

/-- Two paths that part at a value are in the order of the values. -/
theorem lt_of_parted {v w : ℤ} {g k : List ℤ} (hvw : w < v) (hg : p ++ [v] <+: g)
    (hk : p ++ [w] <+: k) : k < g := by
  obtain ⟨s, rfl⟩ := hg
  obtain ⟨t, rfl⟩ := hk
  rw [List.append_assoc, List.append_assoc]
  exact List.append_left_lt (List.Lex.rel hvw)

/-- **The first placement of the tree is the greatest.** -/
theorem pathTree_greatest (h : (pathTree n).first [] = some p) (hq : IsPlacement n q) :
    q ≤ p := by
  have hleaf : ∀ x, (pathTree n).goal x = true → (pathTree n).children x = [] := by
    intro x hx
    show extensions n x = []
    rw [extensions, if_neg (by simp [pathTree_goal.mp hx])]
  have horder : ∀ x, ((pathTree n).children x).Pairwise fun y z => ∀ g k, (pathTree n).Below y g →
      (pathTree n).Below z k → k < g := by
    intro x
    show (extensions n x).Pairwise _
    rw [extensions]
    split
    · refine List.Pairwise.filter _ (List.pairwise_map.mpr ?_)
      refine (values_reverse_pairwise n).imp ?_
      intro v w hwv g k hg hk
      exact lt_of_parted hwv (prefix_of_below hg) (prefix_of_below hk)
    · exact List.Pairwise.nil
  rcases Tree.first_before hleaf horder h (below_of_isPrefix hq List.nil_prefix) with rfl | hlt
  · exact le_rfl
  · exact le_of_lt hlt

/-- The first goal is the first goal below the root. -/
theorem pathTree_resume (hn : 1 ≤ n) :
    (pathTree n).resume [extensions n []] = (pathTree n).first [] := by
  have hgoal : (pathTree n).goal [] = false := by
    simp [pathTree]
    omega
  rw [Tree.first_of_not_goal hgoal, Tree.resume_cons]
  show ((extensions n []).findSome? (pathTree n).first).or none = _
  rw [Option.or_none]
  rfl

end PathTree

/-! ### Trails -/

/-- What is left to try at the `m` lowest levels of a path, highest level first. -/
def trail (path : List ℤ) (domain : List (List ℤ)) : ℕ → List (List (List ℤ))
  | 0 => []
  | m + 1 => siblings (path.take m) (domain.getD m []) :: trail path domain m

theorem trail_eq_nil {path : List ℤ} {domain : List (List ℤ)} {m : ℕ} :
    trail path domain m = [] ↔ m = 0 := by
  cases m <;> simp [trail]

/-- The lower levels do not see what happens above them. -/
theorem trail_congr {path path' : List ℤ} {domain domain' : List (List ℤ)} {m : ℕ}
    (hpath : ∀ j < m, path'.take j = path.take j)
    (hdomain : ∀ j < m, domain'.getD j [] = domain.getD j []) :
    trail path' domain' m = trail path domain m := by
  induction m with
  | zero => rfl
  | succ m ih =>
      have ih := ih (fun j hj => hpath j (by omega)) fun j hj => hdomain j (by omega)
      rw [trail, trail, ih, hpath m (Nat.lt_succ_self m), hdomain m (Nat.lt_succ_self m)]

theorem getD_set_self {d : List (List ℤ)} {i : ℕ} {x : List ℤ} (h : i < d.length) :
    (d.set i x).getD i [] = x := by
  simp [List.getD_eq_getElem?_getD, h]

theorem set_getD {d : List (List ℤ)} {i : ℕ} (h : i < d.length) : d.set i (d.getD i []) = d := by
  rw [List.getD_eq_getElem?_getD, List.getElem?_eq_getElem h]
  exact List.set_getElem_self h

theorem getD_set_ne {d : List (List ℤ)} {i j : ℕ} {x : List ℤ} (h : i ≠ j) :
    (d.set i x).getD j [] = d.getD j [] := by
  simp [List.getD_eq_getElem?_getD, List.getElem?_set_ne h]

theorem take_append_of_le {p : List ℤ} {v : ℤ} {j : ℕ} (h : j ≤ p.length) :
    (p ++ [v]).take j = p.take j := List.take_append_of_le_length h

theorem take_dropLast {p : List ℤ} {j : ℕ} (h : j < p.length) : p.dropLast.take j = p.take j := by
  rw [List.dropLast_eq_take, List.take_take]
  congr 1
  omega

/-! ### `back_track_search` -/

namespace BackTrack

/-- The loop of `select_value` over a domain, given with its end first. -/
def selectLoop (prevPath : List ℤ) : List ℤ → Option ℤ × List ℤ
  | [] => (none, [])
  | alphaAssignment :: domain =>
      if consistent (prevPath ++ [alphaAssignment]) then (some alphaAssignment, domain.reverse)
      else selectLoop prevPath domain

/-- `select_value`: the value, and what is left of the domain. -/
def selectValue (prevPath domain : List ℤ) : Option ℤ × List ℤ :=
  selectLoop prevPath domain.reverse

/-- The local variables of `back_track_search`. -/
structure State where
  i : ℕ
  path : List ℤ
  domainList : List (List ℤ)

/-- The state before the loop. -/
def init (queenCount : ℕ) : Except Fault State := do
  let nd ← (Graph.new queenCount).getNode 0
  return { i := 1, path := [], domainList := (List.replicate queenCount []).set 0 nd.getPossibleVal }

/-- `1 <= i and i <= queen_count`. -/
def guard (queenCount : ℕ) (s : State) : Bool := 1 ≤ s.i ∧ s.i ≤ queenCount

/-- The body of the loop. -/
def body (queenCount : ℕ) (s : State) : Except Fault State := do
  let d ← pyGet s.domainList ((s.i : ℤ) - 1)
  let (x, d) := selectValue s.path d
  let domainList := s.domainList.set (s.i - 1) d
  match x with
  | none => return { i := s.i - 1, path := s.path.dropLast, domainList := domainList }
  | some x =>
      if s.i + 1 ≤ queenCount then
        let nd ← (Graph.new queenCount).getNode s.i
        return {
          i := s.i + 1
          path := s.path ++ [x]
          domainList := domainList.set s.i nd.getPossibleVal }
      else
        return { i := s.i + 1, path := s.path ++ [x], domainList := domainList }

/-- What is returned after the loop. -/
def result (s : State) : Outcome (List ℤ) := if s.i = 0 then .inconsistent else .path s.path

/-- `back_track_search`, for at most `fuel` rounds of its loop. -/
def backTrackSearch (fuel queenCount : ℕ) : Except Fault (Option (Outcome (List ℤ))) := do
  let s ← init queenCount
  let s ← whileLoop (guard queenCount) (body queenCount) fuel s
  return s.map result

/-! ### The search -/

section Search

variable {n : ℕ} {p d : List ℤ}

/-- `select_value` skips the inconsistent values. -/
theorem selectLoop_spec (p stack : List ℤ) :
    (∃ skipped v rest, stack = skipped ++ v :: rest ∧
      (∀ u ∈ skipped, consistent (p ++ [u]) = false) ∧ consistent (p ++ [v]) = true ∧
      selectLoop p stack = (some v, rest.reverse)) ∨
    ((∀ u ∈ stack, consistent (p ++ [u]) = false) ∧ selectLoop p stack = (none, [])) := by
  induction stack with
  | nil => exact Or.inr ⟨by simp, rfl⟩
  | cons v stack ih =>
      cases e : consistent (p ++ [v]) with
      | true => exact Or.inl ⟨[], v, stack, rfl, by simp, e, by simp [selectLoop, e]⟩
      | false =>
          rcases ih with ⟨skipped, w, rest, rfl, hs, hw, hsel⟩ | ⟨hs, hsel⟩
          · refine Or.inl ⟨v :: skipped, w, rest, rfl, ?_, hw, by simp [selectLoop, e, hsel]⟩
            simpa [e] using hs
          · refine Or.inr ⟨?_, by simp [selectLoop, e, hsel]⟩
            simpa [e] using hs

/-- A value that is selected is the next sibling; the siblings have no others before it. -/
theorem selectValue_spec (p d : List ℤ) :
    (∃ v rest, selectValue p d = (some v, rest) ∧ consistent (p ++ [v]) = true ∧
      siblings p d = (p ++ [v]) :: siblings p rest) ∨
    (selectValue p d = (none, []) ∧ siblings p d = []) := by
  rcases selectLoop_spec p d.reverse with ⟨skipped, v, rest, hd, hs, hv, hsel⟩ | ⟨hs, hsel⟩
  · refine Or.inl ⟨v, rest.reverse, hsel, hv, ?_⟩
    have hskip : (skipped.map fun v => p ++ [v]).filter (fun q => consistent q) = [] := by
      rw [List.filter_eq_nil_iff]
      rintro q hq
      obtain ⟨u, hu, rfl⟩ := List.mem_map.mp hq
      simp [hs u hu]
    rw [siblings_split hd hv, hskip, List.nil_append]
  · refine Or.inr ⟨hsel, ?_⟩
    rw [siblings, List.filter_eq_nil_iff]
    rintro q hq
    obtain ⟨u, hu, rfl⟩ := List.mem_map.mp hq
    simp [hs u hu]

/-- The state `s` of the loop has the siblings on the stack still to try. -/
structure Searching (n : ℕ) (s : State) (stack : List (List (List ℤ))) : Prop where
  level : s.i = s.path.length + 1
  open_ : s.path.length < n
  length : s.domainList.length = n
  stack_eq : stack = trail s.path s.domainList (s.path.length + 1)

/-- The loop has ended with a path. -/
structure Ended (n : ℕ) (s : State) (p : List ℤ) : Prop where
  level : s.i = n + 1
  path : s.path = p

variable {s : State} {xs : List (List ℤ)} {stack : List (List (List ℤ))}

theorem Searching.guard (h : Searching n s stack) : guard n s = true := by
  have := h.open_
  simp [BackTrack.guard, h.level]
  omega

theorem Searching.pyGet (h : Searching n s stack) :
    pyGet s.domainList ((s.i : ℤ) - 1) = .ok (s.domainList.getD s.path.length []) := by
  have hlt : s.path.length < s.domainList.length := by
    rw [h.length]
    exact h.open_
  have hi : ((s.i : ℤ) - 1) = (s.path.length : ℕ) := by
    rw [h.level]
    push_cast
    omega
  rw [hi, pyGet_natCast hlt]
  simp [List.getD_eq_getElem?_getD, hlt]

/-- The next level is entered, with the first value that is consistent. -/
theorem Searching.enters (h : Searching n s (xs :: stack)) {v : ℤ} {rest : List ℤ}
    (hsel : selectValue s.path (s.domainList.getD s.path.length []) = (some v, rest))
    (hlast : s.i + 1 ≤ n) :
    ∃ s', Round (BackTrack.guard n) (body n) s s' ∧
      Searching n s' (extensions n (s.path ++ [v]) :: siblings s.path rest :: stack) := by
  have hlevel := h.level
  have hlen : s.path.length < s.domainList.length := by
    rw [h.length]
    exact h.open_
  have hi : s.i - 1 = s.path.length := by rw [h.level, Nat.add_sub_cancel]
  have hstack := h.stack_eq
  rw [trail] at hstack
  obtain ⟨-, rfl⟩ := List.cons.inj hstack
  have hnode : (Graph.new n).getNode s.i = .ok (Node.new n) := Graph.getNode_new (by omega)
  have hopen : s.path.length + 1 < n := by omega
  have hnew : (s.path ++ [v]).length = s.path.length + 1 := by simp
  refine ⟨{
    i := s.i + 1
    path := s.path ++ [v]
    domainList := (s.domainList.set s.path.length rest).set s.i (values n) }, ⟨h.guard, ?_⟩, ?_⟩
  · simp only [body, h.pyGet, ok_bind, hsel, hi, if_pos hlast, hnode]
    rfl
  constructor
  case level =>
    show s.i + 1 = (s.path ++ [v]).length + 1
    rw [hnew, hlevel]
  case open_ =>
    show (s.path ++ [v]).length < n
    rw [hnew]
    exact hopen
  case length => simp [h.length]
  case stack_eq =>
    show extensions n (s.path ++ [v]) :: _ = trail (s.path ++ [v])
      ((s.domainList.set s.path.length rest).set s.i (values n)) ((s.path ++ [v]).length + 1)
    rw [hnew, trail, trail, hlevel]
    congr 1
    · rw [extensions, if_pos (by rw [hnew]; exact hopen),
        getD_set_self (by simpa [h.length] using hopen)]
      congr 1
      exact (List.take_of_length_le (by simp)).symm
    · congr 1
      · rw [getD_set_ne (by omega), getD_set_self hlen, take_append_of_le le_rfl, List.take_length]
      · refine (trail_congr (fun j hj => take_append_of_le (by omega)) fun j hj => ?_).symm
        rw [getD_set_ne (by omega), getD_set_ne (by omega)]

/-- The last level gets a value. -/
theorem Searching.ends (h : Searching n s (xs :: stack)) {v : ℤ} {rest : List ℤ}
    (hsel : selectValue s.path (s.domainList.getD s.path.length []) = (some v, rest))
    (hlast : ¬ s.i + 1 ≤ n) :
    (pathTree n).goal (s.path ++ [v]) = true ∧
      ∃ s', Round (BackTrack.guard n) (body n) s s' ∧ Ended n s' (s.path ++ [v]) := by
  have hlevel := h.level
  have hopen := h.open_
  have hi : s.i - 1 = s.path.length := by rw [h.level, Nat.add_sub_cancel]
  have hgoal : (s.path ++ [v]).length = n := by
    rw [List.length_append, List.length_singleton]
    omega
  refine ⟨pathTree_goal.mpr hgoal, {
    i := s.i + 1
    path := s.path ++ [v]
    domainList := s.domainList.set s.path.length rest }, ⟨h.guard, ?_⟩, ?_, rfl⟩
  · simp only [body, h.pyGet, ok_bind, hsel, hi, if_neg hlast]
    rfl
  · show s.i + 1 = n + 1
    omega

/-- A level without a consistent value is left. -/
theorem Searching.back (h : Searching n s (xs :: stack))
    (hsel : selectValue s.path (s.domainList.getD s.path.length []) = (none, [])) :
    ∃ s', Round (BackTrack.guard n) (body n) s s' ∧ (stack ≠ [] → Searching n s' stack) ∧
      (stack = [] → s'.i = 0) := by
  have hi : s.i - 1 = s.path.length := by rw [h.level, Nat.add_sub_cancel]
  have hstack := h.stack_eq
  rw [trail] at hstack
  obtain ⟨-, rfl⟩ := List.cons.inj hstack
  refine ⟨{
    i := s.i - 1
    path := s.path.dropLast
    domainList := s.domainList.set s.path.length [] }, ⟨h.guard, ?_⟩, ?_, ?_⟩
  · simp only [body, h.pyGet, ok_bind, hsel, hi]
    rfl
  · intro hne
    have hpos : 0 < s.path.length := Nat.pos_of_ne_zero fun e => hne (trail_eq_nil.mpr e)
    have hlevel := h.level
    have hopen := h.open_
    have hdrop : s.path.dropLast.length + 1 = s.path.length := by
      rw [List.length_dropLast]
      omega
    refine ⟨?_, ?_, by simp [h.length], ?_⟩
    · show s.i - 1 = s.path.dropLast.length + 1
      omega
    · show s.path.dropLast.length < n
      omega
    · show _ = trail s.path.dropLast _ (s.path.dropLast.length + 1)
      rw [hdrop]
      refine (trail_congr (fun j hj => take_dropLast hj) fun j hj => ?_).symm
      rw [getD_set_ne (by omega)]
  · intro hempty
    show s.i - 1 = 0
    rw [hi]
    exact trail_eq_nil.mp hempty

/-- One round of the loop. -/
theorem Searching.round (h : Searching n s (xs :: stack)) :
    (∃ x rest s', xs = x :: rest ∧ Round (BackTrack.guard n) (body n) s s' ∧
      ((pathTree n).goal x = true → Ended n s' x) ∧
      ((pathTree n).goal x = false → Searching n s' (extensions n x :: rest :: stack))) ∨
    (xs = [] ∧ ∃ s', Round (BackTrack.guard n) (body n) s s' ∧
      (stack ≠ [] → Searching n s' stack) ∧ (stack = [] → s'.i = 0)) := by
  have hstack := h.stack_eq
  rw [trail, List.take_length] at hstack
  obtain ⟨hxs, -⟩ := List.cons.inj hstack
  rcases selectValue_spec s.path (s.domainList.getD s.path.length []) with
    ⟨v, rest, hsel, hv, hsib⟩ | ⟨hsel, hsib⟩
  · left
    by_cases hlast : s.i + 1 ≤ n
    · obtain ⟨s', hround, hs'⟩ := h.enters hsel hlast
      refine ⟨_, _, s', hxs.trans hsib, hround, ?_, fun _ => hs'⟩
      intro hgoal
      have hlen := pathTree_goal.mp hgoal
      have hopen := hs'.open_
      have hlevel := h.level
      rw [List.length_append, List.length_singleton] at hlen
      omega
    · obtain ⟨hgoal, s', hround, hs'⟩ := h.ends hsel hlast
      refine ⟨_, _, s', hxs.trans hsib, hround, fun _ => hs', ?_⟩
      intro hnot
      rw [hgoal] at hnot
      cases hnot
  · right
    exact ⟨hxs.trans hsib, h.back hsel⟩

theorem Searching.init (hn : 1 ≤ n) :
    ∃ s, init n = .ok s ∧ Searching n s [extensions n []] := by
  have hnode : (Graph.new n).getNode 0 = .ok (Node.new n) := Graph.getNode_new (i := 0) (by omega)
  refine ⟨{ i := 1, path := [], domainList := (List.replicate n []).set 0 (values n) }, ?_, ?_⟩
  · simp only [BackTrack.init, hnode, ok_bind]
    rfl
  · refine ⟨rfl, hn, by simp, ?_⟩
    have hlt : 0 < (List.replicate n ([] : List ℤ)).length := by
      rw [List.length_replicate]
      exact hn
    simp only [trail, List.length_nil, List.take_zero]
    rw [getD_set_self hlt, extensions, if_pos (show ([] : List ℤ).length < n from hn)]

/-- The last level has been closed. -/
def Exhausted (n : ℕ) (s : State) : Prop :=
  ∃ s', Round (guard n) (body n) s s' ∧ s'.i = 0

/-- **Backtracking returns the first placement of the tree**, if it has one. -/
theorem backTrackSearch_first (hn : 1 ≤ n) :
    ∃ N, ∀ fuel, N ≤ fuel → backTrackSearch fuel n =
      .ok (some (((pathTree n).first []).elim .inconsistent .path)) := by
  obtain ⟨s, hs, hinit⟩ := Searching.init hn
  have hresume := pathTree_resume hn
  have hsearch := Tree.search_or (T := pathTree n) (Round (guard n) (body n)) (Searching n) (Ended n)
    (Exhausted n)
    (by
      intro s xs stack h
      rcases h.round with ⟨x, rest, s', rfl, hr, hgoal, hopen⟩ | ⟨rfl, s', hr, hclose, hlast⟩
      · exact Or.inl ⟨[], x, rest, s', rfl, by simp [Tree.Dead], hr, hgoal, hopen⟩
      · exact Or.inr ⟨by simp [Tree.Dead], fun hne => ⟨s', hr, hclose hne⟩,
          fun hempty => ⟨s', hr, hlast hempty⟩⟩) hinit
  rw [hresume] at hsearch
  rcases hsearch with ⟨s', g, hr, hg, hend⟩ | ⟨hnone, s', hr, s'', hlast, hi⟩
  · have hguard : guard n s' = false := by simp [guard, hend.level]
    obtain ⟨N, hN⟩ := Iterates.returns hr hguard
    refine ⟨N, ?_⟩
    intro fuel hfuel
    simp only [backTrackSearch, hs, ok_bind, hN fuel hfuel, hg]
    simp [result, hend.level, hend.path, pure, Except.pure]
  · have hguard : guard n s'' = false := by simp [guard, hi]
    obtain ⟨N, hN⟩ := Iterates.returns (Relation.ReflTransGen.tail hr hlast) hguard
    refine ⟨N, ?_⟩
    intro fuel hfuel
    simp only [backTrackSearch, hs, ok_bind, hN fuel hfuel, hnone]
    simp [result, hi, pure, Except.pure]

/-- **Backtracking decides whether there is a placement**, and finds the
lexicographically greatest one. -/
theorem backTrackSearch_decides (hn : 1 ≤ n) :
    ∃ N out, (∀ fuel, N ≤ fuel → backTrackSearch fuel n = .ok (some out)) ∧
      ((∃ p, IsPlacement n p) →
        ∃ p, out = .path p ∧ IsPlacement n p ∧ ∀ q, IsPlacement n q → q ≤ p) ∧
      ((¬∃ p, IsPlacement n p) → out = .inconsistent) := by
  obtain ⟨N, hN⟩ := backTrackSearch_first hn
  refine ⟨N, _, hN, ?_, ?_⟩
  · rintro ⟨q, hq⟩
    obtain ⟨p, hp⟩ := Option.isSome_iff_exists.mp (pathTree_complete hq)
    obtain ⟨-, hplacement⟩ := pathTree_sound (by rfl) (by simp) hp
    rw [hp]
    exact ⟨p, rfl, hplacement, fun q hq => pathTree_greatest hp hq⟩
  · intro hno
    have hnone : (pathTree n).first [] = none :=
      (pathTree_none_iff (by rfl) (by simp)).mpr fun q hq _ => hno ⟨q, hq⟩
    rw [hnone]
    rfl

/-- Four queens can be placed. -/
theorem backTrackSearch_decides_four : ∃ N p,
    (∀ fuel, N ≤ fuel → backTrackSearch fuel 4 = .ok (some (.path p))) ∧ IsPlacement 4 p ∧
      ∀ q, IsPlacement 4 q → q ≤ p := by
  obtain ⟨N, out, hN, hpath, -⟩ := backTrackSearch_decides (n := 4) (by decide)
  obtain ⟨p, rfl, hp, hgreatest⟩ := hpath ⟨[2, 4, 1, 3], rfl, by decide, by decide⟩
  exact ⟨N, p, hN, hp, hgreatest⟩

end Search

end BackTrack

end ProjectArchive.Queens
