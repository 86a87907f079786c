/-
ProjectArchive/Queens/Dvo.lean

Dynamic variable ordering: forward checking on a board that is sorted by
domain size after every assignment.

The levels of the search are positions of the board, the books and the path
are indexed by queen number.  `select_value_fc` first drains the domain of a
queen to rank its values, then tries the one it has put back.  As the ranking
never lowers its bound, that is always the value popped last; and when forward
checking rejects it, the other values are not tried.  The search is therefore
depth-first search of a tree (`orderTree`) with fewer nodes than the tree of
consistent assignments: sound, but complete only where a solution lies in that
tree (`Survives`).
-/
import ProjectArchive.Queens.Util
import ProjectArchive.Library.DepthFirst
import ProjectArchive.Library.Exec
import ProjectArchive.Library.Loop
import Mathlib.Algebra.Order.BigOperators.Group.List
import Mathlib.Algebra.Order.Group.Nat
import Mathlib.Data.List.Pairwise
import Mathlib.Data.List.Sort

namespace ProjectArchive.Queens

open DepthFirst Exec Loop

namespace Dvo

/-! ### `select_value_fc` -/

/-- The loop of `select_value_fc` over the later queens: the queens walked and
those to come, the number of values removed, and the flag `domain_invalid`. -/
def prune (idx alphaAssignment : ℤ) (currDomain : List Queen) :
    List Queen → List Queen → ℕ → Bool → List Queen × ℕ × Bool
  | done, [], thisAlphaConstrained, domainInvalid => (done, thisAlphaConstrained, domainInvalid)
  | done, domainK :: domain, thisAlphaConstrained, _ =>
      let p := fun value => constraint idx domainK.idx alphaAssignment value
      let position := removeUnless p domainK.position
      let thisAlphaConstrained := thisAlphaConstrained + domainK.position.countP fun v => !p v
      if position.length = 0 then (currDomain, thisAlphaConstrained, true)
      else prune idx alphaAssignment currDomain (done ++ [{ domainK with position := position }])
        domain thisAlphaConstrained false

/-- The loop of `select_value_fc` over the domain of the queen, given with its
end first, once `best_value_selected` is set: the value, and the domains of the
queen and of the later ones. -/
def selectBest (idx : ℤ) (currDomain : List Queen) (viableAlphaValues : List ℤ) :
    List ℤ → List Queen → Bool → Option ℤ × List ℤ × List Queen
  | [], later, _ => (none, [], later)
  | alphaAssignment :: domain, later, domainInvalid =>
      let (later, _, domainInvalid) := prune idx alphaAssignment currDomain [] later 0 domainInvalid
      if domainInvalid then selectBest idx currDomain viableAlphaValues domain later domainInvalid
      else (some alphaAssignment, domain.reverse ++ viableAlphaValues, later)

/-- The loop of `select_value_fc` while `best_value_selected` is not set. -/
def selectRank (idx : ℤ) (currDomain : List Queen) (minAlphaConstrained : ℕ) :
    List ℤ → List Queen → Bool → ℤ → List ℤ → Except Fault (Option ℤ × List ℤ × List Queen)
  | [], later, _, _, _ => .ok (none, [], later)
  | alphaAssignment :: domain, later, domainInvalid, minAlphaValue, viableAlphaValues =>
      let (_, thisAlphaConstrained, domainInvalid) :=
        prune idx alphaAssignment currDomain [] later 0 domainInvalid
      let minAlphaValue :=
        if thisAlphaConstrained ≤ minAlphaConstrained then alphaAssignment else minAlphaValue
      let viableAlphaValues := viableAlphaValues ++ [alphaAssignment]
      if domain = [] then
        if minAlphaValue ∈ viableAlphaValues then
          .ok (selectBest idx currDomain (viableAlphaValues.erase minAlphaValue) [minAlphaValue]
            currDomain domainInvalid)
        else .error .valueError
      else
        selectRank idx currDomain minAlphaConstrained domain currDomain domainInvalid minAlphaValue
          viableAlphaValues

/-- `select_value_fc`: the value, and the board it leaves behind. -/
def selectValueFc (domain : List Queen) (i : ℕ) : Except Fault (Option ℤ × List Queen) := do
  let primaryQueen ← pyGet domain i
  let currDomain := domain.drop (i + 1)
  let (x, position, later) ← selectRank primaryQueen.idx currDomain (domain.length ^ 2)
    primaryQueen.position.reverse currDomain false (-1) []
  return (x, domain.take i ++ { primaryQueen.setVal with position := position } :: later)

/-! ### `dvo` -/

/-- `sorted(l, key = lambda x: x.getDomainSize(), reverse = reversed)`, which keeps
the order of queens with domains of one size in either direction. -/
def sortedBySize (reversed : Bool) (l : List Queen) : List Queen :=
  l.insertionSort fun a b =>
    if reversed then b.getDomainSize ≤ a.getDomainSize else a.getDomainSize ≤ b.getDomainSize

/-- `rearrange`. -/
def rearrange (variableList : List Queen) (i : ℕ) (reversed : Bool) : List Queen :=
  variableList.take (i + 1) ++ sortedBySize reversed (variableList.drop (i + 1))

/-- The local variables of `dvo`. -/
structure State where
  i : ℤ
  path : List (Option ℤ)
  chessBoard : List Queen
  bookKeepingDomainList : List (Option (List Queen))

/-- The queens before the loop. -/
def board (queenCount : ℕ) : List Queen :=
  (List.range' 1 queenCount).map fun count : ℕ => Queen.new count queenCount

/-- The state before the loop. -/
def init (queenCount : ℕ) : State where
  i := 0
  path := List.replicate queenCount none
  chessBoard := board queenCount
  bookKeepingDomainList := List.replicate queenCount none

/-- `0 <= i and i < queen_count`. -/
def guard (queenCount : ℕ) (s : State) : Bool := 0 ≤ s.i ∧ s.i < queenCount

/-- The books, after the board has been saved for the queen of the level. -/
def save (s : State) (queen : Queen) : Except Fault (List (Option (List Queen))) := do
  let saved ← pyGet s.bookKeepingDomainList (queen.idx - 1)
  if saved = none then pySet s.bookKeepingDomainList (queen.idx - 1) (some s.chessBoard)
  else .ok s.bookKeepingDomainList

/-- The branch of the loop for a dead end. -/
def deadEnd (s : State) (book : List (Option (List Queen))) (chessBoard : List Queen) :
    Except Fault State := do
  let removed ← pyGet chessBoard s.i
  let below ← pyGet chessBoard (s.i - 1)
  match ← pyGet book (below.idx - 1) with
  -- the board becomes `None`, which the path is then indexed through
  | none => throw .typeError
  | some chessBoard =>
      let book ←
        (if removed.idx - 1 < book.length then pySet book (removed.idx - 1) none else .ok book)
      let queen ← pyGet chessBoard s.i
      let path ← (if s.path.length ≠ 0 then pySet s.path (queen.idx - 1) none else .ok s.path)
      return {
        i := s.i - 1
        path := path
        chessBoard := chessBoard
        bookKeepingDomainList := book }

/-- The branch of the loop for a value that has been selected. -/
def assign (queenCount : ℕ) (least : Bool) (s : State) (book : List (Option (List Queen)))
    (chessBoard : List Queen) (x : ℤ) : Except Fault State := do
  let queen ← pyGet chessBoard s.i
  match ← pyGet book (queen.idx - 1) with
  | none => throw .typeError
  | some snapshot =>
      let snapshot ← pySet snapshot s.i queen
      let book ← pySet book (queen.idx - 1) (some snapshot)
      let path ← pySet s.path (queen.idx - 1) (some x)
      return {
        i := s.i + 1
        path := path
        chessBoard :=
          if s.i < (queenCount : ℤ) - 1 then rearrange chessBoard s.i.toNat least else chessBoard
        bookKeepingDomainList := book }

/-- The body of the loop. -/
def body (queenCount : ℕ) (least : Bool) (s : State) : Except Fault State := do
  let queen ← pyGet s.chessBoard s.i
  let book ← save s queen
  let (x, chessBoard) ← selectValueFc s.chessBoard s.i.toNat
  match x with
  | none => deadEnd s book chessBoard
  | some x => assign queenCount least s book chessBoard x

/-- What is returned after the loop. -/
def result (s : State) : Outcome (List (Option ℤ)) :=
  if s.i = 0 then .inconsistent else .path s.path

/-- `dvo`, for at most `fuel` rounds of its loop. -/
def dvo (fuel queenCount : ℕ) (least : Bool) :
    Except Fault (Option (Outcome (List (Option ℤ)))) := do
  let s ← whileLoop (guard queenCount) (body queenCount least) fuel (init queenCount)
  return s.map result

/-! ### Pruning -/

section Select

variable {idx v : ℤ} {later done curr : List Queen} {invalid : Bool}

/-- The later queens when the queen `idx` takes the value `v`. -/
def pruned (idx v : ℤ) (later : List Queen) : List Queen :=
  later.map fun q => { q with position := q.position.filter fun w => constraint idx q.idx v w }

/-- Forward checking accepts the value `v` of the queen `idx`. -/
def passes (idx v : ℤ) (later : List Queen) : Bool :=
  (pruned idx v later).all fun q => !q.position.isEmpty

/-- The number of values the later queens have left. -/
def load (later : List Queen) : ℕ := (later.map fun q => q.position.length).sum

/-- What the loop over the later queens does. -/
theorem prune_spec (idx v : ℤ) (curr done later : List Queen) (c : ℕ) (invalid : Bool)
    (h : later = [] → invalid = false) :
    ∃ c', c' ≤ c + load later ∧ prune idx v curr done later c invalid =
      if passes idx v later then (done ++ pruned idx v later, c', false) else (curr, c', true) := by
  induction later generalizing done c invalid with
  | nil => exact ⟨c, by simp [load], by simp [prune, passes, pruned, h rfl]⟩
  | cons k later ih =>
      have hcount := List.countP_le_length (l := k.position)
        (p := fun w => !constraint idx k.idx v w)
      by_cases hk : k.position.filter (fun w => constraint idx k.idx v w) = []
      · -- the domain of this queen gets empty
        refine ⟨c + k.position.countP fun w => !constraint idx k.idx v w, ?_, ?_⟩
        · simp only [load, List.map_cons, List.sum_cons]
          omega
        · simp [prune, removeUnless_eq_filter, passes, pruned, hk]
      · -- it keeps some, and the loop goes on
        obtain ⟨c', hc', he⟩ := ih
          (done ++ [{ k with position := k.position.filter fun w => constraint idx k.idx v w }])
          (c + k.position.countP fun w => !constraint idx k.idx v w) false (fun _ => rfl)
        refine ⟨c', ?_, ?_⟩
        · simp only [load, List.map_cons, List.sum_cons] at hc' ⊢
          omega
        · have hlen : ¬ (k.position.filter fun w => constraint idx k.idx v w).length = 0 := by
            rwa [List.length_eq_zero_iff]
          have hpass : passes idx v (k :: later) = passes idx v later := by
            simp [passes, pruned, hk]
          rw [prune]
          simp only [removeUnless_eq_filter, if_neg hlen, he, hpass]
          simp [pruned]

/-! ### Selecting a value -/

/-- The second part of the loop has one value to try. -/
theorem selectBest_spec (curr : List Queen) (viable : List ℤ)
    (h : curr = [] → invalid = false) : selectBest idx curr viable [v] curr invalid =
      if passes idx v curr then (some v, viable, pruned idx v curr) else (none, [], curr) := by
  obtain ⟨c', -, he⟩ := prune_spec idx v curr [] curr 0 invalid h
  cases e : passes idx v curr with
  | true => simp [selectBest, he, e]
  | false => simp [selectBest, he, e]

/-- The first part of the loop puts back the value popped last, whatever the ranking. -/
theorem selectRank_spec (idx : ℤ) {bound : ℕ} (hload : load curr ≤ bound) (xs viable : List ℤ)
    (m : ℤ) (invalid : Bool) (hv : v ∉ viable ++ xs) (h : curr = [] → invalid = false) :
    selectRank idx curr bound (xs ++ [v]) curr invalid m viable =
      .ok (if passes idx v curr then (some v, viable ++ xs, pruned idx v curr)
        else (none, [], curr)) := by
  induction xs generalizing viable m invalid with
  | nil =>
      -- the value popped last is within the bound, and is put back
      obtain ⟨c', hc', he⟩ := prune_spec idx v curr [] curr 0 invalid h
      have hle : c' ≤ bound := by omega
      have hmem : v ∉ viable := by simpa using hv
      have herase : (viable ++ [v]).erase v = viable := by
        rw [List.erase_append_right _ hmem]
        simp
      cases e : passes idx v curr with
      | true => simp [selectRank, he, e, hle, herase, selectBest_spec curr viable]
      | false =>
          have hne : curr = [] → (true : Bool) = false := by
            rintro rfl
            cases e
          simp [selectRank, he, e, hle, herase, selectBest_spec curr viable hne]
  | cons u xs ih =>
      -- the domains are as before, and another value is popped
      obtain ⟨c', hc', he⟩ := prune_spec idx u curr [] curr 0 invalid h
      have hle : c' ≤ bound := by omega
      have hne : curr = [] → (!passes idx u curr) = false := by
        rintro rfl
        rfl
      have ih := ih (viable ++ [u]) u _ (by simpa using hv) hne
      rw [List.append_assoc, List.singleton_append] at ih
      rw [← ih]
      cases e : passes idx u curr with
      | true => simp [selectRank, he, e, hle]
      | false => simp [selectRank, he, e, hle]

/-- What is left of a board when its queen at some level has taken or lost its values. -/
def onBoard (before : List Queen) (q : Queen) (position : List ℤ) (later : List Queen) :
    List Queen :=
  before ++ { q.setVal with position := position } :: later

theorem selectValueFc_nil {before : List Queen} {q : Queen} (h : q.position = []) :
    selectValueFc (before ++ q :: later) before.length = .ok (none, onBoard before q [] later) := by
  have hlt : before.length < (before ++ q :: later).length := by simp
  rw [selectValueFc, pyGet_natCast hlt]
  simp [h, selectRank, onBoard]

theorem selectValueFc_cons {before : List Queen} {q : Queen} {tail : List ℤ}
    (h : q.position = v :: tail) (hnodup : q.position.Nodup)
    (hload : load later ≤ (before ++ q :: later).length ^ 2) :
    selectValueFc (before ++ q :: later) before.length =
      .ok (if passes q.idx v later then
          (some v, onBoard before q tail.reverse (pruned q.idx v later))
        else (none, onBoard before q [] later)) := by
  have hlt : before.length < (before ++ q :: later).length := by simp
  have hv : v ∉ [] ++ tail.reverse := by
    rw [h] at hnodup
    simpa using (List.nodup_cons.mp hnodup).1
  rw [selectValueFc, pyGet_natCast hlt]
  have hrank := selectRank_spec q.idx hload tail.reverse [] (-1) false hv fun _ => rfl
  have hdrop : (before ++ q :: later).drop (before.length + 1) = later := by simp
  have hget : (before ++ q :: later)[before.length] = q := by simp
  simp only [ok_bind, hdrop, hget, h, List.reverse_cons, hrank, List.take_left, List.nil_append]
  cases passes q.idx v later <;> rfl

end Select

/-! ### The tree of the search -/

/-- The order in which the values of a domain are tried: the first one, and then
the others, which the ranking has reversed. -/
def order : List ℤ → List ℤ
  | [] => []
  | v :: tail => v :: order tail.reverse
termination_by d => d.length
decreasing_by simp

theorem order_nil : order [] = [] := by rw [order]

theorem order_cons (v : ℤ) (tail : List ℤ) : order (v :: tail) = v :: order tail.reverse := by
  rw [order]

/-- A node of the tree: the queens placed with their values, latest first, and
the queens to come in the order of the board. -/
structure Assignment where
  placed : List (ℤ × ℤ)
  rest : List Queen

/-- The next queen takes the value `v`. -/
def child (least : Bool) (placed : List (ℤ × ℤ)) (q : Queen) (rest : List Queen) (v : ℤ) :
    Assignment :=
  ⟨(q.idx, v) :: placed, sortedBySize least (pruned q.idx v rest)⟩

/-- What is tried of a domain: the values up to the first one that forward
checking rejects. -/
def siblings (least : Bool) (placed : List (ℤ × ℤ)) (q : Queen) (rest : List Queen) :
    List Assignment :=
  ((order q.position).takeWhile fun v => passes q.idx v rest).map (child least placed q rest)

/-- The nodes below a node. -/
def children (least : Bool) (a : Assignment) : List Assignment :=
  match a.rest with
  | [] => []
  | q :: rest => siblings least a.placed q rest

theorem sortedBySize_perm (reversed : Bool) (l : List Queen) : (sortedBySize reversed l).Perm l :=
  List.perm_insertionSort ..

theorem length_sorted (least : Bool) (idx v : ℤ) (rest : List Queen) :
    (sortedBySize least (pruned idx v rest)).length = rest.length := by
  rw [(sortedBySize_perm ..).length_eq, pruned, List.length_map]

/-- The tree that `dvo` searches. -/
def orderTree (least : Bool) : DepthFirst.Tree Assignment where
  children := children least
  goal a := a.rest.isEmpty
  height a := a.rest.length
  height_lt := by
    rintro ⟨placed, rest⟩ y hy
    rcases rest with - | ⟨q, rest⟩
    · cases hy
    · obtain ⟨v, -, rfl⟩ := List.mem_map.mp hy
      show (sortedBySize least (pruned q.idx v rest)).length < rest.length + 1
      rw [length_sorted]
      exact Nat.lt_succ_self _

section Siblings

variable {least : Bool} {placed : List (ℤ × ℤ)} {q : Queen} {rest : List Queen} {v : ℤ}
  {tail : List ℤ}

/-- The first value is tried, and then the others. -/
theorem siblings_cons (h : q.position = v :: tail) (hv : passes q.idx v rest = true) :
    siblings least placed q rest = child least placed q rest v ::
      siblings least placed { q.setVal with position := tail.reverse } rest := by
  have htake : (v :: order tail.reverse).takeWhile (fun w => passes q.idx w rest) =
      v :: (order tail.reverse).takeWhile fun w => passes q.idx w rest :=
    List.takeWhile_cons_of_pos hv
  rw [siblings, h, order_cons, htake]
  rfl

/-- When the first value is rejected, no value is tried. -/
theorem siblings_eq_nil (h : ∀ v tail, q.position = v :: tail → passes q.idx v rest = false) :
    siblings least placed q rest = [] := by
  rcases e : q.position with - | ⟨v, tail⟩
  · simp [siblings, e, order_nil]
  · simp [siblings, e, order_cons, h v tail e]

end Siblings

/-! ### Consistent assignments -/

/-- The queens placed do not attack each other, nor the values left to the others. -/
structure Assignment.Valid (n : ℕ) (a : Assignment) : Prop where
  queens : (a.placed.map Prod.fst ++ a.rest.map Queen.idx).Perm (values n)
  nodup : ∀ q ∈ a.rest, q.position.Nodup
  range : ∀ q ∈ a.rest, ∀ v ∈ q.position, 1 ≤ v ∧ v ≤ n
  fits : ∀ q ∈ a.rest, ∀ v ∈ q.position, ∀ x ∈ a.placed, constraint x.1 q.idx x.2 v = true
  placedRange : ∀ x ∈ a.placed, 1 ≤ x.2 ∧ x.2 ≤ n
  placedFits : a.placed.Pairwise fun x y => constraint y.1 x.1 y.2 x.2 = true

theorem values_nodup (n : ℕ) : (values n).Nodup :=
  List.nodup_range.map fun x y h => by
    have h : (x : ℤ) + 1 = (y : ℤ) + 1 := h
    omega

section Valid

variable {n : ℕ} {least : Bool} {placed : List (ℤ × ℤ)} {q : Queen} {rest : List Queen} {v : ℤ}
  {a : Assignment}

theorem Assignment.Valid.numbers_nodup (h : a.Valid n) :
    (a.placed.map Prod.fst ++ a.rest.map Queen.idx).Nodup :=
  h.queens.nodup_iff.mpr (values_nodup n)

theorem Assignment.Valid.length (h : a.Valid n) : a.placed.length + a.rest.length = n := by
  have := h.queens.length_eq
  simpa [values] using this

/-- A value of the next queen keeps an assignment valid. -/
theorem Assignment.Valid.child (h : Assignment.Valid n ⟨placed, q :: rest⟩)
    (hv : v ∈ q.position) : (child least placed q rest v).Valid n := by
  have hperm := sortedBySize_perm least (pruned q.idx v rest)
  -- a queen to come was to come before, with more values
  have hmem : ∀ k ∈ sortedBySize least (pruned q.idx v rest), ∃ k' ∈ rest, k'.idx = k.idx ∧
      k.position = k'.position.filter fun w => constraint q.idx k'.idx v w := by
    intro k hk
    obtain ⟨k', hk', rfl⟩ := List.mem_map.mp (hperm.mem_iff.mp hk)
    exact ⟨k', hk', rfl, rfl⟩
  refine ⟨?_, ?_, ?_, ?_, ?_, ?_⟩
  · have hnumbers : ((sortedBySize least (pruned q.idx v rest)).map Queen.idx).Perm
        (rest.map Queen.idx) := by
      refine (hperm.map Queen.idx).trans (.of_eq ?_)
      simp [pruned]
    refine List.Perm.trans ?_ h.queens
    refine List.Perm.trans (.cons q.idx (.append_left _ hnumbers)) ?_
    exact List.perm_middle.symm
  · intro k hk
    obtain ⟨k', hk', -, e⟩ := hmem k hk
    rw [e]
    exact (h.nodup k' (List.mem_cons_of_mem _ hk')).filter _
  · intro k hk w hw
    obtain ⟨k', hk', -, e⟩ := hmem k hk
    rw [e] at hw
    exact h.range k' (List.mem_cons_of_mem _ hk') w (List.mem_filter.mp hw).1
  · intro k hk w hw x hx
    obtain ⟨k', hk', hidx, e⟩ := hmem k hk
    rw [e] at hw
    obtain ⟨hw, hfit⟩ := List.mem_filter.mp hw
    rw [← hidx]
    rcases List.mem_cons.mp hx with rfl | hx
    · exact hfit
    · exact h.fits k' (List.mem_cons_of_mem _ hk') w hw x hx
  · intro x hx
    rcases List.mem_cons.mp hx with rfl | hx
    · exact h.range q (List.mem_cons_self ..) v hv
    · exact h.placedRange x hx
  · refine List.pairwise_cons.mpr ⟨?_, h.placedFits⟩
    intro x hx
    exact h.fits q (List.mem_cons_self ..) v hv x hx

/-- What is left of the domain of the next queen is valid. -/
theorem Assignment.Valid.left {tail : List ℤ} (h : Assignment.Valid n ⟨placed, q :: rest⟩)
    (hq : q.position = v :: tail) :
    Assignment.Valid n ⟨placed, { q.setVal with position := tail.reverse } :: rest⟩ := by
  have hsub : ∀ w ∈ tail.reverse, w ∈ q.position := by
    intro w hw
    rw [hq]
    exact List.mem_cons_of_mem _ (List.mem_reverse.mp hw)
  refine ⟨h.queens, ?_, ?_, ?_, h.placedRange, h.placedFits⟩
  · intro k hk
    rcases List.mem_cons.mp hk with rfl | hk
    · have := h.nodup q (List.mem_cons_self ..)
      rw [hq] at this
      exact List.nodup_reverse.mpr (List.nodup_cons.mp this).2
    · exact h.nodup k (List.mem_cons_of_mem _ hk)
  · intro k hk w hw
    rcases List.mem_cons.mp hk with rfl | hk
    · exact h.range q (List.mem_cons_self ..) w (hsub w hw)
    · exact h.range k (List.mem_cons_of_mem _ hk) w hw
  · intro k hk w hw
    rcases List.mem_cons.mp hk with rfl | hk
    · exact h.fits q (List.mem_cons_self ..) w (hsub w hw)
    · exact h.fits k (List.mem_cons_of_mem _ hk) w hw

/-- The domains hold too few values for the ranking to choose. -/
theorem Assignment.Valid.load_le (h : Assignment.Valid n ⟨placed, q :: rest⟩) :
    load rest ≤ n ^ 2 := by
  have hlen := h.length
  have hsize : ∀ k ∈ rest, k.position.length ≤ n := by
    intro k hk
    have hsub : k.position ⊆ values n := fun w hw =>
      mem_values.mpr (h.range k (List.mem_cons_of_mem _ hk) w hw)
    have := (List.subperm_of_subset (h.nodup k (List.mem_cons_of_mem _ hk)) hsub).length_le
    simpa [values] using this
  have hsum : load rest ≤ rest.length * n := by
    have := List.sum_le_card_nsmul (rest.map fun q => q.position.length) n (by simpa using hsize)
    simpa [load] using this
  have hle : rest.length ≤ n := by
    simp only [List.length_cons] at hlen
    omega
  calc load rest ≤ rest.length * n := hsum
    _ ≤ n * n := Nat.mul_le_mul_right n hle
    _ = n ^ 2 := (Nat.pow_two n).symm

end Valid

/-! ### Slots of the books and of the path -/

/-- The index that `queen.getIdx() - 1` stands for. -/
def slot (k : ℤ) : ℕ := (k - 1).toNat

section Slots

variable {α : Type} {l : List α} {j k : ℤ} {a : α}

theorem slot_cast (h : 1 ≤ k) : (slot k : ℤ) = k - 1 := Int.toNat_of_nonneg (by omega)

theorem slot_lt (h : 1 ≤ k ∧ k ≤ l.length) : slot k < l.length := by
  have := slot_cast h.1
  omega

theorem slot_ne (hj : 1 ≤ j) (hk : 1 ≤ k) (h : j ≠ k) : slot j ≠ slot k := by
  have := slot_cast hj
  have := slot_cast hk
  omega

theorem pyGet_slot (hk : 1 ≤ k) (h : l[slot k]? = some a) : pyGet l (k - 1) = .ok a := by
  obtain ⟨hlt, rfl⟩ := List.getElem?_eq_some_iff.mp h
  rw [← slot_cast hk, pyGet_natCast hlt]

theorem pySet_slot (h : 1 ≤ k ∧ k ≤ l.length) (a : α) :
    pySet l (k - 1) a = .ok (l.set (slot k) a) := by
  rw [← slot_cast h.1, pySet_natCast (slot_lt h)]

theorem getElem?_set_slot (h : 1 ≤ k ∧ k ≤ l.length) : (l.set (slot k) a)[slot k]? = some a :=
  List.getElem?_set_self (slot_lt h)

theorem getElem?_set_slot_ne (hj : 1 ≤ j) (hk : 1 ≤ k) (h : j ≠ k) :
    (l.set (slot k) a)[slot j]? = l[slot j]? :=
  List.getElem?_set_ne (slot_ne hj hk h).symm

end Slots

/-! ### The invariant -/

/-- The board of a level: the queens placed, the queen of the level, and the later ones. -/
def OnLevel (placed : List (ℤ × ℤ)) (q : Queen) (rest b : List Queen) : Prop :=
  ∃ before, b = before ++ q :: rest ∧ before.map Queen.idx = (placed.map Prod.fst).reverse

/-- The lower levels have been saved: the siblings still to try of the latest
queen placed are those of the queen in its book. -/
inductive Trail (n : ℕ) (least : Bool) (book : List (Option (List Queen))) :
    List (ℤ × ℤ) → List (List Assignment) → Prop
  | nil : Trail n least book [] []
  | cons {placed stack q rest v b} (below : Trail n least book placed stack)
      (saved : book[slot q.idx]? = some (some b)) (level : OnLevel placed q rest b)
      (valid : Assignment.Valid n ⟨placed, q :: rest⟩) (later : rest ≠ []) :
      Trail n least book ((q.idx, v) :: placed) (siblings least placed q rest :: stack)

/-- The state of the loop at the level of the queen `q`, with the siblings
`below` still to try at the lower levels. -/
structure Searching (n : ℕ) (least : Bool) (s : State) (placed : List (ℤ × ℤ)) (q : Queen)
    (rest : List Queen) (below : List (List Assignment)) : Prop where
  level : s.i = placed.length
  board : OnLevel placed q rest s.chessBoard
  valid : Assignment.Valid n ⟨placed, q :: rest⟩
  books : s.bookKeepingDomainList.length = n
  trail : Trail n least s.bookKeepingDomainList placed below
  /-- The book of the level may be one of an earlier value. -/
  current : ∀ b, s.bookKeepingDomainList[slot q.idx]? = some (some b) →
    ∃ q', q'.idx = q.idx ∧ OnLevel placed q' rest b
  fresh : ∀ k ∈ rest, s.bookKeepingDomainList[slot k.idx]? = some none
  pathLength : s.path.length = n
  path : ∀ x ∈ placed, s.path[slot x.1]? = some (some x.2)
  last : rest = [] → q.position ≠ []

/-- The loop has ended with an assignment. -/
structure Ended (n : ℕ) (s : State) (a : Assignment) : Prop where
  level : s.i = n
  valid : a.Valid n
  complete : a.rest = []
  pathLength : s.path.length = n
  path : ∀ x ∈ a.placed, s.path[slot x.1]? = some (some x.2)

section Search

variable {n : ℕ} {least : Bool} {s : State} {placed : List (ℤ × ℤ)} {q : Queen}
  {rest b : List Queen} {below : List (List Assignment)} {v : ℤ} {tail : List ℤ}

theorem OnLevel.before_length {before : List Queen}
    (h : before.map Queen.idx = (placed.map Prod.fst).reverse) : before.length = placed.length := by
  have := congrArg List.length h
  simpa using this

theorem OnLevel.get (h : OnLevel placed q rest b) : pyGet b (placed.length : ℤ) = .ok q := by
  obtain ⟨before, rfl, hb⟩ := h
  have hlt : placed.length < (before ++ q :: rest).length := by
    simp [OnLevel.before_length hb]
  rw [pyGet_natCast hlt]
  simp [← OnLevel.before_length hb]

theorem OnLevel.set (h : OnLevel placed q rest b) (q' : Queen) :
    ∃ b', pySet b (placed.length : ℤ) q' = .ok b' ∧ OnLevel placed q' rest b' := by
  obtain ⟨before, rfl, hb⟩ := h
  have hlt : placed.length < (before ++ q :: rest).length := by
    simp [OnLevel.before_length hb]
  refine ⟨before ++ q' :: rest, ?_, before, rfl, hb⟩
  rw [pySet_natCast hlt, ← OnLevel.before_length hb]
  simp

/-- The next level of a board. -/
theorem OnLevel.next {r : Queen} (h : OnLevel placed q (r :: rest) b) (v : ℤ) :
    OnLevel ((q.idx, v) :: placed) r rest b := by
  obtain ⟨before, rfl, hb⟩ := h
  refine ⟨before ++ [q], by simp, ?_⟩
  rw [List.map_append, hb, List.map_cons, List.map_cons, List.reverse_cons]
  rfl

/-- The queen of the level below. -/
theorem OnLevel.get_below {x : ℤ × ℤ} (h : OnLevel (x :: placed) q rest b) :
    ∃ q', q'.idx = x.1 ∧ pyGet b (placed.length : ℤ) = .ok q' := by
  obtain ⟨before, rfl, hb⟩ := h
  have hlength := OnLevel.before_length hb
  have hlt : placed.length < before.length := by
    rw [hlength]
    exact Nat.lt_succ_self _
  refine ⟨before[placed.length], ?_, ?_⟩
  · have hget : (before.map Queen.idx)[placed.length]? = some x.1 := by
      rw [hb, List.map_cons, List.reverse_cons, List.getElem?_append_right (by simp)]
      simp
    rw [List.getElem?_map, List.getElem?_eq_getElem hlt] at hget
    exact Option.some.inj hget
  · rw [pyGet_natCast (by rw [List.length_append]; omega), List.getElem_append_left hlt]

/-- The lower levels do not see the books of other queens. -/
theorem Trail.congr {book book' : List (Option (List Queen))} (h : Trail n least book placed below)
    (hb : ∀ x ∈ placed, book'[slot x.1]? = book[slot x.1]?) : Trail n least book' placed below := by
  induction h with
  | nil => exact .nil
  | cons _ saved level valid later ih =>
      refine .cons (ih fun x hx => hb x (List.mem_cons_of_mem _ hx)) ?_ level valid later
      rw [hb _ (List.mem_cons_self ..)]
      exact saved

/-- The number of a queen. -/
theorem Assignment.Valid.number {a : Assignment} (h : a.Valid n) {k : ℤ}
    (hk : k ∈ a.placed.map Prod.fst ++ a.rest.map Queen.idx) : 1 ≤ k ∧ k ≤ n :=
  mem_values.mp (h.queens.mem_iff.mp hk)

theorem Searching.number (h : Searching n least s placed q rest below) : 1 ≤ q.idx ∧ q.idx ≤ n :=
  h.valid.number (by simp)

theorem Searching.number_placed (h : Searching n least s placed q rest below) {x : ℤ × ℤ}
    (hx : x ∈ placed) : (1 ≤ x.1 ∧ x.1 ≤ n) ∧ x.1 ≠ q.idx := by
  refine ⟨h.valid.number (List.mem_append_left _ (List.mem_map_of_mem hx)), ?_⟩
  have hnodup := h.valid.numbers_nodup
  intro e
  exact (List.disjoint_of_nodup_append hnodup) (List.mem_map_of_mem hx) (by simp [e])

theorem Searching.number_rest (h : Searching n least s placed q rest below) {k : Queen}
    (hk : k ∈ rest) : (1 ≤ k.idx ∧ k.idx ≤ n) ∧ k.idx ≠ q.idx := by
  have hmem : k.idx ∈ rest.map Queen.idx := List.mem_map_of_mem hk
  refine ⟨h.valid.number (by simp [hmem]), ?_⟩
  have hnodup := (List.nodup_append.mp h.valid.numbers_nodup).2.1
  intro e
  rw [List.map_cons, List.nodup_cons] at hnodup
  exact hnodup.1 (e ▸ hmem)

theorem Searching.open_ (h : Searching n least s placed q rest below) :
    placed.length + rest.length + 1 = n := by
  have := h.valid.length
  simp only [List.length_cons] at this
  omega

theorem Searching.guard (h : Searching n least s placed q rest below) :
    Dvo.guard n s = true := by
  have := h.open_
  simp only [Dvo.guard, decide_eq_true_eq, h.level]
  omega

/-- The books, once the level has been saved. -/
theorem Searching.save (h : Searching n least s placed q rest below) :
    ∃ book b, Dvo.save s q = .ok book ∧ book.length = n ∧ book[slot q.idx]? = some (some b) ∧
      (∃ q', q'.idx = q.idx ∧ OnLevel placed q' rest b) ∧
      ∀ k, 1 ≤ k → k ≠ q.idx → book[slot k]? = s.bookKeepingDomainList[slot k]? := by
  have hq := h.number
  rw [← h.books] at hq
  obtain ⟨saved, hslot⟩ : ∃ saved, s.bookKeepingDomainList[slot q.idx]? = some saved :=
    ⟨_, List.getElem?_eq_getElem (slot_lt hq)⟩
  rcases saved with - | b
  · refine ⟨s.bookKeepingDomainList.set (slot q.idx) (some s.chessBoard), s.chessBoard, ?_, ?_, ?_,
      ⟨q, rfl, h.board⟩, ?_⟩
    · rw [Dvo.save, pyGet_slot hq.1 hslot, ok_bind, if_pos rfl, pySet_slot hq]
    · rw [List.length_set, h.books]
    · exact getElem?_set_slot hq
    · intro k hk hne
      exact getElem?_set_slot_ne hk hq.1 hne
  · refine ⟨s.bookKeepingDomainList, b, ?_, h.books, hslot, h.current b hslot, fun _ _ _ => rfl⟩
    rw [Dvo.save, pyGet_slot hq.1 hslot, ok_bind, if_neg (by simp)]

/-- The board after its queen has taken or lost its values. -/
theorem OnLevel.onBoard {before : List Queen}
    (h : before.map Queen.idx = (placed.map Prod.fst).reverse) (d : List ℤ) (later : List Queen) :
    OnLevel placed { q.setVal with position := d } later (onBoard before q d later) :=
  ⟨before, rfl, h⟩

theorem rearrange_board {before : List Queen} (r : Bool) :
    rearrange (before ++ q :: rest) before.length r = before ++ q :: sortedBySize r rest := by
  have htake : (before ++ q :: rest).take (before.length + 1) = before ++ [q] := by
    simp [List.take_append]
  have hdrop : (before ++ q :: rest).drop (before.length + 1) = rest := by simp
  rw [rearrange, htake, hdrop, List.append_assoc]
  rfl

/-- The body of the loop, once the level has been saved. -/
theorem Searching.body_eq (h : Searching n least s placed q rest below)
    {book : List (Option (List Queen))} (hsave : Dvo.save s q = .ok book) :
    body n least s = (do
      let (x, chessBoard) ← selectValueFc s.chessBoard placed.length
      match x with
      | none => deadEnd s book chessBoard
      | some x => assign n least s book chessBoard x) := by
  have hq : pyGet s.chessBoard s.i = .ok q := by
    rw [h.level]
    exact h.board.get
  have hi : s.i.toNat = placed.length := by
    rw [h.level]
    rfl
  rw [body, hq, ok_bind, hsave, ok_bind, hi]

/-- The rank of a value cannot stay at its start. -/
theorem Searching.load_le (h : Searching n least s placed q rest below) {before : List Queen}
    (hbefore : before.map Queen.idx = (placed.map Prod.fst).reverse) :
    load rest ≤ (before ++ q :: rest).length ^ 2 := by
  have hlength := OnLevel.before_length hbefore
  have hopen := h.open_
  have hn : (before ++ q :: rest).length = n := by
    simp only [List.length_append, List.length_cons]
    omega
  rw [hn]
  exact h.valid.load_le

/-- The value popped last is selected, and the board is pruned. -/
theorem Searching.select_some (h : Searching n least s placed q rest below)
    (hq : q.position = v :: tail) (hv : passes q.idx v rest = true) :
    ∃ before, before.map Queen.idx = (placed.map Prod.fst).reverse ∧
      selectValueFc s.chessBoard placed.length =
        .ok (some v, onBoard before q tail.reverse (pruned q.idx v rest)) := by
  obtain ⟨before, hboard, hbefore⟩ := h.board
  refine ⟨before, hbefore, ?_⟩
  rw [hboard, ← OnLevel.before_length hbefore,
    selectValueFc_cons hq (h.valid.nodup q (List.mem_cons_self ..)) (h.load_le hbefore), if_pos hv]

/-- No value is selected. -/
theorem Searching.select_none (h : Searching n least s placed q rest below)
    (hdead : ∀ v tail, q.position = v :: tail → passes q.idx v rest = false) :
    ∃ before, before.map Queen.idx = (placed.map Prod.fst).reverse ∧
      selectValueFc s.chessBoard placed.length = .ok (none, onBoard before q [] rest) := by
  obtain ⟨before, hboard, hbefore⟩ := h.board
  refine ⟨before, hbefore, ?_⟩
  rw [hboard, ← OnLevel.before_length hbefore]
  rcases e : q.position with - | ⟨v, tail⟩
  · exact selectValueFc_nil e
  · rw [selectValueFc_cons e (h.valid.nodup q (List.mem_cons_self ..)) (h.load_le hbefore),
      if_neg (by simp [hdead v tail e])]

/-- The later queens are sorted, if there are any. -/
theorem Searching.rearrange_eq (h : Searching n least s placed q rest below) {before : List Queen}
    (hbefore : before.map Queen.idx = (placed.map Prod.fst).reverse) (v : ℤ) (tail : List ℤ) :
    (if s.i < (n : ℤ) - 1
      then rearrange (onBoard before q tail.reverse (pruned q.idx v rest)) placed.length least
      else onBoard before q tail.reverse (pruned q.idx v rest)) =
      onBoard before q tail.reverse (child least placed q rest v).rest := by
  have hopen := h.open_
  split
  · rw [onBoard, ← OnLevel.before_length hbefore, rearrange_board]
    rfl
  · -- nothing is left to sort
    have hnil : rest = [] := by
      apply List.eq_nil_of_length_eq_zero
      rename_i hlast
      rw [h.level] at hlast
      omega
    subst hnil
    rfl

/-- The value is written to the board of the level in its book, and to the path. -/
theorem Searching.assign_eq (h : Searching n least s placed q rest below) {before b' : List Queen}
    (hbefore : before.map Queen.idx = (placed.map Prod.fst).reverse)
    {book : List (Option (List Queen))} (hlen : book.length = n)
    (hb : book[slot q.idx]? = some (some b))
    (hset : pySet b (placed.length : ℤ) { q.setVal with position := tail.reverse } = .ok b') :
    assign n least s book (onBoard before q tail.reverse (pruned q.idx v rest)) v = .ok {
      i := s.i + 1
      path := s.path.set (slot q.idx) (some v)
      chessBoard := onBoard before q tail.reverse (child least placed q rest v).rest
      bookKeepingDomainList := book.set (slot q.idx) (some b') } := by
  have hbookslot : 1 ≤ q.idx ∧ q.idx ≤ book.length := hlen ▸ h.number
  have hpathslot : 1 ≤ q.idx ∧ q.idx ≤ s.path.length := h.pathLength ▸ h.number
  have hget := (OnLevel.onBoard hbefore (q := q) tail.reverse (pruned q.idx v rest)).get
  have hrearrange := h.rearrange_eq hbefore v tail
  rw [h.level] at hrearrange
  -- the lines of the branch, one by one
  rw [assign, h.level, hget, ok_bind]
  show (pyGet book (q.idx - 1) >>= _) = _
  rw [pyGet_slot h.number.1 hb, ok_bind]
  show (pySet b (placed.length : ℤ) _ >>= _) = _
  rw [hset, ok_bind]
  show (pySet book (q.idx - 1) _ >>= _) = _
  rw [pySet_slot hbookslot, ok_bind]
  show (pySet s.path (q.idx - 1) _ >>= _) = _
  rw [pySet_slot hpathslot, ok_bind, Int.toNat_natCast, hrearrange]
  rfl

theorem Searching.path_set (h : Searching n least s placed q rest below) :
    ∀ x ∈ (q.idx, v) :: placed, (s.path.set (slot q.idx) (some v))[slot x.1]? = some (some x.2) := by
  have hpathslot : 1 ≤ q.idx ∧ q.idx ≤ s.path.length := h.pathLength ▸ h.number
  intro x hx
  rcases List.mem_cons.mp hx with rfl | hx
  · exact getElem?_set_slot hpathslot
  · obtain ⟨hx', hne⟩ := h.number_placed hx
    rw [getElem?_set_slot_ne hx'.1 h.number.1 hne]
    exact h.path x hx

/-- The next level is entered. -/
theorem Searching.next (h : Searching n least s placed q rest below)
    (hq : q.position = v :: tail) (hv : passes q.idx v rest = true) {before b' rest' : List Queen}
    {q' : Queen} (hbefore : before.map Queen.idx = (placed.map Prod.fst).reverse)
    {book : List (Option (List Queen))} (hlen : book.length = n)
    (hother : ∀ k, 1 ≤ k → k ≠ q.idx → book[slot k]? = s.bookKeepingDomainList[slot k]?)
    (hlevel : OnLevel placed { q.setVal with position := tail.reverse } rest b')
    (hrest : (child least placed q rest v).rest = q' :: rest') :
    Searching n least {
        i := s.i + 1
        path := s.path.set (slot q.idx) (some v)
        chessBoard := onBoard before q tail.reverse (child least placed q rest v).rest
        bookKeepingDomainList := book.set (slot q.idx) (some b') }
      ((q.idx, v) :: placed) q' rest'
      (siblings least placed { q.setVal with position := tail.reverse } rest :: below) := by
  have hnumber := h.number
  have hbookslot : 1 ≤ q.idx ∧ q.idx ≤ book.length := by rwa [hlen]
  have hmem : ∀ k ∈ q' :: rest', ∃ k' ∈ rest, k'.idx = k.idx := by
    intro k hk
    rw [← hrest] at hk
    obtain ⟨k', hk', rfl⟩ := List.mem_map.mp ((sortedBySize_perm ..).mem_iff.mp hk)
    exact ⟨k', hk', rfl⟩
  have hfresh : ∀ k ∈ q' :: rest', (book.set (slot q.idx) (some b'))[slot k.idx]? = some none := by
    intro k hk
    obtain ⟨k', hk', e⟩ := hmem k hk
    obtain ⟨hk'', hne⟩ := h.number_rest hk'
    rw [← e, getElem?_set_slot_ne hk''.1 hnumber.1 hne, hother _ hk''.1 hne]
    exact h.fresh k' hk'
  have hne : rest ≠ [] := by
    rintro rfl
    cases hrest
  refine ⟨?_, ?_, ?_, by simp [hlen], ?_, ?_, ?_, by simp [h.pathLength], h.path_set, ?_⟩
  · show s.i + 1 = ((q.idx, v) :: placed).length
    rw [h.level, List.length_cons]
    rfl
  · have honlevel := OnLevel.onBoard hbefore (q := q) tail.reverse (child least placed q rest v).rest
    rw [hrest] at honlevel ⊢
    exact honlevel.next v
  · rw [← hrest]
    exact h.valid.child (by rw [hq]; exact List.mem_cons_self ..)
  · refine Trail.cons (q := { q.setVal with position := tail.reverse }) (Trail.congr h.trail ?_)
      (getElem?_set_slot hbookslot) hlevel (h.valid.left hq) hne
    intro x hx
    obtain ⟨hx', hne'⟩ := h.number_placed hx
    rw [getElem?_set_slot_ne hx'.1 hnumber.1 hne', hother _ hx'.1 hne']
  · intro b hb
    rw [hfresh q' (List.mem_cons_self ..)] at hb
    cases hb
  · exact fun k hk => hfresh k (List.mem_cons_of_mem _ hk)
  · intro _ hnil
    have hmem : q' ∈ pruned q.idx v rest := by
      rw [← (sortedBySize_perm least _).mem_iff]
      show q' ∈ (child least placed q rest v).rest
      rw [hrest]
      exact List.mem_cons_self ..
    have hpasses := List.all_eq_true.mp hv q' hmem
    simp [hnil] at hpasses

/-- A value is selected. -/
theorem Searching.pick (h : Searching n least s placed q rest below)
    (hq : q.position = v :: tail) (hv : passes q.idx v rest = true) :
    ∃ s', Round (Dvo.guard n) (body n least) s s' ∧
      ((child least placed q rest v).rest = [] → Ended n s' (child least placed q rest v)) ∧
      ∀ q' rest', (child least placed q rest v).rest = q' :: rest' →
        Searching n least s' (child least placed q rest v).placed q' rest'
          (siblings least placed { q.setVal with position := tail.reverse } rest :: below) := by
  obtain ⟨book, b, hsave, hlen, hb, ⟨q₀, -, hlevel⟩, hother⟩ := h.save
  obtain ⟨before, hbefore, hsel⟩ := h.select_some hq hv
  -- its queen replaces the one in the book of the level
  obtain ⟨b', hset, hlevel'⟩ := hlevel.set { q.setVal with position := tail.reverse }
  have hbody := h.body_eq hsave
  rw [hsel, ok_bind] at hbody
  refine ⟨_, ⟨h.guard, hbody.trans (h.assign_eq hbefore hlen hb hset)⟩, ?_, ?_⟩
  · intro hnil
    have hopen := h.open_
    have hzero : rest.length = 0 := by
      rw [← length_sorted least q.idx v rest]
      exact List.length_eq_zero_iff.mpr hnil
    refine ⟨?_, h.valid.child (by rw [hq]; exact List.mem_cons_self ..), hnil,
      by simp [h.pathLength], h.path_set⟩
    show s.i + 1 = n
    rw [h.level]
    omega
  · exact fun q' rest' hrest => h.next hq hv hbefore hlen hother hlevel' hrest

/-- The board of the level below is taken from its book. -/
theorem Searching.deadEnd_eq {stack : List (List Assignment)} {q' r : Queen} {rest' : List Queen}
    (h : Searching n least s ((q'.idx, v) :: placed) q rest stack) {before : List Queen}
    (hbefore : before.map Queen.idx = (((q'.idx, v) :: placed).map Prod.fst).reverse)
    {book : List (Option (List Queen))} (hlen : book.length = n)
    (hb : book[slot q'.idx]? = some (some b)) (hlevel : OnLevel placed q' (r :: rest') b)
    (hr : 1 ≤ r.idx ∧ r.idx ≤ n) :
    deadEnd s book (onBoard before q [] rest) = .ok {
      i := s.i - 1
      path := s.path.set (slot r.idx) none
      chessBoard := b
      bookKeepingDomainList := book.set (slot q.idx) none } := by
  have hbookslot : 1 ≤ q.idx ∧ q.idx ≤ book.length := hlen ▸ h.number
  have hpathslot : 1 ≤ r.idx ∧ r.idx ≤ s.path.length := h.pathLength ▸ hr
  have honlevel := OnLevel.onBoard hbefore (q := q) [] rest
  obtain ⟨q'', hidx, hget_below⟩ := honlevel.get_below
  have hi : ((placed.length + 1 : ℕ) : ℤ) - 1 = placed.length := by omega
  have hlt : q.idx - 1 < book.length := by omega
  have hpos : s.path.length ≠ 0 := by omega
  rw [deadEnd, show s.i = (placed.length + 1 : ℕ) from h.level]
  show (pyGet _ (((q'.idx, v) :: placed).length : ℤ) >>= _) = _
  rw [honlevel.get, ok_bind, hi, hget_below, ok_bind, hidx]
  show (pyGet book (q'.idx - 1) >>= _) = _
  rw [pyGet_slot (h.number_placed (List.mem_cons_self ..)).1.1 hb, ok_bind]
  show ((if q.idx - 1 < book.length then pySet book (q.idx - 1) none else .ok book) >>= _) = _
  rw [if_pos hlt, pySet_slot hbookslot, ok_bind]
  show (pyGet b (((q'.idx, v) :: placed).length : ℤ) >>= _) = _
  rw [(hlevel.next v).get, ok_bind, if_pos hpos, pySet_slot hpathslot, ok_bind]
  rfl

/-- A level is abandoned. -/
theorem Searching.back {stack : List (List Assignment)} {x : ℤ × ℤ}
    (h : Searching n least s (x :: placed) q rest stack)
    (hdead : ∀ v tail, q.position = v :: tail → passes q.idx v rest = false) :
    ∃ s' q' rest' below, stack = siblings least placed q' rest' :: below ∧
      Round (Dvo.guard n) (body n least) s s' ∧
      Searching n least s' placed q' rest' below := by
  obtain ⟨before, hbefore, hsel⟩ := h.select_none hdead
  obtain ⟨book, b₀, hsave, hlen, -, -, hother⟩ := h.save
  have hnumber := h.number
  have hbookslot : 1 ≤ q.idx ∧ q.idx ≤ book.length := by rwa [hlen]
  have hqueens := h.valid.queens
  have hplaced := fun {y} (hy : y ∈ x :: placed) => h.number_placed hy
  have hpath := h.path
  have hlevel : s.i = (placed.length + 1 : ℕ) := h.level
  rcases h.trail with - | ⟨htrail, saved, level, valid, later⟩
  rename_i below q' rest' v b
  obtain ⟨hx, hne⟩ := hplaced (List.mem_cons_self ..)
  -- the queens after the level below are those of the present level and after it
  have hlater : (rest'.map Queen.idx).Perm ((q :: rest).map Queen.idx) := by
    have hcons := List.perm_middle.symm.trans (valid.queens.trans hqueens.symm)
    exact (List.perm_append_left_iff _).mp hcons.cons_inv
  obtain ⟨r, rest'', rfl⟩ := List.exists_cons_of_ne_nil later
  have hr := valid.number (k := r.idx) (by simp)
  have hbook : book[slot q'.idx]? = some (some b) := by
    rw [hother _ hx.1 hne]
    exact saved
  have hbody := h.body_eq hsave
  rw [hsel, ok_bind] at hbody
  have hslots : ∀ k, 1 ≤ k → k ≠ q.idx →
      (book.set (slot q.idx) none)[slot k]? = s.bookKeepingDomainList[slot k]? := by
    intro k hk hne
    rw [getElem?_set_slot_ne hk hnumber.1 hne, hother k hk hne]
  refine ⟨_, q', r :: rest'', below, rfl,
    ⟨h.guard, hbody.trans (h.deadEnd_eq hbefore hlen hbook level hr)⟩, ?_⟩
  refine ⟨?_, level, valid, by simp [hlen], ?_, ?_, ?_, by simp [h.pathLength], ?_, ?_⟩
  · show s.i - 1 = placed.length
    rw [hlevel]
    omega
  · refine htrail.congr ?_
    intro y hy
    obtain ⟨hy', hne'⟩ := hplaced (List.mem_cons_of_mem _ hy)
    exact hslots y.1 hy'.1 hne'
  · intro b' hb'
    have hb' : (book.set (slot q.idx) none)[slot q'.idx]? = some (some b') := hb'
    rw [hslots _ hx.1 hne, saved] at hb'
    obtain rfl := Option.some.inj (Option.some.inj hb')
    exact ⟨q', rfl, level⟩
  · intro k hk
    show (book.set (slot q.idx) none)[slot k.idx]? = some none
    have hmem := hlater.mem_iff.mp (List.mem_map_of_mem hk)
    rcases List.mem_cons.mp hmem with e | hmem
    · rw [e]
      exact getElem?_set_slot hbookslot
    · obtain ⟨k', hk', e⟩ := List.mem_map.mp hmem
      obtain ⟨hk'', hne'⟩ := h.number_rest hk'
      rw [← e, hslots _ hk''.1 hne']
      exact h.fresh k' hk'
  · intro y hy
    show (s.path.set (slot r.idx) none)[slot y.1]? = some (some y.2)
    have hne' : y.1 ≠ r.idx := by
      intro e
      have hnodup := List.disjoint_of_nodup_append valid.numbers_nodup
      exact hnodup (List.mem_map_of_mem hy) (by simp [e])
    obtain ⟨hy', -⟩ := hplaced (List.mem_cons_of_mem _ hy)
    rw [getElem?_set_slot_ne hy'.1 hr.1 hne']
    exact hpath y (List.mem_cons_of_mem _ hy)
  · intro hnil
    cases hnil

/-- Nothing is left to try at the lowest level. -/
theorem Searching.stuck (h : Searching n least s [] q rest below)
    (hdead : ∀ v tail, q.position = v :: tail → passes q.idx v rest = false) :
    body n least s = .error .typeError := by
  obtain ⟨before, hbefore, hsel⟩ := h.select_none hdead
  obtain ⟨book, b₀, hsave, hlen, -, -, hother⟩ := h.save
  obtain rfl : before = [] := List.map_eq_nil_iff.mp hbefore
  have hlevel : s.i = 0 := h.level
  -- a queen without later ones accepts every value
  have hne : rest ≠ [] := by
    rintro rfl
    obtain ⟨v, tail, hq⟩ := List.exists_cons_of_ne_nil (h.last rfl)
    have := hdead v tail hq
    cases this
  have hlast := List.getLast_mem hne
  obtain ⟨hk, hne'⟩ := h.number_rest hlast
  have hget : pyGet (onBoard [] q [] rest) (s.i - 1) = .ok (rest.getLast hne) := by
    have hcons : onBoard [] q [] rest ≠ [] := by simp [onBoard]
    rw [hlevel, Int.zero_sub, pyGet_neg_one hcons]
    simp only [onBoard, List.nil_append]
    rw [List.getLast_cons hne]
  have hbook : book[slot (rest.getLast hne).idx]? = some none := by
    rw [hother _ hk.1 hne']
    exact h.fresh _ hlast
  have hremoved : pyGet (onBoard [] q [] rest) s.i = .ok { q.setVal with position := [] } := by
    rw [h.level]
    exact (OnLevel.onBoard hbefore (q := q) [] rest).get
  rw [h.body_eq hsave, hsel, ok_bind]
  show deadEnd s book _ = _
  rw [deadEnd, hremoved, ok_bind, hget, ok_bind, pyGet_slot hk.1 hbook]
  rfl

/-- What is left to try. -/
def Remaining (n : ℕ) (least : Bool) (s : State) (stack : List (List Assignment)) : Prop :=
  ∃ placed q rest below, stack = siblings least placed q rest :: below ∧
    Searching n least s placed q rest below

/-- The loop raises. -/
def Stuck (n : ℕ) (least : Bool) (s : State) : Prop :=
  Dvo.guard n s = true ∧ body n least s = .error .typeError

/-- One round of the loop, as a step of the search of the tree. -/
theorem Remaining.round {xs : List Assignment} {stack : List (List Assignment)}
    (h : Remaining n least s (xs :: stack)) :
    (∃ skipped x rest s', xs = skipped ++ x :: rest ∧ (orderTree least).Dead skipped ∧
      Round (Dvo.guard n) (body n least) s s' ∧
      ((orderTree least).goal x = true → Ended n s' x) ∧
      ((orderTree least).goal x = false →
        Remaining n least s' ((orderTree least).children x :: rest :: stack))) ∨
    ((orderTree least).Dead xs ∧
      (stack ≠ [] → ∃ s', Round (Dvo.guard n) (body n least) s s' ∧ Remaining n least s' stack) ∧
      (stack = [] → Stuck n least s)) := by
  obtain ⟨placed, q, rest, below, e, hs⟩ := h
  obtain ⟨rfl, rfl⟩ := List.cons.inj e
  by_cases hdead : ∀ v tail, q.position = v :: tail → passes q.idx v rest = false
  · right
    refine ⟨?_, ?_, ?_⟩
    · rw [siblings_eq_nil hdead]
      intro u hu
      cases hu
    · -- back to the level below, if there is one
      intro hne
      rcases placed with - | ⟨x, placed⟩
      · cases hs.trail
        exact absurd rfl hne
      · obtain ⟨s', q', rest', below', rfl, hr, hs'⟩ := hs.back hdead
        exact ⟨s', hr, placed, q', rest', below', rfl, hs'⟩
    · rintro rfl
      rcases placed with - | ⟨x, placed⟩
      · exact ⟨hs.guard, hs.stuck hdead⟩
      · cases hs.trail
  · left
    -- the first value is accepted, and its child is the next one in the tree
    simp only [not_forall] at hdead
    obtain ⟨v, tail, hq, hv⟩ := hdead
    rw [Bool.not_eq_false] at hv
    obtain ⟨s', hr, hgoal, hopen⟩ := hs.pick hq hv
    refine ⟨[], child least placed q rest v, _, s', siblings_cons hq hv, ?_, hr, ?_, ?_⟩
    · intro u hu
      cases hu
    · intro hg
      exact hgoal (List.isEmpty_iff.mp hg)
    · intro hg
      rcases e : (child least placed q rest v).rest with - | ⟨q', rest'⟩
      · have hg : (child least placed q rest v).rest.isEmpty = false := hg
        rw [e] at hg
        cases hg
      · refine ⟨_, q', rest', _, ?_, hopen q' rest' e⟩
        show children least (child least placed q rest v) :: _ = _
        rw [children, e]

/-- The state before the loop. -/
theorem board_valid (n : ℕ) : Assignment.Valid n ⟨[], board n⟩ := by
  have hmem : ∀ q ∈ board n, q.position = values n := by
    intro q hq
    obtain ⟨count, -, rfl⟩ := List.mem_map.mp hq
    rfl
  refine ⟨?_, ?_, ?_, ?_, ?_, .nil⟩
  · refine .of_eq ?_
    show (board n).map Queen.idx = values n
    rw [board, values, List.map_map, List.range'_eq_map_range, List.map_map]
    apply List.map_congr_left
    intro x _
    show ((1 + x : ℕ) : ℤ) = x + 1
    omega
  · intro q hq
    rw [hmem q hq]
    exact values_nodup n
  · intro q hq v hv
    rw [hmem q hq] at hv
    exact mem_values.mp hv
  · intro q _ v _ x hx
    cases hx
  · intro x hx
    cases hx

theorem board_succ (m : ℕ) : board (m + 1) = Queen.new 1 (m + 1) ::
    (List.range' 2 m).map fun count : ℕ => Queen.new count (m + 1) := by
  rw [board, List.range'_succ]
  rfl

/-- The search starts at the first queen. -/
theorem Searching.init (m : ℕ) (least : Bool) :
    Searching (m + 1) least (Dvo.init (m + 1)) [] (Queen.new 1 (m + 1))
      ((List.range' 2 m).map fun count : ℕ => Queen.new count (m + 1)) [] := by
  have hboard := board_succ m
  have hvalid := board_valid (m + 1)
  have hslot : ∀ k ∈ Dvo.board (m + 1), (Dvo.init (m + 1)).bookKeepingDomainList[slot k.idx]? =
      some none := by
    intro k hk
    have hnumber := hvalid.number (k := k.idx) (List.mem_map_of_mem hk)
    have hlt : slot k.idx < m + 1 := by
      have := slot_lt (l := List.replicate (m + 1) ()) (by simpa using hnumber)
      simpa using this
    show (List.replicate (m + 1) none)[slot k.idx]? = some none
    rw [List.getElem?_replicate, if_pos hlt]
  refine ⟨rfl, ⟨[], hboard, rfl⟩, hboard ▸ hvalid, ?_, .nil, ?_, ?_, ?_, ?_, ?_⟩
  · exact List.length_replicate ..
  · intro b hb
    rw [hslot _ (by rw [hboard]; exact List.mem_cons_self ..)] at hb
    cases hb
  · intro k hk
    exact hslot k (by rw [hboard]; exact List.mem_cons_of_mem _ hk)
  · exact List.length_replicate ..
  · intro x hx
    cases hx
  · intro _ hnil
    have : (values (m + 1)).length = 0 := List.length_eq_zero_iff.mpr hnil
    simp [values] at this

theorem Remaining.init (hn : 1 ≤ n) :
    Remaining n least (init n) [(orderTree least).children ⟨[], board n⟩] := by
  obtain ⟨m, rfl⟩ : ∃ m, n = m + 1 := ⟨n - 1, by omega⟩
  refine ⟨[], _, _, [], ?_, Searching.init m least⟩
  show [children least ⟨[], board (m + 1)⟩] = _
  rw [children, board_succ]

/-- **The loop finds the first goal of the tree, or raises.** -/
theorem loop_ends (n : ℕ) (least : Bool) (hn : 1 ≤ n) :
    (((orderTree least).first ⟨[], board n⟩).isSome ∧
      ∃ s a, Returns (Dvo.guard n) (body n least) (init n) s ∧ Ended n s a) ∨
    ((orderTree least).first ⟨[], board n⟩ = none ∧
      Raises (Dvo.guard n) (body n least) (init n) .typeError) := by
  have hgoal : (orderTree least).goal ⟨[], board n⟩ = false := by
    obtain ⟨m, rfl⟩ : ∃ m, n = m + 1 := ⟨n - 1, by omega⟩
    rfl
  have hresume : (orderTree least).resume [(orderTree least).children ⟨[], board n⟩] =
      (orderTree least).first ⟨[], board n⟩ := by
    rw [Tree.first_of_not_goal hgoal, Tree.resume_cons]
    exact Option.or_none
  have hsearch := (orderTree least).search_or (Round (Dvo.guard n) (body n least))
    (Remaining n least) (Ended n) (Stuck n least) (fun _ _ _ h => h.round) (Remaining.init hn)
  rw [hresume] at hsearch
  rcases hsearch with ⟨s, a, hr, hfirst, hend⟩ | ⟨hnone, s, hr, hguard, hbody⟩
  · left
    have hguard : Dvo.guard n s = false := by simp [Dvo.guard, hend.level]
    exact ⟨by rw [hfirst]; rfl, s, a, Iterates.returns hr hguard, hend⟩
  · exact Or.inr ⟨hnone, Iterates.raises hr hguard hbody⟩

end Search

/-! ### Which boards survive -/

/-- The queens can be placed one after the other, in the order of the board, each
on a value that forward checking accepts, as it does all those `dvo` tries before. -/
inductive Survives (least : Bool) : List Queen → Prop
  | nil : Survives least []
  | cons {q rest v} (accepted : v ∈ (order q.position).takeWhile fun v => passes q.idx v rest)
      (later : Survives least (sortedBySize least (pruned q.idx v rest))) :
      Survives least (q :: rest)

theorem survives_iff {least : Bool} (placed : List (ℤ × ℤ)) {rest : List Queen} :
    ((orderTree least).first ⟨placed, rest⟩).isSome ↔ Survives least rest := by
  induction hk : rest.length using Nat.strongRecOn generalizing placed rest with
  | _ k ih =>
      rcases rest with - | ⟨q, rest⟩
      · rw [Tree.first_of_goal (T := orderTree least) rfl]
        exact ⟨fun _ => .nil, fun _ => rfl⟩
      · have hlen : ∀ v, (sortedBySize least (pruned q.idx v rest)).length < k := by
          intro v
          rw [length_sorted, ← hk, List.length_cons]
          exact Nat.lt_succ_self _
        rw [Tree.first_isSome_iff]
        constructor
        · rintro (h | ⟨y, hy, h⟩)
          · cases h
          · obtain ⟨v, hv, rfl⟩ := List.mem_map.mp hy
            exact .cons hv ((ih _ (hlen v) _ rfl).mp h)
        · rintro (- | ⟨hv, later⟩)
          exact Or.inr ⟨_, List.mem_map_of_mem hv, (ih _ (hlen _) _ rfl).mpr later⟩

/-! ### What is returned -/

theorem dvo_eq {fuel n : ℕ} {least : Bool} {s : State}
    (h : whileLoop (guard n) (body n least) fuel (init n) = .ok (some s)) (hi : s.i = n)
    (hn : 1 ≤ n) : dvo fuel n least = .ok (some (.path s.path)) := by
  have hne : ¬ s.i = 0 := by omega
  rw [dvo, h, ok_bind]
  show Except.ok (some (result s)) = _
  rw [result, if_neg hne]

/-- What is returned is the path of an assignment. -/
theorem dvo_ended {fuel n : ℕ} {least : Bool} {path : List (Option ℤ)} (hn : 1 ≤ n)
    (h : dvo fuel n least = .ok (some (.path path))) : ∃ s a, Ended n s a ∧ s.path = path := by
  obtain ⟨s, hs, hresult⟩ := bind_eq_ok h
  rcases s with - | s
  · cases hresult
  · obtain ⟨hi, hg⟩ := of_whileLoop hs
    rcases loop_ends n least hn with ⟨-, s', a, hr, hend⟩ | ⟨-, hr⟩
    · obtain rfl : s = s' := hr.eq hs
      refine ⟨s, a, hend, ?_⟩
      have hreturn := dvo_eq hs hend.level hn
      rw [h] at hreturn
      cases hreturn
      rfl
    · exact (hr.not_returns (Iterates.returns hi hg)).elim

/-- Every queen has been placed. -/
theorem Ended.placed {n : ℕ} {s : State} {a : Assignment} (h : Ended n s a) {k : ℤ} (hk : 1 ≤ k)
    (hkn : k ≤ n) : ∃ v, (k, v) ∈ a.placed := by
  have hmem := h.valid.queens.mem_iff.mpr (mem_values.mpr ⟨hk, hkn⟩)
  rw [h.complete, List.map_nil, List.append_nil] at hmem
  obtain ⟨x, hx, rfl⟩ := List.mem_map.mp hmem
  exact ⟨x.2, hx⟩

/-- **`dvo` returns a list exactly when the board survives.** -/
theorem dvo_returns_iff (n : ℕ) (least : Bool) (hn : 1 ≤ n) :
    (∃ N path, ∀ fuel, N ≤ fuel → dvo fuel n least = .ok (some (.path path))) ↔
      Survives least (board n) := by
  rw [← survives_iff []]
  constructor
  · rintro ⟨N, path, hpath⟩
    rcases loop_ends n least hn with ⟨hsome, -⟩ | ⟨-, M, hM⟩
    · exact hsome
    · have := hpath (N + M) (by omega)
      rw [dvo, hM (N + M) (by omega)] at this
      cases this
  · intro hsome
    rcases loop_ends n least hn with ⟨-, s, a, ⟨N, hN⟩, hend⟩ | ⟨hnone, -⟩
    · exact ⟨N, s.path, fun fuel hfuel => dvo_eq (hN fuel hfuel) hend.level hn⟩
    · rw [hnone] at hsome
      cases hsome

/-- Five queens. -/
theorem dvo_returns_iff_five :
    (∃ N path, ∀ fuel, N ≤ fuel → dvo fuel 5 true = .ok (some (.path path))) ↔
      Survives true (board 5) :=
  dvo_returns_iff 5 true (by decide)

/-- Four queens can be placed, but the search raises. -/
theorem dvo_raises_four : ¬ ∀ (n : ℕ) (least : Bool), 1 ≤ n → (∃ p, IsPlacement n p) →
    ∃ N path, ∀ fuel, N ≤ fuel → dvo fuel n least = .ok (some (.path path)) := by
  intro h
  obtain ⟨N, path, hpath⟩ := h 4 true (by decide) ⟨[2, 4, 1, 3], rfl, by decide, by decide⟩
  have hraises : whileLoop (guard 4) (body 4 true) 20 (init 4) = .error .typeError := by
    rfl
  obtain ⟨M, hM⟩ := raises_of_whileLoop hraises
  have := hpath (N + M) (by omega)
  rw [dvo, hM (N + M) (by omega)] at this
  cases this

/-- **What `dvo` returns is a placement.** -/
theorem dvo_sound (n : ℕ) (least : Bool) (hn : 1 ≤ n) (fuel : ℕ) (path : List (Option ℤ))
    (h : dvo fuel n least = .ok (some (.path path))) :
    path.length = n ∧ (∀ x ∈ path, ∃ v, x = some v ∧ 1 ≤ v ∧ v ≤ n) ∧
      ∀ i j : ℤ, 1 ≤ i → i ≤ n → 1 ≤ j → j ≤ n → i ≠ j → ∀ v w,
        pyGet path (i - 1) = .ok (some v) → pyGet path (j - 1) = .ok (some w) →
          constraint i j v w = true := by
  obtain ⟨s, a, hend, rfl⟩ := dvo_ended hn h
  refine ⟨hend.pathLength, ?_, ?_⟩
  · intro x hx
    obtain ⟨j, hj, rfl⟩ := List.mem_iff_getElem.mp hx
    rw [hend.pathLength] at hj
    obtain ⟨v, hv⟩ := hend.placed (k := j + 1) (by omega) (by omega)
    have hpath := hend.path _ hv
    have hslot : slot ((j : ℤ) + 1) = j := by
      rw [slot]
      omega
    rw [hslot, List.getElem?_eq_getElem (by rw [hend.pathLength]; exact hj)] at hpath
    exact ⟨v, Option.some.inj hpath, hend.valid.placedRange _ hv⟩
  · intro i j hi hin hj hjn hne v w hv hw
    obtain ⟨v', hv'⟩ := hend.placed hi hin
    obtain ⟨w', hw'⟩ := hend.placed hj hjn
    rw [pyGet_slot hi (hend.path _ hv')] at hv
    rw [pyGet_slot hj (hend.path _ hw')] at hw
    obtain rfl := Option.some.inj (Except.ok.inj hv)
    obtain rfl := Option.some.inj (Except.ok.inj hw)
    have hpair : (i, v') ≠ (j, w') := by
      intro e
      exact hne (Prod.mk.inj e).1
    have : Std.Symm fun x y : ℤ × ℤ => constraint y.1 x.1 y.2 x.2 = true :=
      ⟨fun x y h => by rwa [constraint_comm]⟩
    exact hend.valid.placedFits.forall hw' hv' hpair.symm

/-- Four queens, smallest domain first. -/
theorem dvo_sound_four : let path : List (Option ℤ) := [some 2, some 4, some 1, some 3]
    path.length = 4 ∧ (∀ x ∈ path, ∃ v, x = some v ∧ 1 ≤ v ∧ v ≤ (4 : ℕ)) ∧
      ∀ i j : ℤ, 1 ≤ i → i ≤ (4 : ℕ) → 1 ≤ j → j ≤ (4 : ℕ) → i ≠ j → ∀ v w,
        pyGet path (i - 1) = .ok (some v) → pyGet path (j - 1) = .ok (some w) →
          constraint i j v w = true :=
  dvo_sound 4 false (by decide) 30 _ (by rfl)

end Dvo

end ProjectArchive.Queens
