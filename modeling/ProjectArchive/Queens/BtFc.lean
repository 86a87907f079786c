/-
ProjectArchive/Queens/BtFc.lean

Backtracking with forward checking.

The domains of the later variables are pruned in place, and restored in two
ways: from a copy inside `select_value_fc` when a value empties one of them,
and from the snapshot of the level below when a level is abandoned.  The
invariant `Searching` says what that leaves behind: the domain of a later
variable holds exactly the values compatible with the path, in order, and so
does every snapshot for the path of its level.  Hence a value that forward
checking rejects leads nowhere in the tree of consistent paths, and the search
finds the same path as plain backtracking.
-/
import ProjectArchive.Queens.BackTrackSearch

namespace ProjectArchive.Queens

open DepthFirst Exec Loop

namespace BtFc

/-! ### `select_value_fc` -/

/-- The loop of `select_value_fc` over the later variables, with the flag
`domain_invalid`. -/
def prune (i : ℕ) (alphaAssignment : ℤ) (currDomain : List (List ℤ)) :
    List ℕ → List (List ℤ) → Bool → List (List ℤ) × Bool
  | [], domain, domainInvalid => (domain, domainInvalid)
  | k :: ks, domain, _ =>
      let domainK := removeUnless (fun value => constraint i k alphaAssignment value)
        (domain.getD k [])
      let domain := domain.set k domainK
      if domainK.length = 0 then
        (domain.take (i + 1) ++ currDomain.drop (i + 1), true)
      else prune i alphaAssignment currDomain ks domain false

/-- The loop of `select_value_fc` over the values of the variable `i`, given
with the end of its domain first. -/
def selectLoop (i : ℕ) (currDomain : List (List ℤ)) :
    List ℤ → List (List ℤ) → Bool → Option ℤ × List (List ℤ)
  | [], domain, _ => (none, domain)
  | alphaAssignment :: domainI, domain, domainInvalid =>
      let domain := domain.set i domainI.reverse
      let (domain, domainInvalid) := prune i alphaAssignment currDomain
        (List.range' (i + 1) (domain.length - (i + 1))) domain domainInvalid
      if domainInvalid then selectLoop i currDomain domainI domain domainInvalid
      else (some alphaAssignment, domain)

/-- `select_value_fc`: the value, and the domains it leaves behind. -/
def selectValueFc (domain : List (List ℤ)) (i : ℕ) : Option ℤ × List (List ℤ) :=
  selectLoop i domain (domain.getD i []).reverse domain false

/-- `domain_reset`. -/
def domainReset (domain originalCopy : List (List ℤ)) (startIdx : ℕ) : List (List ℤ) :=
  domain.take startIdx ++ originalCopy.drop startIdx

/-! ### `bt_fc` -/

/-- The local variables of `bt_fc`. -/
structure State where
  i : ℤ
  path : List ℤ
  domainList : List (List ℤ)
  bookKeepingDomainList : List (Option (List (List ℤ)))

/-- The state before the loop. -/
def init (queenCount : ℕ) : Except Fault State := do
  let domainList ← (List.range queenCount).mapM fun x : ℕ => do
    let nd ← (Graph.new queenCount).getNode x
    return nd.getPossibleVal
  return {
    i := 0
    path := []
    domainList := domainList
    bookKeepingDomainList := List.replicate queenCount none }

/-- `0 <= i and i < queen_count`. -/
def guard (queenCount : ℕ) (s : State) : Bool := 0 ≤ s.i ∧ s.i < queenCount

/-- The body of the loop. -/
def body (s : State) : Except Fault State := do
  let saved ← pyGet s.bookKeepingDomainList s.i
  let book :=
    if saved = none then s.bookKeepingDomainList.set s.i.toNat (some s.domainList)
    else s.bookKeepingDomainList
  let (x, domainList) := selectValueFc s.domainList s.i.toNat
  match x with
  | none =>
      match ← pyGet book (s.i - 1) with
      | none => throw .typeError
      | some originalCopy =>
          return {
            i := s.i - 1
            path := s.path.dropLast
            domainList := domainReset domainList originalCopy s.i.toNat
            bookKeepingDomainList := book.set s.i.toNat none }
  | some x =>
      return {
        i := s.i + 1
        path := s.path ++ [x]
        domainList := domainList
        bookKeepingDomainList := book }

/-- What is returned after the loop. -/
def result (s : State) : Outcome (List ℤ) := if s.i = 0 then .inconsistent else .path s.path

/-- `bt_fc`, for at most `fuel` rounds of its loop. -/
def btFc (fuel queenCount : ℕ) : Except Fault (Option (Outcome (List ℤ))) := do
  let s ← init queenCount
  let s ← whileLoop (guard queenCount) body fuel s
  return s.map result

/-! ### Pruning -/

section Prune

variable {n i k : ℕ} {v : ℤ} {curr dom : List (List ℤ)} {invalid : Bool}

/-- The values left to the variable `k` when the variable `i` takes the value `v`. -/
def compatible (i : ℕ) (v : ℤ) (k : ℕ) (d : List ℤ) : List ℤ := d.filter fun w => constraint i k v w

/-- The value `v` of the variable `i` empties the domain of a later variable. -/
def Wipes (n i : ℕ) (v : ℤ) (dom : List (List ℤ)) : Prop :=
  ∃ k, i < k ∧ k < n ∧ compatible i v k (dom.getD k []) = []

/-- The domains after the value `v` of the variable `i`. -/
structure Pruned (n i : ℕ) (v : ℤ) (dom dom' : List (List ℤ)) : Prop where
  length : dom'.length = n
  later : ∀ k, i < k → dom'.getD k [] = compatible i v k (dom.getD k [])
  earlier : ∀ k ≤ i, dom'.getD k [] = dom.getD k []

/-- One round of the loop. -/
theorem prune_cons (hia : i < k) (ks : List ℕ) : prune i v curr (k :: ks) dom invalid =
    if compatible i v k (dom.getD k []) = [] then (dom.take (i + 1) ++ curr.drop (i + 1), true)
    else prune i v curr ks (dom.set k (compatible i v k (dom.getD k []))) false := by
  have htake : ∀ d, (dom.set k d).take (i + 1) = dom.take (i + 1) := fun d =>
    List.take_set_of_le hia
  rcases eq_or_ne (compatible i v k (dom.getD k [])) [] with h | h
  · rw [if_pos h]
    rw [compatible] at h
    simp only [prune, removeUnless_eq_filter, htake, h, List.length_nil, if_true]
  · rw [if_neg h]
    rw [compatible, ne_eq, ← List.length_eq_zero_iff] at h
    simp only [prune, removeUnless_eq_filter, if_neg h, compatible]

/-- The loop gives up when a domain is empty. -/
theorem prune_wipes (hlen : dom.length = n) (a : ℕ) (hia : i < a)
    (h : ∃ k, a ≤ k ∧ k < n ∧ compatible i v k (dom.getD k []) = []) :
    prune i v curr (List.range' a (n - a)) dom invalid =
      (dom.take (i + 1) ++ curr.drop (i + 1), true) := by
  induction m : n - a generalizing a dom invalid with
  | zero =>
      obtain ⟨k, hak, hkn, -⟩ := h
      omega
  | succ m ih =>
      rw [List.range'_succ, prune_cons hia]
      split
      · rfl
      · rename_i hne
        rw [ih (by simp [hlen]) (a + 1) (by omega) ?_ (by omega), List.take_set_of_le hia]
        obtain ⟨k, hak, hkn, hk⟩ := h
        have hka : a ≠ k := by
          rintro rfl
          exact hne hk
        refine ⟨k, by omega, hkn, ?_⟩
        rwa [getD_set_ne hka]

/-- The loop prunes every later domain when none of them gets empty. -/
theorem prune_ok (curr dom : List (List ℤ)) (invalid : Bool) (hlen : dom.length = n) (a : ℕ)
    (hia : i < a)
    (h : ∀ k, a ≤ k → k < n → compatible i v k (dom.getD k []) ≠ []) :
    ∃ dom', prune i v curr (List.range' a (n - a)) dom invalid =
        (dom', if n ≤ a then invalid else false) ∧ dom'.length = n ∧
      (∀ k, a ≤ k → dom'.getD k [] = compatible i v k (dom.getD k [])) ∧
      ∀ k < a, dom'.getD k [] = dom.getD k [] := by
  induction m : n - a generalizing a dom invalid with
  | zero =>
      refine ⟨dom, ?_, hlen, ?_, fun _ _ => rfl⟩
      · rw [List.range'_zero, prune, if_pos (by omega)]
      · intro k hk
        have hnil : dom.getD k [] = [] := by
          rw [List.getD_eq_getElem?_getD, List.getElem?_eq_none (by omega)]
          rfl
        rw [hnil]
        rfl
  | succ m ih =>
      have hset : ∀ k, a + 1 ≤ k → (dom.set a (compatible i v a (dom.getD a []))).getD k [] =
          dom.getD k [] := fun k hk => getD_set_ne (by omega)
      obtain ⟨dom', he, hlen', hlater, hearlier⟩ := ih (dom.set a _) false
        (by simp [hlen]) (a + 1) (by omega)
        (fun k hk hkn => by rw [hset k hk]; exact h k (by omega) hkn) (by omega)
      refine ⟨dom', ?_, hlen', ?_, ?_⟩
      · have hna : ¬ n ≤ a := by omega
        rw [List.range'_succ, prune_cons hia, if_neg (h a le_rfl (by omega)), he]
        simp [hna]
      · intro k hk
        rcases Nat.eq_or_lt_of_le hk with rfl | hk
        · rw [hearlier a (Nat.lt_succ_self a), getD_set_self (by omega)]
        · rw [hlater k hk, hset k hk]
      · intro k hk
        rw [hearlier k (by omega), getD_set_ne (by omega)]

/-! ### Selecting a value -/

/-- Only the domains of the later variables count. -/
theorem wipes_set {u : ℤ} {vs : List ℤ} : Wipes n i u (dom.set i vs) ↔ Wipes n i u dom := by
  refine exists_congr fun k => and_congr_right fun hik => ?_
  rw [getD_set_ne hik.ne]

/-- Restoring the later domains undoes a pruning that changes only them. -/
theorem take_append_drop_of_drop_eq {vs : List ℤ} (hcurr : dom.drop (i + 1) = curr.drop (i + 1)) :
    (dom.set i vs).take (i + 1) ++ curr.drop (i + 1) = dom.set i vs := by
  rw [← hcurr, ← List.drop_set_of_lt (Nat.lt_succ_self i), List.take_append_drop]

/-- What `select_value_fc` does. -/
theorem selectLoop_spec (curr : List (List ℤ)) (invalid : Bool) (hi : i < n) (hlen : dom.length = n)
    (hcurr : dom.drop (i + 1) = curr.drop (i + 1)) (hinv : invalid = true → i + 1 < n)
    (stack : List ℤ) (hstack : dom.getD i [] = stack.reverse) :
    (∃ skipped v rest dom', stack = skipped ++ v :: rest ∧ (∀ u ∈ skipped, Wipes n i u dom) ∧
      ¬ Wipes n i v dom ∧ Pruned n i v (dom.set i rest.reverse) dom' ∧
      selectLoop i curr stack dom invalid = (some v, dom')) ∨
    ((∀ u ∈ stack, Wipes n i u dom) ∧
      selectLoop i curr stack dom invalid = (none, dom.set i [])) := by
  induction stack generalizing dom invalid with
  | nil =>
      have hset : dom.set i [] = dom := by
        have hsame := set_getD (hlen ▸ hi : i < dom.length)
        rwa [hstack] at hsame
      refine Or.inr ⟨by simp, ?_⟩
      rw [hset]
      rfl
  | cons v stack ih =>
      have hlen' : (dom.set i stack.reverse).length = n := by simp [hlen]
      by_cases hw : Wipes n i v dom
      · -- the value empties a domain: everything is restored, and the next value tried
        have hin : i + 1 < n := by
          obtain ⟨k, hik, hkn, -⟩ := hw
          omega
        have hsel : selectLoop i curr (v :: stack) dom invalid =
            selectLoop i curr stack (dom.set i stack.reverse) true := by
          simp only [selectLoop, hlen']
          rw [prune_wipes hlen' (i + 1) (Nat.lt_succ_self i) (wipes_set.mpr hw),
            take_append_drop_of_drop_eq hcurr]
          simp
        rw [hsel]
        rcases ih true hlen' (by rw [List.drop_set_of_lt (Nat.lt_succ_self i), hcurr]) (fun _ => hin)
          (getD_set_self (by omega)) with
          ⟨skipped, w, rest, dom', rfl, hs, hnw, hp, he⟩ | ⟨hs, he⟩
        · refine Or.inl ⟨v :: skipped, w, rest, dom', rfl, ?_, mt wipes_set.mpr hnw, ?_, he⟩
          · rintro u hu
            rcases List.mem_cons.mp hu with rfl | hu
            · exact hw
            · exact wipes_set.mp (hs u hu)
          · rwa [List.set_set] at hp
        · refine Or.inr ⟨?_, by rw [he, List.set_set]⟩
          rintro u hu
          rcases List.mem_cons.mp hu with rfl | hu
          · exact hw
          · exact wipes_set.mp (hs u hu)
      · -- the value is compatible with every later variable
        left
        have hok : ∀ k, i + 1 ≤ k → k < n →
            compatible i v k ((dom.set i stack.reverse).getD k []) ≠ [] :=
          fun k hik hkn hk => hw (wipes_set.mp ⟨k, hik, hkn, hk⟩)
        obtain ⟨dom', he, hlen'', hl, hearlier⟩ := prune_ok curr _ invalid
          hlen' (i + 1) (Nat.lt_succ_self i) hok
        refine ⟨[], v, stack, dom', rfl, by simp, hw,
          ⟨hlen'', hl, fun k hk => hearlier k (by omega)⟩, ?_⟩
        have hflag : (if n ≤ i + 1 then invalid else false) = false := by
          split
          · cases e : invalid with
            | false => rfl
            | true =>
                have := hinv e
                omega
          · rfl
        simp only [selectLoop, hlen', he, hflag]
        simp

end Prune

/-! ### The invariant -/

/-- The domains of the variables after the path hold exactly the values
compatible with it, in order. -/
def Filtered (n : ℕ) (path : List ℤ) (dom : List (List ℤ)) : Prop :=
  dom.length = n ∧ ∀ k, path.length < k → k < n →
    dom.getD k [] = (values n).filter fun v => fits path k v

/-- The state `s` of the loop has the siblings on the stack still to try. -/
structure Searching (n : ℕ) (s : State) (stack : List (List (List ℤ))) : Prop where
  level : s.i = s.path.length
  open_ : s.path.length < n
  consistent : consistent s.path = true
  range : ∀ v ∈ s.path, 1 ≤ v ∧ v ≤ n
  filtered : Filtered n s.path s.domainList
  /-- What is left of a domain is compatible with the path below it. -/
  left : ∀ j ≤ s.path.length, ∀ v ∈ s.domainList.getD j [],
    (1 ≤ v ∧ v ≤ n) ∧ fits (s.path.take j) j v = true
  books : s.bookKeepingDomainList.length = n
  /-- The levels below have been saved, with the path they were entered with. -/
  saved : ∀ j < s.path.length, ∃ snap, s.bookKeepingDomainList[j]? = some (some snap) ∧
    Filtered n (s.path.take j) snap
  current : ∀ snap, s.bookKeepingDomainList[s.path.length]? = some (some snap) →
    Filtered n s.path snap
  fresh : ∀ k, s.path.length < k → k < n → s.bookKeepingDomainList[k]? = some none
  stack_eq : stack = trail s.path s.domainList (s.path.length + 1)

/-- The loop has ended with a path. -/
structure Ended (n : ℕ) (s : State) (p : List ℤ) : Prop where
  level : s.i = n
  path : s.path = p

section Search

variable {n : ℕ} {s : State} {xs : List (List ℤ)} {stack : List (List (List ℤ))} {p : List ℤ}

theorem Filtered.append {v : ℤ} {dom dom' : List (List ℤ)} (h : Filtered n p dom)
    (hp : Pruned n p.length v dom dom') : Filtered n (p ++ [v]) dom' := by
  refine ⟨hp.length, ?_⟩
  intro k hk hkn
  have hk : p.length < k := by
    rw [List.length_append, List.length_singleton] at hk
    omega
  rw [hp.later k hk, h.2 k hk hkn, compatible, List.filter_filter]
  apply List.filter_congr
  intro w _
  rw [fits_append, Bool.and_comm]

/-- The present domain is not looked at. -/
theorem Filtered.set {rest : List ℤ} {dom : List (List ℤ)} (h : Filtered n p dom) :
    Filtered n p (dom.set p.length rest) := by
  refine ⟨by simp [h.1], ?_⟩
  intro k hk hkn
  rw [getD_set_ne (by omega)]
  exact h.2 k hk hkn

section Pruned

variable {i j : ℕ} {v : ℤ} {rest : List ℤ} {dom dom' : List (List ℤ)}

/-- What is left of the present domain after a value has been selected. -/
theorem Pruned.present (hp : Pruned n i v (dom.set i rest) dom') (hi : i < dom.length) :
    dom'.getD i [] = rest := by
  rw [hp.earlier i le_rfl, getD_set_self hi]

theorem Pruned.below (hp : Pruned n i v (dom.set i rest) dom') (hj : j < i) :
    dom'.getD j [] = dom.getD j [] := by
  rw [hp.earlier j (Nat.le_of_lt hj), getD_set_ne (by omega)]

/-- The domain of the next level. -/
theorem Pruned.next (h : Filtered n p dom) (hp : Pruned n p.length v (dom.set p.length rest) dom')
    (hn : p.length + 1 < n) :
    dom'.getD (p.length + 1) [] =
      (values n).filter fun w => fits (p ++ [v]) (p.length + 1) w := by
  rw [hp.later _ (Nat.lt_succ_self _), getD_set_ne (by omega), h.2 _ (Nat.lt_succ_self _) hn,
    compatible, List.filter_filter]
  apply List.filter_congr
  intro w _
  rw [fits_append, Bool.and_comm]

end Pruned

/-- A value that empties a domain leads nowhere. -/
theorem Filtered.dead {v : ℤ} {dom : List (List ℤ)} (h : Filtered n p dom)
    (hr : ∀ w ∈ p, 1 ≤ w ∧ w ≤ n) (hv : 1 ≤ v ∧ v ≤ n) (hc : Queens.consistent (p ++ [v]) = true)
    (hw : Wipes n p.length v dom) : (pathTree n).first (p ++ [v]) = none := by
  rcases e : (pathTree n).first (p ++ [v]) with - | q
  · rfl
  · exfalso
    obtain ⟨k, hpk, hkn, hk⟩ := hw
    have hr' : ∀ w ∈ p ++ [v], 1 ≤ w ∧ w ≤ n := by
      intro w hw
      rcases List.mem_append.mp hw with hw | hw
      · exact hr w hw
      · obtain rfl := List.mem_singleton.mp hw
        exact hv
    obtain ⟨⟨t, rfl⟩, hq⟩ := pathTree_sound hc hr' e
    -- the value of the placement for the variable `k` would be left in its domain
    have hlt : k < (p ++ [v] ++ t).length := by
      rw [hq.length]
      exact hkn
    have hmem : (p ++ [v] ++ t).getD k 0 ∈ (values n).filter fun w => fits (p ++ [v]) k w := by
      rw [List.mem_filter, mem_values]
      constructor
      · rw [List.getD_eq_getElem?_getD, List.getElem?_eq_getElem hlt, Option.getD_some]
        exact hq.range _ (List.getElem_mem hlt)
      · rw [fits_iff]
        intro j hj
        have hjk : j < k := by
          rw [List.length_append, List.length_singleton] at hj
          omega
        have hget : (p ++ [v] ++ t).getD j 0 = (p ++ [v]).getD j 0 := by
          rw [List.getD_eq_getElem?_getD, List.getD_eq_getElem?_getD, List.getElem?_append_left hj]
        rw [← hget]
        exact consistent_iff.mp hq.consistent j k hjk hlt
    rw [h.2 k hpk hkn, compatible, List.filter_filter] at hk
    have hnot := List.filter_eq_nil_iff.mp hk _ (List.mem_filter.mp hmem).1
    have hfits := (List.mem_filter.mp hmem).2
    rw [fits_append, Bool.and_comm] at hfits
    exact hnot hfits

theorem Searching.guard (h : Searching n s stack) : guard n s = true := by
  have := h.open_
  simp [BtFc.guard, h.level]
  omega

theorem Searching.toNat (h : Searching n s stack) : s.i.toNat = s.path.length := by
  rw [h.level]
  rfl

/-- The snapshots after the first lines of the body. -/
def books (s : State) : List (Option (List (List ℤ))) :=
  if s.bookKeepingDomainList[s.i.toNat]? = some none then
    s.bookKeepingDomainList.set s.i.toNat (some s.domainList)
  else s.bookKeepingDomainList

/-- Every level up to the present one is saved now. -/
theorem Searching.books_saved (h : Searching n s stack) : (BtFc.books s).length = n ∧
    (∀ j ≤ s.path.length, ∃ snap, (BtFc.books s)[j]? = some (some snap) ∧
      Filtered n (s.path.take j) snap) ∧
    ∀ k, s.path.length < k → k < n → (BtFc.books s)[k]? = some none := by
  have hopen := h.open_
  have hlt : s.path.length < s.bookKeepingDomainList.length := by
    rw [h.books]
    exact hopen
  unfold BtFc.books
  rw [h.toNat]
  split
  · refine ⟨by simp [h.books], ?_, ?_⟩
    · intro j hj
      rcases Nat.lt_or_eq_of_le hj with hj | rfl
      · rw [List.getElem?_set_ne (by omega)]
        exact h.saved j hj
      · refine ⟨s.domainList, ?_, ?_⟩
        · rw [List.getElem?_set_self hlt]
        · rw [List.take_length]
          exact h.filtered
    · intro k hk hkn
      rw [List.getElem?_set_ne (by omega)]
      exact h.fresh k hk hkn
  · rename_i hsome
    refine ⟨h.books, ?_, h.fresh⟩
    intro j hj
    rcases Nat.lt_or_eq_of_le hj with hj | rfl
    · exact h.saved j hj
    · rcases e : s.bookKeepingDomainList[s.path.length]? with - | - | snap
      · rw [List.getElem?_eq_none_iff] at e
        omega
      · exact absurd e hsome
      · refine ⟨snap, rfl, ?_⟩
        rw [List.take_length]
        exact h.current snap e

/-- The body, after its first lines. -/
theorem Searching.body_eq (h : Searching n s stack) : body s =
    (match selectValueFc s.domainList s.path.length with
    | (none, domainList) => do
        match ← pyGet (BtFc.books s) (s.i - 1) with
        | none => throw .typeError
        | some originalCopy =>
            return {
              i := s.i - 1
              path := s.path.dropLast
              domainList := domainReset domainList originalCopy s.path.length
              bookKeepingDomainList := (BtFc.books s).set s.path.length none }
    | (some x, domainList) =>
        return {
          i := s.i + 1
          path := s.path ++ [x]
          domainList := domainList
          bookKeepingDomainList := BtFc.books s }) := by
  have hopen := h.open_
  have hlt : s.path.length < s.bookKeepingDomainList.length := by
    rw [h.books]
    exact hopen
  have hget : pyGet s.bookKeepingDomainList s.i =
      .ok s.bookKeepingDomainList[s.path.length] := by
    rw [h.level, pyGet_natCast hlt]
  have hbooks : BtFc.books s =
      if s.bookKeepingDomainList[s.path.length] = none then
        s.bookKeepingDomainList.set s.path.length (some s.domainList)
      else s.bookKeepingDomainList := by
    simp [BtFc.books, h.toNat, List.getElem?_eq_getElem hlt]
  rw [body, hget, ok_bind, h.toNat, hbooks]
  rcases selectValueFc s.domainList s.path.length with ⟨- | x, domainList⟩ <;> rfl

/-- What `select_value_fc` does to a state of the search. -/
theorem Searching.select (h : Searching n s stack) :
    (∃ skipped v rest dom', (s.domainList.getD s.path.length []).reverse = skipped ++ v :: rest ∧
      (∀ u ∈ skipped, Wipes n s.path.length u s.domainList) ∧
      ¬ Wipes n s.path.length v s.domainList ∧
      Pruned n s.path.length v (s.domainList.set s.path.length rest.reverse) dom' ∧
      selectValueFc s.domainList s.path.length = (some v, dom')) ∨
    ((∀ u ∈ s.domainList.getD s.path.length [], Wipes n s.path.length u s.domainList) ∧
      selectValueFc s.domainList s.path.length =
        (none, s.domainList.set s.path.length [])) := by
  have hspec := selectLoop_spec s.domainList false h.open_ h.filtered.1 rfl
    (fun e => by cases e) (s.domainList.getD s.path.length []).reverse
    (List.reverse_reverse _).symm
  simpa [selectValueFc] using hspec

/-- What is left of the domain of the present level has consistent extensions,
and those that empty a domain lead nowhere. -/
theorem Searching.dead (h : Searching n s stack) {u : ℤ}
    (hu : u ∈ s.domainList.getD s.path.length []) (hw : Wipes n s.path.length u s.domainList) :
    (pathTree n).first (s.path ++ [u]) = none := by
  obtain ⟨hr, hf⟩ := h.left s.path.length le_rfl u hu
  rw [List.take_length] at hf
  exact h.filtered.dead h.range hr (consistent_append.mpr ⟨h.consistent, hf⟩) hw

/-- The next level is entered. -/
theorem Searching.next (h : Searching n s (xs :: stack)) {v : ℤ} {rest : List ℤ}
    {dom' : List (List ℤ)} (hv : 1 ≤ v ∧ v ≤ n) (hcons : Queens.consistent (s.path ++ [v]) = true)
    (hrest : ∀ w ∈ rest, w ∈ s.domainList.getD s.path.length [])
    (hp : Pruned n s.path.length v (s.domainList.set s.path.length rest) dom')
    (hn : s.path.length + 1 < n) :
    Searching n {
        i := s.i + 1
        path := s.path ++ [v]
        domainList := dom'
        bookKeepingDomainList := BtFc.books s }
      (extensions n (s.path ++ [v]) :: siblings s.path rest :: stack) := by
  have hopen := h.open_
  have hstack := h.stack_eq
  rw [trail] at hstack
  obtain ⟨-, rfl⟩ := List.cons.inj hstack
  obtain ⟨hlen, hsaved, hfresh⟩ := h.books_saved
  have hlast : (s.path ++ [v]).length = s.path.length + 1 := by simp
  have hnew := Pruned.next h.filtered hp hn
  have hself := hp.present (by rw [h.filtered.1]; exact hopen)
  refine ⟨?_, by simpa using hn, hcons, ?_, h.filtered.set.append hp, ?_, hlen, ?_, ?_, ?_, ?_⟩
  · show s.i + 1 = ((s.path ++ [v]).length : ℕ)
    rw [h.level, hlast]
    rfl
  · intro w hw
    rcases List.mem_append.mp hw with hw | hw
    · exact h.range w hw
    · obtain rfl := List.mem_singleton.mp hw
      exact hv
  · intro j hj w hw
    have hj : j ≤ s.path.length + 1 := hlast ▸ hj
    rcases Nat.lt_or_eq_of_le hj with hj | rfl
    · rw [take_append_of_le (by omega)]
      rcases Nat.lt_or_eq_of_le (Nat.le_of_lt_succ hj) with hj | rfl
      · rw [show dom'.getD j [] = _ from hp.below hj] at hw
        exact h.left j (Nat.le_of_lt hj) w hw
      · rw [show dom'.getD s.path.length [] = _ from hself] at hw
        exact h.left _ le_rfl w (hrest w hw)
    · rw [show dom'.getD (s.path.length + 1) [] = _ from hnew] at hw
      obtain ⟨hw, hf⟩ := List.mem_filter.mp hw
      rw [List.take_of_length_le (by simp)]
      exact ⟨mem_values.mp hw, hf⟩
  · intro j hj
    rw [hlast] at hj
    rw [take_append_of_le (by omega)]
    exact hsaved j (by omega)
  · intro snap hsnap
    rw [hlast] at hsnap
    rw [show (BtFc.books s)[s.path.length + 1]? = some none from
      hfresh _ (Nat.lt_succ_self _) hn] at hsnap
    cases hsnap
  · intro k hk hkn
    rw [hlast] at hk
    exact hfresh k (by omega) hkn
  · rw [hlast, trail, trail]
    congr 1
    · show _ = siblings _ (dom'.getD (s.path.length + 1) [])
      rw [hnew, extensions, if_pos (by rw [hlast]; exact hn), List.take_of_length_le (by simp)]
      have hfilter := siblings_filter (s.path ++ [v]) (values n)
      rw [hlast] at hfilter
      exact hfilter.symm
    · congr 1
      · show _ = siblings _ (dom'.getD s.path.length [])
        rw [hself, take_append_of_le le_rfl, List.take_length]
      · exact (trail_congr (fun j hj => take_append_of_le (by omega)) fun j hj =>
          hp.below hj).symm

/-- A value is selected. -/
theorem Searching.pick (h : Searching n s (xs :: stack)) {skipped rest : List ℤ} {v : ℤ}
    {dom' : List (List ℤ)}
    (hd : (s.domainList.getD s.path.length []).reverse = skipped ++ v :: rest)
    (hs : ∀ u ∈ skipped, Wipes n s.path.length u s.domainList)
    (hp : Pruned n s.path.length v (s.domainList.set s.path.length rest.reverse) dom')
    (hsel : selectValueFc s.domainList s.path.length = (some v, dom')) :
    ∃ dead siblings s', xs = dead ++ (s.path ++ [v]) :: siblings ∧ (pathTree n).Dead dead ∧
      Round (BtFc.guard n) body s s' ∧
      ((pathTree n).goal (s.path ++ [v]) = true → Ended n s' (s.path ++ [v])) ∧
      ((pathTree n).goal (s.path ++ [v]) = false →
        Searching n s' (extensions n (s.path ++ [v]) :: siblings :: stack)) := by
  have hmem : ∀ {u}, u ∈ skipped ++ v :: rest → u ∈ s.domainList.getD s.path.length [] := by
    intro u hu
    rw [← hd] at hu
    exact List.mem_reverse.mp hu
  obtain ⟨hv, hf⟩ := h.left s.path.length le_rfl v (hmem (by simp))
  rw [List.take_length] at hf
  have hcons : Queens.consistent (s.path ++ [v]) = true := consistent_append.mpr ⟨h.consistent, hf⟩
  have hxs := h.stack_eq
  rw [trail, List.take_length, siblings_split hd hcons] at hxs
  have hgoal : (pathTree n).goal (s.path ++ [v]) = true ↔ s.path.length + 1 = n := by
    rw [pathTree_goal, List.length_append, List.length_singleton]
  refine ⟨_, siblings s.path rest.reverse, _, (List.cons.inj hxs).1, ?_,
    ⟨h.guard, by rw [h.body_eq, hsel]; rfl⟩, ?_, ?_⟩
  · intro q hq
    obtain ⟨hq, -⟩ := List.mem_filter.mp hq
    obtain ⟨u, hu, rfl⟩ := List.mem_map.mp hq
    exact h.dead (hmem (List.mem_append_left _ hu)) (hs u hu)
  · intro hlast
    refine ⟨?_, rfl⟩
    show s.i + 1 = n
    rw [h.level]
    exact_mod_cast hgoal.mp hlast
  · intro hnot
    have hopen := h.open_
    have hne : s.path.length + 1 ≠ n := by
      intro e
      rw [hgoal.mpr e] at hnot
      cases hnot
    refine h.next hv hcons ?_ hp (by omega)
    intro w hw
    exact hmem (List.mem_append_right _ (List.mem_cons_of_mem _ (List.mem_reverse.mp hw)))

/-- `domain_reset` keeps the domains below a level. -/
theorem getD_domainReset {dom snap : List (List ℤ)} {i : ℕ} (hi : i ≤ dom.length) (k : ℕ) :
    (domainReset dom snap i).getD k [] = if k < i then dom.getD k [] else snap.getD k [] := by
  have hlength : (dom.take i).length = i := by
    rw [List.length_take, Nat.min_eq_left hi]
  rw [domainReset, List.getD_eq_getElem?_getD]
  split
  · rename_i hk
    rw [List.getElem?_append_left (by rw [hlength]; exact hk), List.getElem?_take_of_lt hk,
      List.getD_eq_getElem?_getD]
  · rename_i hk
    rw [List.getElem?_append_right (by rw [hlength]; omega), hlength, List.getElem?_drop,
      List.getD_eq_getElem?_getD, Nat.add_sub_cancel' (Nat.le_of_not_lt hk)]

/-- The state after a level has been abandoned, with the snapshot of the level below. -/
def abandoned (s : State) (snap : List (List ℤ)) : State := {
  i := s.i - 1
  path := s.path.dropLast
  domainList := domainReset (s.domainList.set s.path.length []) snap s.path.length
  bookKeepingDomainList := (books s).set s.path.length none }

/-- The domains of the levels below are as they were. -/
theorem getD_abandoned (h : Searching n s stack) {snap : List (List ℤ)} (k : ℕ) :
    (abandoned s snap).domainList.getD k [] =
      if k < s.path.length then s.domainList.getD k [] else snap.getD k [] := by
  have hlt := h.open_
  show (domainReset (s.domainList.set s.path.length []) snap s.path.length).getD k [] = _
  rw [getD_domainReset (by rw [List.length_set, h.filtered.1]; exact Nat.le_of_lt hlt)]
  split
  · rw [getD_set_ne (by omega)]
  · rfl

/-- The search goes on from the level below, with the snapshot that has been taken there. -/
theorem Searching.resumes (h : Searching n s (xs :: stack)) (hpos : 0 < s.path.length)
    {snap : List (List ℤ)} (hsnap : (BtFc.books s)[s.path.length - 1]? = some (some snap))
    (hfiltered : Filtered n s.path.dropLast snap) : Searching n (abandoned s snap) stack := by
  have hopen := h.open_
  have hstack := h.stack_eq
  rw [trail] at hstack
  obtain ⟨-, rfl⟩ := List.cons.inj hstack
  obtain ⟨hlen, hsaved, hfresh⟩ := h.books_saved
  have hdrop : s.path.dropLast.length + 1 = s.path.length := by
    rw [List.length_dropLast]
    omega
  constructor
  case level =>
    show s.i - 1 = (s.path.dropLast.length : ℕ)
    rw [h.level]
    omega
  case open_ =>
    show s.path.dropLast.length < n
    omega
  case consistent =>
    have hsplit := List.dropLast_append_getLast (List.ne_nil_of_length_pos hpos)
    have hc := h.consistent
    rw [← hsplit] at hc
    exact (consistent_append.mp hc).1
  case range => exact fun v hv => h.range v (List.dropLast_subset _ hv)
  case filtered =>
    constructor
    · show (domainReset (s.domainList.set s.path.length []) snap s.path.length).length = n
      rw [domainReset, List.length_append, List.length_take, List.length_drop, List.length_set,
        h.filtered.1, hfiltered.1]
      omega
    · intro k hk hkn
      have hk : s.path.dropLast.length < k := hk
      rw [getD_abandoned h, if_neg (by omega)]
      exact hfiltered.2 k hk hkn
  case left =>
    intro j hj v hv
    have hj : j < s.path.length := by
      have : j ≤ s.path.dropLast.length := hj
      omega
    rw [getD_abandoned h, if_pos hj] at hv
    show _ ∧ fits (s.path.dropLast.take j) j v = true
    rw [take_dropLast hj]
    exact h.left j (Nat.le_of_lt hj) v hv
  case books =>
    show ((BtFc.books s).set s.path.length none).length = n
    rw [List.length_set, hlen]
  case saved =>
    intro j hj
    have hj : j < s.path.dropLast.length := hj
    show ∃ snap, ((BtFc.books s).set s.path.length none)[j]? = _ ∧
      Filtered n (s.path.dropLast.take j) snap
    rw [List.getElem?_set_ne (by omega), take_dropLast (by omega)]
    exact hsaved j (by omega)
  case current =>
    intro snap' hsnap'
    have hsnap' : ((BtFc.books s).set s.path.length none)[s.path.dropLast.length]? =
      some (some snap') := hsnap'
    rw [List.getElem?_set_ne (by omega), show s.path.dropLast.length = s.path.length - 1 by omega,
      hsnap] at hsnap'
    obtain rfl := Option.some.inj (Option.some.inj hsnap')
    exact hfiltered
  case fresh =>
    intro k hk hkn
    have hk : s.path.dropLast.length < k := hk
    show ((BtFc.books s).set s.path.length none)[k]? = some none
    rcases eq_or_ne s.path.length k with rfl | hne'
    · rw [List.getElem?_set_self (by rw [hlen]; exact hkn)]
    · rw [List.getElem?_set_ne hne']
      exact hfresh k (by omega) hkn
  case stack_eq =>
    show _ = trail s.path.dropLast (abandoned s snap).domainList (s.path.dropLast.length + 1)
    rw [hdrop]
    refine (trail_congr (fun j hj => take_dropLast hj) fun j hj => ?_).symm
    rw [getD_abandoned h, if_pos hj]

/-- A level is abandoned. -/
theorem Searching.back (h : Searching n s (xs :: stack)) (hne : stack ≠ [])
    (hsel : selectValueFc s.domainList s.path.length = (none, s.domainList.set s.path.length [])) :
    ∃ snap, (BtFc.books s)[s.path.length - 1]? = some (some snap) ∧
      Round (BtFc.guard n) body s (abandoned s snap) ∧ Searching n (abandoned s snap) stack := by
  have hstack := h.stack_eq
  rw [trail] at hstack
  have hpos : 0 < s.path.length :=
    Nat.pos_of_ne_zero fun e => hne ((List.cons.inj hstack).2.trans (trail_eq_nil.mpr e))
  obtain ⟨hlen, hsaved, -⟩ := h.books_saved
  -- the snapshot of the level below
  obtain ⟨snap, hsnap, hfiltered⟩ := hsaved (s.path.length - 1) (by omega)
  rw [show s.path.take (s.path.length - 1) = s.path.dropLast from
    List.dropLast_eq_take.symm] at hfiltered
  have hget : pyGet (BtFc.books s) (s.i - 1) = .ok (some snap) := by
    have hopen := h.open_
    have hi : s.i - 1 = (s.path.length - 1 : ℕ) := by
      rw [h.level]
      omega
    have hlt : s.path.length - 1 < (BtFc.books s).length := by omega
    rw [hi, pyGet_natCast hlt]
    rw [List.getElem?_eq_getElem hlt] at hsnap
    rw [Option.some.inj hsnap]
  refine ⟨snap, hsnap, ⟨h.guard, ?_⟩, h.resumes hpos hsnap hfiltered⟩
  rw [h.body_eq, hsel]
  simp only [hget, ok_bind]
  rfl

/-- The lowest level has no snapshot below it. -/
theorem Searching.raises (h : Searching n s [xs]) (hn : 2 ≤ n)
    (hsel : selectValueFc s.domainList s.path.length = (none, s.domainList.set s.path.length [])) :
    body s = .error .typeError := by
  have hpath : s.path.length = 0 := by
    have hstack := h.stack_eq
    rw [trail] at hstack
    exact trail_eq_nil.mp (List.cons.inj hstack).2.symm
  obtain ⟨hlen, -, hfresh⟩ := h.books_saved
  -- `book_keeping_domain_list[-1]` is the snapshot of the last level
  have hget : pyGet (BtFc.books s) (s.i - 1) = .ok none := by
    have hlast := hfresh (n - 1) (by omega) (by omega)
    have hne : BtFc.books s ≠ [] := by
      apply List.ne_nil_of_length_pos
      omega
    rw [← hlen, ← List.getLast?_eq_getElem?, List.getLast?_eq_some_getLast hne] at hlast
    rw [h.level, hpath]
    exact (pyGet_neg_one hne).trans (congrArg _ (Option.some.inj hlast))
  rw [h.body_eq, hsel]
  simp only [hget, ok_bind]
  rfl

/-- One round of the loop, as a step of the search of the tree. -/
theorem Searching.round (h : Searching n s (xs :: stack)) :
    (∃ dead x siblings s', xs = dead ++ x :: siblings ∧ (pathTree n).Dead dead ∧
      Round (BtFc.guard n) body s s' ∧ ((pathTree n).goal x = true → Ended n s' x) ∧
      ((pathTree n).goal x = false → Searching n s' (extensions n x :: siblings :: stack))) ∨
    ((pathTree n).Dead xs ∧ (stack ≠ [] → ∃ s', Round (BtFc.guard n) body s s' ∧
      Searching n s' stack) ∧ (stack = [] → 2 ≤ n → body s = .error .typeError)) := by
  rcases h.select with ⟨skipped, v, rest, dom', hd, hs, -, hp, hsel⟩ | ⟨hs, hsel⟩
  · obtain ⟨dead, siblings, s', hxs, hdead, hr, hgoal, hopen⟩ := h.pick hd hs hp hsel
    exact Or.inl ⟨dead, _, siblings, s', hxs, hdead, hr, hgoal, hopen⟩
  · refine Or.inr ⟨?_, ?_, fun hempty hn => by subst hempty; exact h.raises hn hsel⟩
    swap
    · intro hne
      obtain ⟨snap, -, hr, hs⟩ := h.back hne hsel
      exact ⟨_, hr, hs⟩
    have hstack := h.stack_eq
    rw [trail, List.take_length] at hstack
    obtain ⟨rfl, -⟩ := List.cons.inj hstack
    intro q hq
    obtain ⟨u, hu, -, rfl⟩ := mem_siblings.mp hq
    exact h.dead hu (hs u hu)

/-- The state before the loop, written out. -/
def start (n : ℕ) : State := {
  i := 0
  path := []
  domainList := List.replicate n (values n)
  bookKeepingDomainList := List.replicate n none }

theorem init_eq (n : ℕ) : init n = .ok (start n) := by
  have aux : ∀ l : List ℕ, (∀ x ∈ l, x < n) → (l.mapM fun x : ℕ => do
      let nd ← (Graph.new n).getNode x
      return nd.getPossibleVal) = .ok (List.replicate l.length (values n)) := by
    intro l
    induction l with
    | nil => intro _; rfl
    | cons x l ih =>
        intro hl
        rw [List.mapM_cons, Graph.getNode_new (hl x (by simp)), ok_bind,
          ih fun y hy => hl y (by simp [hy])]
        rfl
  have hdomains := aux (List.range n) fun x hx => List.mem_range.mp hx
  rw [List.length_range] at hdomains
  rw [init, hdomains]
  rfl

theorem start_domain {k : ℕ} (hk : k < n) : (start n).domainList.getD k [] = values n := by
  simp [start, List.getD_eq_getElem?_getD, hk]

theorem Searching.start (hn : 1 ≤ n) : Searching n (start n) [extensions n []] := by
  refine ⟨rfl, hn, rfl, (fun v hv => by cases hv), ⟨by simp [BtFc.start], ?_⟩, ?_, by simp [BtFc.start],
    (fun j hj => by cases hj), ?_, ?_, ?_⟩
  · intro k _ hkn
    rw [start_domain hkn]
    exact (List.filter_eq_self.mpr fun v _ => rfl).symm
  · intro j hj v hv
    obtain rfl : j = 0 := Nat.le_zero.mp hj
    rw [start_domain hn] at hv
    exact ⟨mem_values.mp hv, rfl⟩
  · intro snap hsnap
    have hsnap : (List.replicate n (none : Option (List (List ℤ))))[0]? = some (some snap) := hsnap
    simp [List.getElem?_replicate] at hsnap
  · intro k _ hkn
    show (List.replicate n none)[k]? = some none
    simp [hkn]
  · show _ = [siblings [] ((BtFc.start n).domainList.getD 0 [])]
    rw [start_domain hn, extensions, if_pos (show ([] : List ℤ).length < n from hn)]

/-- **Forward checking returns the first placement of the tree**, and raises an
exception if there is none. -/
theorem btFc_first (hn : 1 ≤ n) :
    (∃ p, (pathTree n).first [] = some p ∧
      ∃ N, ∀ fuel, N ≤ fuel → btFc fuel n = .ok (some (.path p))) ∨
    ((pathTree n).first [] = none ∧
      (2 ≤ n → ∃ N, ∀ fuel, N ≤ fuel → btFc fuel n = .error .typeError)) := by
  have hs := init_eq n
  have hresume := pathTree_resume hn
  have hsearch := Tree.search_or (T := pathTree n) (Round (guard n) body) (Searching n) (Ended n)
    (fun s => guard n s = true ∧ (2 ≤ n → body s = .error .typeError))
    (by
      intro s xs stack h
      rcases h.round with hpick | ⟨hdead, hclose, hlast⟩
      · obtain ⟨dead, x, siblings, s', hpick⟩ := hpick
        exact Or.inl ⟨dead, x, siblings, s', hpick⟩
      · exact Or.inr ⟨hdead, hclose, fun hempty => ⟨h.guard, hlast hempty⟩⟩) (Searching.start hn)
  rw [hresume] at hsearch
  rcases hsearch with ⟨s', g, hr, hg, hend⟩ | ⟨hnone, s', hr, hguard, hlast⟩
  · left
    refine ⟨g, hg, ?_⟩
    have hguard : guard n s' = false := by simp [guard, hend.level]
    have hi : ¬ s'.i = 0 := by
      rw [hend.level]
      omega
    obtain ⟨N, hN⟩ := Iterates.returns hr hguard
    refine ⟨N, ?_⟩
    intro fuel hfuel
    simp only [btFc, hs, ok_bind, hN fuel hfuel]
    simp [result, hi, hend.path, pure, Except.pure]
  · right
    refine ⟨hnone, ?_⟩
    intro htwo
    obtain ⟨N, hN⟩ := Iterates.raises hr hguard (hlast htwo)
    refine ⟨N, ?_⟩
    intro fuel hfuel
    simp only [btFc, hs, ok_bind, hN fuel hfuel]
    rfl

theorem btFc_eq (hn : 1 ≤ n) (hp : (pathTree n).first [] = some p) :
    ∃ N, ∀ fuel, N ≤ fuel → btFc fuel n = .ok (some (.path p)) := by
  rcases btFc_first hn with ⟨q, hq, h⟩ | ⟨hnone, -⟩
  · rw [hq] at hp
    obtain rfl := Option.some.inj hp
    exact h
  · rw [hnone] at hp
    cases hp

end Search

/-- **Forward checking agrees with plain backtracking.** -/
theorem btFc_agrees (n : ℕ) (hn : 1 ≤ n) (h : ∃ p, IsPlacement n p) :
    ∃ N path, ∀ fuel, N ≤ fuel → btFc fuel n = .ok (some (.path path)) ∧
      BackTrack.backTrackSearch fuel n = .ok (some (.path path)) := by
  obtain ⟨q, hq⟩ := h
  obtain ⟨p, hp⟩ := Option.isSome_iff_exists.mp (pathTree_complete hq)
  obtain ⟨N, hN⟩ := btFc_eq hn hp
  obtain ⟨M, hM⟩ := BackTrack.backTrackSearch_first hn
  rw [hp] at hM
  exact ⟨N + M, p, fun fuel hfuel => ⟨hN fuel (by omega), hM fuel (by omega)⟩⟩

/-- Four queens. -/
theorem btFc_agrees_four : ∃ N path, ∀ fuel, N ≤ fuel → btFc fuel 4 = .ok (some (.path path)) ∧
    BackTrack.backTrackSearch fuel 4 = .ok (some (.path path)) :=
  btFc_agrees 4 (by decide) ⟨[2, 4, 1, 3], rfl, by decide, by decide⟩

end BtFc

end ProjectArchive.Queens
