/-
ProjectArchive/Queens/Util.lean

The vocabulary of the n-queens searches: the variables and their domains, and
the constraint between two queens.

Python integers are integers.  A list is in Python's order; its end, which
`pop` takes, is the end of the Lean list.  The unused parts of `Node` (the
shuffled domain and the links) are left out.
-/
import Mathlib.Data.List.Basic
import Mathlib.Data.Int.Basic
import Mathlib.Tactic.Common

namespace ProjectArchive.Queens

/-! ### Python -/

/-- The exceptions the searches could raise. -/
inductive Fault
  | typeError | indexError | valueError
  deriving DecidableEq, Repr

/-- `l[i]`, where a negative index counts from the end. -/
def pyGet {α : Type} (l : List α) (i : ℤ) : Except Fault α :=
  let k := if 0 ≤ i then i else i + l.length
  if 0 ≤ k then
    match l[k.toNat]? with
    | some a => .ok a
    | none => .error .indexError
  else .error .indexError

theorem pyGet_natCast {α : Type} {l : List α} {i : ℕ} (h : i < l.length) :
    pyGet l i = .ok l[i] := by
  simp [pyGet, h]

/-- `l[-1]`. -/
theorem pyGet_neg_one {α : Type} {l : List α} (h : l ≠ []) :
    pyGet l (-1) = .ok (l.getLast h) := by
  have hpos : 0 < l.length := List.length_pos_iff.mpr h
  have hk : ((-1 : ℤ) + l.length).toNat = l.length - 1 := by omega
  have hnn : (0 : ℤ) ≤ -1 + l.length := by omega
  have hlt : l.length - 1 < l.length := by omega
  simp [pyGet, hnn, hk, List.getElem?_eq_getElem hlt, List.getLast_eq_getElem]

/-- `l[i] = a`, where a negative index counts from the end. -/
def pySet {α : Type} (l : List α) (i : ℤ) (a : α) : Except Fault (List α) :=
  let k := if 0 ≤ i then i else i + l.length
  if 0 ≤ k ∧ k < l.length then .ok (l.set k.toNat a) else .error .indexError

theorem pySet_natCast {α : Type} {l : List α} {i : ℕ} (h : i < l.length) (a : α) :
    pySet l i a = .ok (l.set i a) := by
  simp [pySet, h]

/-- `for v in d.copy(): if not p(v): d.remove(v)`. -/
def removeUnless (p : ℤ → Bool) (d : List ℤ) : List ℤ :=
  d.foldl (fun d v => if p v then d else d.erase v) d

/-- Removing the bad values one by one filters the list. -/
theorem removeUnless_eq_filter (p : ℤ → Bool) (d : List ℤ) : removeUnless p d = d.filter p := by
  -- the values walked so far are filtered, those to come are all still there
  have aux : ∀ todo done : List ℤ, (∀ v ∈ done, p v = true) →
      todo.foldl (fun d v => if p v then d else d.erase v) (done ++ todo) =
        done ++ todo.filter p := by
    intro todo
    induction todo with
    | nil => simp
    | cons v todo ih =>
        intro done hdone
        cases e : p v with
        | true =>
            have h := ih (done ++ [v]) (by simpa [or_imp, forall_and, e] using hdone)
            simpa [e] using h
        | false =>
            have hv : v ∉ done := fun hv => by simp [hdone v hv] at e
            have h := ih done hdone
            simpa [e, List.erase_append_right _ hv] using h
  simpa [removeUnless] using aux d [] (by simp)

/-! ### Variables -/

/-- `[x for x in range(1, n + 1)]`. -/
def values (n : ℕ) : List ℤ := (List.range n).map fun x : ℕ => (x : ℤ) + 1

theorem mem_values {n : ℕ} {v : ℤ} : v ∈ values n ↔ 1 ≤ v ∧ v ≤ n := by
  simp only [values, List.mem_map, List.mem_range]
  constructor
  · rintro ⟨x, hx, rfl⟩
    omega
  · intro h
    exact ⟨(v - 1).toNat, by omega, by omega⟩

/-- `Node`. -/
structure Node where
  dataval : List ℤ

/-- `Node.__init__`. -/
def Node.new (dataval : ℕ) : Node := ⟨values dataval⟩

/-- `Node.get_possible_val`. -/
def Node.getPossibleVal (nd : Node) : List ℤ := nd.dataval

/-- `Graph`. -/
structure Graph where
  nodeList : List Node

/-- `Graph.__init__`. -/
def Graph.new (nodeNum : ℕ) : Graph := ⟨(List.range nodeNum).map fun _ => Node.new nodeNum⟩

/-- `Graph.getNode`. -/
def Graph.getNode (g : Graph) (idx : ℤ) : Except Fault Node := pyGet g.nodeList idx

theorem Graph.getNode_new {n i : ℕ} (h : i < n) : (Graph.new n).getNode i = .ok (Node.new n) := by
  have hlt : i < (Graph.new n).nodeList.length := by simpa [Graph.new] using h
  rw [Graph.getNode, pyGet_natCast hlt]
  simp [Graph.new]

/-- `Queen`. -/
structure Queen where
  idx : ℤ
  position : List ℤ
  assigned : Bool
  deriving DecidableEq, Repr

/-- `Queen.__init__`. -/
def Queen.new (idx : ℤ) (chessboardSize : ℕ) : Queen := ⟨idx, values chessboardSize, false⟩

/-- `Queen.getDomainSize`. -/
def Queen.getDomainSize (q : Queen) : ℕ := q.position.length

/-- `Queen.setVal`. -/
def Queen.setVal (q : Queen) : Queen := { q with assigned := true }

/-! ### The constraint -/

/-- `constraint`. -/
def constraint (i j valI valJ : ℤ) : Bool :=
  valI ≠ valJ ∧ (i - j).natAbs ≠ (valI - valJ).natAbs

theorem constraint_iff {i j v w : ℤ} :
    constraint i j v w = true ↔ v ≠ w ∧ (i - j).natAbs ≠ (v - w).natAbs := by
  rw [constraint, decide_eq_true_eq]

theorem constraint_comm (i j v w : ℤ) : constraint i j v w = constraint j i w v := by
  have hcolumns : (i - j).natAbs = (j - i).natAbs := by omega
  have hrows : (v - w).natAbs = (w - v).natAbs := by omega
  simp only [constraint, hcolumns, hrows, ne_comm (a := v)]

/-- `consistent`. -/
def consistent (queenPose : List ℤ) : Bool :=
  (List.range queenPose.length).all fun first =>
    (List.range' (first + 1) (queenPose.length - (first + 1))).all fun second =>
      constraint first second (queenPose.getD first 0) (queenPose.getD second 0)

/-- The value `v` of the variable `k` is compatible with a path. -/
def fits (path : List ℤ) (k : ℕ) (v : ℤ) : Bool :=
  (List.range path.length).all fun j => constraint j k (path.getD j 0) v

theorem consistent_iff {p : List ℤ} : consistent p = true ↔
    ∀ i j, i < j → j < p.length → constraint i j (p.getD i 0) (p.getD j 0) = true := by
  simp only [consistent, List.all_eq_true, List.mem_range, List.mem_range'_1]
  constructor
  · intro h i j hij hj
    exact h i (by omega) j (by omega)
  · intro h i _ j hj
    exact h i j (by omega) (by omega)

theorem fits_iff {p : List ℤ} {k : ℕ} {v : ℤ} :
    fits p k v = true ↔ ∀ j < p.length, constraint j k (p.getD j 0) v = true := by
  simp [fits]

theorem getD_append_left {p : List ℤ} {v : ℤ} {j : ℕ} (h : j < p.length) :
    (p ++ [v]).getD j 0 = p.getD j 0 := by
  simp [List.getD_eq_getElem?_getD, List.getElem?_append_left h]

theorem getD_append_length (p : List ℤ) (v : ℤ) : (p ++ [v]).getD p.length 0 = v := by
  simp [List.getD_eq_getElem?_getD]

/-- A path extended by one value. -/
theorem consistent_append {p : List ℤ} {v : ℤ} :
    consistent (p ++ [v]) = true ↔ consistent p = true ∧ fits p p.length v = true := by
  rw [consistent_iff, consistent_iff, fits_iff]
  constructor
  · intro h
    constructor
    · intro i j hij hj
      have := h i j hij (by simp; omega)
      rwa [getD_append_left (by omega), getD_append_left hj] at this
    · intro j hj
      have := h j p.length hj (by simp)
      rwa [getD_append_left hj, getD_append_length] at this
  · rintro ⟨hp, hv⟩ i j hij hj
    have hj' : j < p.length + 1 := by simpa using hj
    rcases Nat.lt_succ_iff_lt_or_eq.mp hj' with hj' | rfl
    · rw [getD_append_left (by omega), getD_append_left hj']
      exact hp i j hij hj'
    · rw [getD_append_left hij, getD_append_length]
      exact hv i hij

theorem fits_append {p : List ℤ} {k : ℕ} {u v : ℤ} :
    fits (p ++ [u]) k v = (fits p k v && constraint p.length k u v) := by
  rw [Bool.eq_iff_iff, Bool.and_eq_true, fits_iff, fits_iff]
  constructor
  · intro h
    constructor
    · intro j hj
      have := h j (by simp; omega)
      rwa [getD_append_left hj] at this
    · have := h p.length (by simp)
      rwa [getD_append_length] at this
  · rintro ⟨hp, hv⟩ j hj
    have hj' : j < p.length + 1 := by simpa using hj
    rcases Nat.lt_succ_iff_lt_or_eq.mp hj' with hj' | rfl
    · rw [getD_append_left hj']
      exact hp j hj'
    · rw [getD_append_length]
      exact hv

/-- A placement of `n` queens that do not attack each other: the row of every column. -/
structure IsPlacement (n : ℕ) (p : List ℤ) : Prop where
  length : p.length = n
  range : ∀ v ∈ p, 1 ≤ v ∧ v ≤ n
  consistent : consistent p = true

/-- What a search returns: the message of an inconsistent problem, or a path. -/
inductive Outcome (α : Type)
  | inconsistent
  | path (p : α)
  deriving DecidableEq, Repr

end ProjectArchive.Queens
