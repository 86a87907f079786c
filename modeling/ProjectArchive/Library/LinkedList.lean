/-
ProjectArchive/Library/LinkedList.lean

Singly linked lists in memory.

A heap is the list of the nodes allocated so far; the address of a node is its
index, and nodes are not freed.  `Segment h p l t` says that following `next`
from `p` runs through the addresses `l` and ends in `t`, as a list segment does
in separation logic: segments are cut and joined by `segment_append`, and a
write outside of a segment leaves it alone (`Segment.congr`).
-/
import Mathlib.Data.List.Nodup
import Mathlib.Data.List.Perm.Subperm
import Mathlib.Tactic.Common

namespace LinkedList

variable {α : Type*}

/-- A node of a singly linked list. -/
structure Node (α : Type*) where
  value : α
  next : Option ℕ

/-- The nodes allocated so far. -/
abbrev Heap (α : Type*) := List (Node α)

/-- The heap after `a->next = p`. -/
def setNext (h : Heap α) (a : ℕ) (p : Option ℕ) : Heap α := h.modify a fun nd => { nd with next := p }

/-- Following `next` from a pointer runs through some addresses and ends in a pointer. -/
def Segment (h : Heap α) : Option ℕ → List ℕ → Option ℕ → Prop
  | p, [], t => p = t
  | p, a :: l, t => p = some a ∧ ∃ nd, h[a]? = some nd ∧ Segment h nd.next l t

/-- The values of the nodes at some addresses. -/
def valuesAt (h : Heap α) (l : List ℕ) : List α := l.filterMap fun a => h[a]?.map Node.value

/-- The values met on the way from a pointer, for at most `fuel` nodes. -/
def walk (h : Heap α) : ℕ → Option ℕ → List α
  | 0, _ => []
  | _ + 1, none => []
  | fuel + 1, some a =>
      match h[a]? with
      | none => []
      | some nd => nd.value :: walk h fuel nd.next

variable {h h' : Heap α} {p t : Option ℕ} {a b : ℕ} {l l' : List ℕ} {nd : Node α}

/-! ### Segments -/

theorem segment_append : Segment h p (l ++ l') t ↔ ∃ m, Segment h p l m ∧ Segment h m l' t := by
  induction l generalizing p with
  | nil => simp [Segment]
  | cons a l ih =>
      simp only [List.cons_append, Segment, ih]
      constructor
      · rintro ⟨rfl, nd, ha, m, hl, hl'⟩
        exact ⟨m, ⟨rfl, nd, ha, hl⟩, hl'⟩
      · rintro ⟨m, ⟨rfl, nd, ha, hl⟩, hl'⟩
        exact ⟨rfl, nd, ha, m, hl, hl'⟩

theorem Segment.lt_length (hs : Segment h p l t) (ha : a ∈ l) : a < h.length := by
  induction l generalizing p with
  | nil => cases ha
  | cons b l ih =>
      obtain ⟨-, nd, hb, hl⟩ := hs
      rcases List.mem_cons.mp ha with rfl | ha
      · exact (List.getElem?_eq_some_iff.mp hb).1
      · exact ih hl ha

/-- A segment depends on its own nodes only. -/
theorem Segment.congr (hs : Segment h p l t) (hl : ∀ a ∈ l, h'[a]? = h[a]?) :
    Segment h' p l t := by
  induction l generalizing p with
  | nil => exact hs
  | cons b l ih =>
      obtain ⟨hp, nd, hb, hrest⟩ := hs
      refine ⟨hp, nd, ?_, ih hrest fun a ha => hl a (List.mem_cons_of_mem _ ha)⟩
      rw [hl b (List.mem_cons_self ..), hb]

theorem valuesAt_congr (hl : ∀ a ∈ l, h'[a]?.map Node.value = h[a]?.map Node.value) :
    valuesAt h' l = valuesAt h l :=
  List.filterMap_congr hl

theorem valuesAt_append : valuesAt h (l ++ l') = valuesAt h l ++ valuesAt h l' :=
  List.filterMap_append

theorem valuesAt_cons (ha : h[a]? = some nd) : valuesAt h (a :: l) = nd.value :: valuesAt h l := by
  simp [valuesAt, ha]

/-- Allocation. -/
theorem getElem?_alloc (ha : a < h.length) : (h ++ [nd])[a]? = h[a]? :=
  List.getElem?_append_left ha

theorem Segment.alloc (hs : Segment h p l t) (nd : Node α) : Segment (h ++ [nd]) p l t :=
  hs.congr fun _ ha => getElem?_alloc (hs.lt_length ha)

theorem valuesAt_alloc (hs : Segment h p l t) (nd : Node α) :
    valuesAt (h ++ [nd]) l = valuesAt h l :=
  valuesAt_congr fun a ha => by rw [getElem?_alloc (hs.lt_length ha)]

/-! ### Writing a pointer -/

theorem getElem?_setNext_ne (hne : a ≠ b) : (setNext h a p)[b]? = h[b]? := by
  simp [setNext, hne]

theorem getElem?_setNext_self (ha : h[a]? = some nd) :
    (setNext h a p)[a]? = some { nd with next := p } := by
  simp [setNext, ha]

theorem valuesAt_setNext : valuesAt (setNext h a p) l = valuesAt h l := by
  apply valuesAt_congr
  intro b _
  rcases eq_or_ne a b with rfl | hne
  · rcases e : h[a]? with - | nd
    · rw [setNext, List.getElem?_modify, e]
      rfl
    · rw [getElem?_setNext_self e]
      rfl
  · rw [getElem?_setNext_ne hne]

theorem Segment.setNext_of_notMem (hs : Segment h p l t) (ha : a ∉ l) (q : Option ℕ) :
    Segment (setNext h a q) p l t := by
  apply hs.congr
  intro b hb
  exact getElem?_setNext_ne (by rintro rfl; exact ha hb)

/-- The end of a segment is the pointer in its last node. -/
theorem Segment.setNext_last (hs : Segment h p (l ++ [a]) t) (ha : a ∉ l) (q : Option ℕ) :
    Segment (setNext h a q) p (l ++ [a]) q := by
  obtain ⟨m, hl, rfl, nd, hnd, -⟩ := segment_append.mp hs
  exact segment_append.mpr ⟨_, hl.setNext_of_notMem ha q, rfl, _, getElem?_setNext_self hnd, rfl⟩

/-- A node that points to the rest of a list is inserted before it. -/
theorem Segment.insert {m : Option ℕ} (hs : Segment h p (l ++ [a]) m) (hrest : Segment h m l' t)
    (hb : h[b]? = some nd) (hnext : nd.next = m) (hnodup : (l ++ [a] ++ l').Nodup) (hab : a ≠ b) :
    Segment (setNext h a (some b)) p (l ++ [a] ++ b :: l') t := by
  obtain ⟨hla, -, hdisjoint⟩ := List.nodup_append.mp hnodup
  have hal : a ∉ l := fun h => (List.nodup_append.mp hla).2.2 a h a (by simp) rfl
  have hal' : a ∉ l' := fun h => hdisjoint a (by simp) a h rfl
  refine segment_append.mpr ⟨some b, hs.setNext_last hal _, rfl, nd, ?_, ?_⟩
  · rw [getElem?_setNext_ne hab, hb]
  · rw [hnext]
    exact hrest.setNext_of_notMem hal' _

/-! ### Reading a list -/

theorem walk_segment {fuel : ℕ} (hs : Segment h p l none) (hfuel : l.length ≤ fuel) :
    walk h fuel p = valuesAt h l := by
  induction l generalizing p fuel with
  | nil =>
      obtain rfl : p = none := hs
      cases fuel <;> rfl
  | cons a l ih =>
      obtain ⟨rfl, nd, ha, hl⟩ := hs
      obtain ⟨fuel, rfl⟩ : ∃ f, fuel = f + 1 := ⟨fuel - 1, by simp at hfuel; omega⟩
      rw [valuesAt_cons ha, walk, ha]
      simp only
      rw [ih hl (by simpa using hfuel)]

/-- A list has at most as many nodes as have been allocated. -/
theorem Segment.length_le (hs : Segment h p l t) (hnodup : l.Nodup) : l.length ≤ h.length := by
  have hsub : l ⊆ List.range h.length := fun a ha => List.mem_range.mpr (hs.lt_length ha)
  simpa using (hnodup.subperm hsub).length_le

end LinkedList
