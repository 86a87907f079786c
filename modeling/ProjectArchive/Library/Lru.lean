/-
ProjectArchive/Library/Lru.lean

Least recently used replacement.

`recent w h` lists the `w` elements of a history that were used last, each once
and the least recent first.  A set of a cache is such a list in which every
element carries something, and a `Policy` says what: what an element carries
when it is brought in, and what becomes of that when it is used again.  The
elements in the sets do not depend on the policy (`Policy.keys_run`), and what
they carry under one policy is a function of what they carry under a finer one
(`Policy.Hom.run`).
-/
import Mathlib.Data.List.Dedup
import Mathlib.Data.List.DropRight
import Mathlib.Data.List.Nodup
import Mathlib.Logic.Function.Basic

namespace Lru

variable {α γ γ' ι κ : Type*}

/-! ### Recency -/

section Recent

variable {a : α} {w : ℕ} {h : List α}

theorem rtake_append_of_length {l₁ l₂ : List α} (hl : l₂.length = w) : (l₁ ++ l₂).rtake w = l₂ := by
  unfold List.rtake
  rw [List.length_append, hl, Nat.add_sub_cancel, List.drop_left]

theorem rtake_of_length_le {l : List α} (hl : l.length ≤ w) : l.rtake w = l := by
  unfold List.rtake
  rw [Nat.sub_eq_zero_of_le hl, List.drop_zero]

variable [DecidableEq α]

/-- The `w` distinct elements of a history that were used last. -/
def recent (w : ℕ) (h : List α) : List α := h.dedup.rtake w

theorem dedup_concat (h : List α) (a : α) : (h ++ [a]).dedup = h.dedup.erase a ++ [a] := by
  induction h with
  | nil => simp
  | cons b h ih =>
      by_cases hb : b ∈ h
      · rw [List.cons_append, List.dedup_cons_of_mem (List.mem_append_left _ hb),
          List.dedup_cons_of_mem hb, ih]
      · rw [List.dedup_cons_of_notMem hb]
        rcases eq_or_ne b a with rfl | hne
        · -- the only earlier use
          have hnot : b ∉ h.dedup := fun hmem => hb (List.mem_dedup.mp hmem)
          rw [List.cons_append, List.dedup_cons_of_mem (by simp), ih, List.erase_cons_head,
            List.erase_of_not_mem hnot]
        · have hnot : b ∉ h ++ [a] := by simp [hb, hne]
          rw [List.cons_append, List.dedup_cons_of_notMem hnot, ih,
            List.erase_cons_tail (by simpa using hne), List.cons_append]

/-- The elements before the recent ones. -/
theorem exists_older (w : ℕ) (h : List α) : ∃ older, h.dedup = older ++ recent w h ∧
    (older = [] ∨ (recent w h).length = w) := by
  refine ⟨h.dedup.take (h.dedup.length - w), (List.take_append_drop _ _).symm, ?_⟩
  unfold recent List.rtake
  rcases Nat.le_total h.dedup.length w with hle | hle
  · left
    rw [Nat.sub_eq_zero_of_le hle, List.take_zero]
  · right
    rw [List.length_drop]
    omega

theorem recent_nodup (w : ℕ) (h : List α) : (recent w h).Nodup :=
  h.nodup_dedup.sublist (List.drop_sublist _ _)

theorem length_recent_le (w : ℕ) (h : List α) : (recent w h).length ≤ w := by
  unfold recent List.rtake
  rw [List.length_drop]
  omega

/-- More elements are recent when more are kept. -/
theorem recent_subset {w w' : ℕ} (hw : w ≤ w') (h : List α) : recent w h ⊆ recent w' h :=
  (List.drop_sublist_drop_left _ (Nat.sub_le_sub_left hw _)).subset

/-- A recent element is used. -/
theorem recent_of_mem (ha : a ∈ recent w h) :
    recent w (h ++ [a]) = (recent w h).erase a ++ [a] := by
  obtain ⟨older, hsplit, hlen⟩ := exists_older w h
  have hnot : a ∉ older := by
    have hnodup := h.nodup_dedup
    rw [hsplit] at hnodup
    exact fun hold => (List.nodup_append.mp hnodup).2.2 a hold a ha rfl
  have hlength : ((recent w h).erase a ++ [a]).length = (recent w h).length := by
    rw [List.length_append, List.length_erase_of_mem ha]
    exact Nat.sub_add_cancel (List.length_pos_of_mem ha)
  unfold recent at hlength hsplit ha hlen ⊢
  rw [dedup_concat, hsplit, List.erase_append_right _ hnot, List.append_assoc, ← hsplit]
  rcases hlen with rfl | hlen
  · rw [List.nil_append]
    exact rtake_of_length_le (hlength.trans_le (length_recent_le w h))
  · exact rtake_append_of_length (hlength.trans hlen)

/-- An element that is not recent is used, and there is room. -/
theorem recent_of_length_lt (ha : a ∉ recent w h) (hlt : (recent w h).length < w) :
    recent w (h ++ [a]) = recent w h ++ [a] := by
  obtain ⟨older, hsplit, rfl | hlen⟩ := exists_older w h
  · rw [List.nil_append] at hsplit
    rw [← hsplit] at ha hlt ⊢
    unfold recent
    rw [dedup_concat, List.erase_of_not_mem ha]
    refine rtake_of_length_le ?_
    rw [List.length_append]
    exact hlt
  · exact absurd hlen (Nat.ne_of_lt hlt)

/-- An element that is not recent is used, and the least recent one is not any more. -/
theorem recent_of_length_eq (ha : a ∉ recent w h) {b : α} {l : List α}
    (hl : recent w h = b :: l) (hlen : (b :: l).length = w) :
    recent w (h ++ [a]) = l ++ [a] := by
  obtain ⟨older, hsplit, -⟩ := exists_older w h
  have herase : h.dedup.erase a = (older.erase a ++ [b]) ++ l := by
    rw [hsplit, hl, List.append_assoc]
    by_cases hold : a ∈ older
    · rw [List.erase_append_left _ hold]
      rfl
    · rw [List.erase_append_right _ hold, List.erase_of_not_mem hold,
        List.erase_of_not_mem (hl ▸ ha)]
      rfl
  unfold recent
  rw [dedup_concat, herase, List.append_assoc]
  refine rtake_append_of_length ?_
  rw [List.length_append]
  exact hlen

end Recent

/-- The elements of a set that a trace uses. -/
def usesOf [DecidableEq κ] (index : α → κ) (i : κ) (trace : List (α × ι)) : List α :=
  (trace.map Prod.fst).filter fun a => index a = i

/-- After a trace, a use of `a` replaces `b`: `a` is not recent, and `b` is the least recent
element of a full set. -/
def Replaces [DecidableEq α] [DecidableEq κ] (w : ℕ) (index : α → κ) (trace : List (α × ι))
    (a b : α) : Prop :=
  a ∉ recent w (usesOf index (index a) trace) ∧
    ∃ l, recent w (usesOf index (index a) trace) = b :: l ∧ (b :: l).length = w

theorem mem_usesOf [DecidableEq κ] {index : α → κ} {i : κ} {trace : List (α × ι)} {a : α} :
    a ∈ usesOf index i trace ↔ a ∈ trace.map Prod.fst ∧ index a = i := by
  unfold usesOf
  rw [List.mem_filter, decide_eq_true_iff]

section Replaces

variable [DecidableEq α] [DecidableEq κ] {w : ℕ} {index : α → κ} {trace : List (α × ι)} {a b c : α}

/-- A recent element of a set has been used, and is one of this set. -/
theorem mem_usesOf_of_recent {i : κ} (h : b ∈ recent w (usesOf index i trace)) :
    b ∈ trace.map Prod.fst ∧ index b = i :=
  mem_usesOf.mp (List.mem_dedup.mp ((List.drop_sublist _ _).subset h))

theorem Replaces.index_eq (h : Replaces w index trace a b) : index b = index a := by
  obtain ⟨-, l, hl, -⟩ := h
  exact (mem_usesOf_of_recent (hl ▸ List.mem_cons_self ..)).2

theorem Replaces.unique (h : Replaces w index trace a b) (h' : Replaces w index trace a c) :
    b = c := by
  obtain ⟨-, l, hl, -⟩ := h
  obtain ⟨-, l', hl', -⟩ := h'
  exact (List.cons.inj (hl.symm.trans hl')).1

end Replaces

/-! ### Caches -/

/-- What an element carries after a use of some kind: when it is in its set, and
when it is brought in, into a set that is full or is not. -/
structure Policy (ι γ : Type*) where
  hit : ι → γ → γ
  fill : Bool → ι → γ

/-- The sets of a cache, each with the least recent element first, and what has
been replaced. -/
structure State (κ α γ : Type*) where
  sets : κ → List (α × γ)
  evicted : List (α × γ)

namespace Policy

/-- An element of a set, cut out of it. -/
theorem exists_split {set : List (α × γ)} {a : α} (hnodup : (set.map Prod.fst).Nodup)
    (ha : a ∈ set.map Prod.fst) :
    ∃ l₁ g l₂, set = l₁ ++ (a, g) :: l₂ ∧ a ∉ l₁.map Prod.fst ∧ a ∉ l₂.map Prod.fst := by
  obtain ⟨⟨b, g⟩, he, rfl⟩ := List.mem_map.mp ha
  obtain ⟨l₁, l₂, rfl⟩ := List.append_of_mem he
  rw [List.map_append, List.map_cons] at hnodup
  have hnot := (List.nodup_cons.mp (List.nodup_middle.mp hnodup)).1
  rw [List.mem_append, not_or] at hnot
  exact ⟨l₁, g, l₂, rfl, hnot.1, hnot.2⟩

variable [DecidableEq α] (P : Policy ι γ) {w : ℕ} {a : α} {k : ι} {g : γ} {set l₁ l₂ : List (α × γ)}

/-- The set after a use of `a`, and the element that is replaced, if any. -/
def accessSet (w : ℕ) (a : α) (k : ι) (set : List (α × γ)) : List (α × γ) × List (α × γ) :=
  match set.find? fun e => e.1 = a with
  | some e => (set.filter (fun e => e.1 ≠ a) ++ [(a, P.hit k e.2)], [])
  | none =>
      if set.length < w then (set ++ [(a, P.fill false k)], [])
      else (set.tail ++ [(a, P.fill true k)], set.take 1)

theorem filter_ne_of_notMem (ha : a ∉ set.map Prod.fst) :
    set.filter (fun e => e.1 ≠ a) = set := by
  refine List.filter_eq_self.mpr ?_
  intro e he
  have hne : e.1 ≠ a := fun heq => ha (heq ▸ List.mem_map_of_mem he)
  simpa using hne

theorem find?_eq_none (ha : a ∉ set.map Prod.fst) : (set.find? fun e => e.1 = a) = none := by
  refine List.find?_eq_none.mpr ?_
  intro e he heq
  have hea : e.1 = a := by simpa using heq
  exact ha (hea ▸ List.mem_map_of_mem he)

theorem accessSet_of_split (h₁ : a ∉ l₁.map Prod.fst) (h₂ : a ∉ l₂.map Prod.fst) :
    P.accessSet w a k (l₁ ++ (a, g) :: l₂) = (l₁ ++ l₂ ++ [(a, P.hit k g)], []) := by
  have hfind : ((l₁ ++ (a, g) :: l₂).find? fun e => e.1 = a) = some (a, g) := by
    rw [List.find?_append, find?_eq_none h₁, Option.none_or, List.find?_cons_of_pos (by simp)]
  unfold accessSet
  rw [hfind, List.filter_append, filter_ne_of_notMem h₁,
    List.filter_cons_of_neg (by simp), filter_ne_of_notMem h₂]

theorem accessSet_of_notMem (ha : a ∉ set.map Prod.fst) :
    P.accessSet w a k set =
      if set.length < w then (set ++ [(a, P.fill false k)], [])
      else (set.tail ++ [(a, P.fill true k)], set.take 1) := by
  unfold accessSet
  rw [find?_eq_none ha]

/-- One use, in the set that `index` gives. -/
def access [DecidableEq κ] (w : ℕ) (index : α → κ) (s : State κ α γ) (x : α × ι) : State κ α γ :=
  let r := P.accessSet w x.1 x.2 (s.sets (index x.1))
  { sets := Function.update s.sets (index x.1) r.1
    evicted := s.evicted ++ r.2 }

/-- Some uses, beginning with an empty cache. -/
def run [DecidableEq κ] (w : ℕ) (index : α → κ) (trace : List (α × ι)) : State κ α γ :=
  trace.foldl (P.access w index) ⟨fun _ => [], []⟩

@[simp] theorem run_nil [DecidableEq κ] (index : α → κ) :
    P.run w index [] = ⟨fun _ => [], []⟩ := rfl

@[simp] theorem run_concat [DecidableEq κ] (index : α → κ) (trace : List (α × ι)) (x : α × ι) :
    P.run w index (trace ++ [x]) = P.access w index (P.run w index trace) x :=
  List.foldl_concat ..

/-! ### Which elements are in the sets -/

/-- The elements of a set after a use are those used last. -/
theorem keys_accessSet (hw : 0 < w) {h : List α} (hset : set.map Prod.fst = recent w h) :
    (P.accessSet w a k set).1.map Prod.fst = recent w (h ++ [a]) := by
  by_cases ha : a ∈ set.map Prod.fst
  · have hnodup : (set.map Prod.fst).Nodup := by
      rw [hset]
      exact recent_nodup w h
    obtain ⟨l₁, g, l₂, rfl, h₁, h₂⟩ := exists_split hnodup ha
    rw [P.accessSet_of_split h₁ h₂, recent_of_mem (hset ▸ ha), ← hset]
    simp only [List.map_append, List.map_cons, List.map_nil]
    rw [List.erase_append_right _ h₁, List.erase_cons_head]
  · rw [P.accessSet_of_notMem ha]
    have hlength : set.length = (recent w h).length := by
      rw [← hset, List.length_map]
    split
    · rename_i hlt
      rw [recent_of_length_lt (hset ▸ ha) (hlength ▸ hlt), ← hset, List.map_append]
      rfl
    · rename_i hge
      have hfull : set.length = w :=
        Nat.le_antisymm (hlength.trans_le (length_recent_le w h)) (Nat.not_lt.mp hge)
      rcases set with - | ⟨b, set⟩
      · exact absurd hw (Nat.not_lt.mpr (Nat.le_of_eq hfull.symm))
      · rw [recent_of_length_eq (hset ▸ ha) (b := b.1) (l := set.map Prod.fst) hset.symm
          (by simpa using hfull), List.tail_cons, List.map_append]
        rfl

/-- **The elements of a set are the `w` distinct ones of this set used last.** -/
theorem keys_run [DecidableEq κ] (hw : 0 < w) (index : α → κ) (trace : List (α × ι)) (i : κ) :
    ((P.run w index trace).sets i).map Prod.fst = recent w (usesOf index i trace) := by
  induction trace using List.reverseRecOn with
  | nil => simp [recent, usesOf, List.rtake]
  | append_singleton trace x ih =>
      unfold usesOf at ih ⊢
      rw [P.run_concat, List.map_append, List.filter_append]
      unfold access
      dsimp only
      rcases eq_or_ne i (index x.1) with rfl | hne
      · -- the set that is used
        rw [Function.update_self, P.keys_accessSet hw ih]
        simp
      · rw [Function.update_of_ne hne, ih]
        simp [hne.symm]

theorem keys_nodup [DecidableEq κ] (hw : 0 < w) (index : α → κ) (trace : List (α × ι)) (i : κ) :
    (((P.run w index trace).sets i).map Prod.fst).Nodup := by
  rw [P.keys_run hw]
  exact recent_nodup _ _

/-- A set of the cache after a trace, and after one more use. -/
theorem sets_concat [DecidableEq κ] (index : α → κ) (trace : List (α × ι)) (x : α × ι) (i : κ) :
    (P.run w index (trace ++ [x])).sets i =
      if i = index x.1 then (P.accessSet w x.1 x.2 ((P.run w index trace).sets i)).1
      else (P.run w index trace).sets i := by
  rw [P.run_concat]
  unfold access
  dsimp only
  split
  · rename_i heq
    rw [heq, Function.update_self]
  · rename_i hne
    rw [Function.update_of_ne hne]

theorem evicted_concat [DecidableEq κ] (index : α → κ) (trace : List (α × ι)) (x : α × ι) :
    (P.run w index (trace ++ [x])).evicted = (P.run w index trace).evicted ++
      (P.accessSet w x.1 x.2 ((P.run w index trace).sets (index x.1))).2 := by
  rw [P.run_concat]
  rfl

theorem evicted_subset [DecidableEq κ] (index : α → κ) (trace rest : List (α × ι)) :
    (P.run w index trace).evicted ⊆ (P.run w index (trace ++ rest)).evicted := by
  induction rest using List.reverseRecOn with
  | nil => rw [List.append_nil]; exact List.Subset.refl _
  | append_singleton rest x ih =>
      rw [← List.append_assoc, P.evicted_concat]
      exact List.subset_append_of_subset_left _ ih

/-- A use is a hit, it fills a set that has room, or it replaces the least recent element. -/
theorem accessSet_cases [DecidableEq κ] (hw : 0 < w) (index : α → κ) (trace : List (α × ι)) (a : α)
    (k : ι) :
    (∃ l₁ g l₂, (P.run w index trace).sets (index a) = l₁ ++ (a, g) :: l₂ ∧
      a ∉ (l₁ ++ l₂).map Prod.fst ∧
      P.accessSet w a k ((P.run w index trace).sets (index a)) =
        (l₁ ++ l₂ ++ [(a, P.hit k g)], [])) ∨
    (a ∉ ((P.run w index trace).sets (index a)).map Prod.fst ∧
      P.accessSet w a k ((P.run w index trace).sets (index a)) =
        ((P.run w index trace).sets (index a) ++ [(a, P.fill false k)], []) ∧
      ¬∃ b, Replaces w index trace a b) ∨
    (∃ e l, (P.run w index trace).sets (index a) = e :: l ∧
      a ∉ ((P.run w index trace).sets (index a)).map Prod.fst ∧
      P.accessSet w a k ((P.run w index trace).sets (index a)) =
        (l ++ [(a, P.fill true k)], [e]) ∧
      Replaces w index trace a e.1) := by
  have hkeys := P.keys_run hw index trace (index a)
  have hle := length_recent_le w (usesOf index (index a) trace)
  generalize (P.run w index trace).sets (index a) = set at hkeys ⊢
  by_cases ha : a ∈ set.map Prod.fst
  · left
    have hnodup : (set.map Prod.fst).Nodup := by
      rw [hkeys]
      exact recent_nodup _ _
    obtain ⟨l₁, g, l₂, rfl, h₁, h₂⟩ := exists_split hnodup ha
    refine ⟨l₁, g, l₂, rfl, ?_, P.accessSet_of_split h₁ h₂⟩
    rw [List.map_append, List.mem_append, not_or]
    exact ⟨h₁, h₂⟩
  · right
    have hlength : set.length = (recent w (usesOf index (index a) trace)).length := by
      rw [← hkeys, List.length_map]
    rw [P.accessSet_of_notMem ha]
    rcases Nat.lt_or_ge set.length w with hlt | hge
    · left
      rw [if_pos hlt]
      refine ⟨ha, rfl, ?_⟩
      rintro ⟨b, -, l, hl, hlen⟩
      rw [hlength, hl] at hlt
      exact Nat.ne_of_lt hlt hlen
    · right
      rw [if_neg (Nat.not_lt.mpr hge)]
      rcases set with - | ⟨e, l⟩
      · exact absurd hw (Nat.not_lt.mpr hge)
      · refine ⟨e, l, rfl, ha, rfl, hkeys ▸ ha, l.map Prod.fst, hkeys.symm, ?_⟩
        rw [hkeys.symm, List.length_map] at hle
        rw [List.length_cons, List.length_map]
        exact Nat.le_antisymm hle hge

/-! ### Policies that forget -/

/-- What an element carries under `P'` is `f` of what it carries under `P`. -/
structure Hom (f : γ → γ') (P : Policy ι γ) (P' : Policy ι γ') : Prop where
  hit : ∀ k g, P'.hit k (f g) = f (P.hit k g)
  fill : ∀ full k, P'.fill full k = f (P.fill full k)

variable {P} {P' : Policy ι γ'} {f : γ → γ'}

theorem Hom.accessSet (hf : Hom f P P') (w : ℕ) (a : α) (k : ι) (set : List (α × γ)) :
    P'.accessSet w a k (set.map (Prod.map id f)) =
      ((P.accessSet w a k set).1.map (Prod.map id f),
        (P.accessSet w a k set).2.map (Prod.map id f)) := by
  have hfind : ((set.map (Prod.map id f)).find? fun e => e.1 = a) =
      (set.find? fun e => e.1 = a).map (Prod.map id f) := List.find?_map ..
  unfold Policy.accessSet
  rcases e : set.find? (fun e => decide (e.1 = a)) with - | x
  · rw [hfind, e]
    simp only [Option.map_none, List.length_map, hf.fill]
    split
    · simp
    · simp [List.map_tail, List.map_take]
  · rw [hfind, e]
    simp [List.filter_map, hf.hit, Function.comp_def]

/-- **What is in the sets, and what has been replaced, is the same under both.** -/
theorem Hom.run [DecidableEq κ] (hf : Hom f P P') (w : ℕ) (index : α → κ)
    (trace : List (α × ι)) :
    (∀ i, (P'.run w index trace).sets i = ((P.run w index trace).sets i).map (Prod.map id f)) ∧
      (P'.run w index trace).evicted = (P.run w index trace).evicted.map (Prod.map id f) := by
  induction trace using List.reverseRecOn with
  | nil => exact ⟨fun _ => rfl, rfl⟩
  | append_singleton trace x ih =>
      obtain ⟨hsets, hevicted⟩ := ih
      rw [P.run_concat, P'.run_concat]
      unfold access
      dsimp only
      rw [hsets, hf.accessSet, hevicted]
      refine ⟨?_, (List.map_append ..).symm⟩
      intro i
      rcases eq_or_ne i (index x.1) with rfl | hne
      · rw [Function.update_self, Function.update_self]
      · rw [Function.update_of_ne hne, Function.update_of_ne hne, hsets]

end Policy

end Lru
