/-
ProjectArchive/Library/Paging.lean

Least recently used replacement against replacement that knows the future.

`faults` counts the uses of a trace that are not of one of the `w` elements used
last in their set.  `Serves h` is any other way to serve the trace: a set holds
at most `h` elements, among them the one just used, and what it holds was held
before or has just been used.  The uses that do not find their element are its
misses, and it may give elements up whenever it likes.

A set is in a phase (`Phase`): the `p` elements that were used in the phase are
the `p` elements used last.  So they are all still there, and a phase has at
most `w` faults; while of the elements of a phase and the first one of the next
phase, `w + 1` in all, any other way to serve the trace held at most `h` when
the phase began.

Main result: `(w - h + 1) * faults ≤ w * misses` for every way to serve the
trace with `h ≤ w` (`Serves.faults_le`).
-/
import ProjectArchive.Library.Lru
import Mathlib.Algebra.BigOperators.Ring.Finset
import Mathlib.Algebra.Order.BigOperators.Group.Finset
import Mathlib.Tactic.Ring

namespace Lru

variable {α κ ι : Type*} [DecidableEq α]

/-! ### One more recent element -/

/-- An element that is not recent is used, and as many as before are kept beside it. -/
theorem recent_succ {a : α} {p : ℕ} {h : List α} (ha : a ∉ recent p h)
    (hlen : (recent p h).length = p) : recent (p + 1) (h ++ [a]) = recent p h ++ [a] := by
  obtain ⟨older, hsplit, -⟩ := exists_older p h
  have herase : ∃ older', h.dedup.erase a = older' ++ recent p h := by
    rw [hsplit]
    by_cases hold : a ∈ older
    · exact ⟨older.erase a, List.erase_append_left _ hold⟩
    · refine ⟨older, ?_⟩
      rw [List.erase_append_right _ hold, List.erase_of_not_mem ha]
  obtain ⟨older', herase⟩ := herase
  show (h ++ [a]).dedup.rtake (p + 1) = _
  rw [dedup_concat, herase, List.append_assoc]
  apply rtake_append_of_length
  rw [List.length_append, hlen]
  rfl

theorem recent_one_concat (h : List α) (a : α) : recent 1 (h ++ [a]) = [a] := by
  have hzero : recent 0 h = [] := List.rtake_zero ..
  have hsucc := recent_succ (a := a) (p := 0) (h := h) (by simp [hzero]) (by simp [hzero])
  rw [hzero] at hsucc
  exact hsucc

theorem card_recent (p : ℕ) (h : List α) : (recent p h).toFinset.card = (recent p h).length :=
  List.toFinset_card_of_nodup (recent_nodup p h)

/-! ### Phases -/

/-- A set of `w` elements in a phase, beside one that holds `held`: `p` elements have been used
in this phase, and when it began the other set held `start`, there had been `before` faults, and
the other set had missed `missed` times. -/
structure Phase (w h : ℕ) (past : List α) (held : Finset α) (faults misses p : ℕ)
    (start : Finset α) (before missed : ℕ) : Prop where
  le : p ≤ w
  length : (recent p past).length = p
  small : start.card ≤ h
  held : held ⊆ start ∪ (recent p past).toFinset
  faults : faults ≤ before + p
  misses : missed + ((recent p past).toFinset \ start).card ≤ misses
  /-- The phases before have been paid for, and what the other set held as well. -/
  paid : (w - h + 1) * before + w * start.card ≤ w * missed

section Phase

variable {w h faults misses p before missed : ℕ} {past : List α} {held start set : Finset α} {a : α}

theorem phase_nil (w h : ℕ) : Phase w h ([] : List α) ∅ 0 0 0 ∅ 0 0 where
  le := Nat.zero_le w
  length := rfl
  small := Nat.zero_le h
  held := Finset.empty_subset _
  faults := Nat.le_refl 0
  misses := Nat.le_refl 0
  paid := by simp

/-- An element that is new in the phase was held when the phase began, or is missed now. -/
theorem Phase.missed_le (hp : Phase w h past held faults misses p start before missed)
    (ha : a ∉ recent p past) :
    missed + (insert a (recent p past).toFinset \ start).card ≤
      misses + if a ∈ held then 0 else 1 := by
  have hmisses := hp.misses
  by_cases hstart : a ∈ start
  · rw [Finset.insert_sdiff_of_mem _ hstart]
    omega
  · have hheld : a ∉ held := by
      intro hin
      rcases Finset.mem_union.mp (hp.held hin) with hin | hin
      · exact hstart hin
      · exact ha (List.mem_toFinset.mp hin)
    rw [if_neg hheld, Finset.insert_sdiff_of_notMem _ hstart]
    have hcard := Finset.card_insert_le a ((recent p past).toFinset \ start)
    omega

/-- What is held after a use, when the phase goes on with `a` in it. -/
theorem Phase.held_insert (hp : Phase w h past held faults misses p start before missed)
    (hset : set ⊆ insert a held) : set ⊆ start ∪ insert a (recent p past).toFinset := by
  intro b hb
  rw [Finset.union_insert]
  rcases Finset.mem_insert.mp (hset hb) with rfl | hheld
  · exact Finset.mem_insert_self _ _
  · exact Finset.mem_insert_of_mem (hp.held hheld)

/-- **One use of the set.**  The phase goes on, or `w` elements have been used in it and the next
phase begins. -/
theorem Phase.use (hp : Phase w h past held faults misses p start before missed) (hw : 0 < w)
    (hh : h ≤ w) (ha : a ∈ set) (hset : set ⊆ insert a held) (hcard : set.card ≤ h) :
    ∃ p start before missed, Phase w h (past ++ [a]) set
      (faults + if a ∈ recent w past then 0 else 1) (misses + if a ∈ held then 0 else 1)
      p start before missed := by
  have hfaults := hp.faults
  by_cases hin : a ∈ recent p past
  · -- used again in the phase
    have hfinset : (recent p (past ++ [a])).toFinset = insert a (recent p past).toFinset := by
      rw [recent_of_mem hin]
      ext b
      by_cases hb : b = a
      · simp [hb]
      · simp [List.mem_erase_of_ne hb, hb]
    have hsame : insert a (recent p past).toFinset = (recent p past).toFinset :=
      Finset.insert_eq_of_mem (List.mem_toFinset.mpr hin)
    refine ⟨p, start, before, missed, hp.le, ?_, hp.small, ?_, ?_, ?_, hp.paid⟩
    · rw [recent_of_mem hin, List.length_append, List.length_erase_of_mem hin]
      show (recent p past).length - 1 + 1 = p
      rw [Nat.sub_add_cancel (List.length_pos_of_mem hin), hp.length]
    · rw [hfinset]
      exact hp.held_insert hset
    · rw [if_pos (recent_subset hp.le past hin)]
      exact hfaults
    · rw [hfinset, hsame]
      exact hp.misses.trans (Nat.le_add_right _ _)
  · have hone : (if a ∈ recent w past then 0 else 1) ≤ 1 := by
      split
      · exact Nat.zero_le 1
      · exact Nat.le_refl 1
    have hnew := hp.missed_le hin
    rcases Nat.lt_or_ge p w with hlt | hge
    · -- new in the phase
      have hrecent := recent_succ hin hp.length
      have hfinset : (recent (p + 1) (past ++ [a])).toFinset =
          insert a (recent p past).toFinset := by
        rw [hrecent]
        ext b
        simp
      refine ⟨p + 1, start, before, missed, hlt, ?_, hp.small, ?_, ?_, ?_, hp.paid⟩
      · rw [hrecent, List.length_append, hp.length]
        rfl
      · rw [hfinset]
        exact hp.held_insert hset
      · omega
      · rw [hfinset]
        exact hnew
    · -- the first of the next phase
      obtain rfl : p = w := Nat.le_antisymm hp.le hge
      have hrecent := recent_one_concat past a
      refine ⟨1, set, before + p, misses + if a ∈ held then 0 else 1, hw, ?_, hcard, ?_, ?_, ?_,
        ?_⟩
      · rw [hrecent]
        rfl
      · exact Finset.subset_union_left
      · omega
      · rw [hrecent]
        have hsub : [a].toFinset ⊆ set := by simpa using ha
        rw [Finset.sdiff_eq_empty_iff_subset.mpr hsub]
        exact Nat.le_refl _
      · -- `p + 1` elements, and at most `h` of them were held
        have hcount : p + 1 ≤ start.card + (insert a (recent p past).toFinset \ start).card := by
          have hinsert : (insert a (recent p past).toFinset).card = p + 1 := by
            rw [Finset.card_insert_of_notMem fun h => hin (List.mem_toFinset.mp h), card_recent,
              hp.length]
          have hle := Finset.le_card_sdiff start (insert a (recent p past).toFinset)
          omega
        have hpaid := hp.paid
        have hgap : (p - h + 1) + set.card ≤ p + 1 := by omega
        calc (p - h + 1) * (before + p) + p * set.card
            = (p - h + 1) * before + p * ((p - h + 1) + set.card) := by ring
          _ ≤ (p - h + 1) * before + p * (p + 1) :=
              Nat.add_le_add_left (Nat.mul_le_mul_left p hgap) _
          _ ≤ (p - h + 1) * before +
                p * (start.card + (insert a (recent p past).toFinset \ start).card) :=
              Nat.add_le_add_left (Nat.mul_le_mul_left p hcount) _
          _ = ((p - h + 1) * before + p * start.card) +
                p * (insert a (recent p past).toFinset \ start).card := by ring
          _ ≤ p * missed + p * (insert a (recent p past).toFinset \ start).card :=
              Nat.add_le_add_right hpaid _
          _ = p * (missed + (insert a (recent p past).toFinset \ start).card) := by ring
          _ ≤ p * (misses + if a ∈ held then 0 else 1) := Nat.mul_le_mul_left p hnew

/-- The faults of a set, in any phase. -/
theorem Phase.faults_le (hp : Phase w h past held faults misses p start before missed)
    (hh : 1 ≤ h) (hle : h ≤ w) : (w - h + 1) * faults ≤ w * misses := by
  have hcount : p ≤ start.card + ((recent p past).toFinset \ start).card := by
    have hsdiff := Finset.le_card_sdiff start (recent p past).toFinset
    rw [card_recent, hp.length] at hsdiff
    omega
  have hfactor : w - h + 1 ≤ w := by omega
  calc (w - h + 1) * faults
      ≤ (w - h + 1) * (before + p) := Nat.mul_le_mul_left _ hp.faults
    _ = (w - h + 1) * before + (w - h + 1) * p := Nat.mul_add ..
    _ ≤ (w - h + 1) * before + w * p := Nat.add_le_add_left (Nat.mul_le_mul_right p hfactor) _
    _ ≤ (w - h + 1) * before + w * (start.card + ((recent p past).toFinset \ start).card) :=
        Nat.add_le_add_left (Nat.mul_le_mul_left w hcount) _
    _ = ((w - h + 1) * before + w * start.card) + w * ((recent p past).toFinset \ start).card := by
        ring
    _ ≤ w * missed + w * ((recent p past).toFinset \ start).card :=
        Nat.add_le_add_right hp.paid _
    _ = w * (missed + ((recent p past).toFinset \ start).card) := by ring
    _ ≤ w * misses := Nat.mul_le_mul_left w hp.misses

end Phase

/-! ### All the sets -/

variable [DecidableEq κ] (index : α → κ)

/-- The faults of the uses to come, after those in `past`. -/
def faultsAfter (w : ℕ) (past : List (α × ι)) : List (α × ι) → ℕ
  | [] => 0
  | x :: trace =>
      (if x.1 ∈ recent w (usesOf index (index x.1) past) then 0 else 1) +
        faultsAfter w (past ++ [x]) trace

/-- The uses of a trace that are not of an element that is recent in its set. -/
def faults (w : ℕ) (trace : List (α × ι)) : ℕ := faultsAfter index w [] trace

theorem faultsAfter_concat (w : ℕ) (trace past : List (α × ι)) (x : α × ι) :
    faultsAfter index w past (trace ++ [x]) = faultsAfter index w past trace +
      if x.1 ∈ recent w (usesOf index (index x.1) (past ++ trace)) then 0 else 1 := by
  induction trace generalizing past with
  | nil => simp [faultsAfter]
  | cons y trace ih =>
      rw [List.cons_append, faultsAfter, faultsAfter, ih, Nat.add_assoc, List.append_assoc]
      rfl

theorem faults_concat (w : ℕ) (trace : List (α × ι)) (x : α × ι) :
    faults index w (trace ++ [x]) = faults index w trace +
      if x.1 ∈ recent w (usesOf index (index x.1) trace) then 0 else 1 :=
  faultsAfter_concat index w trace [] x

/-- `Serves h index trace held misses`: one way to serve `trace` with sets of at most `h` elements
ends with the elements `held`, and has missed `misses` times.  It may know the trace. -/
inductive Serves (h : ℕ) : List (α × ι) → (κ → Finset α) → ℕ → Prop
  | nil : Serves h [] (fun _ => ∅) 0
  | use {trace held misses} (x : α × ι) (set : Finset α) :
      Serves h trace held misses → x.1 ∈ set → set ⊆ insert x.1 (held (index x.1)) →
      set.card ≤ h →
      Serves h (trace ++ [x]) (Function.update held (index x.1) set)
        (misses + if x.1 ∈ held (index x.1) then 0 else 1)

variable {index} {w h misses : ℕ} {trace : List (α × ι)} {held : κ → Finset α}

omit [DecidableEq α] in
theorem usesOf_concat (trace : List (α × ι)) (x : α × ι) (i : κ) :
    usesOf index i (trace ++ [x]) =
      if i = index x.1 then usesOf index i trace ++ [x.1] else usesOf index i trace := by
  unfold usesOf
  rw [List.map_append, List.filter_append]
  split
  · rename_i heq
    simp [heq]
  · rename_i hne
    simp [Ne.symm hne]

/-- A sum in which one term has grown. -/
theorem sum_update_add {s : Finset κ} {i : κ} (hi : i ∈ s) (f : κ → ℕ) (n : ℕ) :
    ∑ j ∈ s, Function.update f i (f i + n) j = ∑ j ∈ s, f j + n := by
  rw [Finset.sum_update_of_mem hi, Finset.sum_eq_add_sum_sdiff_singleton_of_mem hi f]
  omega

/-- Every set is in a phase. -/
theorem Serves.phases (hs : Serves index h trace held misses) (hw : 0 < w) (hle : h ≤ w)
    {s : Finset κ} (hmem : ∀ x ∈ trace, index x.1 ∈ s) :
    ∃ f g : κ → ℕ,
      (∀ i, ∃ p start before missed,
        Phase w h (usesOf index i trace) (held i) (f i) (g i) p start before missed) ∧
      ∑ i ∈ s, f i = faults index w trace ∧ ∑ i ∈ s, g i = misses := by
  induction hs with
  | nil =>
      refine ⟨fun _ => 0, fun _ => 0, fun i => ⟨0, ∅, 0, 0, phase_nil w h⟩, ?_, ?_⟩
      · rw [Finset.sum_const_zero]
        rfl
      · exact Finset.sum_const_zero
  | @use trace held misses x set hs ha hset hcard ih =>
      have hx : index x.1 ∈ s := hmem x (List.mem_append_right _ (List.mem_singleton_self x))
      obtain ⟨f, g, hphase, hf, hg⟩ := ih fun y hy => hmem y (List.mem_append_left _ hy)
      obtain ⟨p, start, before, missed, hp⟩ := hphase (index x.1)
      have hnext := hp.use hw hle ha hset hcard
      refine ⟨Function.update f (index x.1) (f (index x.1) +
          if x.1 ∈ recent w (usesOf index (index x.1) trace) then 0 else 1),
        Function.update g (index x.1) (g (index x.1) + if x.1 ∈ held (index x.1) then 0 else 1),
        fun i => ?_, (sum_update_add hx f _).trans ?_, (sum_update_add hx g _).trans ?_⟩
      · rw [usesOf_concat]
        rcases eq_or_ne i (index x.1) with rfl | hne
        · -- the set that is used
          rw [if_pos rfl, Function.update_self, Function.update_self, Function.update_self]
          exact hnext
        · rw [if_neg hne, Function.update_of_ne hne, Function.update_of_ne hne,
            Function.update_of_ne hne]
          exact hphase i
      · rw [hf, faults_concat]
      · rw [hg]

/-- **No replacement does much better.**  A cache that holds at most `h ≤ w` elements in a set and
knows the whole trace misses at least `(w - h + 1) / w` as often as the `w` elements used last
do. -/
theorem Serves.faults_le (hs : Serves index h trace held misses) (hh : 1 ≤ h) (hle : h ≤ w) :
    (w - h + 1) * faults index w trace ≤ w * misses := by
  obtain ⟨f, g, hphase, hf, hg⟩ := hs.phases (Nat.lt_of_lt_of_le hh hle) hle
    (s := (trace.map fun x => index x.1).toFinset)
    fun x hx => List.mem_toFinset.mpr (List.mem_map_of_mem hx)
  rw [← hf, ← hg, Finset.mul_sum, Finset.mul_sum]
  refine Finset.sum_le_sum fun i _ => ?_
  obtain ⟨p, start, before, missed, hp⟩ := hphase i
  exact hp.faults_le hh hle

end Lru
