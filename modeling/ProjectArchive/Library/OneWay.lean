/-
ProjectArchive/Library/OneWay.lean

A direct-mapped cache is an LRU cache with one element in a set.

The access `a` is to `block a`, and `kind a` is what else the LRU cache is told
about it.  The element used last in a set is the block of the last access there
(`recent_one_usesOf`), so both caches find the same blocks, and the accesses
that one of them misses are those that the other one does
(`faults_one_eq_length_misses`).
-/
import ProjectArchive.Library.DirectMapped
import ProjectArchive.Library.Paging

namespace DirectMapped

open Lru

variable {α β σ ι : Type*} [DecidableEq β] [DecidableEq σ] {block : α → β} {set : β → σ}
  (kind : α → ι)

/-- One recent element is the last one. -/
theorem recent_one (h : List β) : recent 1 h = h.getLast?.toList := by
  induction h using List.reverseRecOn with
  | nil => rfl
  | append_singleton h b ih => rw [recent_one_concat, List.getLast?_concat, Option.toList_some]

omit [DecidableEq β] in
theorem usesOf_map (accesses : List α) (i : σ) :
    usesOf set i (accesses.map fun a => (block a, kind a)) =
      (accesses.filter fun a => set (block a) = i).map block := by
  unfold usesOf
  rw [List.map_map, List.filter_map]
  rfl

/-- The element used last in a set. -/
theorem recent_one_usesOf (accesses : List α) (i : σ) :
    recent 1 (usesOf set i (accesses.map fun a => (block a, kind a))) =
      ((lastIn block set accesses i).map block).toList := by
  unfold lastIn
  rw [usesOf_map, recent_one, List.getLast?_map]

/-- An access finds its block if and only if this is the recent one of its set. -/
theorem finds_iff (accesses : List α) (a : α) :
    Finds block set accesses a ↔
      block a ∈ recent 1 (usesOf set (set (block a)) (accesses.map fun a => (block a, kind a))) := by
  rw [recent_one_usesOf, Option.mem_toList]
  rfl

/-- **Both caches miss the same accesses.** -/
theorem faults_one_eq_length_misses [DecidableEq α] {accesses : List α} (h : accesses.Nodup) :
    faults set 1 (accesses.map fun a => (block a, kind a)) =
      (misses block set accesses).length := by
  induction accesses using List.reverseRecOn with
  | nil => rfl
  | append_singleton accesses a ih =>
      have hnodup := List.nodup_append.mp h
      have hnew : a ∉ accesses := fun ha => hnodup.2.2 a ha a (List.mem_singleton_self a) rfl
      have hmap : (accesses ++ [a]).map (fun a => (block a, kind a)) =
          accesses.map (fun a => (block a, kind a)) ++ [(block a, kind a)] := List.map_append
      rw [hmap, faults_concat, ih hnodup.1, misses_concat block set hnew, List.length_append]
      by_cases hfinds : Finds block set accesses a
      · rw [if_pos ((finds_iff kind accesses a).mp hfinds), if_pos hfinds]
        rfl
      · rw [if_neg fun hmem => hfinds ((finds_iff kind accesses a).mpr hmem), if_neg hfinds]
        rfl

end DirectMapped
