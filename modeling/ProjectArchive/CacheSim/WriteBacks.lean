/-
ProjectArchive/CacheSim/WriteBacks.lean

The counter `writebacks` against a write-back cache.

In a write-back cache that allocates on a write, a block is dirty if it has been
written since it was brought in.  `cachesim_access` clears `dirty` whenever a
block replaces another one, also if the access is a write, and so a block that
was brought in like this is not counted when it is evicted, unless it is written
once more before that (`Forgets`).  Both policies are images of `markPolicy`,
which tells the three fates of a block apart, and the run of `markPolicy` says
that such blocks are the only ones that are not counted.
-/
import ProjectArchive.CacheSim.Refinement

namespace ProjectArchive.CacheSim

open Exec Lru

/-! ### The policies -/

/-- The reference: a block is dirty if it was brought in by a write, or has been
written since then. -/
def writeBackPolicy : Policy Bool Bool where
  hit write dirty := write || dirty
  fill _ write := write

/-- A block has not been written, `dirty` says that it has, or `dirty` does not. -/
inductive Mark
  | clean
  | dirty
  | forgotten
  deriving DecidableEq

/-- What becomes of the blocks. -/
def markPolicy : Policy Bool Mark where
  hit write mark := if write then .dirty else mark
  fill full write := if write then (if full then .forgotten else .dirty) else .clean

theorem hom_codePolicy : Policy.Hom (fun mark => decide (mark = .dirty)) markPolicy codePolicy where
  hit := by
    intro write mark
    cases write <;> cases mark <;> rfl
  fill := by
    intro full write
    cases full <;> cases write <;> rfl

theorem hom_writeBackPolicy :
    Policy.Hom (fun mark => decide (mark ≠ .clean)) markPolicy writeBackPolicy where
  hit := by
    intro write mark
    cases write <;> cases mark <;> rfl
  fill := by
    intro full write
    cases full <;> cases write <;> rfl

/-- A written block is counted in both, or forgotten. -/
theorem countP_written {α : Type*} (l : List (α × Mark)) :
    (l.map (Prod.map id fun mark => decide (mark ≠ Mark.clean))).countP Prod.snd =
      (l.map (Prod.map id fun mark => decide (mark = Mark.dirty))).countP Prod.snd +
        l.countP fun e => e.2 = .forgotten := by
  induction l with
  | nil => rfl
  | cons e l ih =>
      obtain ⟨a, mark⟩ := e
      simp only [List.map_cons, List.countP_cons, ih]
      cases mark <;> simp <;> omega

/-! ### The forgotten blocks -/

/-- Two entries of a set for the same block are one. -/
theorem mark_eq {α : Type*} {b : α} {set : List (α × Mark)} (hnodup : (set.map Prod.fst).Nodup) {mark mark' : Mark}
    (h : (b, mark) ∈ set) (h' : (b, mark') ∈ set) : mark = mark' :=
  (Prod.mk.inj (List.inj_on_of_nodup_map hnodup h h' rfl)).2

theorem ne_of_mem {α : Type*} {a b : α} {set : List (α × Mark)} {mark : Mark} (h : (b, mark) ∈ set)
    (hnot : a ∉ set.map Prod.fst) : b ≠ a := by
  rintro rfl
  exact hnot (List.mem_map_of_mem h)

section Forgotten

variable {α κ : Type*} [DecidableEq α] [DecidableEq κ] {w : ℕ} {index : α → κ}
  {trace pre mid : List (α × Bool)} {b v : α} {i : κ}

/-- A block is brought in by a write that replaces another block, and is replaced
itself without having been written again. -/
def Forgets (w : ℕ) (index : α → κ) (trace : List (α × Bool)) : Prop :=
  ∃ pre b mid c rest, trace = pre ++ (b, true) :: (mid ++ c :: rest) ∧
    (∃ v, Replaces w index pre b v) ∧ (b, true) ∉ mid ∧
    Replaces w index (pre ++ (b, true) :: mid) c.1 b

/-- The block `b` of the set `i` was brought in by a write that replaced another
block, and has not been written again. -/
def Brought (w : ℕ) (index : α → κ) (trace : List (α × Bool)) (i : κ) (b : α) : Prop :=
  ∃ pre mid, trace = pre ++ (b, true) :: mid ∧ index b = i ∧ (∃ v, Replaces w index pre b v) ∧
    (b, true) ∉ mid

theorem Brought.concat (h : Brought w index trace i b) {x : α × Bool} (hx : x ≠ (b, true)) :
    Brought w index (trace ++ [x]) i b := by
  obtain ⟨pre, mid, rfl, hi, hreplaces, hmid⟩ := h
  refine ⟨pre, mid ++ [x], by simp, hi, hreplaces, ?_⟩
  rw [List.mem_append, List.mem_singleton, not_or]
  exact ⟨hmid, hx.symm⟩

theorem Forgets.append (h : Forgets w index trace) (rest' : List (α × Bool)) :
    Forgets w index (trace ++ rest') := by
  obtain ⟨pre, b, mid, c, rest, rfl, hreplaces, hmid, hc⟩ := h
  exact ⟨pre, b, mid, c, rest ++ rest', by simp, hreplaces, hmid, hc⟩

/-- A forgotten block in a set. -/
theorem brought_of_mem (hw : 0 < w)
    (h : (b, Mark.forgotten) ∈ (markPolicy.run w index trace).sets i) :
    Brought w index trace i b := by
  induction trace using List.reverseRecOn with
  | nil => cases h
  | append_singleton trace x ih =>
      rw [Policy.sets_concat] at h
      by_cases hi : i = index x.1
      · subst hi
        rw [if_pos rfl] at h
        have hold : (b, Mark.forgotten) ∈ (markPolicy.run w index trace).sets (index x.1) →
            b ≠ x.1 → Brought w index (trace ++ [x]) (index x.1) b :=
          fun hmem hne => (ih hmem).concat fun hx => hne (congrArg Prod.fst hx).symm
        rcases markPolicy.accessSet_cases hw index trace x.1 x.2 with
          ⟨l₁, g, l₂, hset, hnot, heq⟩ | ⟨hnot, heq, -⟩ | ⟨e, l, hset, hnot, heq, hreplaces⟩
        · rw [heq] at h
          rcases List.mem_append.mp h with h | h
          · refine hold ?_ (ne_of_mem h hnot)
            rw [hset]
            exact (List.perm_middle.mem_iff).mpr (List.mem_cons_of_mem _ h)
          · -- a read leaves a forgotten block as it is
            obtain ⟨rfl, hmark⟩ := Prod.mk.inj (List.mem_singleton.mp h)
            rcases x with ⟨a, write⟩
            cases write with
            | true => cases hmark
            | false =>
                refine (ih ?_).concat (by simp)
                rw [hset, hmark]
                exact List.mem_append_right _ (List.mem_cons_self ..)
        · rw [heq] at h
          rcases List.mem_append.mp h with h | h
          · exact hold h (ne_of_mem h hnot)
          · obtain ⟨-, hmark⟩ := Prod.mk.inj (List.mem_singleton.mp h)
            rcases x with ⟨a, write⟩
            cases write <;> cases hmark
        · rw [heq] at h
          rcases List.mem_append.mp h with h | h
          · have hmem : (b, Mark.forgotten) ∈ (markPolicy.run w index trace).sets (index x.1) := by
              rw [hset]
              exact List.mem_cons_of_mem _ h
            exact hold hmem (ne_of_mem hmem hnot)
          · -- the block is brought in here
            obtain ⟨rfl, hmark⟩ := Prod.mk.inj (List.mem_singleton.mp h)
            rcases x with ⟨a, write⟩
            cases write with
            | false => cases hmark
            | true => exact ⟨trace, [], rfl, rfl, ⟨e.1, hreplaces⟩, List.not_mem_nil⟩
      · rw [if_neg hi] at h
        have hbrought := ih h
        refine hbrought.concat ?_
        rintro rfl
        obtain ⟨-, -, -, hb, -⟩ := hbrought
        exact hi hb.symm

/-- A forgotten block that has been evicted. -/
theorem forgets_of_mem_evicted (hw : 0 < w) {e : α × Mark}
    (he : e ∈ (markPolicy.run w index trace).evicted) (hforgotten : e.2 = .forgotten) :
    Forgets w index trace := by
  induction trace using List.reverseRecOn with
  | nil => cases he
  | append_singleton trace x ih =>
      rw [Policy.evicted_concat] at he
      rcases List.mem_append.mp he with he | he
      · exact (ih he).append [x]
      · rcases markPolicy.accessSet_cases hw index trace x.1 x.2 with
          ⟨l₁, g, l₂, -, -, heq⟩ | ⟨-, heq, -⟩ | ⟨e', l, hset, -, heq, hreplaces⟩
        · rw [heq] at he
          cases he
        · rw [heq] at he
          cases he
        · rw [heq] at he
          obtain rfl := List.mem_singleton.mp he
          have hmem : (e.1, Mark.forgotten) ∈ (markPolicy.run w index trace).sets (index x.1) := by
            rw [hset, ← hforgotten]
            exact List.mem_cons_self ..
          obtain ⟨pre, mid, rfl, -, hbrought, hmid⟩ := brought_of_mem hw hmem
          exact ⟨pre, e.1, mid, x, [], by simp, hbrought, hmid, hreplaces⟩

/-- A block is forgotten as long as it is not written again, and has not been evicted. -/
theorem mem_of_brought (hw : 0 < w) (h : Brought w index trace i b) :
    (b, Mark.forgotten) ∈ (markPolicy.run w index trace).sets i ∨
      ∃ e ∈ (markPolicy.run w index trace).evicted, e.2 = .forgotten := by
  obtain ⟨pre, mid, rfl, rfl, ⟨v, hv⟩, hmid⟩ := h
  induction mid using List.reverseRecOn with
  | nil =>
      left
      rw [Policy.sets_concat, if_pos rfl]
      rcases markPolicy.accessSet_cases hw index pre b true with
        ⟨l₁, g, l₂, hset, -, -⟩ | ⟨-, -, hnone⟩ | ⟨e, l, -, -, heq, -⟩
      · refine absurd ?_ hv.1
        rw [← markPolicy.keys_run hw, hset, List.map_append]
        exact List.mem_append_right _ (List.mem_cons_self ..)
      · exact absurd ⟨v, hv⟩ hnone
      · rw [heq]
        exact List.mem_append_right _ (List.mem_singleton.mpr rfl)
  | append_singleton mid x ih =>
      rw [List.mem_append, List.mem_singleton, not_or] at hmid
      have htrace : pre ++ (b, true) :: (mid ++ [x]) = (pre ++ (b, true) :: mid) ++ [x] := by simp
      rw [htrace]
      rcases ih hmid.1 with hmem | ⟨e, he, hforgotten⟩
      · rw [Policy.sets_concat, Policy.evicted_concat]
        by_cases hi : index b = index x.1
        · rw [if_pos hi, hi]
          rw [hi] at hmem
          rcases markPolicy.accessSet_cases hw index (pre ++ (b, true) :: mid) x.1 x.2 with
            ⟨l₁, g, l₂, hset, -, heq⟩ | ⟨-, heq, -⟩ | ⟨e, l, hset, -, heq, -⟩
          · left
            rw [heq]
            by_cases hb : b = x.1
            · -- the block is read
              rcases x with ⟨a, write⟩
              obtain rfl : b = a := hb
              cases write with
              | true => exact absurd rfl hmid.2
              | false =>
                  have hg : (b, g) ∈ (markPolicy.run w index (pre ++ (b, true) :: mid)).sets
                      (index b) := by
                    rw [hset]
                    exact List.mem_append_right _ (List.mem_cons_self ..)
                  obtain rfl := mark_eq (markPolicy.keys_nodup hw index _ _) hmem hg
                  exact List.mem_append_right _ (List.mem_singleton.mpr rfl)
            · rw [hset] at hmem
              rcases List.mem_cons.mp ((List.perm_middle.mem_iff).mp hmem) with hmem | hmem
              · exact absurd (congrArg Prod.fst hmem) hb
              · exact List.mem_append_left _ hmem
          · left
            rw [heq]
            exact List.mem_append_left _ hmem
          · rw [heq]
            rw [hset] at hmem
            rcases List.mem_cons.mp hmem with rfl | hmem
            · exact .inr ⟨_, List.mem_append_right _ (List.mem_singleton.mpr rfl), rfl⟩
            · exact .inl (List.mem_append_left _ hmem)
        · left
          rw [if_neg hi]
          exact hmem
      · exact .inr ⟨e, markPolicy.evicted_subset index _ _ he, hforgotten⟩

/-- **Forgotten blocks are evicted if and only if the trace forgets one.** -/
theorem forgets_iff (hw : 0 < w) : Forgets w index trace ↔
    ∃ e ∈ (markPolicy.run w index trace).evicted, e.2 = .forgotten := by
  constructor
  · rintro ⟨pre, b, mid, c, rest, rfl, hreplaces, hmid, hc⟩
    have htrace : pre ++ (b, true) :: (mid ++ c :: rest) =
        (pre ++ (b, true) :: mid ++ [c]) ++ rest := by simp
    obtain ⟨e, he, hforgotten⟩ : ∃ e ∈ (markPolicy.run w index
        (pre ++ (b, true) :: mid ++ [c])).evicted, e.2 = .forgotten := by
      rcases mem_of_brought hw ⟨pre, mid, rfl, rfl, hreplaces, hmid⟩ with hmem | ⟨e, he, h⟩
      · rcases markPolicy.accessSet_cases hw index (pre ++ (b, true) :: mid) c.1 c.2 with
          ⟨l₁, g, l₂, hset, -, -⟩ | ⟨-, -, hnone⟩ | ⟨e, l, hset, -, heq, hb⟩
        · refine absurd ?_ hc.1
          rw [← markPolicy.keys_run hw, hset, List.map_append]
          exact List.mem_append_right _ (List.mem_cons_self ..)
        · exact absurd ⟨b, hc⟩ hnone
        · rw [hc.index_eq, hset] at hmem
          rw [Policy.evicted_concat, heq]
          refine ⟨e, List.mem_append_right _ (List.mem_singleton.mpr rfl), ?_⟩
          have hnodup := markPolicy.keys_nodup hw index (pre ++ (b, true) :: mid) (index c.1)
          rw [hset] at hnodup
          exact mark_eq hnodup (hb.unique hc ▸ List.mem_cons_self ..) hmem
      · exact ⟨e, markPolicy.evicted_subset index _ _ he, h⟩
    rw [htrace]
    exact ⟨e, markPolicy.evicted_subset index _ _ he, hforgotten⟩
  · rintro ⟨e, he, hforgotten⟩
    exact forgets_of_mem_evicted hw he hforgotten

end Forgotten

/-! ### The counter -/

variable {blocksize cachesize ways : ℕ} {trace : List (BitVec 64 × Bool)}

/-- The evictions of dirty blocks in the write-back cache. -/
def referenceWritebacks (blocksize cachesize ways : ℕ) (trace : List (BitVec 64 × Bool)) : ℕ :=
  (lruRun writeBackPolicy blocksize cachesize ways trace).evicted.countP Prod.snd

/-- The reference counts the evictions that the simulator counts, and those of
forgotten blocks. -/
theorem referenceWritebacks_eq :
    referenceWritebacks blocksize cachesize ways trace =
      (lruRun codePolicy blocksize cachesize ways trace).evicted.countP Prod.snd +
        (lruRun markPolicy blocksize cachesize ways trace).evicted.countP
          fun e => e.2 = .forgotten := by
  have hcode := (hom_codePolicy.run ways (fun block => block % setsOf blocksize cachesize ways)
    (blocksOf blocksize trace)).2
  have hreference := (hom_writeBackPolicy.run ways
    (fun block => block % setsOf blocksize cachesize ways) (blocksOf blocksize trace)).2
  unfold referenceWritebacks lruRun
  rw [hcode, hreference]
  exact countP_written _

/-- **The counter is that of the write-back cache if and only if the trace forgets no
block.** -/
theorem writebacks_eq_reference_iff {b m : ℕ} (hb : blocksize = 2 ^ b)
    (hm : setsOf blocksize cachesize ways = 2 ^ m) (hways : 1 ≤ ways)
    (htrace : ∀ x ∈ trace, x.1.toNat < 2 ^ 32) :
    Ends ((cachesimInit blocksize cachesize ways).run trace) fun s =>
      s.writebacks = referenceWritebacks blocksize cachesize ways trace ↔
        ¬Forgets ways (fun block => block % setsOf blocksize cachesize ways)
          (blocksOf blocksize trace) := by
  obtain ⟨s, hs, -, hrep⟩ := run_ends hb hm hways htrace
  refine ⟨s, hs, ?_⟩
  show s.writebacks = referenceWritebacks blocksize cachesize ways trace ↔ _
  rw [hrep.writebacks, referenceWritebacks_eq, forgets_iff hways]
  show _ ↔ ¬∃ e ∈ (lruRun markPolicy blocksize cachesize ways trace).evicted, e.2 = .forgotten
  rw [Nat.left_eq_add, List.countP_eq_zero]
  simp only [decide_eq_true_iff, not_exists, not_and]

/-- One way, one set, blocks of one byte: block 1 replaces block 0 and is written to
in the same access, and again before it is evicted. -/
theorem writebacks_eq_reference_iff_rewritten :
    Ends ((cachesimInit 1 1 1).run [(0#64, true), (1#64, true), (1#64, true), (2#64, false)])
      fun s => s.writebacks =
          referenceWritebacks 1 1 1 [(0#64, true), (1#64, true), (1#64, true), (2#64, false)] ↔
        ¬Forgets 1 (fun block => block % setsOf 1 1 1)
          (blocksOf 1 [(0#64, true), (1#64, true), (1#64, true), (2#64, false)]) :=
  writebacks_eq_reference_iff (b := 0) (m := 0) rfl rfl (by decide) (by simp)

/-- Block 1 replaces block 0, is written to in the same access, and is evicted: the
simulator does not count it. -/
theorem writebacks_ne_reference :
    ¬∀ (blocksize cachesize ways b m : ℕ) (trace : List (BitVec 64 × Bool)),
      blocksize = 2 ^ b → setsOf blocksize cachesize ways = 2 ^ m → 1 ≤ ways →
      (∀ x ∈ trace, x.1.toNat < 2 ^ 32) →
      Ends ((cachesimInit blocksize cachesize ways).run trace) fun s =>
        s.writebacks = referenceWritebacks blocksize cachesize ways trace := by
  intro h
  obtain ⟨s, hs, hwritebacks⟩ := h 1 1 1 0 0 [(0#64, true), (1#64, true), (2#64, false)] rfl rfl
    (by decide) (by simp)
  have hrun : ((cachesimInit 1 1 1).run [(0#64, true), (1#64, true), (2#64, false)]).map
      Sim.writebacks = .ok 1 := rfl
  rw [hs] at hrun
  have hone : s.writebacks = 1 := Except.ok.inj hrun
  have htwo : referenceWritebacks 1 1 1 [(0#64, true), (1#64, true), (2#64, false)] = 2 := rfl
  rw [hone, htwo] at hwritebacks
  cases hwritebacks

end ProjectArchive.CacheSim
