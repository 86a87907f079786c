/-
ProjectArchive/CacheSim/LruStack.lean

What the rows and the LRU stack of a set say.

The ways of a set are filled from the left, and the stack holds first the ways
that are still empty and then the others, from the least to the most recently
used one.  `SetOk` lists the filled ways in this order, each with its block and
whether it is dirty.  It finds the way that `update_cachesim_lru_access` looks
for, and the end of the stack from which `lru_stack_kickout` takes its victim is
a filled way once no way is empty.
-/
import ProjectArchive.CacheSim.Cachesim
import Mathlib.Data.List.Perm.Basic
import Mathlib.Data.List.Range

namespace ProjectArchive.CacheSim

open Exec Memory

/-- The tag of a block, as an `int`. -/
def tagOf (indexLength block : ℕ) : ℤ := (BitVec.ofNat 32 (block / 2 ^ indexLength)).toInt

/-- A filled way. -/
structure Way where
  way : ℕ
  block : ℕ
  dirty : Bool

/-- The tag in the row of a filled way. -/
def Way.tag (indexLength : ℕ) (e : Way) : ℤ := tagOf indexLength e.block

variable {s s' : Sim} {k : ℕ} {ways ways₁ ways₂ : List Way}

/-- The stack of a set of `count` ways. -/
def stackOf (count : ℕ) (ways : List Way) : List ℕ :=
  List.range' ways.length (count - ways.length) ++ ways.map Way.way

/-- The set `k` has the ways `ways` filled, the least recently used one first. -/
structure SetOk (s : Sim) (k : ℕ) (ways : List Way) : Prop where
  prefix_ : (ways.map Way.way).Perm (List.range ways.length)
  room : ways.length ≤ s.waysCount
  stack : Holds s.lruStack.cell (k * s.waysCount) (stackOf s.waysCount ways)
  row : ∀ e ∈ ways, s.cache.cell (k * s.waysCount + e.way) =
    ⟨true, tagOf s.indexLength e.block, e.dirty⟩
  empty : ∀ i, ways.length ≤ i → i < s.waysCount →
    (s.cache.cell (k * s.waysCount + i)).valid = false

/-- The sizes of the arrays. -/
structure Sized (s : Sim) : Prop where
  pos : 0 < s.waysCount
  cache : s.cache.size = s.cacheCount * s.waysCount
  lruStack : s.lruStack.size = s.cacheCount * s.waysCount

theorem length_stackOf (h : ways.length ≤ s.waysCount) :
    (stackOf s.waysCount ways).length = s.waysCount := by
  unfold stackOf
  rw [List.length_append, List.length_range', List.length_map, Nat.sub_add_cancel h]

/-- The rows of a set are inside of the arrays. -/
theorem row_lt (hk : k < s.cacheCount) {i : ℕ} (hi : i < s.waysCount) :
    k * s.waysCount + i < s.cacheCount * s.waysCount := by
  calc k * s.waysCount + i < k * s.waysCount + s.waysCount := Nat.add_lt_add_left hi _
    _ = (k + 1) * s.waysCount := (Nat.succ_mul k _).symm
    _ ≤ s.cacheCount * s.waysCount := Nat.mul_le_mul_right _ hk

/-- A set is in place as long as its own cells are. -/
theorem SetOk.congr (h : SetOk s k ways) (hcount : s'.waysCount = s.waysCount)
    (hlength : s'.indexLength = s.indexLength)
    (hcache : ∀ i < s.waysCount,
      s'.cache.cell (k * s.waysCount + i) = s.cache.cell (k * s.waysCount + i))
    (hstack : ∀ i < s.waysCount,
      s'.lruStack.cell (k * s.waysCount + i) = s.lruStack.cell (k * s.waysCount + i)) :
    SetOk s' k ways where
  prefix_ := h.prefix_
  room := hcount ▸ h.room
  stack := by
    rw [hcount]
    refine h.stack.congr ?_
    intro n hle hlt
    rw [length_stackOf h.room] at hlt
    obtain ⟨i, rfl⟩ := Nat.exists_eq_add_of_le hle
    exact hstack i (by omega)
  row := by
    intro e he
    have hlt : e.way < s.waysCount := by
      have hmem := h.prefix_.subset (List.mem_map_of_mem he)
      exact (List.mem_range.mp hmem).trans_le h.room
    rw [hcount, hlength, hcache e.way hlt]
    exact h.row e he
  empty := by
    intro i hle hlt
    rw [hcount] at hlt ⊢
    rw [hcache i hlt]
    exact h.empty i hle hlt

theorem SetOk.way_lt (h : SetOk s k ways) {e : Way} (he : e ∈ ways) : e.way < ways.length :=
  List.mem_range.mp (h.prefix_.subset (List.mem_map_of_mem he))

/-- Every way on the left is filled. -/
theorem SetOk.exists_way (h : SetOk s k ways) {i : ℕ} (hi : i < ways.length) :
    ∃ e ∈ ways, e.way = i :=
  List.mem_map.mp (h.prefix_.symm.subset (List.mem_range.mpr hi))

theorem SetOk.nodup (h : SetOk s k ways) : (ways.map Way.way).Nodup :=
  h.prefix_.nodup_iff.mpr List.nodup_range

/-- At first every way is empty, and the stack holds the ways from the left to the right. -/
theorem setOk_cachesimInit (blocksize cachesize ways k : ℕ) :
    SetOk (cachesimInit blocksize cachesize ways) k [] := by
  refine ⟨List.Perm.refl _, Nat.zero_le _, ?_, ?_, fun _ _ _ => rfl⟩
  · refine holds_iff.mpr ?_
    intro j x hj
    show (k * ways + j) % ways = x
    have hstack : stackOf ways [] = List.range' 0 ways := by simp [stackOf]
    have hget : (List.range' 0 ways)[j]? = some x := hstack ▸ hj
    obtain ⟨hlt, hx⟩ := List.getElem?_eq_some_iff.mp hget
    rw [List.length_range'] at hlt
    rw [List.getElem_range'] at hx
    rw [Nat.mul_comm, Nat.mul_add_mod, Nat.mod_eq_of_lt hlt]
    omega
  · intro e he
    cases he

/-! ### `update_cachesim_lru_access` -/

/-- The way is found. -/
theorem findLocation_eq {lruStack : Block ℕ} {memLocation way j : ℕ} {l₁ l₂ : List ℕ}
    (h : Holds lruStack.cell (memLocation + j) (l₁ ++ way :: l₂)) (hnot : way ∉ l₁)
    (hsize : memLocation + j + l₁.length < lruStack.size) :
    Sim.findLocation lruStack memLocation way (l₁ ++ way :: l₂).length j =
      .ok ((j : ℤ) + l₁.length) := by
  induction l₁ generalizing j with
  | nil =>
      rw [List.length_nil, Nat.add_zero] at hsize
      rw [List.nil_append, List.length_cons, Sim.findLocation, ← Int.natCast_add,
        Block.load_natCast hsize, ok_bind, h.1, if_pos rfl, List.length_nil]
      simp
      rfl
  | cons x l₁ ih =>
      rw [List.length_cons] at hsize
      rw [List.mem_cons, not_or] at hnot
      obtain ⟨hx, hnot⟩ := hnot
      have hrest := ih (j := j + 1) h.2 hnot (by omega)
      rw [List.cons_append, List.length_cons, Sim.findLocation, ← Int.natCast_add,
        Block.load_natCast (by omega), ok_bind, h.1, if_neg (Ne.symm hx), hrest, List.length_cons]
      congr 1
      omega

/-- A way is moved to the right end of the stack of its set. -/
theorem updateCachesimLruAccess_ends (hs : Sized s) (hk : k < s.cacheCount) {way : ℕ}
    {l₁ l₂ : List ℕ} (h : Holds s.lruStack.cell (k * s.waysCount) (l₁ ++ way :: l₂))
    (hlen : (l₁ ++ way :: l₂).length = s.waysCount) (hnot : way ∉ l₁) :
    Ends (s.updateCachesimLruAccess k way) fun s' =>
      s' = { s with lruStack := s'.lruStack } ∧ s'.lruStack.size = s.lruStack.size ∧
        Holds s'.lruStack.cell (k * s.waysCount) (l₁ ++ l₂ ++ [way]) ∧
        ∀ n, n < k * s.waysCount ∨ k * s.waysCount + s.waysCount ≤ n →
          s'.lruStack.cell n = s.lruStack.cell n := by
  have hlength : l₁.length + l₂.length + 1 = s.waysCount := by
    rw [← hlen, List.length_append, List.length_cons]
    omega
  have hsize : k * s.waysCount + (l₁.length + l₂.length) < s.lruStack.size := by
    rw [hs.lruStack]
    exact row_lt hk (by omega)
  have hfind : Sim.findLocation s.lruStack (k * s.waysCount) way s.waysCount 0 =
      .ok (l₁.length : ℤ) := by
    have h0 : Holds s.lruStack.cell (k * s.waysCount + 0) (l₁ ++ way :: l₂) := h
    have hfind := findLocation_eq h0 hnot (by omega)
    rw [hlen] at hfind
    rw [hfind]
    simp
  obtain ⟨b, hrotate, hbsize, hb, hothers⟩ := rotate_ends h hsize
  obtain ⟨b₁, hshift, hstore⟩ := bind_eq_ok hrotate
  have hrounds : ((s.waysCount : ℤ) - 1 - l₁.length).toNat = l₂.length := by omega
  have haddr : ((k * s.waysCount : ℕ) : ℤ) + s.waysCount - 1 =
      (k * s.waysCount : ℕ) + ((l₁.length : ℤ) + l₂.length) := by omega
  unfold Sim.updateCachesimLruAccess
  dsimp only
  rw [hfind, ok_bind, hrounds, hshift, ok_bind, haddr, hstore]
  refine .ok ⟨rfl, hbsize, hb, ?_⟩
  intro n hn
  exact hothers n (by omega)

/-! ### `lru_stack_kickout` -/

/-- The least recently used way is the victim, and becomes the most recently used one. -/
theorem lruStackKickout_ends (hs : Sized s) (hk : k < s.cacheCount) {way : ℕ} {l : List ℕ}
    (h : Holds s.lruStack.cell (k * s.waysCount) (way :: l)) (hlen : (way :: l).length = s.waysCount)
    (hway : way < s.waysCount) :
    Ends (s.lruStackKickout k) fun r => r.1 = way ∧
      r.2 = { s with
        writebacks :=
          if (s.cache.cell (k * s.waysCount + way)).dirty then s.writebacks + 1 else s.writebacks
        lruStack := r.2.lruStack } ∧
      r.2.lruStack.size = s.lruStack.size ∧
      Holds r.2.lruStack.cell (k * s.waysCount) (l ++ [way]) ∧
      ∀ n, n < k * s.waysCount ∨ k * s.waysCount + s.waysCount ≤ n →
        r.2.lruStack.cell n = s.lruStack.cell n := by
  rw [List.length_cons] at hlen
  have hfirst : k * s.waysCount < s.lruStack.size := by
    rw [hs.lruStack]
    exact row_lt hk hs.pos
  have hrow : k * s.waysCount + way < s.cache.size := by
    rw [hs.cache]
    exact row_lt hk hway
  have hsize : k * s.waysCount + (([] : List ℕ).length + l.length) < s.lruStack.size := by
    rw [hs.lruStack]
    exact row_lt hk (by rw [List.length_nil]; omega)
  have hholds : Holds s.lruStack.cell (k * s.waysCount) ([] ++ way :: l) := h
  obtain ⟨b, hrotate, hbsize, hb, hothers⟩ := rotate_ends hholds hsize
  obtain ⟨b₁, hshift, hstore⟩ := bind_eq_ok hrotate
  have hrounds : s.waysCount - 1 = l.length := by omega
  have hbase : ((k * s.waysCount : ℕ) : ℤ) + (([] : List ℕ).length : ℕ) = (k * s.waysCount : ℕ) := by
    simp
  have haddr : ((k * s.waysCount : ℕ) : ℤ) + s.waysCount - 1 =
      (k * s.waysCount : ℕ) + ((([] : List ℕ).length : ℤ) + l.length) := by
    rw [List.length_nil]
    omega
  rw [hbase] at hshift
  unfold Sim.lruStackKickout
  dsimp only
  rw [Block.load_natCast hfirst, ok_bind, h.1, ← Int.natCast_add, Block.load_natCast hrow, ok_bind,
    hrounds, hshift, ok_bind, haddr, hstore]
  refine .ok ⟨rfl, rfl, hbsize, hb, ?_⟩
  intro n hn
  refine hothers n ?_
  rw [List.length_nil]
  omega

/-! ### The sets after an access -/

/-- A cell of a set is none of another set. -/
theorem row_ne {k k' i j count : ℕ} (hkk : k' ≠ k) (hi : i < count) (hj : j < count) :
    k' * count + j ≠ k * count + i := by
  intro heq
  have hdiv : ∀ m n, n < count → (m * count + n) / count = m := by
    intro m n hn
    rw [Nat.mul_comm, Nat.mul_add_div (Nat.lt_of_le_of_lt (Nat.zero_le n) hn),
      Nat.div_eq_of_lt hn, Nat.add_zero]
  exact hkk ((hdiv k' j hj).symm.trans ((congrArg (· / count) heq).trans (hdiv k i hi)))

/-- The cells outside of a set. -/
theorem row_outside {k k' j count : ℕ} (hkk : k' ≠ k) (hj : j < count) :
    k' * count + j < k * count ∨ k * count + count ≤ k' * count + j := by
  rcases Nat.lt_or_gt_of_ne hkk with hlt | hgt
  · left
    calc k' * count + j < k' * count + count := Nat.add_lt_add_left hj _
      _ = (k' + 1) * count := (Nat.succ_mul k' count).symm
      _ ≤ k * count := Nat.mul_le_mul_right _ hlt
  · right
    calc k * count + count = (k + 1) * count := (Nat.succ_mul k count).symm
      _ ≤ k' * count := Nat.mul_le_mul_right _ hgt
      _ ≤ k' * count + j := Nat.le_add_right _ _

/-- Only the set `k` may have changed. -/
structure Elsewhere (s : Sim) (k : ℕ) (s' : Sim) : Prop where
  waysCount : s'.waysCount = s.waysCount
  cacheCount : s'.cacheCount = s.cacheCount
  blockLength : s'.blockLength = s.blockLength
  indexLength : s'.indexLength = s.indexLength
  cacheSize : s'.cache.size = s.cache.size
  lruStackSize : s'.lruStack.size = s.lruStack.size
  cache : ∀ k' ≠ k, ∀ j < s.waysCount,
    s'.cache.cell (k' * s.waysCount + j) = s.cache.cell (k' * s.waysCount + j)
  lruStack : ∀ k' ≠ k, ∀ j < s.waysCount,
    s'.lruStack.cell (k' * s.waysCount + j) = s.lruStack.cell (k' * s.waysCount + j)

theorem Elsewhere.sized (h : Elsewhere s k s') (hs : Sized s) : Sized s' where
  pos := h.waysCount ▸ hs.pos
  cache := by rw [h.cacheSize, h.cacheCount, h.waysCount, hs.cache]
  lruStack := by rw [h.lruStackSize, h.cacheCount, h.waysCount, hs.lruStack]

/-- The other sets stay. -/
theorem Elsewhere.setOk (h : Elsewhere s k s') {k' : ℕ} (hkk : k' ≠ k) (hset : SetOk s k' ways) :
    SetOk s' k' ways :=
  hset.congr h.waysCount h.indexLength (h.cache k' hkk) (h.lruStack k' hkk)

/-- The row of a way is written, and the stack of its set. -/
theorem elsewhere_of_cache {i : ℕ} {row : CacheRow} (hi : i < s.waysCount)
    (hways : s'.waysCount = s.waysCount) (hsets : s'.cacheCount = s.cacheCount)
    (hblock : s'.blockLength = s.blockLength) (hindex : s'.indexLength = s.indexLength)
    (hcache : s'.cache = s.cache.set (k * s.waysCount + i) row)
    (hsize : s'.lruStack.size = s.lruStack.size)
    (hothers : ∀ n, n < k * s.waysCount ∨ k * s.waysCount + s.waysCount ≤ n →
      s'.lruStack.cell n = s.lruStack.cell n) : Elsewhere s k s' := by
  refine ⟨hways, hsets, hblock, hindex, ?_, hsize, ?_, ?_⟩
  · rw [hcache, Block.set_size]
  · intro k' hkk j hj
    rw [hcache]
    exact Block.set_cell_ne (row_ne hkk hi hj)
  · intro k' hkk j hj
    exact hothers _ (row_outside hkk hj)

end ProjectArchive.CacheSim
