/-
ProjectArchive/CacheSim/Access.lean

`cachesim_access` refines a cache with least recently used replacement.

The loop over the ways stops at the way that has the tag, at the first empty
way, or at the last way; which of the three it is depends on whether the block
is in its set, and whether the set is full.  In each case the set changes as
the set of an LRU cache does under the policy `codePolicy`, which is what the
three writes to `dirty` amount to.
-/
import ProjectArchive.CacheSim.LruStack
import ProjectArchive.Library.Lru

namespace ProjectArchive.CacheSim

open Exec Memory Lru

variable {s s' : Sim} {k : ℕ} {ways ways₁ ways₂ : List Way} {tagValue : ℤ} {write : Bool}

/-! ### Addresses -/

theorem tagValue_eq (s : Sim) (physicalAddr : BitVec 64) :
    s.tagValue physicalAddr = tagOf s.indexLength (physicalAddr.toNat / 2 ^ s.blockLength) := by
  unfold Sim.tagValue tagOf
  congr 1
  apply BitVec.eq_of_toNat_eq
  rw [BitVec.toNat_setWidth, BitVec.toNat_ushiftRight, Nat.shiftRight_add,
    Nat.shiftRight_eq_div_pow, Nat.shiftRight_eq_div_pow, BitVec.toNat_ofNat]

theorem indexValue_eq (s : Sim) (physicalAddr : BitVec 64) :
    s.indexValue physicalAddr =
      physicalAddr.toNat / 2 ^ s.blockLength % 2 ^ s.indexLength := by
  unfold Sim.indexValue
  rw [Nat.one_shiftLeft, Nat.and_two_pow_sub_one_eq_mod, BitVec.toNat_ushiftRight,
    Nat.shiftRight_eq_div_pow]

/-- The tag tells the blocks of a set apart. -/
theorem tagOf_inj {indexLength block block' : ℕ} (hlt : block < 2 ^ 32) (hlt' : block' < 2 ^ 32)
    (hindex : block % 2 ^ indexLength = block' % 2 ^ indexLength)
    (htag : tagOf indexLength block = tagOf indexLength block') : block = block' := by
  have hdiv : block / 2 ^ indexLength = block' / 2 ^ indexLength := by
    have htags := congrArg BitVec.toNat (BitVec.toInt_inj.mp htag)
    rw [BitVec.toNat_ofNat, BitVec.toNat_ofNat,
      Nat.mod_eq_of_lt ((Nat.div_le_self _ _).trans_lt hlt),
      Nat.mod_eq_of_lt ((Nat.div_le_self _ _).trans_lt hlt')] at htags
    exact htags
  rw [← Nat.div_add_mod block (2 ^ indexLength), ← Nat.div_add_mod block' (2 ^ indexLength), hdiv,
    hindex]

/-! ### The sets after an access -/

/-- A filled way is used for a block, and becomes the most recently used one. -/
theorem SetOk.touch {e e' : Way} (h : SetOk s k (ways₁ ++ e :: ways₂)) (heq : e'.way = e.way)
    (hcount : s'.waysCount = s.waysCount) (hlength : s'.indexLength = s.indexLength)
    (hcache : s'.cache = s.cache.set (k * s.waysCount + e.way)
      ⟨true, tagOf s.indexLength e'.block, e'.dirty⟩)
    (hstack : Holds s'.lruStack.cell (k * s.waysCount)
      (stackOf s.waysCount (ways₁ ++ ways₂ ++ [e']))) :
    SetOk s' k (ways₁ ++ ways₂ ++ [e']) := by
  have hways : (ways₁ ++ e :: ways₂).map Way.way =
      ways₁.map Way.way ++ e.way :: ways₂.map Way.way := by simp
  have hperm : ((ways₁ ++ ways₂ ++ [e']).map Way.way).Perm ((ways₁ ++ e :: ways₂).map Way.way) := by
    rw [hways, List.map_append, List.map_append, List.map_singleton, heq, List.append_assoc]
    refine List.Perm.append_left _ ?_
    exact List.perm_append_singleton _ _
  have hlen : (ways₁ ++ ways₂ ++ [e']).length = (ways₁ ++ e :: ways₂).length := by
    simp only [List.length_append, List.length_cons, List.length_nil]
    omega
  have hnot : e.way ∉ ways₁.map Way.way ++ ways₂.map Way.way := by
    have hnodup := h.nodup
    rw [hways] at hnodup
    exact (List.nodup_cons.mp (List.nodup_middle.mp hnodup)).1
  refine ⟨?_, ?_, ?_, ?_, ?_⟩
  · rw [hlen]
    exact hperm.trans h.prefix_
  · rw [hlen, hcount]
    exact h.room
  · rw [hcount]
    exact hstack
  · intro d hd
    rw [hcount, hlength, hcache]
    rcases List.mem_append.mp hd with hd | hd
    · have hne : d.way ≠ e.way := by
        intro hde
        refine hnot ?_
        rw [← hde, ← List.map_append]
        exact List.mem_map_of_mem hd
      rw [Block.set_cell_ne (by omega)]
      refine h.row d ?_
      rcases List.mem_append.mp hd with hd | hd
      · exact List.mem_append_left _ hd
      · exact List.mem_append_right _ (List.mem_cons_of_mem _ hd)
    · obtain rfl := List.mem_singleton.mp hd
      rw [heq, Block.set_cell_self]
  · intro i hle hlt
    rw [hlen] at hle
    rw [hcount] at hlt ⊢
    have hway := h.way_lt (e := e) (by simp)
    rw [hcache, Block.set_cell_ne (by omega)]
    exact h.empty i hle hlt

/-- The least recently used way is used for a block. -/
theorem SetOk.touch_head {e e' : Way} (h : SetOk s k (e :: ways)) (heq : e'.way = e.way)
    (hcount : s'.waysCount = s.waysCount) (hlength : s'.indexLength = s.indexLength)
    (hcache : s'.cache = s.cache.set (k * s.waysCount + e.way)
      ⟨true, tagOf s.indexLength e'.block, e'.dirty⟩)
    (hstack : Holds s'.lruStack.cell (k * s.waysCount) (stackOf s.waysCount (ways ++ [e']))) :
    SetOk s' k (ways ++ [e']) :=
  SetOk.touch (show SetOk s k ([] ++ e :: ways) from h) heq hcount hlength hcache hstack

/-- The first empty way is filled. -/
theorem SetOk.fill {e : Way} (h : SetOk s k ways) (hway : e.way = ways.length)
    (hroom : ways.length < s.waysCount)
    (hcount : s'.waysCount = s.waysCount) (hlength : s'.indexLength = s.indexLength)
    (hcache : s'.cache = s.cache.set (k * s.waysCount + e.way)
      ⟨true, tagOf s.indexLength e.block, e.dirty⟩)
    (hstack : Holds s'.lruStack.cell (k * s.waysCount) (stackOf s.waysCount (ways ++ [e]))) :
    SetOk s' k (ways ++ [e]) := by
  have hlen : (ways ++ [e]).length = ways.length + 1 := by simp
  refine ⟨?_, ?_, ?_, ?_, ?_⟩
  · rw [hlen, List.range_succ, List.map_append, List.map_singleton, hway]
    exact h.prefix_.append_right _
  · rw [hlen, hcount]
    exact hroom
  · rw [hcount]
    exact hstack
  · intro d hd
    rw [hcount, hlength, hcache]
    rcases List.mem_append.mp hd with hd | hd
    · have hlt := h.way_lt hd
      rw [Block.set_cell_ne (by omega)]
      exact h.row d hd
    · obtain rfl := List.mem_singleton.mp hd
      exact Block.set_cell_self
  · intro i hle hlt
    rw [hlen] at hle
    rw [hcount] at hlt ⊢
    rw [hcache, Block.set_cell_ne (by omega)]
    exact h.empty i (by omega) hlt

/-! ### The loop -/

/-- The loop passes the ways that are filled and have another tag. -/
theorem accessWays_skip (hs : Sized s) (hk : k < s.cacheCount) {i : ℕ} (hi : i < s.waysCount)
    (hpass : ∀ j < i, (s.cache.cell (k * s.waysCount + j)).valid = true ∧
      (s.cache.cell (k * s.waysCount + j)).tag ≠ tagValue) :
    s.accessWays k tagValue write s.waysCount 0 =
      s.accessWays k tagValue write (s.waysCount - i) i := by
  induction i with
  | zero => rfl
  | succ i ih =>
      rw [ih (Nat.lt_of_succ_lt hi) fun j hj => hpass j (Nat.lt_succ_of_lt hj)]
      obtain ⟨hvalid, htag⟩ := hpass i (Nat.lt_succ_self i)
      obtain ⟨rounds, hrounds⟩ : ∃ rounds, s.waysCount - i = rounds + 1 :=
        ⟨s.waysCount - i - 1, by omega⟩
      have hload : s.cache.load ((k * s.waysCount + i : ℕ) : ℤ) =
          .ok (s.cache.cell (k * s.waysCount + i)) := by
        refine Block.load_natCast ?_
        rw [hs.cache]
        exact row_lt hk (Nat.lt_of_succ_lt hi)
      rw [hrounds, Sim.accessWays, hload, ok_bind, if_neg fun h => htag h.1, hvalid,
        if_neg (by simp), if_neg (by omega), show s.waysCount - (i + 1) = rounds by omega]

/-- The row of a way is in the cache. -/
theorem load_row (hs : Sized s) (hk : k < s.cacheCount) {i : ℕ} (hi : i < s.waysCount) :
    s.cache.load ((k * s.waysCount + i : ℕ) : ℤ) = .ok (s.cache.cell (k * s.waysCount + i)) := by
  refine Block.load_natCast ?_
  rw [hs.cache]
  exact row_lt hk hi

theorem setRow_eq (hs : Sized s) (hk : k < s.cacheCount) {i : ℕ} (hi : i < s.waysCount)
    (row : CacheRow) :
    s.setRow ((k * s.waysCount + i : ℕ) : ℤ) row =
      .ok { s with cache := s.cache.set (k * s.waysCount + i) row } := by
  unfold Sim.setRow
  rw [Block.store_natCast (by rw [hs.cache]; exact row_lt hk hi)]
  rfl

/-- What an access does to the set `k` and to the counters. -/
structure Accessed (s : Sim) (k : ℕ) (ways : List Way) (readHits writeHits writebacks : ℕ)
    (s' : Sim) : Prop where
  elsewhere : Elsewhere s k s'
  set : SetOk s' k ways
  readHits : s'.readHits = s.readHits + readHits
  writeHits : s'.writeHits = s.writeHits + writeHits
  writebacks : s'.writebacks = s.writebacks + writebacks

/-- A hit writes the row, and then the stack. -/
theorem hitWay_eq (hs : Sized s) (hk : k < s.cacheCount) {i : ℕ} (hi : i < s.waysCount)
    {row : CacheRow} (hrow : s.cache.cell (k * s.waysCount + i) = row) :
    s.hitWay k i row write =
      { s with
        readHits := s.readHits + (!write).toNat
        writeHits := s.writeHits + write.toNat
        cache := s.cache.set (k * s.waysCount + i) { row with dirty := write || row.dirty }
      }.updateCachesimLruAccess k i := by
  unfold Sim.hitWay
  cases write with
  | true =>
      have hsized : Sized { s with writeHits := s.writeHits + 1 } := ⟨hs.pos, hs.cache, hs.lruStack⟩
      have hset := setRow_eq hsized hk hi { row with dirty := true }
      simp only [if_true]
      rw [hset, ok_bind]
      rfl
  | false =>
      have hself : s.cache.set (k * s.waysCount + i) { row with dirty := false || row.dirty } =
          s.cache := by
        unfold Block.set
        rw [Bool.false_or, ← hrow, Function.update_eq_self]
      rw [hself]
      rfl

/-- After the row of a way has been written, the way is moved to the end of the stack. -/
theorem touch_ends (hs : Sized s) (hk : k < s.cacheCount) {i : ℕ} (hi : i < s.waysCount)
    {l₁ l₂ : List ℕ} (h : Holds s.lruStack.cell (k * s.waysCount) (l₁ ++ i :: l₂))
    (hlen : (l₁ ++ i :: l₂).length = s.waysCount) (hnot : i ∉ l₁) {row : CacheRow}
    {readHits writeHits : ℕ}
    (hs' : s' = { s with
      readHits := s.readHits + readHits, writeHits := s.writeHits + writeHits
      cache := s.cache.set (k * s.waysCount + i) row }) :
    Ends (s'.updateCachesimLruAccess k i) fun r => Elsewhere s k r ∧
      r.cache = s.cache.set (k * s.waysCount + i) row ∧
      Holds r.lruStack.cell (k * s.waysCount) (l₁ ++ l₂ ++ [i]) ∧
      r.readHits = s.readHits + readHits ∧ r.writeHits = s.writeHits + writeHits ∧
      r.writebacks = s.writebacks := by
  subst hs'
  have hsized : Sized { s with
      readHits := s.readHits + readHits, writeHits := s.writeHits + writeHits
      cache := s.cache.set (k * s.waysCount + i) row } := ⟨hs.pos, hs.cache, hs.lruStack⟩
  obtain ⟨r, hr, hconf, hsize, hstack, hothers⟩ :=
    updateCachesimLruAccess_ends hsized hk h hlen hnot
  have hcache : r.cache = s.cache.set (k * s.waysCount + i) row := by rw [hconf]
  refine ⟨r, hr, ?_, hcache, hstack, ?_⟩
  · refine elsewhere_of_cache hi ?_ ?_ ?_ ?_ hcache hsize hothers <;> rw [hconf]
  · rw [hconf]
    exact ⟨rfl, rfl, rfl⟩

/-- A filled way that holds another tag is passed. -/
theorem SetOk.passed (h : SetOk s k ways) (hj : j < ways.length)
    (hother : ∀ d ∈ ways, d.way = j → tagOf s.indexLength d.block ≠ tagValue) :
    (s.cache.cell (k * s.waysCount + j)).valid = true ∧
      (s.cache.cell (k * s.waysCount + j)).tag ≠ tagValue := by
  obtain ⟨d, hd, rfl⟩ := h.exists_way hj
  rw [h.row d hd]
  exact ⟨rfl, hother d hd rfl⟩

/-- The block is in its set. -/
theorem accessWays_hit (write : Bool) {e : Way} (hs : Sized s) (hk : k < s.cacheCount)
    (h : SetOk s k (ways₁ ++ e :: ways₂))
    (hother : ∀ d ∈ ways₁ ++ ways₂, tagOf s.indexLength d.block ≠ tagOf s.indexLength e.block) :
    Ends (s.accessWays k (tagOf s.indexLength e.block) write s.waysCount 0)
      (Accessed s k (ways₁ ++ ways₂ ++ [⟨e.way, e.block, write || e.dirty⟩])
        (!write).toNat write.toNat 0) := by
  have hmem : e ∈ ways₁ ++ e :: ways₂ := by simp
  have hi : e.way < s.waysCount := (h.way_lt hmem).trans_le h.room
  -- the ways before it are filled with other blocks
  have hpass : ∀ j < e.way, (s.cache.cell (k * s.waysCount + j)).valid = true ∧
      (s.cache.cell (k * s.waysCount + j)).tag ≠ tagOf s.indexLength e.block := by
    intro j hj
    refine h.passed (hj.trans (h.way_lt hmem)) ?_
    rintro d hd rfl
    refine hother d ?_
    rcases List.mem_append.mp hd with hd | hd
    · exact List.mem_append_left _ hd
    · rcases List.mem_cons.mp hd with rfl | hd
      · exact absurd hj (Nat.lt_irrefl _)
      · exact List.mem_append_right _ hd
  obtain ⟨rounds, hrounds⟩ : ∃ rounds, s.waysCount - e.way = rounds + 1 :=
    ⟨s.waysCount - e.way - 1, by omega⟩
  rw [accessWays_skip hs hk hi hpass, hrounds, Sim.accessWays, load_row hs hk hi, ok_bind,
    h.row e hmem, if_pos ⟨rfl, rfl⟩, hitWay_eq hs hk hi (h.row e hmem)]
  -- in the stack, the way comes after the empty ways and the less recently used ones
  have hstack : stackOf s.waysCount (ways₁ ++ e :: ways₂) =
      (List.range' (ways₁ ++ e :: ways₂).length (s.waysCount - (ways₁ ++ e :: ways₂).length) ++
        ways₁.map Way.way) ++ e.way :: ways₂.map Way.way := by
    simp [stackOf]
  have hlen := length_stackOf h.room
  have hholds := h.stack
  rw [hstack] at hlen hholds
  have hnot : e.way ∉ List.range' (ways₁ ++ e :: ways₂).length
      (s.waysCount - (ways₁ ++ e :: ways₂).length) ++ ways₁.map Way.way := by
    rw [List.mem_append, not_or]
    refine ⟨fun hrange => ?_, fun hway => ?_⟩
    · exact Nat.not_lt.mpr (List.mem_range'_1.mp hrange).1 (h.way_lt hmem)
    · have hnodup := h.nodup
      rw [List.map_append, List.map_cons] at hnodup
      exact (List.nodup_append.mp hnodup).2.2 _ hway _ (List.mem_cons_self ..) rfl
  obtain ⟨r, hr, helse, hcache, hstack', hread, hwrite, hback⟩ :=
    touch_ends hs hk hi hholds hlen hnot rfl
  refine ⟨r, hr, helse, ?_, hread, hwrite, hback⟩
  refine h.touch rfl helse.waysCount helse.indexLength hcache ?_
  have hcount : (ways₁ ++ ways₂ ++ [(⟨e.way, e.block, write || e.dirty⟩ : Way)]).length =
      (ways₁ ++ e :: ways₂).length := by
    simp only [List.length_append, List.length_cons, List.length_nil]
    omega
  unfold stackOf
  rw [hcount]
  simpa using hstack'

/-- The block is not in its set, and a way is empty. -/
theorem accessWays_fill (write : Bool) {block : ℕ} (hs : Sized s) (hk : k < s.cacheCount) (h : SetOk s k ways)
    (hroom : ways.length < s.waysCount)
    (hother : ∀ d ∈ ways, tagOf s.indexLength d.block ≠ tagOf s.indexLength block) :
    Ends (s.accessWays k (tagOf s.indexLength block) write s.waysCount 0)
      (Accessed s k (ways ++ [⟨ways.length, block, write⟩]) 0 0 0) := by
  have hpass : ∀ j < ways.length, (s.cache.cell (k * s.waysCount + j)).valid = true ∧
      (s.cache.cell (k * s.waysCount + j)).tag ≠ tagOf s.indexLength block :=
    fun j hj => h.passed hj fun d hd _ => hother d hd
  obtain ⟨rounds, hrounds⟩ : ∃ rounds, s.waysCount - ways.length = rounds + 1 :=
    ⟨s.waysCount - ways.length - 1, by omega⟩
  have hempty := h.empty ways.length (Nat.le_refl _) hroom
  rw [accessWays_skip hs hk hroom hpass, hrounds, Sim.accessWays, load_row hs hk hroom, ok_bind,
    if_neg (by rw [hempty]; simp), hempty, if_pos (by rfl)]
  unfold Sim.fillWay
  rw [setRow_eq hs hk hroom, ok_bind]
  -- in the stack, the first empty way comes first
  have hstack : stackOf s.waysCount ways = [] ++ ways.length ::
      (List.range' (ways.length + 1) rounds ++ ways.map Way.way) := by
    unfold stackOf
    rw [hrounds, List.range'_succ]
    rfl
  have hlen := length_stackOf h.room
  have hholds := h.stack
  rw [hstack] at hlen hholds
  obtain ⟨r, hr, helse, hcache, hstack', hread, hwrite, hback⟩ :=
    touch_ends hs hk hroom hholds hlen List.not_mem_nil
      (show _ = { s with
        readHits := s.readHits + 0, writeHits := s.writeHits + 0
        cache := s.cache.set (k * s.waysCount + ways.length) _ } from rfl)
  refine ⟨r, hr, helse, ?_, hread, hwrite, hback⟩
  refine h.fill rfl hroom helse.waysCount helse.indexLength hcache ?_
  unfold stackOf
  rw [List.length_append, List.length_singleton, List.map_append, Nat.sub_add_eq, hrounds]
  simpa using hstack'

/-- In a full set, the least recently used way is replaced. -/
theorem replaceWay_ends {e : Way} (block : ℕ) (hs : Sized s) (hk : k < s.cacheCount)
    (h : SetOk s k (e :: ways)) (hfull : (e :: ways).length = s.waysCount) :
    Ends (s.replaceWay k (s.waysCount - 1) (tagOf s.indexLength block))
      (Accessed s k (ways ++ [⟨e.way, block, false⟩]) 0 0 e.dirty.toNat) := by
  have hway : e.way < s.waysCount := hfull ▸ h.way_lt (List.mem_cons_self ..)
  have hrow := h.row e (List.mem_cons_self ..)
  have hstack : stackOf s.waysCount (e :: ways) = e.way :: ways.map Way.way := by
    unfold stackOf
    rw [hfull, Nat.sub_self]
    rfl
  have hholds := h.stack
  have hlen := length_stackOf h.room
  rw [hstack] at hholds hlen
  obtain ⟨⟨way, s₁⟩, hkick, rfl, hs₁, hsize, hstack', hothers⟩ :=
    lruStackKickout_ends hs hk hholds hlen hway
  dsimp only at hs₁ hsize hstack' hothers
  have hset : s₁.setRow (((k * s.waysCount + (s.waysCount - 1) : ℕ) : ℤ) - (s.waysCount - 1 : ℕ) +
      e.way) ⟨true, tagOf s.indexLength block, false⟩ =
      .ok { s₁ with
        cache := s.cache.set (k * s.waysCount + e.way)
          ⟨true, tagOf s.indexLength block, false⟩ } := by
    have haddr : ((k * s.waysCount + (s.waysCount - 1) : ℕ) : ℤ) - (s.waysCount - 1 : ℕ) + e.way =
        (k * s.waysCount + e.way : ℕ) := by omega
    have hlt : k * s.waysCount + e.way < s₁.cache.size := by
      rw [hs₁, hs.cache]
      exact row_lt hk hway
    unfold Sim.setRow
    rw [haddr, Block.store_natCast hlt, ok_bind, show s₁.cache = s.cache by rw [hs₁]]
    rfl
  unfold Sim.replaceWay
  dsimp only
  rw [hkick, ok_bind]
  dsimp only
  rw [hset]
  have helse : Elsewhere s k { s₁ with
      cache := s.cache.set (k * s.waysCount + e.way)
        ⟨true, tagOf s.indexLength block, false⟩ } := by
    refine elsewhere_of_cache hway ?_ ?_ ?_ ?_ rfl hsize hothers <;> rw [hs₁]
  refine .ok ⟨helse, ?_, ?_, ?_, ?_⟩
  · refine h.touch_head rfl helse.waysCount helse.indexLength rfl ?_
    unfold stackOf
    rw [List.length_append, List.length_singleton, List.map_append]
    rw [List.length_cons] at hfull
    rw [hfull, Nat.sub_self]
    exact hstack'
  · rw [hs₁]
    rfl
  · rw [hs₁]
    rfl
  · rw [hs₁, hrow]
    show (if e.dirty = true then s.writebacks + 1 else s.writebacks) = _
    cases e.dirty <;> rfl

/-- The block is not in its set, and no way is empty. -/
theorem accessWays_replace (write : Bool) {e : Way} {block : ℕ} (hs : Sized s) (hk : k < s.cacheCount)
    (h : SetOk s k (e :: ways)) (hfull : (e :: ways).length = s.waysCount)
    (hother : ∀ d ∈ e :: ways, tagOf s.indexLength d.block ≠ tagOf s.indexLength block) :
    Ends (s.accessWays k (tagOf s.indexLength block) write s.waysCount 0)
      (Accessed s k (ways ++ [⟨e.way, block, false⟩]) 0 0 e.dirty.toNat) := by
  have hall : ∀ j < s.waysCount, (s.cache.cell (k * s.waysCount + j)).valid = true ∧
      (s.cache.cell (k * s.waysCount + j)).tag ≠ tagOf s.indexLength block :=
    fun j hj => h.passed (hfull ▸ hj) fun d hd _ => hother d hd
  have hlast : s.waysCount - 1 < s.waysCount := Nat.sub_lt hs.pos Nat.one_pos
  obtain ⟨hvalid, htag⟩ := hall _ hlast
  have hrounds : s.waysCount - (s.waysCount - 1) = 0 + 1 := by omega
  obtain ⟨r, hr, ha⟩ := replaceWay_ends block hs hk h hfull
  rw [accessWays_skip hs hk hlast fun j hj => hall j (hj.trans hlast), hrounds, Sim.accessWays,
    load_row hs hk hlast, ok_bind, if_neg fun hhit => htag hhit.1, hvalid, if_neg (by simp),
    if_pos rfl, hr, ok_bind, Sim.accessWays]
  exact .ok ha

/-- What an access to a block does to a set, by the tags of its filled ways. -/
inductive AccessCase (s : Sim) (k block : ℕ) (write : Bool) : List Way → Sim → Prop
  | hit {ways₁ ways₂ : List Way} {e : Way} {s' : Sim}
      (htag : e.tag s.indexLength = tagOf s.indexLength block)
      (ha : Accessed s k (ways₁ ++ ways₂ ++ [⟨e.way, e.block, write || e.dirty⟩])
        (!write).toNat write.toNat 0 s') : AccessCase s k block write (ways₁ ++ e :: ways₂) s'
  | fill {ways : List Way} {s' : Sim}
      (hnot : tagOf s.indexLength block ∉ ways.map (Way.tag s.indexLength))
      (hroom : ways.length < s.waysCount)
      (ha : Accessed s k (ways ++ [⟨ways.length, block, write⟩]) 0 0 0 s') :
      AccessCase s k block write ways s'
  | replace {e : Way} {ways : List Way} {s' : Sim}
      (hnot : tagOf s.indexLength block ∉ (e :: ways).map (Way.tag s.indexLength))
      (hfull : (e :: ways).length = s.waysCount)
      (ha : Accessed s k (ways ++ [⟨e.way, block, false⟩]) 0 0 e.dirty.toNat s') :
      AccessCase s k block write (e :: ways) s'

/-- The loop, for a set whose filled ways have different tags. -/
theorem accessWays_cases (block : ℕ) (write : Bool) (hs : Sized s) (hk : k < s.cacheCount)
    (h : SetOk s k ways) (htags : (ways.map (Way.tag s.indexLength)).Nodup) :
    Ends (s.accessWays k (tagOf s.indexLength block) write s.waysCount 0)
      (AccessCase s k block write ways) := by
  by_cases hmem : tagOf s.indexLength block ∈ ways.map (Way.tag s.indexLength)
  · -- a hit, possibly of another block with this tag
    obtain ⟨e, he, htag⟩ := List.mem_map.mp hmem
    obtain ⟨ways₁, ways₂, rfl⟩ := List.append_of_mem he
    rw [List.map_append, List.map_cons] at htags
    have hnot := (List.nodup_cons.mp (List.nodup_middle.mp htags)).1
    rw [← List.map_append] at hnot
    have hother : ∀ d ∈ ways₁ ++ ways₂, d.tag s.indexLength ≠ e.tag s.indexLength := by
      intro d hd heq
      rw [← heq] at hnot
      exact hnot (List.mem_map_of_mem hd)
    rw [← htag]
    exact (accessWays_hit write hs hk h hother).mono fun s' ha => .hit htag ha
  have hother : ∀ d ∈ ways, d.tag s.indexLength ≠ tagOf s.indexLength block := by
    intro d hd heq
    rw [← heq] at hmem
    exact hmem (List.mem_map_of_mem hd)
  rcases Nat.lt_or_eq_of_le h.room with hroom | hfull
  · exact (accessWays_fill write hs hk h hroom hother).mono fun s' ha => .fill hmem hroom ha
  · rcases ways with - | ⟨e, ways⟩
    · exact absurd hs.pos (Nat.not_lt.mpr (Nat.le_of_eq hfull.symm))
    · exact (accessWays_replace write hs hk h hfull hother).mono fun s' ha =>
        .replace hmem hfull ha

end ProjectArchive.CacheSim
