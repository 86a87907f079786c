/-
ProjectArchive/CacheSim/StackInvariant.lean

The invariant of the rows and of the LRU stack, after any accesses.

The addresses and the sizes are arbitrary here: addresses with the same index
and the same tag, cut off to 32 bits, are one block to the cache, and the number
of sets need not be a power of two.  `stackCalls` lists the calls of the two LRU
functions in an access, each with the state in which it is made; there is one in
every access, and it alone moves the stack.
-/
import ProjectArchive.CacheSim.Access

namespace ProjectArchive.CacheSim

open Exec Memory

/-! ### The calls of the LRU functions -/

/-- A call of `update_cachesim_lru_access` or `lru_stack_kickout` in the state `s`. -/
inductive StackCall
  | updateCachesimLruAccess (s : Sim) (indexValue accessLocation : ℕ)
  | lruStackKickout (s : Sim) (indexValue : ℕ)

/-- The state in which the function returns. -/
def StackCall.run : StackCall → Except Fault Sim
  | .updateCachesimLruAccess s indexValue accessLocation =>
      s.updateCachesimLruAccess indexValue accessLocation
  | .lruStackKickout s indexValue => do
      let (_, s) ← s.lruStackKickout indexValue
      return s

/-- The calls that a computation goes on to make. -/
def callsAfter (x : Except Fault Sim) (calls : Sim → List StackCall) : List StackCall :=
  match x with
  | .error _ => []
  | .ok s => calls s

namespace Sim

/-- What `hitWay` does before its call. -/
def hitRow (s : Sim) (indexValue i : ℕ) (row : CacheRow) (write : Bool) : Except Fault Sim :=
  if write then
    setRow { s with writeHits := s.writeHits + 1 } ((indexValue * s.waysCount + i : ℕ) : ℤ)
      { row with dirty := true }
  else .ok { s with readHits := s.readHits + 1 }

/-- The calls in the loop of `cachesim_access`, with `rounds` rounds left at the way `i`. -/
def stackCalls (indexValue : ℕ) (tagValue : ℤ) (write : Bool) :
    (rounds : ℕ) → (i : ℕ) → Sim → List StackCall
  | 0, _, _ => []
  | rounds + 1, i, s =>
      match s.cache.load ((indexValue * s.waysCount + i : ℕ) : ℤ) with
      | .error _ => []
      | .ok row =>
          if row.tag = tagValue ∧ row.valid then
            callsAfter (s.hitRow indexValue i row write) fun s =>
              [.updateCachesimLruAccess s indexValue i]
          else if !row.valid then
            callsAfter (s.setRow ((indexValue * s.waysCount + i : ℕ) : ℤ) ⟨true, tagValue, write⟩)
              fun s => [.updateCachesimLruAccess s indexValue i]
          else if i = s.waysCount - 1 then
            .lruStackKickout s indexValue ::
              callsAfter (s.replaceWay indexValue i tagValue)
                (stackCalls indexValue tagValue write rounds (i + 1))
          else stackCalls indexValue tagValue write rounds (i + 1) s

/-- The calls of the LRU functions in `cachesim_access`. -/
def lruCalls (s : Sim) (physicalAddr : BitVec 64) (write : Bool) : List StackCall :=
  stackCalls (s.indexValue physicalAddr) (s.tagValue physicalAddr) write s.waysCount 0
    { s with
      accesses := s.accesses + 1
      writeAccesses := if write then s.writeAccesses + 1 else s.writeAccesses }

end Sim

section Calls

variable {s s' : Sim} {k i rounds : ℕ} {tagValue : ℤ} {write : Bool}

theorem hitWay_eq_bind (s : Sim) (k i : ℕ) (row : CacheRow) (write : Bool) :
    s.hitWay k i row write =
      s.hitRow k i row write >>= fun s => s.updateCachesimLruAccess k i := by
  cases write <;> rfl

/-- Kicking out a way, and then writing its row. -/
theorem replaceWay_lruStack (h : s.replaceWay k i tagValue = .ok s') :
    ∃ t, (StackCall.lruStackKickout s k).run = .ok t ∧ s'.lruStack = t.lruStack := by
  obtain ⟨⟨way, t⟩, hkick, h⟩ := bind_eq_ok h
  obtain ⟨cache, -, h⟩ := bind_eq_ok h
  obtain rfl := Except.ok.inj h
  refine ⟨t, ?_, rfl⟩
  rw [StackCall.run, hkick]
  rfl

/-- The loop makes one call, and leaves the stack as the call does. -/
theorem accessWays_lruStack (h : Sim.accessWays k tagValue write rounds i s = .ok s')
    (hi : i + rounds = s.waysCount) (hrounds : 1 ≤ rounds) :
    ∃ c t, Sim.stackCalls k tagValue write rounds i s = [c] ∧ c.run = .ok t ∧
      s'.lruStack = t.lruStack := by
  induction rounds generalizing i with
  | zero => exact absurd hrounds (Nat.not_succ_le_zero 0)
  | succ rounds ih =>
      rw [Sim.accessWays] at h
      obtain ⟨row, hload, h⟩ := bind_eq_ok h
      rw [Sim.stackCalls, hload]
      dsimp only
      split at h
      · -- a hit
        rename_i hhit
        rw [hitWay_eq_bind] at h
        obtain ⟨t, hrow, hcall⟩ := bind_eq_ok h
        rw [if_pos hhit, hrow]
        exact ⟨_, s', rfl, hcall, rfl⟩
      rename_i hhit
      rw [if_neg hhit]
      split at h
      · -- an empty way
        rename_i hempty
        obtain ⟨t, hrow, hcall⟩ := bind_eq_ok h
        rw [if_pos hempty, hrow]
        exact ⟨_, s', rfl, hcall, rfl⟩
      rename_i hempty
      rw [if_neg hempty]
      split at h
      · -- the last way, after which the loop is over
        rename_i hlast
        obtain rfl : rounds = 0 := by omega
        obtain ⟨t, hreplace, hrest⟩ := bind_eq_ok h
        obtain rfl := Except.ok.inj hrest
        obtain ⟨u, hkick, hu⟩ := replaceWay_lruStack hreplace
        rw [if_pos hlast, hreplace]
        exact ⟨_, u, rfl, hkick, hu⟩
      · -- another way is looked at, and no call has been made
        rename_i hlast
        rw [if_neg hlast]
        exact ih h (by omega) (by omega)

/-- An access makes one call, and leaves the stack as the call does. -/
theorem access_lruStack (hways : 1 ≤ s.waysCount) {physicalAddr : BitVec 64}
    (h : s.cachesimAccess physicalAddr write = .ok s') :
    ∃ c t, s.lruCalls physicalAddr write = [c] ∧ c.run = .ok t ∧ s'.lruStack = t.lruStack :=
  accessWays_lruStack h (Nat.zero_add _) hways

end Calls

/-! ### The invariant of a set -/

/-- The set `k` has the ways below `filled` filled, and its stack is in order. -/
structure StackOk (s : Sim) (k filled : ℕ) : Prop where
  le : filled ≤ s.waysCount
  /-- The slice of the stack is a permutation of the ways. -/
  perm : ((List.range s.waysCount).map fun j => s.lruStack.cell (k * s.waysCount + j)).Perm
    (List.range s.waysCount)
  valid : ∀ i < s.waysCount, (s.cache.cell (k * s.waysCount + i)).valid = true ↔ i < filled
  tags : ∀ i < filled, ∀ j < filled,
    (s.cache.cell (k * s.waysCount + i)).tag = (s.cache.cell (k * s.waysCount + j)).tag → i = j
  /-- The ways that are empty come first, in increasing order. -/
  empty : ∀ j < s.waysCount - filled, s.lruStack.cell (k * s.waysCount + j) = filled + j

/-- A call finds its way, and a filled way is kicked out only when no way is empty. -/
def StackCall.Sound : StackCall → Prop
  | .updateCachesimLruAccess s indexValue accessLocation =>
      ∃ location : ℕ, Sim.findLocation s.lruStack (indexValue * s.waysCount) accessLocation
          s.waysCount 0 = .ok (location : ℤ) ∧ location < s.waysCount ∧
        s.lruStack.cell (indexValue * s.waysCount + location) = accessLocation
  | .lruStackKickout s indexValue =>
      ∀ i < s.waysCount, (s.cache.cell (indexValue * s.waysCount + i)).valid = true

section Sets

variable {s s' : Sim} {k i m w rounds : ℕ} {ways : List Way} {tagValue : ℤ} {write : Bool}

/-- The stack of a set holds its ways. -/
theorem SetOk.stack_perm (h : SetOk s k ways) :
    (stackOf s.waysCount ways).Perm (List.range s.waysCount) := by
  have hrange : List.range s.waysCount =
      List.range ways.length ++ List.range' ways.length (s.waysCount - ways.length) := by
    have happend := List.range'_append_1 (s := 0) (m := ways.length)
      (n := s.waysCount - ways.length)
    rw [Nat.zero_add, Nat.add_sub_cancel' h.room] at happend
    rw [List.range_eq_range', List.range_eq_range', happend]
  unfold stackOf
  rw [hrange]
  exact List.perm_append_comm.trans (h.prefix_.append_right _)

/-- Every way of the set is found. -/
theorem SetOk.found (hs : Sized s) (hk : k < s.cacheCount) (h : SetOk s k ways)
    (hi : i < s.waysCount) : (StackCall.updateCachesimLruAccess s k i).Sound := by
  have hmem : i ∈ stackOf s.waysCount ways := h.stack_perm.mem_iff.mpr (List.mem_range.mpr hi)
  obtain ⟨l₁, l₂, hsplit, hnot⟩ := List.eq_append_cons_of_mem hmem
  have hlen := length_stackOf h.room
  have hholds := h.stack
  rw [hsplit] at hlen hholds
  have hlt : l₁.length < s.waysCount := by
    rw [← hlen, List.length_append, List.length_cons]
    omega
  have hsize : k * s.waysCount + 0 + l₁.length < s.lruStack.size := by
    rw [hs.lruStack]
    exact row_lt hk hlt
  have hfind := findLocation_eq (j := 0) hholds hnot hsize
  rw [hlen, Int.natCast_zero, Int.zero_add] at hfind
  exact ⟨l₁.length, hfind, hlt, (holds_append.mp hholds).2.1⟩

theorem SetOk.valid_iff (h : SetOk s k ways) (hi : i < s.waysCount) :
    (s.cache.cell (k * s.waysCount + i)).valid = true ↔ i < ways.length := by
  constructor
  · intro hvalid
    by_contra hge
    rw [h.empty i (Nat.le_of_not_lt hge) hi] at hvalid
    cases hvalid
  · intro hlt
    obtain ⟨e, he, rfl⟩ := h.exists_way hlt
    rw [h.row e he]

/-- What `SetOk` says, in terms of the arrays alone. -/
theorem SetOk.stackOk (h : SetOk s k ways) (htags : (ways.map (Way.tag s.indexLength)).Nodup) :
    StackOk s k ways.length where
  le := h.room
  perm := by
    have hslice := h.stack.map_range
    rw [length_stackOf h.room] at hslice
    rw [hslice]
    exact h.stack_perm
  valid := fun i hi => h.valid_iff hi
  tags := by
    intro i hi j hj htag
    obtain ⟨e, he, rfl⟩ := h.exists_way hi
    obtain ⟨d, hd, rfl⟩ := h.exists_way hj
    rw [h.row e he, h.row d hd] at htag
    rw [List.inj_on_of_nodup_map htags he hd htag]
  empty := by
    intro j hj
    refine holds_iff.mp h.stack j _ ?_
    unfold stackOf
    rw [List.getElem?_append_left (by rw [List.length_range']; exact hj), List.getElem?_range' hj,
      Nat.one_mul]

/-! ### The calls in an access -/

theorem mem_callsAfter {x : Except Fault Sim} {calls : Sim → List StackCall} {c : StackCall}
    (h : c ∈ callsAfter x calls) : ∃ t, x = .ok t ∧ c ∈ calls t := by
  cases x with
  | error fault => cases h
  | ok t => exact ⟨t, rfl, h⟩

theorem setRow_lruStack {t : Sim} {a : ℤ} {row : CacheRow} (h : s.setRow a row = .ok t) :
    t.lruStack = s.lruStack ∧ t.waysCount = s.waysCount := by
  obtain ⟨cache, -, h⟩ := bind_eq_ok h
  obtain rfl := Except.ok.inj h
  exact ⟨rfl, rfl⟩

theorem hitRow_lruStack {t : Sim} {row : CacheRow} (h : s.hitRow k i row write = .ok t) :
    t.lruStack = s.lruStack ∧ t.waysCount = s.waysCount := by
  cases write with
  | true =>
      have hset : Sim.setRow { s with writeHits := s.writeHits + 1 }
          ((k * s.waysCount + i : ℕ) : ℤ) { row with dirty := true } = .ok t := h
      have hkept := setRow_lruStack hset
      exact hkept
  | false =>
      obtain rfl := Except.ok.inj h
      exact ⟨rfl, rfl⟩

/-- Writing a row does not change whether the call finds its way. -/
theorem StackCall.Sound.congr {t : Sim}
    (h : (StackCall.updateCachesimLruAccess s k i).Sound)
    (ht : t.lruStack = s.lruStack ∧ t.waysCount = s.waysCount) :
    (StackCall.updateCachesimLruAccess t k i).Sound := by
  obtain ⟨location, hfind, hlt, hcell⟩ := h
  refine ⟨location, ?_, ?_, ?_⟩
  · rw [ht.1, ht.2]
    exact hfind
  · rw [ht.2]
    exact hlt
  · rw [ht.1, ht.2]
    exact hcell

/-- In the loop, every way that has been passed is filled. -/
theorem SetOk.stackCalls_sound (hs : Sized s) (hk : k < s.cacheCount) (h : SetOk s k ways)
    (hi : i + rounds = s.waysCount) (hpassed : i ≤ ways.length) :
    ∀ c ∈ Sim.stackCalls k tagValue write rounds i s, c.Sound := by
  induction rounds generalizing i with
  | zero => exact fun c hc => absurd hc List.not_mem_nil
  | succ rounds ih =>
      have hlt : i < s.waysCount := by omega
      intro c hc
      rw [Sim.stackCalls, load_row hs hk hlt] at hc
      dsimp only at hc
      split at hc
      · -- a hit
        obtain ⟨t, hrow, hc⟩ := mem_callsAfter hc
        obtain rfl := List.mem_singleton.mp hc
        exact (h.found hs hk hlt).congr (hitRow_lruStack hrow)
      split at hc
      · -- an empty way
        obtain ⟨t, hrow, hc⟩ := mem_callsAfter hc
        obtain rfl := List.mem_singleton.mp hc
        exact (h.found hs hk hlt).congr (setRow_lruStack hrow)
      rename_i hempty
      rw [Bool.not_eq_true', Bool.not_eq_false] at hempty
      have hfilled : i < ways.length := (h.valid_iff hlt).mp hempty
      split at hc
      · -- the last way, so that all are filled
        rename_i hlast
        have hdone : rounds = 0 := by omega
        subst hdone
        rcases List.mem_cons.mp hc with rfl | hc
        · intro j hj
          exact (h.valid_iff hj).mpr (by omega)
        · obtain ⟨t, -, hc⟩ := mem_callsAfter hc
          exact absurd hc List.not_mem_nil
      · exact ih (by omega) hfilled c hc

/-! ### An access keeps the invariant -/

/-- There are `sets` sets of `ways` ways, and every one is in order. -/
structure SetsOk (sets ways : ℕ) (s : Sim) : Prop where
  cacheCount : s.cacheCount = sets
  waysCount : s.waysCount = ways
  sized : Sized s
  index : 2 ^ s.indexLength ≤ s.cacheCount
  set : ∀ k < s.cacheCount, ∃ ways, SetOk s k ways ∧ (ways.map (Way.tag s.indexLength)).Nodup

/-- One set has changed, and its tags still differ. -/
theorem SetsOk.accessed {readHits writeHits writebacks : ℕ} (h : SetsOk m w s)
    (ha : Accessed s k ways readHits writeHits writebacks s')
    (htags : (ways.map (Way.tag s.indexLength)).Nodup) : SetsOk m w s' where
  cacheCount := ha.elsewhere.cacheCount.trans h.cacheCount
  waysCount := ha.elsewhere.waysCount.trans h.waysCount
  sized := ha.elsewhere.sized h.sized
  index := by
    rw [ha.elsewhere.indexLength, ha.elsewhere.cacheCount]
    exact h.index
  set := by
    intro k' hk'
    rw [ha.elsewhere.cacheCount] at hk'
    rw [ha.elsewhere.indexLength]
    rcases eq_or_ne k' k with rfl | hne
    · exact ⟨ways, ha.set, htags⟩
    · obtain ⟨ways', hset, htags'⟩ := h.set k' hk'
      exact ⟨ways', ha.elsewhere.setOk hne hset, htags'⟩

/-- The loop keeps the tags of a set apart: it brings in a block only when no filled way
has its tag. -/
theorem SetsOk.accessWays (h : SetsOk m w s) (hk : k < s.cacheCount) (block : ℕ) (write : Bool) :
    Ends (Sim.accessWays k (tagOf s.indexLength block) write s.waysCount 0 s)
      (SetsOk m w) := by
  obtain ⟨ways, hset, htags⟩ := h.set k hk
  refine (accessWays_cases block write h.sized hk hset htags).mono ?_
  intro s' hcase
  cases hcase with
  | hit _ ha =>
      refine h.accessed ha ?_
      rw [List.map_append, List.map_cons] at htags
      rw [List.map_append, List.map_append, List.map_singleton]
      exact (List.perm_append_singleton _ _).nodup_iff.mpr (List.nodup_middle.mp htags)
  | fill hnot _ ha =>
      refine h.accessed ha ?_
      rw [List.map_append, List.map_singleton]
      exact (List.perm_append_singleton _ _).nodup_iff.mpr (List.nodup_cons.mpr ⟨hnot, htags⟩)
  | replace hnot _ ha =>
      refine h.accessed ha ?_
      rw [List.map_cons] at htags hnot
      rw [List.map_append, List.map_singleton]
      exact (List.perm_append_singleton _ _).nodup_iff.mpr (List.nodup_cons.mpr
        ⟨fun hin => hnot (List.mem_cons_of_mem _ hin), (List.nodup_cons.mp htags).2⟩)

/-- Counting an access changes neither the cache nor the stack. -/
theorem SetsOk.count_access (h : SetsOk m w s) (accesses writeAccesses : ℕ) :
    SetsOk m w { s with accesses := accesses, writeAccesses := writeAccesses } where
  cacheCount := h.cacheCount
  waysCount := h.waysCount
  sized := ⟨h.sized.pos, h.sized.cache, h.sized.lruStack⟩
  index := h.index
  set := by
    intro k hk
    obtain ⟨ways, hset, htags⟩ := h.set k hk
    exact ⟨ways, hset.congr rfl rfl (fun _ _ => rfl) (fun _ _ => rfl), htags⟩

theorem SetsOk.indexValue_lt (h : SetsOk m w s) (physicalAddr : BitVec 64) :
    s.indexValue physicalAddr < s.cacheCount := by
  rw [indexValue_eq]
  exact (Nat.mod_lt _ (Nat.two_pow_pos _)).trans_le h.index

theorem SetsOk.access (h : SetsOk m w s) (physicalAddr : BitVec 64) (write : Bool) :
    Ends (s.cachesimAccess physicalAddr write) (SetsOk m w) := by
  unfold Sim.cachesimAccess
  dsimp only
  rw [tagValue_eq]
  have hcounted := h.count_access (s.accesses + 1)
    (if write then s.writeAccesses + 1 else s.writeAccesses)
  exact hcounted.accessWays (h.indexValue_lt physicalAddr) _ write

theorem SetsOk.lruCalls_sound (h : SetsOk m w s) (physicalAddr : BitVec 64) (write : Bool) :
    ∀ c ∈ s.lruCalls physicalAddr write, c.Sound := by
  have hcounted := h.count_access (s.accesses + 1)
    (if write then s.writeAccesses + 1 else s.writeAccesses)
  obtain ⟨ways, hset, -⟩ := hcounted.set _ (h.indexValue_lt physicalAddr)
  exact hset.stackCalls_sound hcounted.sized (h.indexValue_lt physicalAddr) (Nat.zero_add _)
    (Nat.zero_le _)

/-- An access to a cache without rows. -/
theorem accessWays_empty (hsize : s.cache.size = 0) :
    Sim.accessWays k tagValue write (rounds + 1) i s = .error .outOfBounds ∧
      Sim.stackCalls k tagValue write (rounds + 1) i s = [] := by
  rw [Sim.accessWays, Sim.stackCalls, Block.load_eq_error hsize]
  exact ⟨rfl, rfl⟩

theorem SetsOk.run (h : SetsOk m w s) (trace : List (BitVec 64 × Bool)) :
    Ends (s.run trace) (SetsOk m w) := by
  induction trace generalizing s with
  | nil => exact .ok h
  | cons x trace ih => exact (h.access x.1 x.2).bind fun s' h' => ih h'

end Sets

/-! ### Runs -/

section Runs

variable {blocksize cachesize ways : ℕ}

theorem setsOk_cachesimInit (hways : 1 ≤ ways) (hsets : 1 ≤ cachesize / blocksize / ways) :
    SetsOk (cachesize / blocksize / ways) ways (cachesimInit blocksize cachesize ways) where
  cacheCount := rfl
  waysCount := rfl
  sized := ⟨hways, rfl, rfl⟩
  index := Nat.pow_log_le_self 2 (Nat.ne_of_gt hsets)
  set := fun k _ => ⟨[], setOk_cachesimInit blocksize cachesize ways k, List.nodup_nil⟩

/-- Without a set there is no row to look at. -/
theorem access_cachesimInit (hways : 1 ≤ ways) (hsets : cachesize / blocksize / ways = 0)
    (physicalAddr : BitVec 64) (write : Bool) :
    (cachesimInit blocksize cachesize ways).cachesimAccess physicalAddr write =
        .error .outOfBounds ∧
      (cachesimInit blocksize cachesize ways).lruCalls physicalAddr write = [] := by
  obtain ⟨rounds, rfl⟩ := Nat.exists_eq_add_of_le' hways
  refine accessWays_empty ?_
  show cachesize / blocksize / (rounds + 1) * (rounds + 1) = 0
  rw [hsets, Nat.zero_mul]

/-- **The LRU stack after any accesses.** -/
theorem lruStack_invariant (blocksize cachesize : ℕ) {ways : ℕ} (hways : 1 ≤ ways)
    (trace : List (BitVec 64 × Bool)) :
    (1 ≤ cachesize / blocksize / ways →
      ∃ s, (cachesimInit blocksize cachesize ways).run trace = .ok s) ∧
    ∀ s, (cachesimInit blocksize cachesize ways).run trace = .ok s →
      s.waysCount = ways ∧
      (∀ k < cachesize / blocksize / ways, ∃ filled, StackOk s k filled) ∧
      ∀ physicalAddr write, (∀ c ∈ s.lruCalls physicalAddr write, c.Sound) ∧
        ∀ s', s.cachesimAccess physicalAddr write = .ok s' →
          ∃ c t, s.lruCalls physicalAddr write = [c] ∧ c.run = .ok t ∧
            s'.lruStack = t.lruStack := by
  rcases Nat.eq_zero_or_pos (cachesize / blocksize / ways) with hzero | hsets
  · -- there is no set, so that the first access fails
    have haccess := access_cachesimInit hways hzero
    refine ⟨fun hsets => absurd hzero (Nat.ne_of_gt hsets), ?_⟩
    intro s hs
    cases trace with
    | nil =>
        obtain rfl := Except.ok.inj hs
        refine ⟨rfl, ?_, ?_⟩
        · intro k hk
          rw [hzero] at hk
          exact absurd hk (Nat.not_lt_zero k)
        · intro physicalAddr write
          obtain ⟨hfails, hnone⟩ := haccess physicalAddr write
          rw [hfails, hnone]
          refine ⟨fun c hc => absurd hc List.not_mem_nil, ?_⟩
          intro s' hs'
          cases hs'
    | cons x trace =>
        rw [Sim.run, (haccess x.1 x.2).1] at hs
        cases hs
  · obtain ⟨s, hs, h⟩ := (setsOk_cachesimInit hways hsets).run trace
    refine ⟨fun _ => ⟨s, hs⟩, ?_⟩
    intro t ht
    obtain rfl := Except.ok.inj (hs.symm.trans ht)
    refine ⟨h.waysCount, ?_, ?_⟩
    · intro k hk
      obtain ⟨filled, hset, htags⟩ := h.set k (by rw [h.cacheCount]; exact hk)
      exact ⟨filled.length, hset.stackOk htags⟩
    · intro physicalAddr write
      refine ⟨h.lruCalls_sound physicalAddr write, ?_⟩
      intro s' hs'
      exact access_lruStack (by rw [h.waysCount]; exact hways) hs'

end Runs

/-- Three sets of two ways, and two addresses with the same index and, cut off, the same tag. -/
theorem lruStack_invariant_three_sets : ∃ s,
    (cachesimInit 4 24 2).run [(0#64, false), (0x800000000#64, true)] = .ok s ∧
      s.waysCount = 2 ∧ ∃ filled, StackOk s 0 filled := by
  obtain ⟨hreturns, h⟩ := lruStack_invariant 4 24 (show 1 ≤ 2 by decide)
    [(0#64, false), (0x800000000#64, true)]
  obtain ⟨s, hs⟩ := hreturns (by decide)
  obtain ⟨hways, hset, -⟩ := h s hs
  exact ⟨s, hs, hways, hset 0 (by decide)⟩

end ProjectArchive.CacheSim
