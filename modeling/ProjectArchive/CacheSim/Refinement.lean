/-
ProjectArchive/CacheSim/Refinement.lean

Runs of `cachesim_access` refine runs of an LRU cache.

The state of the simulator represents a state of an LRU cache under
`codePolicy` (`Represents`), and every access keeps this up (`access_ends`), so
that a run of the simulator ends and represents the run of the LRU cache
(`run_ends`).  A block is then in its set if and only if it is one of the
`ways` blocks of the set that were accessed last (`hits_iff_recent`).
-/
import ProjectArchive.CacheSim.Access

namespace ProjectArchive.CacheSim

open Exec Memory Lru

variable {s s' : Sim} {st : State ℕ ℕ Bool} {write : Bool} {blocksize cachesize ways : ℕ}
  {trace : List (BitVec 64 × Bool)}

/-- What `dirty` is in `cachesim_access`: a write that hits sets it, a block that
fills an empty way has it if it was written, and a block that replaces another
one does not have it. -/
def codePolicy : Policy Bool Bool where
  hit write dirty := write || dirty
  fill full write := !full && write

/-- A filled way, as an element of a set. -/
def Way.entry (e : Way) : ℕ × Bool := (e.block, e.dirty)

/-- The state represents the state of an LRU cache. -/
structure Represents (s : Sim) (st : State ℕ ℕ Bool) : Prop where
  sized : Sized s
  count : s.cacheCount = 2 ^ s.indexLength
  set : ∀ k < s.cacheCount, ∃ ways, SetOk s k ways ∧ ways.map Way.entry = st.sets k
  writebacks : s.writebacks = st.evicted.countP Prod.snd

/-- The blocks of a set are distinct blocks of this set. -/
structure Blocks (s : Sim) (st : State ℕ ℕ Bool) : Prop where
  nodup : ∀ k, ((st.sets k).map Prod.fst).Nodup
  index : ∀ k, ∀ block ∈ (st.sets k).map Prod.fst, block % 2 ^ s.indexLength = k
  lt : ∀ k, ∀ block ∈ (st.sets k).map Prod.fst, block < 2 ^ 32

theorem map_block (ways : List Way) :
    ways.map Way.block = (ways.map Way.entry).map Prod.fst := by
  rw [List.map_map]
  rfl

/-- Different blocks of a set have different tags. -/
theorem Blocks.nodup_tags {k : ℕ} {ways : List Way} (hb : Blocks s st)
    (hkeys : ways.map Way.block = (st.sets k).map Prod.fst) :
    (ways.map (Way.tag s.indexLength)).Nodup := by
  rw [show ways.map (Way.tag s.indexLength) =
    (ways.map Way.block).map (tagOf s.indexLength) from (List.map_map ..).symm, hkeys]
  refine (hb.nodup k).map_on fun x hx y hy heq => ?_
  exact tagOf_inj (hb.lt k x hx) (hb.lt k y hy) ((hb.index k x hx).trans (hb.index k y hy).symm)
    heq

/-- The set `k` has changed as it does in the LRU cache. -/
theorem Accessed.represents {k readHits writeHits writebacks : ℕ} {ways : List Way}
    (victim : List (ℕ × Bool)) (h : Represents s st)
    (ha : Accessed s k ways readHits writeHits writebacks s')
    (hvictim : writebacks = victim.countP Prod.snd) :
    Represents s'
      { sets := Function.update st.sets k (ways.map Way.entry)
        evicted := st.evicted ++ victim } where
  sized := ha.elsewhere.sized h.sized
  count := by rw [ha.elsewhere.cacheCount, ha.elsewhere.indexLength, h.count]
  set := by
    intro k' hk'
    rw [ha.elsewhere.cacheCount] at hk'
    rcases eq_or_ne k' k with rfl | hne
    · refine ⟨ways, ha.set, ?_⟩
      dsimp only
      rw [Function.update_self]
    · obtain ⟨ways', hset, hentry⟩ := h.set k' hk'
      refine ⟨ways', ha.elsewhere.setOk hne hset, ?_⟩
      dsimp only
      rw [Function.update_of_ne hne]
      exact hentry
  writebacks := by
    rw [ha.writebacks, h.writebacks, hvictim, List.countP_append]

/-- The counters of the hits after an access. -/
structure Counted (s : Sim) (hit write : Bool) (s' : Sim) : Prop where
  readHits : s'.readHits = s.readHits + (hit && !write).toNat
  writeHits : s'.writeHits = s.writeHits + (hit && write).toNat

/-- The loop does to the simulator what an access does to the LRU cache. -/
theorem accessWays_ends (write : Bool) (h : Represents s st) (hb : Blocks s st) {block : ℕ}
    (hlt : block < 2 ^ 32) :
    Ends (s.accessWays (block % 2 ^ s.indexLength) (tagOf s.indexLength block) write s.waysCount 0)
      fun s' =>
        Represents s'
          (codePolicy.access s.waysCount (fun b => b % 2 ^ s.indexLength) st (block, write)) ∧
        Counted s (decide (block ∈ (st.sets (block % 2 ^ s.indexLength)).map Prod.fst)) write s' ∧
        Elsewhere s (block % 2 ^ s.indexLength) s' := by
  have hk : block % 2 ^ s.indexLength < s.cacheCount := by
    rw [h.count]
    exact Nat.mod_lt _ (Nat.two_pow_pos _)
  obtain ⟨ways, hset, hentry⟩ := h.set _ hk
  have hkeys := (map_block ways).trans (congrArg (List.map Prod.fst) hentry)
  have hnodup := hb.nodup (block % 2 ^ s.indexLength)
  rw [← hkeys] at hnodup
  have hmem : ∀ {b : ℕ}, b ∈ ways.map Way.block →
      b ∈ (st.sets (block % 2 ^ s.indexLength)).map Prod.fst := fun hb' => hkeys ▸ hb'
  obtain ⟨s', hs', hcase⟩ :=
    accessWays_cases block write h.sized hk hset (hb.nodup_tags hkeys)
  refine ⟨s', hs', ?_⟩
  unfold Policy.access
  dsimp only
  rw [← hkeys, ← hentry]
  have hmiss : tagOf s.indexLength block ∉ ways.map (Way.tag s.indexLength) →
      block ∉ ways.map Way.block := by
    intro hnot hin
    obtain ⟨d, hd, rfl⟩ := List.mem_map.mp hin
    exact hnot (List.mem_map_of_mem hd)
  cases hcase with
  | @hit ways₁ ways₂ e _ htag ha =>
    have he : e.block ∈ (ways₁ ++ e :: ways₂).map Way.block :=
      List.mem_map_of_mem (List.mem_append_right _ List.mem_cons_self)
    obtain rfl : e.block = block :=
      tagOf_inj (hb.lt _ _ (hmem he)) hlt (hb.index _ _ (hmem he)) htag
    rw [List.map_append, List.map_cons] at hnodup
    have hnot := (List.nodup_cons.mp (List.nodup_middle.mp hnodup)).1
    rw [List.mem_append, not_or] at hnot
    have hsplit := codePolicy.accessSet_of_split (w := s.waysCount) (k := write) (g := e.dirty)
      (map_block ways₁ ▸ hnot.1) (map_block ways₂ ▸ hnot.2)
    refine ⟨?_, ?_, ha.elsewhere⟩
    · rw [List.map_append, List.map_cons, show e.entry = (e.block, e.dirty) from rfl, hsplit]
      have hrep := ha.represents [] h rfl
      rw [List.map_append, List.map_append] at hrep
      exact hrep
    · rw [decide_eq_true he]
      exact ⟨by rw [ha.readHits, Bool.true_and], by rw [ha.writeHits, Bool.true_and]⟩
  | fill hnot hroom ha =>
    have hnotMem := codePolicy.accessSet_of_notMem (w := s.waysCount) (k := write)
      (map_block ways ▸ hmiss hnot)
    rw [List.length_map, if_pos hroom] at hnotMem
    refine ⟨?_, ?_, ha.elsewhere⟩
    · rw [hnotMem]
      have hrep := ha.represents [] h rfl
      rw [List.map_append] at hrep
      exact hrep
    · rw [decide_eq_false (hmiss hnot)]
      exact ⟨ha.readHits, ha.writeHits⟩
  | @replace e ways _ hnot hfull ha =>
    have hnotMem := codePolicy.accessSet_of_notMem (w := s.waysCount) (k := write)
      (map_block (e :: ways) ▸ hmiss hnot)
    rw [List.length_map, if_neg (by rw [hfull]; exact Nat.lt_irrefl _)] at hnotMem
    refine ⟨?_, ?_, ha.elsewhere⟩
    · rw [hnotMem]
      have hdirty : e.dirty.toNat = [e.entry].countP Prod.snd := by
        cases hd : e.dirty <;> simp [Way.entry, hd]
      have hrep := ha.represents [e.entry] h hdirty
      rw [List.map_append] at hrep
      exact hrep
    · rw [decide_eq_false (hmiss hnot)]
      exact ⟨ha.readHits, ha.writeHits⟩

/-- Counting an access changes neither the cache nor the stack. -/
theorem Represents.count_access (h : Represents s st) (accesses writeAccesses : ℕ) :
    Represents { s with accesses := accesses, writeAccesses := writeAccesses } st where
  sized := ⟨h.sized.pos, h.sized.cache, h.sized.lruStack⟩
  count := h.count
  set := by
    intro k hk
    obtain ⟨ways, hset, hentry⟩ := h.set k hk
    exact ⟨ways, hset.congr rfl rfl (fun _ _ => rfl) (fun _ _ => rfl), hentry⟩
  writebacks := h.writebacks

/-- `cachesim_access` does to the simulator what an access does to the LRU cache. -/
theorem access_ends (write : Bool) (h : Represents s st) (hb : Blocks s st) {physicalAddr : BitVec 64}
    (hlt : physicalAddr.toNat < 2 ^ 32) {block : ℕ}
    (hblock : block = physicalAddr.toNat / 2 ^ s.blockLength) :
    Ends (s.cachesimAccess physicalAddr write) fun s' =>
      Represents s'
        (codePolicy.access s.waysCount (fun b => b % 2 ^ s.indexLength) st (block, write)) ∧
      Counted s (decide (block ∈ (st.sets (block % 2 ^ s.indexLength)).map Prod.fst)) write s' ∧
      Elsewhere s (block % 2 ^ s.indexLength) s' := by
  have hblt : block < 2 ^ 32 := hblock ▸ (Nat.div_le_self _ _).trans_lt hlt
  unfold Sim.cachesimAccess
  dsimp only
  rw [tagValue_eq, indexValue_eq, ← hblock]
  obtain ⟨s', hs', hrep, hcount, helse⟩ :=
    accessWays_ends write (h.count_access (s.accesses + 1)
      (if write then s.writeAccesses + 1 else s.writeAccesses))
      ⟨hb.nodup, hb.index, hb.lt⟩ hblt
  exact ⟨s', hs', hrep, ⟨hcount.readHits, hcount.writeHits⟩,
    ⟨helse.waysCount, helse.cacheCount, helse.blockLength, helse.indexLength, helse.cacheSize,
      helse.lruStackSize, helse.cache, helse.lruStack⟩⟩

/-! ### Runs -/

/-- The blocks that a trace accesses. -/
def blocksOf (blocksize : ℕ) (trace : List (BitVec 64 × Bool)) : List (ℕ × Bool) :=
  trace.map fun x => (x.1.toNat / blocksize, x.2)

/-- The number of sets. -/
def setsOf (blocksize cachesize ways : ℕ) : ℕ := cachesize / blocksize / ways

/-- The run of an LRU cache of this size. -/
def lruRun {γ : Type*} (P : Policy Bool γ) (blocksize cachesize ways : ℕ)
    (trace : List (BitVec 64 × Bool)) : State ℕ ℕ γ :=
  P.run ways (fun block => block % setsOf blocksize cachesize ways) (blocksOf blocksize trace)

theorem lruRun_concat {γ : Type*} (P : Policy Bool γ) (x : BitVec 64 × Bool) :
    lruRun P blocksize cachesize ways (trace ++ [x]) =
      P.access ways (fun block => block % setsOf blocksize cachesize ways)
        (lruRun P blocksize cachesize ways trace) (x.1.toNat / blocksize, x.2) := by
  unfold lruRun blocksOf
  rw [List.map_append, List.map_singleton, Policy.run_concat]

/-- The parameters of the simulator are those of `cachesim_init`. -/
structure Shaped (blocksize cachesize ways : ℕ) (s : Sim) : Prop where
  waysCount : s.waysCount = ways
  block : blocksize = 2 ^ s.blockLength
  sets : setsOf blocksize cachesize ways = 2 ^ s.indexLength

theorem Elsewhere.shaped {k : ℕ} (helse : Elsewhere s k s')
    (h : Shaped blocksize cachesize ways s) : Shaped blocksize cachesize ways s' where
  waysCount := helse.waysCount.trans h.waysCount
  block := by rw [helse.blockLength, h.block]
  sets := by rw [helse.indexLength, h.sets]

theorem shaped_cachesimInit {b m : ℕ} (hb : blocksize = 2 ^ b)
    (hm : setsOf blocksize cachesize ways = 2 ^ m) :
    Shaped blocksize cachesize ways (cachesimInit blocksize cachesize ways) where
  waysCount := rfl
  block := by
    show blocksize = 2 ^ Nat.log 2 blocksize
    rw [hb, Nat.log_pow Nat.one_lt_two]
  sets := by
    show _ = 2 ^ Nat.log 2 (setsOf blocksize cachesize ways)
    rw [hm, Nat.log_pow Nat.one_lt_two]

/-- The simulator starts as an empty LRU cache. -/
theorem represents_cachesimInit {m : ℕ} (hm : setsOf blocksize cachesize ways = 2 ^ m)
    (hways : 1 ≤ ways) : Represents (cachesimInit blocksize cachesize ways) ⟨fun _ => [], []⟩ where
  sized := ⟨hways, rfl, rfl⟩
  count := by
    show setsOf blocksize cachesize ways = 2 ^ Nat.log 2 (setsOf blocksize cachesize ways)
    rw [hm, Nat.log_pow Nat.one_lt_two]
  set := fun k _ => ⟨[], setOk_cachesimInit blocksize cachesize ways k, rfl⟩
  writebacks := rfl

/-- The blocks in the sets of an LRU cache. -/
theorem keys_lruRun {γ : Type*} (P : Policy Bool γ) (hways : 1 ≤ ways) (k : ℕ) :
    ((lruRun P blocksize cachesize ways trace).sets k).map Prod.fst =
      recent ways (usesOf (fun block => block % setsOf blocksize cachesize ways) k
        (blocksOf blocksize trace)) :=
  P.keys_run hways _ _ _

theorem blocks_lruRun (hs : Shaped blocksize cachesize ways s) (hways : 1 ≤ ways)
    (htrace : ∀ x ∈ trace, x.1.toNat < 2 ^ 32) :
    Blocks s (lruRun codePolicy blocksize cachesize ways trace) := by
  have hmem : ∀ {k block}, block ∈ ((lruRun codePolicy blocksize cachesize ways trace).sets k).map
      Prod.fst → block ∈ (blocksOf blocksize trace).map Prod.fst ∧
        block % setsOf blocksize cachesize ways = k := by
    intro k block hblock
    rw [keys_lruRun codePolicy hways] at hblock
    exact mem_usesOf_of_recent hblock
  refine ⟨?_, ?_, ?_⟩
  · intro k
    rw [keys_lruRun codePolicy hways]
    exact recent_nodup _ _
  · intro k block hblock
    rw [← hs.sets]
    exact (hmem hblock).2
  · intro k block hblock
    obtain ⟨y, hy, rfl⟩ := List.mem_map.mp (hmem hblock).1
    obtain ⟨x, hx, rfl⟩ := List.mem_map.mp hy
    exact (Nat.div_le_self _ _).trans_lt (htrace x hx)

/-- **A run of the simulator represents the run of an LRU cache.** -/
theorem run_ends {b m : ℕ} (hb : blocksize = 2 ^ b) (hm : setsOf blocksize cachesize ways = 2 ^ m)
    (hways : 1 ≤ ways) (htrace : ∀ x ∈ trace, x.1.toNat < 2 ^ 32) :
    Ends ((cachesimInit blocksize cachesize ways).run trace) fun s =>
      Shaped blocksize cachesize ways s ∧
        Represents s (lruRun codePolicy blocksize cachesize ways trace) := by
  induction trace using List.reverseRecOn with
  | nil => exact .ok ⟨shaped_cachesimInit hb hm, represents_cachesimInit hm hways⟩
  | append_singleton trace x ih =>
      obtain ⟨s, hs, hshaped, hrep⟩ := ih fun y hy => htrace y (List.mem_append_left _ hy)
      have hblocks := blocks_lruRun hshaped hways fun y hy => htrace y (List.mem_append_left _ hy)
      have hblock : x.1.toNat / blocksize = x.1.toNat / 2 ^ s.blockLength := by rw [hshaped.block]
      obtain ⟨s', hs', hrep', -, helse⟩ := access_ends x.2 hrep hblocks (htrace x (by simp)) hblock
      refine ⟨s', ?_, helse.shaped hshaped, ?_⟩
      · rw [Sim.run_append, hs, ok_bind, Sim.run, hs', ok_bind]
        rfl
      · rw [hshaped.waysCount] at hrep'
        rw [lruRun_concat, hshaped.sets]
        exact hrep'

/-- The block of `physicalAddr` is one of the `ways` blocks of its set that were accessed last. -/
def RecentlyAccessed (blocksize cachesize ways : ℕ) (trace : List (BitVec 64 × Bool))
    (physicalAddr : BitVec 64) : Prop :=
  physicalAddr.toNat / blocksize ∈
    recent ways (usesOf (fun block => block % setsOf blocksize cachesize ways)
      (physicalAddr.toNat / blocksize % setsOf blocksize cachesize ways)
      (blocksOf blocksize trace))

instance (physicalAddr : BitVec 64) :
    Decidable (RecentlyAccessed blocksize cachesize ways trace physicalAddr) :=
  inferInstanceAs (Decidable (_ ∈ _))

theorem toNat_decide_and (p : Prop) [Decidable p] (q : Bool) :
    (decide p && q).toNat = if p ∧ q = true then 1 else 0 := by
  by_cases hp : p <;> cases q <;> simp [hp]

/-- An access after a run, and how it is counted. -/
theorem access_counted {b m : ℕ} (hb : blocksize = 2 ^ b)
    (hm : setsOf blocksize cachesize ways = 2 ^ m) (hways : 1 ≤ ways)
    (htrace : ∀ x ∈ trace, x.1.toNat < 2 ^ 32) (physicalAddr : BitVec 64)
    (haddr : physicalAddr.toNat < 2 ^ 32) (write : Bool) :
    Ends ((cachesimInit blocksize cachesize ways).run trace) fun s =>
      Ends (s.cachesimAccess physicalAddr write) fun s' =>
        Counted s (decide (RecentlyAccessed blocksize cachesize ways trace physicalAddr)) write
          s' := by
  obtain ⟨s, hs, hshaped, hrep⟩ := run_ends hb hm hways htrace
  have hblocks := blocks_lruRun hshaped hways htrace
  have hblock : physicalAddr.toNat / blocksize = physicalAddr.toNat / 2 ^ s.blockLength := by
    rw [hshaped.block]
  obtain ⟨s', hs', -, hcount, -⟩ := access_ends write hrep hblocks haddr hblock
  have hresident : (physicalAddr.toNat / blocksize ∈
      ((lruRun codePolicy blocksize cachesize ways trace).sets
        (physicalAddr.toNat / blocksize % 2 ^ s.indexLength)).map Prod.fst) ↔
      RecentlyAccessed blocksize cachesize ways trace physicalAddr := by
    rw [keys_lruRun codePolicy hways, ← hshaped.sets]
    rfl
  rw [decide_eq_decide.mpr hresident] at hcount
  exact ⟨s, hs, s', hs', hcount⟩

/-- **An access is a hit if and only if its block is one of the `ways` most recently
accessed distinct blocks of its set.** -/
theorem hits_iff_recent {b m : ℕ} (hb : blocksize = 2 ^ b)
    (hm : setsOf blocksize cachesize ways = 2 ^ m) (hways : 1 ≤ ways)
    (htrace : ∀ x ∈ trace, x.1.toNat < 2 ^ 32) (physicalAddr : BitVec 64)
    (haddr : physicalAddr.toNat < 2 ^ 32) (write : Bool) :
    Ends ((cachesimInit blocksize cachesize ways).run trace) fun s =>
      Ends (s.cachesimAccess physicalAddr write) fun s' =>
        (s'.readHits = s.readHits +
          if RecentlyAccessed blocksize cachesize ways trace physicalAddr ∧ write = false then 1
          else 0) ∧
        (s'.writeHits = s.writeHits +
          if RecentlyAccessed blocksize cachesize ways trace physicalAddr ∧ write = true then 1
          else 0) := by
  obtain ⟨s, hs, s', hs', hcount⟩ := access_counted hb hm hways htrace physicalAddr haddr write
  refine ⟨s, hs, s', hs', ?_, ?_⟩
  · rw [hcount.readHits, toNat_decide_and]
    simp only [Bool.not_eq_true']
  · rw [hcount.writeHits, toNat_decide_and]

/-- Two ways, one set, blocks of four bytes: after the blocks 0, 1 and 0 have been
accessed, a write to block 1 is a hit. -/
theorem hits_iff_recent_two_ways :
    Ends ((cachesimInit 4 8 2).run [(0#64, false), (4#64, true), (2#64, false)]) fun s =>
      Ends (s.cachesimAccess 7#64 true) fun s' =>
        (s'.readHits = s.readHits +
          if RecentlyAccessed 4 8 2 [(0#64, false), (4#64, true), (2#64, false)] 7#64 ∧
            true = false then 1
          else 0) ∧
        (s'.writeHits = s.writeHits +
          if RecentlyAccessed 4 8 2 [(0#64, false), (4#64, true), (2#64, false)] 7#64 ∧
            true = true then 1
          else 0) :=
  hits_iff_recent (b := 2) (m := 0) rfl rfl (by decide) (by simp) 7#64 (by decide) true

end ProjectArchive.CacheSim
