/-
ProjectArchive/CacheSim/Competitive.lean

The misses that `cachesim_print_stats` prints, against any other replacement.

A run of the simulator has missed exactly when the block was not one of the
`ways` blocks accessed last in its set (`run_faults`).  So what holds of these
misses in general holds of the simulator: no replacement with `kept ≤ ways`
blocks in a set misses less than `(ways - kept + 1) / ways` times as often, even
if it knows the trace beforehand (`misses_competitive`).
-/
import ProjectArchive.CacheSim.Inclusion
import ProjectArchive.Library.Paging

namespace ProjectArchive.CacheSim

open Exec Memory Lru

variable {s s' : Sim} {blocksize cachesize ways : ℕ} {trace : List (BitVec 64 × Bool)}

/-- The line that `cachesim_print_stats` prints. -/
structure Stats where
  accesses : ℕ
  hits : ℕ
  misses : ℕ
  writebacks : ℕ
  deriving DecidableEq, Repr

/-- `cachesim_print_stats`. -/
def Sim.cachesimPrintStats (s : Sim) : Stats where
  accesses := s.accesses
  hits := s.readHits + s.writeHits
  misses := s.accesses - (s.readHits + s.writeHits)
  writebacks := s.writebacks

/-! ### The counter of the accesses -/

theorem setRow_accesses {memLocation : ℤ} {row : CacheRow} (h : s.setRow memLocation row = .ok s') :
    s'.accesses = s.accesses := by
  obtain ⟨cache, -, h⟩ := bind_eq_ok h
  obtain rfl := Except.ok.inj h
  rfl

theorem updateCachesimLruAccess_accesses {indexValue accessLocation : ℕ}
    (h : s.updateCachesimLruAccess indexValue accessLocation = .ok s') :
    s'.accesses = s.accesses := by
  obtain ⟨location, -, h⟩ := bind_eq_ok h
  obtain ⟨shifted, -, h⟩ := bind_eq_ok h
  obtain ⟨lruStack, -, h⟩ := bind_eq_ok h
  obtain rfl := Except.ok.inj h
  rfl

theorem hitWay_accesses {indexValue i : ℕ} {row : CacheRow} {write : Bool}
    (h : s.hitWay indexValue i row write = .ok s') : s'.accesses = s.accesses := by
  cases write with
  | true =>
      obtain ⟨t, ht, h⟩ := bind_eq_ok h
      rw [updateCachesimLruAccess_accesses h, setRow_accesses ht]
  | false => exact updateCachesimLruAccess_accesses (s := { s with readHits := s.readHits + 1 }) h

theorem fillWay_accesses {indexValue i : ℕ} {tagValue : ℤ} {write : Bool}
    (h : s.fillWay indexValue i tagValue write = .ok s') : s'.accesses = s.accesses := by
  obtain ⟨t, ht, h⟩ := bind_eq_ok h
  rw [updateCachesimLruAccess_accesses h, setRow_accesses ht]

theorem replaceWay_accesses {indexValue i : ℕ} {tagValue : ℤ}
    (h : s.replaceWay indexValue i tagValue = .ok s') : s'.accesses = s.accesses := by
  obtain ⟨⟨way, t⟩, ht, h⟩ := bind_eq_ok h
  obtain ⟨returnVal, -, ht⟩ := bind_eq_ok ht
  obtain ⟨row, -, ht⟩ := bind_eq_ok ht
  obtain ⟨shifted, -, ht⟩ := bind_eq_ok ht
  obtain ⟨lruStack, -, ht⟩ := bind_eq_ok ht
  obtain ⟨-, rfl⟩ := Prod.mk.inj (Except.ok.inj ht)
  exact setRow_accesses (s := { s with writebacks := _, lruStack := lruStack }) h

theorem accessWays_accesses {indexValue : ℕ} {tagValue : ℤ} {write : Bool} {rounds i : ℕ}
    (h : s.accessWays indexValue tagValue write rounds i = .ok s') : s'.accesses = s.accesses := by
  induction rounds generalizing s i with
  | zero =>
      obtain rfl := Except.ok.inj h
      rfl
  | succ rounds ih =>
      obtain ⟨row, -, h⟩ := bind_eq_ok h
      split at h
      · exact hitWay_accesses h
      split at h
      · exact fillWay_accesses h
      split at h
      · obtain ⟨t, ht, h⟩ := bind_eq_ok h
        rw [ih h, replaceWay_accesses ht]
      · exact ih h

/-- Every call of `cachesim_access` is counted. -/
theorem cachesimAccess_accesses {physicalAddr : BitVec 64} {write : Bool}
    (h : s.cachesimAccess physicalAddr write = .ok s') : s'.accesses = s.accesses + 1 :=
  accessWays_accesses h

/-! ### The misses of a run -/

/-- **What the counters of a run come to.**  Every access is a hit or a fault. -/
theorem run_faults {b m : ℕ} (hb : blocksize = 2 ^ b) (hm : setsOf blocksize cachesize ways = 2 ^ m)
    (hways : 1 ≤ ways) (htrace : ∀ x ∈ trace, x.1.toNat < 2 ^ 32) :
    Ends ((cachesimInit blocksize cachesize ways).run trace) fun s =>
      s.accesses = trace.length ∧
        s.readHits + s.writeHits +
          faults (fun block => block % setsOf blocksize cachesize ways) ways
            (blocksOf blocksize trace) = trace.length := by
  induction trace using List.reverseRecOn with
  | nil => exact .ok ⟨rfl, rfl⟩
  | append_singleton trace x ih =>
      have htrace' : ∀ y ∈ trace, y.1.toNat < 2 ^ 32 := fun y hy =>
        htrace y (List.mem_append_left _ hy)
      obtain ⟨s, hs, haccesses, hfaults⟩ := ih htrace'
      obtain ⟨t, ht, s', hs', hcount⟩ :=
        access_counted hb hm hways htrace' x.1 (htrace x (by simp)) x.2
      obtain rfl := Except.ok.inj (hs.symm.trans ht)
      have hhits := hcount.readHits
      have hwrites := hcount.writeHits
      refine ⟨s', ?_, ?_, ?_⟩
      · rw [Sim.run_append, hs, ok_bind, Sim.run, hs', ok_bind]
        rfl
      · rw [cachesimAccess_accesses hs', haccesses, List.length_append]
        rfl
      · have hconcat : blocksOf blocksize (trace ++ [x]) =
            blocksOf blocksize trace ++ [(x.1.toNat / blocksize, x.2)] := List.map_append
        rw [hconcat, faults_concat, List.length_append, List.length_singleton, hhits, hwrites]
        -- one of the two counters, or a fault
        by_cases hrecent : RecentlyAccessed blocksize cachesize ways trace x.1
        · have hmem := hrecent
          unfold RecentlyAccessed at hmem
          rw [if_pos hmem, decide_eq_true hrecent]
          cases x.2 <;> simp <;> omega
        · have hmem := hrecent
          unfold RecentlyAccessed at hmem
          rw [if_neg hmem, decide_eq_false hrecent]
          simp
          omega

/-- **The replacement of the simulator is competitive.**  After a run, the hits and the misses
that are printed add up to the accesses; and any cache with the same sets that serves the same
trace with at most `kept ≤ ways` blocks in a set, whatever it replaces and whatever it knows of
the trace, misses at least `(ways - kept + 1) / ways` times as often. -/
theorem misses_competitive {b m kept misses : ℕ} {held : ℕ → Finset ℕ} (hb : blocksize = 2 ^ b)
    (hm : setsOf blocksize cachesize ways = 2 ^ m) (hpos : 1 ≤ kept) (hkept : kept ≤ ways)
    (htrace : ∀ x ∈ trace, x.1.toNat < 2 ^ 32)
    (hserves : Serves (fun block => block % setsOf blocksize cachesize ways) kept
      (blocksOf blocksize trace) held misses) :
    Ends ((cachesimInit blocksize cachesize ways).run trace) fun s =>
      s.cachesimPrintStats.accesses = trace.length ∧
      s.cachesimPrintStats.hits + s.cachesimPrintStats.misses = trace.length ∧
      (ways - kept + 1) * s.cachesimPrintStats.misses ≤ ways * misses := by
  obtain ⟨s, hs, haccesses, hfaults⟩ := run_faults hb hm (hpos.trans hkept) htrace
  have hmisses : s.cachesimPrintStats.misses =
      faults (fun block => block % setsOf blocksize cachesize ways) ways
        (blocksOf blocksize trace) := by
    show s.accesses - (s.readHits + s.writeHits) = _
    omega
  refine ⟨s, hs, haccesses, ?_, ?_⟩
  · rw [hmisses]
    exact hfaults
  · rw [hmisses]
    exact hserves.faults_le hpos hkept

/-- One set of two ways, and the blocks 0, 1, 2 and 0: whoever gives up block 1 for block 2 misses
only three times. -/
theorem misses_competitive_two_ways :
    Ends ((cachesimInit 4 8 2).run [(0#64, false), (4#64, true), (8#64, false), (1#64, true)])
      fun s =>
        s.cachesimPrintStats.accesses = 4 ∧
        s.cachesimPrintStats.hits + s.cachesimPrintStats.misses = 4 ∧
        (2 - 2 + 1) * s.cachesimPrintStats.misses ≤ 2 * 3 :=
  misses_competitive (b := 2) (m := 0) rfl rfl (by decide) (by decide) (by simp)
    (.use (0, true) {2, 0}
      (.use (2, false) {2, 0}
        (.use (1, true) {1, 0}
          (.use (0, false) {0} .nil (by decide) (by decide) (by decide))
          (by decide) (by decide) (by decide))
        (by decide) (by decide) (by decide))
      (by decide) (by decide) (by decide))

end ProjectArchive.CacheSim
