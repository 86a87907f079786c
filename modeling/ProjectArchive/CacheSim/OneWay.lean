/-
ProjectArchive/CacheSim/OneWay.lean

The cache simulator against the cache of the processor simulator.

`procsim.c` has a data cache of its own, with a block in each set.  Its loads and
stores access it in the order of `accesses`, which is not the order of the
program.  When `cachesim.c` is given these accesses in this order, with one way
and blocks of 64 bytes, it holds the same blocks at every point of a run and has
counted as many misses (`cachesim_checks_procsim`).
-/
import ProjectArchive.CacheSim.Competitive
import ProjectArchive.Library.OneWay
import ProjectArchive.Tomasulo.Latency

namespace ProjectArchive.CacheSim

open Exec Memory Lru DirectMapped Tomasulo

variable {conf : ProcConf} {qsort : Qsort conf} {prog : List TraceInst} {s : Proc conf}

/-- The access of the instruction `t`, as the cache simulator gets it. -/
def accessOf (prog : List TraceInst) (t : ℕ) : BitVec 64 × Bool :=
  match prog[t]? with
  | none => (0, false)
  | some inst => (inst.ldStAddr, inst.opcode ≠ .load)

/-- The addresses of 32 bits. -/
theorem accessOf_lt (haddr : ∀ inst ∈ prog, inst.ldStAddr.toNat < 2 ^ 32) (t : ℕ) :
    (accessOf prog t).1.toNat < 2 ^ 32 := by
  unfold accessOf
  rcases hget : prog[t]? with - | inst
  · exact Nat.two_pow_pos 32
  · exact haddr inst (List.mem_of_getElem? hget)

theorem blocksOf_accesses (prog : List TraceInst) (accesses : List ℕ) :
    blocksOf (2 ^ blockSize) (accesses.map (accessOf prog)) =
      accesses.map fun t => (blockOf prog t, (accessOf prog t).2) := by
  unfold blocksOf
  rw [List.map_map]
  refine List.map_congr_left fun t _ => Prod.ext ?_ rfl
  show (accessOf prog t).1.toNat / 2 ^ blockSize = blockOf prog t
  unfold accessOf blockOf
  rcases prog[t]? with - | inst
  · rfl
  · rfl

theorem blockOf_lt (haddr : ∀ inst ∈ prog, inst.ldStAddr.toNat < 2 ^ 32) (t : ℕ) :
    blockOf prog t < 2 ^ (32 - blockSize) := by
  unfold blockOf
  rcases hget : prog[t]? with - | inst
  · exact Nat.two_pow_pos _
  · exact Nat.div_lt_of_lt_mul (haddr inst (List.mem_of_getElem? hget))

/-- A cache of `2 ^ c` bytes has as many sets of one block as `procsim.c` has. -/
theorem setsOf_one {c : ℕ} (hc : blockSize ≤ c) :
    setsOf (2 ^ blockSize) (2 ^ c) 1 = 2 ^ (c - blockSize) := by
  unfold setsOf
  rw [Nat.div_one, Nat.pow_div hc (by decide)]

/-- A set of one way holds the block that was used last in it. -/
theorem Represents.row {c : Sim} {st : State ℕ ℕ Bool} {i : ℕ} {recent : Option ℕ}
    (h : Represents c st) (hways : c.waysCount = 1) (hi : i < c.cacheCount)
    (hset : (st.sets i).map Prod.fst = recent.toList) :
    (c.cache.cell i).valid = recent.isSome ∧
      ∀ block ∈ recent, (c.cache.cell i).tag = tagOf c.indexLength block := by
  obtain ⟨ways, hok, hentry⟩ := h.set i hi
  have hblocks : ways.map Way.block = recent.toList := by
    rw [map_block, hentry, hset]
  have hcell : i * c.waysCount = i := by rw [hways, Nat.mul_one]
  cases recent with
  | none =>
      have hnil : ways = [] := List.map_eq_nil_iff.mp hblocks
      have hempty := hok.empty 0 (by rw [hnil]; exact Nat.le_refl 0) h.sized.pos
      rw [hcell, Nat.add_zero] at hempty
      refine ⟨hempty, ?_⟩
      intro block hblock
      cases hblock
  | some block =>
      obtain ⟨e, rfl, rfl⟩ : ∃ e, ways = [e] ∧ e.block = block := List.map_eq_singleton_iff.mp hblocks
      have hway := hok.way_lt (List.mem_singleton_self e)
      have hrow := hok.row e (List.mem_singleton_self e)
      rw [Nat.lt_one_iff.mp hway, hcell, Nat.add_zero] at hrow
      rw [hrow]
      refine ⟨rfl, ?_⟩
      intro block hblock
      obtain rfl := Option.some.inj hblock
      rfl

/-- The tag of a block, when it is small enough for an `int`. -/
theorem tagOf_eq {indexLength block : ℕ} (hlt : block < 2 ^ 31) :
    tagOf indexLength block = (block / 2 ^ indexLength : ℕ) := by
  have hsmall : block / 2 ^ indexLength < 2 ^ 31 := (Nat.div_le_self _ _).trans_lt hlt
  unfold tagOf
  generalize block / 2 ^ indexLength = tag at hsmall ⊢
  rw [BitVec.toInt_eq_toNat_of_lt (by rw [BitVec.toNat_ofNat]; omega), BitVec.toNat_ofNat,
    Nat.mod_eq_of_lt (by omega)]

/-- **The two simulators agree.**  At any point of a run of `procsim.c`, give `cachesim.c` the
accesses so far, in the order in which the processor made them, with one way and blocks of 64
bytes.  It prints as many accesses and misses as the processor has counted, and a block is in the
one cache if and only if it is in the other. -/
theorem cachesim_checks_procsim {stage : Stage} (hc : 6 ≤ conf.c)
    (haddr : ∀ inst ∈ prog, inst.ldStAddr.toNat < 2 ^ 32)
    (h : Reached conf qsort prog stage s) :
    Ends ((cachesimInit 64 (2 ^ conf.c) 1).run (s.accesses.map (accessOf prog))) fun c =>
      c.cachesimPrintStats.accesses = s.accesses.length ∧
      c.cachesimPrintStats.misses = s.stats.cacheMisses ∧
      ∀ i < 2 ^ (conf.c - 6), (c.cache.cell i).valid = (s.l1Cache i).valid ∧
        ((s.l1Cache i).valid = true → (c.cache.cell i).tag = (s.l1Cache i).tag) := by
  have hcached := h.cached hc
  have hsets := setsOf_one hc
  have htrace : ∀ x ∈ s.accesses.map (accessOf prog), x.1.toNat < 2 ^ 32 := by
    intro x hx
    obtain ⟨t, -, rfl⟩ := List.mem_map.mp hx
    exact accessOf_lt haddr t
  obtain ⟨c, hrun, haccesses, hfaults⟩ := run_faults rfl hsets (Nat.le_refl 1) htrace
  obtain ⟨c', hrun', hshaped, hrep⟩ := run_ends rfl hsets (Nat.le_refl 1) htrace
  obtain rfl := Except.ok.inj (hrun.symm.trans hrun')
  rw [blocksOf_accesses, hsets, List.length_map] at hfaults
  rw [List.length_map] at haccesses
  have hmisses : faults conf.setOf 1
      (s.accesses.map fun t => (blockOf prog t, (accessOf prog t).2)) =
        (misses (blockOf prog) conf.setOf s.accesses).length :=
    faults_one_eq_length_misses _ h.marked.accesses_nodup
  refine ⟨c, hrun, haccesses, ?_, ?_⟩
  · show c.accesses - (c.readHits + c.writeHits) = _
    rw [hcached.misses, ← hmisses, haccesses]
    exact Nat.sub_eq_of_eq_add' hfaults.symm
  · intro i hi
    have hindex : 2 ^ (conf.c - 6) = 2 ^ c.indexLength := hsets.symm.trans hshaped.sets
    have hrecent : ((lruRun codePolicy (2 ^ blockSize) (2 ^ conf.c) 1
        (s.accesses.map (accessOf prog))).sets i).map Prod.fst =
          ((lastIn (blockOf prog) conf.setOf s.accesses i).map (blockOf prog)).toList := by
      rw [keys_lruRun codePolicy (Nat.le_refl 1), blocksOf_accesses, hsets]
      exact recent_one_usesOf _ s.accesses i
    obtain ⟨hvalid, htag⟩ := hrep.row hshaped.waysCount (by rw [hrep.count, ← hindex]; exact hi)
      hrecent
    have hcontents := hcached.contents i
    rcases hlast : lastIn (blockOf prog) conf.setOf s.accesses i with - | t
    · rw [hlast] at hvalid hcontents
      unfold CacheBlock.contents at hcontents
      split at hcontents
      · cases hcontents
      · rename_i hempty
        rw [hvalid, Bool.eq_false_of_not_eq_true hempty]
        exact ⟨rfl, fun hfull => absurd hfull Bool.false_ne_true⟩
    · rw [hlast] at hvalid htag hcontents
      unfold CacheBlock.contents at hcontents
      split at hcontents
      · rename_i hfull
        refine ⟨hvalid.trans hfull.symm, fun _ => ?_⟩
        have hlt := blockOf_lt haddr t
        rw [htag _ rfl, tagOf_eq (hlt.trans_le (by decide)), ← hindex]
        exact congrArg Nat.cast (Option.some.inj hcontents).symm
      · cases hcontents

/-- After five cycles the load has missed both caches. -/
theorem cachesim_checks_procsim_addAndLoad : ∃ s : Proc smallConf, s.stats.cacheMisses = 1 ∧
    Ends ((cachesimInit 64 (2 ^ smallConf.c) 1).run (s.accesses.map (accessOf addAndLoad)))
      fun c =>
        c.cachesimPrintStats.accesses = s.accesses.length ∧
        c.cachesimPrintStats.misses = s.stats.cacheMisses ∧
        ∀ i < 2 ^ (smallConf.c - 6), (c.cache.cell i).valid = (s.l1Cache i).valid ∧
          ((s.l1Cache i).valid = true → (c.cache.cell i).tag = (s.l1Cache i).tag) := by
  have h₁ : Reached smallConf (keepOrder smallConf) addAndLoad .updateState _ :=
    Reached.cycle .setup rfl rfl
  have h₂ := h₁.cycle rfl rfl
  have h₃ := h₂.cycle rfl rfl
  have h₄ := h₃.cycle rfl rfl
  have h₅ := h₄.cycle rfl rfl
  exact ⟨_, rfl, cachesim_checks_procsim (by decide) (by decide) h₅⟩

end ProjectArchive.CacheSim
