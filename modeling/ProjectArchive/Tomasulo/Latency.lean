/-
ProjectArchive/Tomasulo/Latency.lean

How long an instruction is executed for, and which accesses miss the cache.

The accesses in the history determine the cache: every set holds the block that
was accessed there last (`Cached`).  The remaining time of a row that is being
executed counts down from the latency of its instruction (`Metered`), which for
a load or store is known once it has accessed the cache; before that the row
holds 11, whatever the access will find.
-/
import ProjectArchive.Library.DirectMapped
import ProjectArchive.Tomasulo.Marks
import ProjectArchive.Tomasulo.Times

namespace ProjectArchive.Tomasulo

open Sweep DirectMapped

variable {conf : ProcConf} {prog : List TraceInst} {s s' : Proc conf} {qsort : Qsort conf}

/-! ### The accesses -/

/-- The instruction that has accessed the cache. -/
def Mark.access : Mark → Option ℕ
  | .accessed tag => some tag
  | .fired _ | .completed _ => none

/-- The instructions that have accessed the cache, in the order of the accesses. -/
def Proc.accesses (s : Proc conf) : List ℕ := s.history.filterMap Mark.access

/-- The 64-byte block that the instruction `t` accesses. -/
def blockOf (prog : List TraceInst) (t : ℕ) : ℕ :=
  match prog[t]? with
  | none => 0
  | some inst => inst.ldStAddr.toNat / 2 ^ blockSize

/-- The set of a block. -/
def ProcConf.setOf (conf : ProcConf) (block : ℕ) : ℕ := block % 2 ^ (conf.c - blockSize)

theorem blockOf_eq {t : ℕ} {inst : TraceInst} (hget : prog[t]? = some inst) :
    blockOf prog t = inst.ldStAddr.toNat / 2 ^ blockSize := by
  unfold blockOf
  rw [hget]

theorem indexValue_eq {t : ℕ} {inst : TraceInst} (hget : prog[t]? = some inst) :
    conf.indexValue inst.ldStAddr = conf.setOf (blockOf prog t) := by
  rw [blockOf_eq hget]
  rfl

theorem mem_accesses {t : ℕ} : t ∈ s.accesses ↔ Mark.accessed t ∈ s.history := by
  show t ∈ s.history.filterMap Mark.access ↔ _
  rw [List.mem_filterMap]
  constructor
  · rintro ⟨mark, hmem, hmark⟩
    cases mark with
    | fired tag => cases hmark
    | completed tag => cases hmark
    | accessed tag =>
        obtain rfl := Option.some.inj hmark
        exact hmem
  · intro hmem
    exact ⟨.accessed t, hmem, rfl⟩

/-- No instruction accesses the cache twice. -/
theorem Marked.accesses_nodup (h : Marked prog s) : s.accesses.Nodup := by
  refine h.nodup.filterMap ?_
  intro a b t ha hb
  cases a with
  | fired tag => cases ha
  | completed tag => cases ha
  | accessed tag =>
      cases b with
      | fired tag' => cases hb
      | completed tag' => cases hb
      | accessed tag' =>
          obtain rfl := Option.some.inj ha
          obtain rfl := Option.some.inj hb
          rfl

theorem accesses_note {mark : Mark} (hhistory : s'.history = s.history ++ [mark])
    (hmark : mark.access = none) : s'.accesses = s.accesses := by
  show s'.history.filterMap Mark.access = _
  rw [hhistory, List.filterMap_append]
  simp [hmark, Proc.accesses]

theorem accesses_accessed {t : ℕ} (hhistory : s'.history = s.history ++ [Mark.accessed t]) :
    s'.accesses = s.accesses ++ [t] := by
  show s'.history.filterMap Mark.access = _
  rw [hhistory, List.filterMap_append]
  rfl

theorem completeRow_accesses (s : Proc conf) (i : Fin conf.scheduleQueueSize) :
    (s.completeRow i).accesses = s.accesses := by
  obtain ⟨branchTable, ghr, e⟩ := s.completeRow_eq i
  have hhistory : (s.completeRow i).history = s.history ++ [Mark.completed (s.tag i)] := by
    rw [e]
    rfl
  exact accesses_note hhistory rfl

theorem accesses_congr (hhistory : s'.history = s.history) : s'.accesses = s.accesses := by
  show s'.history.filterMap Mark.access = _
  rw [hhistory]
  rfl

/-! ### The cache -/

/-- The tag in a block, if there is one. -/
def CacheBlock.contents (block : CacheBlock) : Option ℕ :=
  if block.valid then some block.tag else none

/-- The cache after the accesses. -/
structure Cached (prog : List TraceInst) (s : Proc conf) : Prop where
  contents : ∀ i, (s.l1Cache i).contents =
    (lastIn (blockOf prog) conf.setOf s.accesses i).map fun t =>
      blockOf prog t / 2 ^ (conf.c - blockSize)
  misses : s.stats.cacheMisses = (misses (blockOf prog) conf.setOf s.accesses).length

/-- A block is given by its set and its tag. -/
theorem block_eq_iff {a b : ℕ} (hset : conf.setOf a = conf.setOf b) :
    a = b ↔ a / 2 ^ (conf.c - blockSize) = b / 2 ^ (conf.c - blockSize) := by
  constructor
  · rintro rfl
    rfl
  · intro htag
    have hset' : a % 2 ^ (conf.c - blockSize) = b % 2 ^ (conf.c - blockSize) := hset
    calc a = 2 ^ (conf.c - blockSize) * (a / 2 ^ (conf.c - blockSize)) +
          a % 2 ^ (conf.c - blockSize) := (Nat.div_add_mod _ _).symm
      _ = 2 ^ (conf.c - blockSize) * (b / 2 ^ (conf.c - blockSize)) +
          b % 2 ^ (conf.c - blockSize) := by rw [htag, hset']
      _ = b := Nat.div_add_mod _ _

/-- The tag of an address is the tag of its block. -/
theorem tag_eq (hc : blockSize ≤ conf.c) (addr : ℕ) :
    addr / 2 ^ conf.c = addr / 2 ^ blockSize / 2 ^ (conf.c - blockSize) := by
  rw [Nat.div_div_eq_div_mul, ← Nat.pow_add, Nat.add_sub_cancel' hc]

/-- The cache finds what the accesses say it finds. -/
theorem Cached.holds_iff (h : Cached prog s) (hc : blockSize ≤ conf.c) {t : ℕ} {inst : TraceInst}
    (hget : prog[t]? = some inst) :
    s.Holds inst.ldStAddr ↔ Finds (blockOf prog) conf.setOf s.accesses t := by
  have hholds : s.Holds inst.ldStAddr ↔ (s.l1Cache (conf.setOf (blockOf prog t))).contents =
      some (blockOf prog t / 2 ^ (conf.c - blockSize)) := by
    unfold Proc.Holds CacheBlock.contents
    rw [indexValue_eq hget, tag_eq hc, ← blockOf_eq hget]
    split
    · rename_i hvalid
      simp [hvalid]
    · rename_i hvalid
      simp [hvalid]
  unfold Finds
  rw [hholds, h.contents]
  rcases hlast : lastIn (blockOf prog) conf.setOf s.accesses (conf.setOf (blockOf prog t)) with
    - | u
  · simp
  · have hset := set_of_lastIn _ _ hlast
    simpa using (block_eq_iff hset).symm

theorem cached_setup (trace : List TraceInst) : Cached trace (setupProc conf trace) where
  contents := fun _ => rfl
  misses := rfl

theorem Cached.congr (h : Cached prog s) (haccesses : s'.accesses = s.accesses)
    (hcache : s'.l1Cache = s.l1Cache) (hmisses : s'.stats.cacheMisses = s.stats.cacheMisses) :
    Cached prog s' where
  contents := by
    rw [haccesses, hcache]
    exact h.contents
  misses := by
    rw [haccesses, hmisses]
    exact h.misses

/-- The instruction `t` accesses the cache. -/
theorem Cached.access (h : Cached prog s) (hc : blockSize ≤ conf.c) {t : ℕ} {inst : TraceInst}
    (hget : prog[t]? = some inst) (hnew : t ∉ s.accesses)
    (haccesses : s'.accesses = s.accesses ++ [t]) {dirty : Bool}
    (hcache : s'.l1Cache = Function.update s.l1Cache (conf.indexValue inst.ldStAddr)
      ⟨true, inst.ldStAddr.toNat / 2 ^ conf.c, dirty⟩)
    (hmisses : s'.stats.cacheMisses =
      s.stats.cacheMisses + if s.Holds inst.ldStAddr then 0 else 1) : Cached prog s' where
  contents := by
    intro i
    rw [haccesses, lastIn_concat, hcache, indexValue_eq hget, tag_eq hc, ← blockOf_eq hget]
    -- the set of `t` holds its block now, and the other sets are as they were
    rcases eq_or_ne i (conf.setOf (blockOf prog t)) with rfl | hne
    · rw [Function.update_self, if_pos rfl]
      rfl
    · rw [Function.update_of_ne hne, if_neg hne.symm]
      exact h.contents i
  misses := by
    rw [haccesses, misses_concat _ _ hnew, List.length_append, hmisses, h.misses]
    by_cases hfinds : Finds (blockOf prog) conf.setOf s.accesses t
    · rw [if_pos ((h.holds_iff hc hget).mpr hfinds), if_pos hfinds]
      rfl
    · rw [if_neg fun hholds => hfinds ((h.holds_iff hc hget).mp hholds), if_neg hfinds]
      rfl

/-! ### Latencies -/

/-- The cycles that an instruction is executed for; `found` is for loads and stores. -/
def Opcode.latency (opcode : Opcode) (found : Bool) : ℕ :=
  match opcode with
  | .mul => 3
  | .load | .store => if found then 1 else 10
  | .nop | .add | .br => 1

/-- The time that a row has left when it has been fired. -/
def Opcode.firingTime : Opcode → ℤ
  | .mul => 3
  | .load | .store => 11
  | .nop | .add | .br => 1

/-- Whether the instruction `t` has found its block, given the accesses so far. -/
def found (conf : ProcConf) (prog : List TraceInst) (accesses : List ℕ) (t : ℕ) : Bool :=
  Finds (blockOf prog) conf.setOf (before accesses t) t

theorem Opcode.firingTime_eq (opcode : Opcode) :
    opcode.firingTime = 11 ∧ opcode.isLoadStore = true ∨
      opcode.isLoadStore = false ∧ ∀ found, opcode.firingTime = opcode.latency found := by
  cases opcode <;> first
    | exact .inl ⟨rfl, rfl⟩
    | exact .inr ⟨rfl, fun _ => rfl⟩

theorem Opcode.latency_eq {opcode : Opcode} (hls : opcode.isLoadStore = true) (found : Bool) :
    opcode.latency found = if found then 1 else 10 := by
  cases opcode <;> first
    | rfl
    | cases hls

/-- What has been found matters to loads and stores only. -/
theorem Opcode.latency_congr {opcode : Opcode} {a b : Bool}
    (h : opcode.isLoadStore = true → a = b) : opcode.latency a = opcode.latency b := by
  rcases hls : opcode.isLoadStore with - | -
  · cases opcode <;> first
      | rfl
      | cases hls
  · rw [h hls]

theorem Opcode.firingTime_pos (opcode : Opcode) : 0 < opcode.firingTime := by
  cases opcode <;> decide

theorem Proc.Takes.firingTime {row : Row} {t : ℤ} {u addUnit scheMulUnit lsUnit : ℕ}
    {lsFunctionalUnit : ℕ → Fu}
    (h : s.Takes row t u addUnit scheMulUnit lsUnit lsFunctionalUnit) :
    t = row.opcode.firingTime := by
  cases h with
  | adder hop =>
      rcases e : row.opcode <;> rw [e] at hop <;> first | rfl | cases hop
  | multiplier hop =>
      rw [hop]
      rfl
  | loadStore u hop =>
      rcases e : row.opcode <;> rw [e] at hop <;> first | rfl | cases hop

/-- The remaining time of a row, when the cycles before `clock` have been executed. -/
structure Row.Ticking (conf : ProcConf) (prog : List TraceInst) (accesses : List ℕ) (clock : ℕ)
    (row : Row) : Prop where
  waiting : row.instr.executeFirst = true → row.fired = true →
    row.remainingTime = row.opcode.firingTime
  running : row.instr.executeFirst = false → row.fired = true ∧ row.remainingTime < 11 ∧
    row.remainingTime + clock = row.instr.execute +
      row.opcode.latency (found conf prog accesses row.instr.sequentialTag)

/-- The remaining times and the recorded ones. -/
structure Metered (prog : List TraceInst) (clock : Fin conf.scheduleQueueSize → ℕ)
    (s : Proc conf) : Prop where
  row : ∀ i, (s.scheduleQueue i).occupied = true →
    (s.scheduleQueue i).Ticking conf prog s.accesses (clock i)
  result : ∀ r ∈ s.result, ∃ inst, prog[r.tag]? = some inst ∧
    r.update = r.execute + inst.opcode.latency (found conf prog s.accesses r.tag)

theorem found_append {accesses : List ℕ} {t : ℕ} (ht : t ∈ accesses) (later : List ℕ) :
    found conf prog (accesses ++ later) t = found conf prog accesses t := by
  unfold found
  rw [before_append ht]

theorem found_concat {accesses : List ℕ} {t : ℕ} (ht : t ∉ accesses) :
    found conf prog (accesses ++ [t]) t = decide (Finds (blockOf prog) conf.setOf accesses t) := by
  unfold found
  rw [before_concat ht]

variable {clock clock' : Fin conf.scheduleQueueSize → ℕ}

theorem metered_setup (trace : List TraceInst) (clock : Fin conf.scheduleQueueSize → ℕ) :
    Metered trace clock (setupProc conf trace) where
  row := by
    intro i hi
    cases hi
  result := by
    intro r hr
    cases hr

/-- Rows that have not been fired may change as long as they are not executed. -/
theorem Metered.of_unfired (h : Metered prog clock s) (haccesses : s'.accesses = s.accesses)
    (hresult : s'.result = s.result)
    (hrows : ∀ k, (s'.scheduleQueue k).occupied = true →
      s'.scheduleQueue k = s.scheduleQueue k ∨
      (s'.scheduleQueue k).instr.executeFirst = true ∧ ((s'.scheduleQueue k).fired = true →
        (s'.scheduleQueue k).remainingTime = (s'.scheduleQueue k).opcode.firingTime)) :
    Metered prog clock s' where
  row := by
    intro k hk
    rw [haccesses]
    rcases hrows k hk with heq | ⟨hfirst, htime⟩
    · rw [heq] at hk ⊢
      exact h.row k hk
    · refine ⟨fun _ => htime, ?_⟩
      intro hexecuted
      rw [hfirst] at hexecuted
      cases hexecuted
  result := by
    rw [haccesses, hresult]
    exact h.result

/-! ### `update_state` -/

theorem Metered.completeRow (h : Metered prog clock s) (hs : Books prog s)
    {i : Fin conf.scheduleQueueSize} (hfin : s.finished i = true) (hclock : clock i = s.cycle) :
    Metered prog clock (s.completeRow i) := by
  obtain ⟨hocc, hfired, htime⟩ := (finished_eq_true s i).mp hfin
  have haccesses := completeRow_accesses s i
  obtain ⟨branchTable, ghr, e⟩ := s.completeRow_eq i
  constructor
  case row =>
    intro k hk
    obtain ⟨src, update, lsConflictEnd, hrow, -⟩ := completeRow_get s i k
    rw [hrow] at hk ⊢
    rw [haccesses]
    exact ⟨(h.row k hk).waiting, (h.row k hk).running⟩
  case result =>
    intro r hr
    rw [haccesses]
    have hr' : r ∈ s.result ++ [((s.scheduleQueue i).completed s.cycle).instr.resultRow] := by
      rw [e] at hr
      exact hr
    rcases List.mem_append.mp hr' with hold | hnew
    · exact h.result r hold
    · -- a row that has no time left has been executed
      obtain rfl := List.mem_singleton.mp hnew
      have hrow := hs.rowsOk.row i hocc
      have htick := h.row i hocc
      have hfirst : (s.scheduleQueue i).instr.executeFirst = false := by
        rcases hfirst : (s.scheduleQueue i).instr.executeFirst with - | -
        · rfl
        · have hwait := htick.waiting hfirst hfired
          have hpos := (s.scheduleQueue i).opcode.firingTime_pos
          omega
      obtain ⟨-, -, hrun⟩ := htick.running hfirst
      refine ⟨(s.scheduleQueue i).instr.toTraceInst, hrow.get, ?_⟩
      rw [htime, hclock, hrow.op, Int.zero_add] at hrun
      exact_mod_cast hrun

theorem Metered.beginCycle (h : Ledger prog .updateState s) (hm : Metered prog clock s)
    (hclock : ∀ i, clock i = s.cycle) :
    Metered prog clock s.beginCycle ∧ s.beginCycle.cycle = s.cycle := by
  have hpass : Updating prog conf.scheduleQueueSize s.beginCycle ∧
      Metered prog clock s.beginCycle ∧ s.beginCycle.cycle = s.cycle := by
    refine sweep_induction (fun m a => Updating prog m a ∧ Metered prog clock a ∧
      a.cycle = s.cycle) ⟨h.updating {} rfl rfl, ⟨hm.row, hm.result⟩, rfl⟩ ?_
    rintro m a ⟨ha, hm, hcycle⟩
    refine ⟨ha.updateRow, ?_⟩
    unfold Proc.updateRow
    split
    · rename_i hfin
      refine ⟨hm.completeRow ha.books hfin ((hclock m).trans hcycle.symm), ?_⟩
      obtain ⟨branchTable, ghr, e⟩ := a.completeRow_eq m
      rw [e]
      exact hcycle
    · exact ⟨hm, hcycle⟩
  exact hpass.2

/-! ### `execute_instr` -/

theorem Opcode.latency_le (opcode : Opcode) (found : Bool) : opcode.latency found ≤ 10 := by
  cases opcode <;> cases found <;> decide

/-- A row is executed for the first time. -/
theorem Row.Ticking.first {row : Row} {accesses : List ℕ} {cycle : ℕ} {t : ℤ}
    (hfirst : row.instr.executeFirst = true) (hfired : row.fired = true)
    (ht : t + 1 = row.opcode.latency (found conf prog accesses row.instr.sequentialTag)) :
    Row.Ticking conf prog accesses (cycle + 1)
      { row.executing cycle with remainingTime := t } := by
  have hexecuting : row.executing cycle =
      { row with instr := { row.instr with execute := cycle, executeFirst := false } } :=
    if_pos hfirst
  rw [hexecuting]
  constructor
  case waiting =>
    intro hagain
    cases hagain
  case running =>
    intro _
    have hle := row.opcode.latency_le (found conf prog accesses row.instr.sequentialTag)
    refine ⟨hfired, ?_, ?_⟩
    · show t < 11
      omega
    · show t + ((cycle + 1 : ℕ) : ℤ) = (cycle : ℤ) +
        row.opcode.latency (found conf prog accesses row.instr.sequentialTag)
      omega

/-- A row is executed again. -/
theorem Row.Ticking.again {row : Row} {accesses : List ℕ} {cycle : ℕ}
    (h : row.Ticking conf prog accesses cycle) (hfirst : row.instr.executeFirst = false) :
    Row.Ticking conf prog accesses (cycle + 1)
      { row.executing cycle with remainingTime := row.remainingTime - 1 } := by
  have hexecuting : row.executing cycle = row := if_neg (by simp [hfirst])
  obtain ⟨hfired, hlt, hrun⟩ := h.running hfirst
  rw [hexecuting]
  constructor
  case waiting =>
    intro hagain
    rw [hfirst] at hagain
    cases hagain
  case running =>
    intro _
    refine ⟨hfired, ?_, ?_⟩
    · show row.remainingTime - 1 < 11
      omega
    · show row.remainingTime - 1 + ((cycle + 1 : ℕ) : ℤ) = _
      rw [← hrun]
      omega

/-- What a row that is executed leaves alone. -/
theorem executeRow_l1Cache {i : Fin conf.scheduleQueueSize}
    (hocc : (s.scheduleQueue i).occupied = true) (hfired : (s.scheduleQueue i).fired = true)
    (hne : (s.scheduleQueue i).remainingTime ≠ 11) :
    (s.executeRow i).history = s.history ∧ (s.executeRow i).l1Cache = s.l1Cache ∧
      (s.executeRow i).stats.cacheMisses = s.stats.cacheMisses ∧
      (s.executeRow i).scheduleQueue i = { (s.scheduleQueue i).executing s.cycle with
        remainingTime := (s.scheduleQueue i).remainingTime - 1 } := by
  obtain ⟨t, history, l1Cache, cacheMisses, e, ht, hcache⟩ := s.executeRow_eq i hocc hfired
  obtain ⟨-, rfl, rfl⟩ | ⟨h11, -⟩ := ht
  · obtain ⟨-, rfl, rfl⟩ | ⟨h11, -⟩ := hcache
    · rw [e]
      exact ⟨rfl, rfl, rfl, Function.update_self ..⟩
    · exact absurd h11 hne
  · exact absurd h11 hne

/-- A load or store that is executed for the first time accesses the cache. -/
theorem executeRow_access {i : Fin conf.scheduleQueueSize}
    (hocc : (s.scheduleQueue i).occupied = true) (hfired : (s.scheduleQueue i).fired = true)
    (h11 : (s.scheduleQueue i).remainingTime = 11) :
    (s.executeRow i).history = s.history ++ [Mark.accessed (s.tag i)] ∧
      (∃ dirty, (s.executeRow i).l1Cache = Function.update s.l1Cache
        (conf.indexValue (s.scheduleQueue i).instr.ldStAddr)
        ⟨true, (s.scheduleQueue i).instr.ldStAddr.toNat / 2 ^ conf.c, dirty⟩) ∧
      (s.executeRow i).stats.cacheMisses = s.stats.cacheMisses +
        (if s.Holds (s.scheduleQueue i).instr.ldStAddr then 0 else 1) ∧
      (s.executeRow i).scheduleQueue i = { (s.scheduleQueue i).executing s.cycle with
        remainingTime := if s.Holds (s.scheduleQueue i).instr.ldStAddr then 0 else 9 } := by
  obtain ⟨t, history, l1Cache, cacheMisses, e, ht, hcache⟩ := s.executeRow_eq i hocc hfired
  obtain ⟨hne, -⟩ | ⟨-, -, rfl⟩ := ht
  · exact absurd h11 hne
  · obtain ⟨hne, -⟩ | ⟨-, rfl, hl1Cache, rfl⟩ := hcache
    · exact absurd h11 hne
    · rw [e]
      exact ⟨rfl, hl1Cache, rfl, Function.update_self ..⟩

/-- The access is noted where the cache is accessed. -/
theorem Cached.executeRow (h : Cached prog s) (hs : Books prog s) (hm : Marked prog s)
    (hc : blockSize ≤ conf.c) {i : Fin conf.scheduleQueueSize}
    (hocc : (s.scheduleQueue i).occupied = true) (hfired : (s.scheduleQueue i).fired = true) :
    Cached prog (s.executeRow i) := by
  rcases eq_or_ne (s.scheduleQueue i).remainingTime 11 with h11 | hne
  · obtain ⟨hhistory, ⟨dirty, hl1Cache⟩, hmisses, -⟩ := executeRow_access hocc hfired h11
    exact h.access hc (hs.rowsOk.row i hocc).get
      (fun hmem => hm.not_accessed hs hocc h11 (mem_accesses.mp hmem))
      (accesses_accessed hhistory) hl1Cache hmisses
  · obtain ⟨hhistory, hl1Cache, hmisses, -⟩ := executeRow_l1Cache hocc hfired hne
    exact h.congr (accesses_congr hhistory) hl1Cache hmisses

/-- Rows that are being executed have accessed the cache, so later accesses do
not change their latency. -/
theorem Metered.later (h : Metered prog clock s) (hm : Marked prog s)
    {i : Fin conf.scheduleQueueSize} (hsame : SameBooks s s')
    (hothers : ∀ k, k ≠ i → s'.scheduleQueue k = s.scheduleQueue k) {later : List ℕ}
    (haccesses : s'.accesses = s.accesses ++ later) {t : ℕ}
    (hrow : (s'.scheduleQueue i).Ticking conf prog s'.accesses t) :
    Metered prog (Function.update clock i t) s' where
  row := by
    intro k hk
    rcases eq_or_ne k i with rfl | hki
    · rw [Function.update_self]
      exact hrow
    · rw [Function.update_of_ne hki]
      rw [hothers k hki] at hk ⊢
      have htick := h.row k hk
      refine ⟨htick.waiting, ?_⟩
      intro hfirst
      obtain ⟨hfired, hlt, hrun⟩ := htick.running hfirst
      refine ⟨hfired, hlt, ?_⟩
      -- the latency of this row has been decided by an access before
      rw [hrun, haccesses]
      congr 2
      refine Opcode.latency_congr ?_
      intro hls
      refine (found_append (mem_accesses.mpr ((hm.accessed _).mpr ?_)) later).symm
      exact .inr ⟨k, hk, ⟨hfired, hls, ne_of_lt hlt⟩, rfl⟩
  result := by
    intro r hr
    rw [hsame.result] at hr
    obtain ⟨inst, hget, hupdate⟩ := h.result r hr
    refine ⟨inst, hget, ?_⟩
    rw [hupdate, haccesses]
    congr 1
    refine Opcode.latency_congr ?_
    intro hls
    refine (found_append (mem_accesses.mpr ((hm.accessed _).mpr ?_)) later).symm
    exact .inl ⟨List.mem_map_of_mem hr, inst, hget, hls⟩

/-- The row `i` is executed, in the cycle after those of its clock. -/
theorem Metered.executeRow (h : Metered prog clock s) (hs : Books prog s) (hm : Marked prog s)
    (hcache : Cached prog s) (hc : blockSize ≤ conf.c) {i : Fin conf.scheduleQueueSize}
    (hclock : clock i = s.cycle) :
    Metered prog (Function.update clock i (s.cycle + 1)) (s.executeRow i) := by
  by_cases hguard : (s.scheduleQueue i).occupied = true ∧ (s.scheduleQueue i).fired = true
  · obtain ⟨hocc, hfired⟩ := hguard
    obtain ⟨hsame, -, hothers⟩ := executeRow_same i s
    have htick := h.row i hocc
    rcases eq_or_ne (s.scheduleQueue i).remainingTime 11 with h11 | hne
    · -- the access decides the latency
      obtain ⟨hhistory, -, -, hself⟩ := executeRow_access hocc hfired h11
      have haccesses := accesses_accessed hhistory
      have hfirst : (s.scheduleQueue i).instr.executeFirst = true := by
        by_contra hfirst
        have hlt := (htick.running (Bool.eq_false_of_not_eq_true hfirst)).2.1
        exact absurd h11 (ne_of_lt hlt)
      have hfound : found conf prog (s.accesses ++ [s.tag i]) (s.tag i) =
          decide (s.Holds (s.scheduleQueue i).instr.ldStAddr) := by
        rw [found_concat fun hmem => hm.not_accessed hs hocc h11 (mem_accesses.mp hmem)]
        exact decide_eq_decide.mpr (hcache.holds_iff hc (hs.rowsOk.row i hocc).get).symm
      refine h.later hm hsame hothers haccesses ?_
      rw [hself, haccesses]
      refine Row.Ticking.first hfirst hfired ?_
      rw [Opcode.latency_eq ((hm.time i hocc hfired).2 h11)]
      show _ = ((if found conf prog (s.accesses ++ [s.tag i]) (s.tag i) then 1 else 10 : ℕ) : ℤ)
      rw [hfound]
      by_cases hholds : s.Holds (s.scheduleQueue i).instr.ldStAddr <;> simp [hholds]
    · obtain ⟨hhistory, -, -, hself⟩ := executeRow_l1Cache hocc hfired hne
      have haccesses := accesses_congr hhistory
      refine h.later hm hsame hothers (haccesses.trans (List.append_nil _).symm) ?_
      rw [hself, haccesses]
      by_cases hfirst : (s.scheduleQueue i).instr.executeFirst = true
      · -- an addition, a branch or a multiplication, which knows its latency already
        have hwait := htick.waiting hfirst hfired
        obtain ⟨h11, -⟩ | ⟨-, htime⟩ := (s.scheduleQueue i).opcode.firingTime_eq
        · exact absurd (hwait.trans h11) hne
        · refine Row.Ticking.first hfirst hfired ?_
          rw [Int.sub_add_cancel, hwait]
          exact htime _
      · exact (hclock ▸ htick).again (Bool.eq_false_of_not_eq_true hfirst)
  · rw [s.executeRow_eq_self i hguard]
    refine ⟨?_, h.result⟩
    intro k hk
    rcases eq_or_ne k i with rfl | hki
    · refine ⟨(h.row k hk).waiting, ?_⟩
      intro hfirst
      exact absurd ⟨hk, ((h.row k hk).running hfirst).1⟩ hguard
    · rw [Function.update_of_ne hki]
      exact h.row k hk

theorem Metered.executeInstr (hs : Books prog s) (hm : Marked prog s) (hcache : Cached prog s)
    (hc : blockSize ≤ conf.c) (h : Metered prog (fun _ => s.cycle) s) :
    Metered prog (fun _ => s.cycle + 1) s.executeInstr := by
  -- the rows before `m` have been executed in this cycle
  have hpass := sweep_induction (f := Proc.executeRow) (a := s) (fun m a => SameBooks s a ∧
      Marked prog a ∧ Cached prog a ∧
      Metered prog (fun k => if k.val < m then s.cycle + 1 else s.cycle) a) ?_ ?_
  · have hall : (fun k : Fin conf.scheduleQueueSize =>
        if k.val < conf.scheduleQueueSize then s.cycle + 1 else s.cycle) =
        fun _ => s.cycle + 1 := by
      funext k
      exact if_pos k.isLt
    exact hall ▸ hpass.2.2.2
  · refine ⟨SameBooks.refl s, hm, hcache, ?_⟩
    have hnone : (fun k : Fin conf.scheduleQueueSize =>
        if k.val < 0 then s.cycle + 1 else s.cycle) = fun _ => s.cycle := by
      funext k
      exact if_neg (Nat.not_lt_zero _)
    rw [hnone]
    exact h
  · rintro i a ⟨hsame, hma, hcachea, ha⟩
    have hbooks := hsame.books hs
    have hclock : (fun k : Fin conf.scheduleQueueSize =>
        if k.val < i.val + 1 then s.cycle + 1 else s.cycle) =
        Function.update (fun k : Fin conf.scheduleQueueSize =>
          if k.val < i.val then s.cycle + 1 else s.cycle) i (a.cycle + 1) := by
      funext k
      rcases eq_or_ne k i with rfl | hki
      · rw [Function.update_self, if_pos (Nat.lt_succ_self _), hsame.cycle]
      · have hval : k.val ≠ i.val := Fin.val_ne_of_ne hki
        rw [Function.update_of_ne hki]
        exact if_congr (by omega) rfl rfl
    have hexecuted := ha.executeRow hbooks hma hcachea hc (i := i)
      ((if_neg (Nat.lt_irrefl _)).trans hsame.cycle.symm)
    have hnext : Marked prog (a.executeRow i) ∧ Cached prog (a.executeRow i) :=
      a.executeRow_preserves (P := fun b => Marked prog b ∧ Cached prog b) i ⟨hma, hcachea⟩
        fun hocc hfired =>
          ⟨hma.executeRow hbooks hocc hfired, hcachea.executeRow hbooks hma hc hocc hfired⟩
    rw [hclock]
    exact ⟨hsame.trans (executeRow_same i a).1, hnext.1, hnext.2, hexecuted⟩

/-! ### The other stages -/

/-- A row that has not been fired has not been executed. -/
theorem Row.Ticking.executeFirst {row : Row} {accesses : List ℕ} {t : ℕ}
    (h : row.Ticking conf prog accesses t) (hfired : row.fired = false) :
    row.instr.executeFirst = true := by
  by_contra hfirst
  have hfired' := (h.running (Bool.eq_false_of_not_eq_true hfirst)).1
  rw [hfired] at hfired'
  cases hfired'

/-- The row `i` is looked at, and gets the time of its instruction if it is fired. -/
theorem Metered.looksAt (h : Metered prog clock s) {i : Fin conf.scheduleQueueSize} {row : Row}
    (hocc : (s.scheduleQueue i).occupied = true) (hfired : (s.scheduleQueue i).fired = false)
    (haccesses : s'.accesses = s.accesses) (hresult : s'.result = s.result)
    (hrows : s'.scheduleQueue = Function.update s.scheduleQueue i row)
    (hfirst : row.instr.executeFirst = (s.scheduleQueue i).instr.executeFirst)
    (htime : row.fired = true → row.remainingTime = row.opcode.firingTime) :
    Metered prog clock s' := by
  refine h.of_unfired haccesses hresult ?_
  intro k _
  rw [hrows]
  rcases eq_or_ne k i with rfl | hki
  · rw [Function.update_self]
    exact .inr ⟨hfirst.trans ((h.row k hocc).executeFirst hfired), htime⟩
  · exact .inl (Function.update_of_ne hki _ _)

theorem Row.scheduling_executeFirst (row : Row) (cycle : ℕ) :
    (row.scheduling cycle).instr.executeFirst = row.instr.executeFirst := by
  show (if row.instr.scheduleFirst then _ else row.instr).executeFirst = _
  split <;> rfl

theorem Metered.scheduleRow (h : Metered prog clock s) (i : Fin conf.scheduleQueueSize) :
    Metered prog clock (s.scheduleRow i) := by
  have hcases := s.scheduleRow_cases i
  generalize s.scheduleRow i = s' at hcases ⊢
  cases hcases with
  | passes => exact h
  | unready hocc hfired =>
      refine h.looksAt hocc hfired rfl rfl rfl (Row.scheduling_executeFirst _ _) ?_
      intro hfired'
      exact absurd (hfired.symm.trans hfired') Bool.false_ne_true
  | ready hocc hfired _ htries =>
      cases htries with
      | waits =>
          refine h.looksAt hocc hfired rfl rfl rfl (Row.scheduling_executeFirst _ _) ?_
          intro hfired'
          exact absurd (hfired.symm.trans hfired') Bool.false_ne_true
      | fires htakes =>
          refine h.looksAt hocc hfired (accesses_note rfl rfl) rfl (Function.update_idem ..)
            (Row.scheduling_executeFirst (s.scheduleQueue i) s.cycle) ?_
          intro _
          exact htakes.firingTime
      | leaks =>
          refine h.looksAt hocc hfired rfl rfl (Function.update_idem ..)
            (Row.scheduling_executeFirst (s.scheduleQueue i) s.cycle) ?_
          intro hfired'
          exact absurd (hfired.symm.trans hfired') Bool.false_ne_true

theorem Metered.scheduleInstr (h : Metered prog clock s) :
    Metered prog clock s.scheduleInstr := by
  refine sweep_preserves (P := Metered prog clock) ⟨h.row, h.result⟩ ?_
  intro i a ha
  exact ha.scheduleRow i

theorem Inst.marked_executeFirst (cycle : ℕ) (inst : Inst) :
    (inst.marked cycle).executeFirst = inst.executeFirst := by
  unfold Inst.marked
  split <;> rfl

/-- An instruction that waits in the dispatch queue has not been executed. -/
theorem Metered.dispatchInstr (h : Metered prog clock s) (hs : Books prog s)
    (hqueue : ∀ inst ∈ s.dispatchQueue, inst.executeFirst = true) :
    Metered prog clock s.dispatchInstr ∧ s.dispatchInstr.cycle = s.cycle := by
  have hpass := (dispatchInstr_induction (P := fun a : Proc conf => Metered prog clock a ∧
    (∀ inst ∈ a.dispatchQueue, inst.executeFirst = true) ∧ a.cycle = s.cycle) ?_ ?_ ?_ hs
    ⟨⟨h.row, h.result⟩, ?_, rfl⟩).2
  · exact ⟨hpass.1, hpass.2.2⟩
  · rintro a b ⟨ha, hqueue, hcycle⟩
    exact ⟨⟨ha.row, ha.result⟩, hqueue, hcycle⟩
  · rintro a k _ ⟨ha, hqueue, hcycle⟩ _
    exact ⟨⟨ha.row, ha.result⟩, hqueue, hcycle⟩
  · rintro a i inst hbooks ⟨ha, hqueue, hcycle⟩ hfree hget _
    have hsame : (a.placeRow i inst).accesses = a.accesses ∧
        (a.placeRow i inst).dispatchQueue = a.dispatchQueue ∧
        (a.placeRow i inst).cycle = a.cycle := by
      rw [a.placeRow_eq]
      exact ⟨rfl, rfl, rfl⟩
    refine ⟨ha.of_unfired hsame.1 (a.placeRow_result i inst) ?_, hsame.2.1 ▸ hqueue,
      hsame.2.2.trans hcycle⟩
    intro k _
    rcases eq_or_ne k i with rfl | hki
    · rw [a.placeRow_self]
      refine .inr ⟨hqueue inst (List.mem_of_getElem? hget), ?_⟩
      intro hfired
      exact absurd ((hbooks.rowsOk.idle k hfree).symm.trans hfired) Bool.false_ne_true
    · exact .inl (a.placeRow_of_ne inst hki)
  · intro inst hinst
    have hinst' : inst ∈ s.dispatchQueue.take s.tempIterator ++
        (s.dispatchQueue.drop s.tempIterator).map (Inst.marked s.cycle) := hinst
    rcases List.mem_append.mp hinst' with hold | hnew
    · exact hqueue inst (List.mem_of_mem_take hold)
    · obtain ⟨inst, hmem, rfl⟩ := List.mem_map.mp hnew
      rw [Inst.marked_executeFirst]
      exact hqueue inst (List.mem_of_mem_drop hmem)

theorem Metered.fetchStage (h : Metered prog clock s) (hfetch : s.fetchStage = .ok s') :
    Metered prog clock s' ∧ s'.cycle = s.cycle := by
  refine Proc.fetchStage_induction (P := fun a : Proc conf => Metered prog clock a ∧
    a.cycle = s.cycle) ?_ ?_ ⟨h, rfl⟩ hfetch
  · rintro a inst trace ⟨ha, hcycle⟩ _ _
    exact ⟨⟨ha.row, ha.result⟩, hcycle⟩
  · rintro a more ⟨ha, hcycle⟩
    exact ⟨⟨ha.row, ha.result⟩, hcycle⟩

theorem Metered.endCycle {t : ℕ} (h : Metered prog (fun _ => t) s) (hs : Books prog s)
    (qsort : Qsort conf) :
    Metered prog (fun _ => t) (s.endCycle qsort) ∧ (s.endCycle qsort).cycle = s.cycle + 1 := by
  obtain ⟨cumulativeSize, e⟩ := endCycle_eq qsort hs
  obtain ⟨σ, hσ⟩ := endCycle_reorders qsort hs
  have hrow : ∀ k, ((s.endCycle qsort).scheduleQueue k).occupied = true →
      ((s.endCycle qsort).scheduleQueue k).Ticking conf prog s.accesses t := by
    intro k hk
    obtain ⟨hk', -, heq⟩ := hσ.stayed hk
    rw [heq]
    exact h.row (σ k) hk'
  rw [e] at hrow ⊢
  exact ⟨⟨hrow, h.result⟩, rfl⟩

/-! ### Runs -/

theorem Cached.step (hc : blockSize ≤ conf.c) (hs : Books prog s) (hm : Marked prog s)
    (h : Cached prog s) (hstep : Step qsort s s') : Cached prog s' := by
  cases hstep with
  | locals e =>
      have hhistory : s'.history = s.history := by rw [e]
      exact h.congr (accesses_congr hhistory) (by rw [e]) (by rw [e])
  | completes i hfin hnew =>
      obtain ⟨branchTable, ghr, e⟩ := s.completeRow_eq i
      exact h.congr (completeRow_accesses s i) (by rw [e]) (by rw [e])
  | executes i hocc hfired => exact h.executeRow hs hm hc hocc hfired
  | schedules i =>
      have hcases := s.scheduleRow_cases i
      generalize s.scheduleRow i = s' at hcases ⊢
      cases hcases with
      | passes => exact h
      | unready => exact h.congr rfl rfl rfl
      | ready _ _ _ htries =>
          cases htries with
          | waits => exact h.congr rfl rfl rfl
          | fires => exact h.congr (accesses_note rfl rfl) rfl rfl
          | leaks => exact h.congr rfl rfl rfl
  | marks => exact h.congr rfl rfl rfl
  | skips k _ => exact h.congr rfl rfl rfl
  | places i inst _ _ _ =>
      have hhistory : (s.placeRow i inst).history = s.history := by rw [s.placeRow_eq]
      exact h.congr (accesses_congr hhistory) (by rw [s.placeRow_eq]) (by rw [s.placeRow_eq])
  | fetches inst trace _ _ => exact h.congr rfl rfl rfl
  | releases =>
      obtain ⟨cumulativeSize, e⟩ := endCycle_eq qsort hs
      have hhistory : (s.endCycle qsort).history = s.history := by rw [e]
      exact h.congr (accesses_congr hhistory) (by rw [e]) (by rw [e])

/-- In every run the accesses determine the cache and its misses. -/
theorem Reached.cached {trace : List TraceInst} (hc : blockSize ≤ conf.c) {stage : Stage}
    (h : Reached conf qsort trace stage s) : Cached trace s := by
  have hboth : Marked trace s ∧ Cached trace s := by
    refine h.step_invariant (P := fun a => Marked trace a ∧ Cached trace a)
      ⟨marked_setup trace, cached_setup trace⟩ ?_
    rintro a b hs ⟨hm, ha⟩ hstep
    exact ⟨hm.step hs hstep, ha.step hc hs hm hstep⟩
  exact hboth.2

/-- In every run the remaining times count down from the latencies. -/
theorem Reached.metered {trace : List TraceInst} (hc : blockSize ≤ conf.c) {stage : Stage}
    (h : Reached conf qsort trace stage s) :
    Metered trace (fun _ => stage.limit s.cycle .executeInstr) s := by
  refine h.invariant_of
    (fun stage s => Ledger trace stage s ∧ Timed (stage.limit s.cycle) s ∧ Marked trace s ∧
      Cached trace s)
    (fun stage s => Metered trace (fun _ => stage.limit s.cycle .executeInstr) s)
    (fun h => ⟨h.ledger, h.timed, h.marked, h.cached hc⟩) (metered_setup trace _) ?_
  rintro stage s s' ⟨hledger, htimed, hm, hcache⟩ h hrun
  cases stage with
  | updateState =>
      obtain rfl := Except.ok.inj hrun
      obtain ⟨hs', hcycle⟩ := h.beginCycle hledger fun _ => rfl
      show Metered trace (fun _ => s.beginCycle.cycle) s.beginCycle
      rw [hcycle]
      exact hs'
  | executeInstr =>
      obtain rfl := Except.ok.inj hrun
      show Metered trace (fun _ => s.executeInstr.cycle + 1) s.executeInstr
      rw [(executeInstr_same s).1.cycle]
      exact h.executeInstr hledger.books hm hcache hc
  | scheduleInstr =>
      obtain rfl := Except.ok.inj hrun
      show Metered trace (fun _ => s.scheduleInstr.cycle + 1) s.scheduleInstr
      rw [(scheduleInstr_same s).1.cycle]
      exact h.scheduleInstr
  | dispatchInstr =>
      obtain rfl := Except.ok.inj hrun
      have hqueue : ∀ inst ∈ s.dispatchQueue, inst.executeFirst = true := by
        intro inst hinst
        obtain ⟨k, hk⟩ := List.getElem?_of_mem hinst
        exact (htimed.queue k inst hk).executeFirst
      obtain ⟨hs', hcycle⟩ := h.dispatchInstr hledger.books hqueue
      show Metered trace (fun _ => s.dispatchInstr.cycle + 1) s.dispatchInstr
      rw [hcycle]
      exact hs'
  | fetchInstr =>
      obtain ⟨hs', hcycle⟩ := h.fetchStage hrun
      show Metered trace (fun _ => s'.cycle + 1) s'
      rw [hcycle]
      exact hs'
  | updateState2 =>
      obtain rfl := Except.ok.inj hrun
      obtain ⟨hs', hcycle⟩ := h.endCycle hledger.books qsort
      show Metered trace (fun _ => (s.endCycle qsort).cycle) (s.endCycle qsort)
      rw [hcycle]
      exact hs'

/-! ### Latencies and misses -/

/-- The instruction `t` is in a row and has been executed. -/
def Proc.Executing (s : Proc conf) (t : ℕ) : Prop :=
  s.InRow (fun row => row.instr.executeFirst = false) t

/-- How long the instructions of a run were executed for, and what missed the cache. -/
structure Latencies (prog : List TraceInst) (s : Proc conf) : Prop where
  retired : ∀ r ∈ s.result, ∃ inst, prog[r.tag]? = some inst ∧ inst.opcode ≠ .nop ∧
    (inst.opcode = .add ∨ inst.opcode = .br → r.update = r.execute + 1) ∧
    (inst.opcode = .mul → r.update = r.execute + 3) ∧
    (inst.opcode = .load ∨ inst.opcode = .store → r.update = r.execute +
      if Finds (blockOf prog) conf.setOf (before s.accesses r.tag) r.tag then 1 else 10)
  /-- The accesses that have been performed are the loads and stores retired or executing. -/
  accesses : s.accesses.Nodup ∧ ∀ t, t ∈ s.accesses ↔
    IsLoadStore prog t ∧ (s.Completed t ∨ s.Executing t)
  misses : s.stats.cacheMisses = (misses (blockOf prog) conf.setOf s.accesses).length

/-- A row that has been executed has accessed the cache if its instruction does. -/
theorem Row.Ticking.accessed_iff {row : Row} {accesses : List ℕ} {t : ℕ}
    (h : row.Ticking conf prog accesses t) (hls : row.opcode.isLoadStore = true) :
    row.Accessed ↔ row.instr.executeFirst = false := by
  constructor
  · rintro ⟨hfired, -, hne⟩
    by_contra hfirst
    have hwait := h.waiting (Bool.eq_true_of_not_eq_false hfirst) hfired
    obtain ⟨h11, -⟩ | ⟨hnot, -⟩ := row.opcode.firingTime_eq
    · exact hne (hwait.trans h11)
    · rw [hls] at hnot
      cases hnot
  · intro hfirst
    obtain ⟨hfired, hlt, -⟩ := h.running hfirst
    exact ⟨hfired, hls, ne_of_lt hlt⟩

/-- **Exact latencies and cache misses.** -/
theorem exact_latencies {trace : List TraceInst} (hc : 6 ≤ conf.c) {stage : Stage}
    (h : Reached conf qsort trace stage s) : Latencies trace s where
  retired := by
    intro r hr
    obtain ⟨inst, hget, hupdate⟩ := (h.metered hc).result r hr
    have hissues := (h.ledger.books.rowsOk.completed r.tag (List.mem_map_of_mem hr)).2
    obtain ⟨inst', hget', hop⟩ := hissues
    obtain rfl := Option.some.inj (hget.symm.trans hget')
    refine ⟨inst, hget, hop, ?_, ?_, ?_⟩
    · rintro (e | e) <;> rw [e] at hupdate <;> exact hupdate
    · intro e
      rw [e] at hupdate
      exact hupdate
    · intro e
      have hls : inst.opcode.isLoadStore = true := by
        rcases e with e | e <;> rw [e] <;> rfl
      rw [hupdate, Opcode.latency_eq hls]
      exact congrArg _ (if_congr decide_eq_true_iff rfl rfl)
  accesses := by
    refine ⟨h.marked.accesses_nodup, ?_⟩
    intro t
    rw [mem_accesses, h.marked.accessed]
    constructor
    · rintro (⟨hc, hls⟩ | ⟨i, hi, ha, rfl⟩)
      · exact ⟨hls, .inl hc⟩
      · refine ⟨(h.ledger.books.rowsOk.row i hi).isLoadStore_iff.mpr ha.2.1, .inr ⟨i, hi, ?_, rfl⟩⟩
        exact (((h.metered hc).row i hi).accessed_iff ha.2.1).mp ha
    · rintro ⟨hls, hdone | ⟨i, hi, hfirst, rfl⟩⟩
      · exact .inl ⟨hdone, hls⟩
      · have hop := (h.ledger.books.rowsOk.row i hi).isLoadStore_iff.mp hls
        exact .inr ⟨i, hi, (((h.metered hc).row i hi).accessed_iff hop).mpr hfirst, rfl⟩
  misses := (h.cached hc).misses

/-- An addition and a load. -/
def addAndLoad : List TraceInst :=
  [⟨0, .add, none, fun _ => none, 0, false⟩, ⟨4, .load, none, fun _ => none, 64, false⟩]

/-- After five cycles the addition is completed, and the load has missed the cache. -/
theorem exact_latencies_addAndLoad : ∃ s : Proc smallConf,
    s.result.length = 1 ∧ s.stats.cacheMisses = 1 ∧ Latencies addAndLoad s := by
  have h₁ : Reached smallConf (keepOrder smallConf) addAndLoad .updateState _ :=
    Reached.cycle .setup rfl rfl
  have h₂ := h₁.cycle rfl rfl
  have h₃ := h₂.cycle rfl rfl
  have h₄ := h₃.cycle rfl rfl
  have h₅ := h₄.cycle rfl rfl
  exact ⟨_, rfl, rfl, exact_latencies (by decide) h₅⟩

end ProjectArchive.Tomasulo
