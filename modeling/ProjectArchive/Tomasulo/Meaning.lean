/-
ProjectArchive/Tomasulo/Meaning.lean

The pipeline executes the program.

Whatever the instructions mean, the out-of-order pipeline leaves the registers
and the memory as the program does that is executed one instruction after the
other.  `Valued` is the invariant: a register that is ready and a source that
is ready hold what the program finds in the register, a load that has accessed
the cache has read what the program reads, and a cell of the memory holds what
the stores that have accessed the cache have left there.
-/
import ProjectArchive.Tomasulo.Values

namespace ProjectArchive.Tomasulo

open Sweep EventLog Loop ProgramOrder

variable {conf : ProcConf} {V : Type*} {sem : Semantics V} {prog : List TraceInst}
  {m : Store V} {s s' : Proc conf} {d : Data V} {qsort : Qsort conf}

/-- The values are those of the program. -/
structure Valued (sem : Semantics V) (prog : List TraceInst) (m : Store V) (s : Proc conf)
    (d : Data V) : Prop where
  file : ∀ r, (s.registerFile r).ready = true →
    d.regs r = (sem.before prog m s.dispatchQueueHead).regs r
  source : ∀ i k, (s.scheduleQueue i).occupied = true →
    ((s.scheduleQueue i).src k).ready = true →
    d.operand (s.tag i) k =
      (sem.before prog m (s.tag i)).operands (s.scheduleQueue i).instr.toTraceInst k
  loaded : ∀ t inst, prog[t]? = some inst →
    d.loaded t = if Mark.accessed t ∈ s.history then (sem.before prog m t).loaded inst else none
  memory : ∀ addr t, (∀ x < t, StoresTo prog x addr → Mark.accessed x ∈ s.history) →
    (∀ x, t ≤ x → StoresTo prog x addr → Mark.accessed x ∉ s.history) →
    d.mem addr = (sem.before prog m t).mem addr

theorem valued_setup : Valued sem prog m (setupProc conf prog) (setupData m) where
  file := fun _ _ => rfl
  source := by simp [setupProc, emptyRow]
  loaded := by simp [setupProc, setupData]
  memory := by
    intro addr t hdone _
    have hkept : (sem.before prog m t).mem addr = (sem.before prog m 0).mem addr :=
      value_congr (fun j => (sem.before prog m j).mem) (fun k hk => before_succ_mem hk)
        (Nat.zero_le t) fun k _ hkt hstores => by simpa [setupProc] using hdone k hkt hstores
    exact hkept.symm

/-- Steps that leave alone what the values depend on. -/
theorem Valued.congr (h : Valued sem prog m s d)
    (hrows : ∀ i, (s.scheduleQueue i).Same (s'.scheduleQueue i))
    (hsrc : ∀ i, (s'.scheduleQueue i).src = (s.scheduleQueue i).src)
    (hfile : s'.registerFile = s.registerFile)
    (hhead : s'.dispatchQueueHead = s.dispatchQueueHead)
    (haccessed : ∀ t, Mark.accessed t ∈ s'.history ↔ Mark.accessed t ∈ s.history) :
    Valued sem prog m s' d where
  file := by
    rw [hfile, hhead]
    exact h.file
  source := by
    intro i k hi hready
    rw [(hrows i).occupied] at hi
    rw [hsrc] at hready
    rw [show s'.tag i = s.tag i from (hrows i).tag, (hrows i).inst]
    exact h.source i k hi hready
  loaded := by
    intro t inst hget
    simp only [haccessed]
    exact h.loaded t inst hget
  memory := by
    simp only [haccessed]
    exact h.memory

/-! ### Completing -/

/-- The sources of a row that has been fired are ready. -/
theorem ready_of_fired (hs : Books prog s) (hm : Marked prog s) (hr : Renamed prog s)
    (hf : FiresAfterProducers prog s) {i : Fin conf.scheduleQueueSize}
    (hocc : (s.scheduleQueue i).occupied = true) (hfired : (s.scheduleQueue i).fired = true)
    (k : Fin 2) : ((s.scheduleQueue i).src k).ready = true := by
  refine hr.ready hocc ?_
  intro r p hreg hp
  have hrow := hs.rowsOk.row i hocc
  have hmark : Mark.fired (s.tag i) ∈ s.history := (hm.fired _).mpr (.inr ⟨i, hocc, hfired, rfl⟩)
  obtain ⟨l₁, l₂, e⟩ := List.append_of_mem hmark
  have hdone := hf (s.tag i) _ k r p hrow.get ((hrow.src k).symm.trans hreg) hp l₁ l₂ e
  rw [← hm.completed, e]
  exact List.mem_append_left _ hdone

/-- A row that has been fired has the operands of the program. -/
theorem Valued.operands (h : Valued sem prog m s d) (hs : Books prog s) (hm : Marked prog s)
    (hr : Renamed prog s) (hf : FiresAfterProducers prog s) {i : Fin conf.scheduleQueueSize}
    (hocc : (s.scheduleQueue i).occupied = true) (hfired : (s.scheduleQueue i).fired = true) :
    d.operand (s.tag i) =
      (sem.before prog m (s.tag i)).operands (s.scheduleQueue i).instr.toTraceInst := by
  funext k
  exact h.source i k hocc (ready_of_fired hs hm hr hf hocc hfired k)

/-- A row that has finished has the result of the program. -/
theorem Valued.result (h : Valued sem prog m s d) (hs : Books prog s) (hm : Marked prog s)
    (hr : Renamed prog s) (hf : FiresAfterProducers prog s) {i : Fin conf.scheduleQueueSize}
    (hfin : s.finished i = true) :
    d.result sem (s.scheduleQueue i) =
      sem.value (sem.before prog m (s.tag i)) (s.scheduleQueue i).instr.toTraceInst := by
  obtain ⟨hocc, hfired, htime⟩ := (finished_eq_true s i).mp hfin
  have hrow := hs.rowsOk.row i hocc
  have hloaded : d.loaded (s.tag i) =
      (sem.before prog m (s.tag i)).loaded (s.scheduleQueue i).instr.toTraceInst := by
    rw [h.loaded (s.tag i) _ hrow.get]
    split
    · rfl
    · -- what has finished without accessing the cache is no load
      rename_i hnot
      refine (if_neg ?_).symm
      intro hload
      refine hnot ((hm.accessed _).mpr (.inr ⟨i, hocc, ⟨hfired, ?_, ?_⟩, rfl⟩))
      · rw [hrow.op, hload]
        rfl
      · rw [htime]
        decide
  show sem.result _ (d.operand (s.tag i)) (d.loaded (s.tag i)) = _
  rw [h.operands hs hm hr hf hocc hfired, hloaded]
  rfl

theorem wakes_iff (done : Row) (operand : Operand) :
    done.wakes operand = true ↔ operand.ready = false ∧ done.produces operand := by
  simp [Row.wakes]

/-- What waits for the row `i` gets the value that the program finds. -/
theorem Tracks.result (sem : Semantics V) (m : Store V) {t : ℕ} {operand : Operand} {r : Reg} (hs : Books prog s)
    (hr : Renamed prog s) {i : Fin conf.scheduleQueueSize}
    (hocc : (s.scheduleQueue i).occupied = true)
    (htracks : ∀ p, Producer prog r t p → Tracks prog s operand.ready operand.tag p)
    (hproducer : operand.ready = false → ∃ p, Producer prog r t p)
    (hwakes : (s.scheduleQueue i).wakes operand = true) :
    (sem.before prog m t).regs r =
      sem.value (sem.before prog m (s.tag i)) (s.scheduleQueue i).instr.toTraceInst := by
  obtain ⟨hwaits, -, -, htag⟩ := (wakes_iff _ _).mp hwakes
  obtain ⟨p, hp⟩ := hproducer hwaits
  have hrow := hs.rowsOk.row i hocc
  have htags : destTag prog p = destTag prog (s.tag i) := by
    rw [← (htracks p hp).tag_eq hwaits, htag, hr.destRegTag i hocc]
  obtain rfl := destTag_inj hp.wrote.issues hrow.issues htags
  exact before_regs_of_producer hp hrow.get

theorem Valued.completeRow (h : Valued sem prog m s d) (hs : Books prog s) (hm : Marked prog s)
    (hr : Renamed prog s) (hf : FiresAfterProducers prog s) {i : Fin conf.scheduleQueueSize}
    (hfin : s.finished i = true) : Valued sem prog m (s.completeRow i) (d.complete sem s i) := by
  have hocc := ((finished_eq_true s i).mp hfin).1
  have hrow := completeRow_row s i
  have hresult := h.result hs hm hr hf hfin
  have hfields : (s.completeRow i).registerFile = (s.scheduleQueue i).writeBack s.registerFile ∧
      (s.completeRow i).dispatchQueueHead = s.dispatchQueueHead ∧
      (s.completeRow i).history = s.history ++ [Mark.completed (s.tag i)] := by
    obtain ⟨branchTable, ghr, e⟩ := s.completeRow_eq i
    rw [e]
    exact ⟨rfl, rfl, rfl⟩
  obtain ⟨hfile, hhead, hhistory⟩ := hfields
  have haccessed : ∀ t, Mark.accessed t ∈ (s.completeRow i).history ↔
      Mark.accessed t ∈ s.history := by
    intro t
    rw [hhistory]
    simp
  constructor
  case file =>
    intro r hready
    rw [hhead]
    rw [hfile] at hready
    show (if _ then d.result sem (s.scheduleQueue i) else d.regs r) = _
    split
    · rename_i hwakes
      rw [hresult]
      refine (Tracks.result sem m hs hr hocc (fun p hp => hr.file r p hp) ?_ hwakes).symm
      intro hwaits
      by_contra hnone
      have hfree := hr.fileFree r fun p hp => hnone ⟨p, hp⟩
      rw [show (s.registerFile r).ready = false from hwaits] at hfree
      cases hfree
    · -- an entry that was not woken was ready before
      rename_i hwakes
      refine h.file r ?_
      rcases (writeBack_eq (s.scheduleQueue i) s.registerFile r).2.mp hready with hold | hnew
      · exact hold
      · by_contra hnot
        exact hwakes ((wakes_iff _ _).mpr ⟨Bool.eq_false_of_not_eq_true hnot, hnew⟩)
  case source =>
    intro j k hj hready
    rw [(hrow j).1.occupied] at hj
    rw [completeRow_tag, (hrow j).1.inst]
    have hjrow := hs.rowsOk.row j hj
    show (if _ then some (d.result sem (s.scheduleQueue i)) else d.operand (s.tag j) k) = _
    split
    · rename_i hwakes
      obtain ⟨j', hj', htag, hwakes⟩ := hwakes
      obtain rfl := hs.eq_of_tag hj' hj htag
      obtain ⟨hwaits, -, hne, -⟩ := (wakes_iff _ _).mp hwakes
      obtain ⟨r, hreg⟩ := Option.ne_none_iff_exists'.mp hne
      have hvalue := Tracks.result sem m hs hr hocc
        (fun p hp => hr.source j' k r hj' hreg p hp) (by
          intro _
          by_contra hnone
          have hfree := hr.sourceFree j' k hj' fun r' p hreg' hp => by
            obtain rfl := Option.some.inj (hreg.symm.trans hreg')
            exact hnone ⟨p, hp⟩
          rw [hwaits] at hfree
          cases hfree) hwakes
      unfold Store.operands
      rw [hresult, ← hvalue, ← hjrow.src k, hreg]
      rfl
    · -- a source that was not woken was ready before
      rename_i hwakes
      refine h.source j k hj ?_
      rcases (completeRow_src s i j k hj).2.mp hready with hold | hnew
      · exact hold
      · by_contra hnot
        exact hwakes ⟨j, hj, rfl, (wakes_iff _ _).mpr ⟨Bool.eq_false_of_not_eq_true hnot, hnew⟩⟩
  case loaded =>
    simp only [haccessed]
    exact h.loaded
  case memory =>
    simp only [haccessed]
    exact h.memory

/-! ### Executing -/

/-- When a row accesses the cache, the stores to its address that have done so
are those before it. -/
theorem accessed_stores (hs : Books prog s) (hm : Marked prog s) (hl : LifeCycle prog s)
    (ho : FiresInOrder prog s) {i : Fin conf.scheduleQueueSize}
    (hocc : (s.scheduleQueue i).occupied = true) (hfired : (s.scheduleQueue i).fired = true)
    (h11 : (s.scheduleQueue i).remainingTime = 11) :
    (∀ x < s.tag i, StoresTo prog x (s.scheduleQueue i).instr.ldStAddr →
      Mark.accessed x ∈ s.history) ∧
    ∀ x, s.tag i ≤ x → StoresTo prog x (s.scheduleQueue i).instr.ldStAddr →
      Mark.accessed x ∉ s.history := by
  have hrow := hs.rowsOk.row i hocc
  have hop : (s.scheduleQueue i).instr.opcode.isLoadStore = true := by
    rw [← hrow.op]
    exact (hm.time i hocc hfired).2 h11
  have hmem : ∀ {a b : Mark}, Precedes a b s.history → b ∈ s.history → a ∈ s.history := by
    intro a b hab hb
    obtain ⟨l₁, l₂, e⟩ := List.append_of_mem hb
    rw [e]
    exact List.mem_append_left _ (hab l₁ l₂ e)
  constructor
  · rintro x hx ⟨inst, hget, hstore, haddr⟩
    have hls : inst.opcode.isLoadStore = true := by
      rw [hstore]
      rfl
    have hxi : Conflict prog x (s.tag i) :=
      ⟨hx, inst, _, hget, hrow.get, hls, hop, haddr, .inl hstore⟩
    have hmark : Mark.fired (s.tag i) ∈ s.history := (hm.fired _).mpr (.inr ⟨i, hocc, hfired, rfl⟩)
    exact hmem ((hl x).2 ⟨inst, hget, hls⟩) (hmem (ho x _ hxi) hmark)
  · rintro x hx ⟨inst, hget, hstore, haddr⟩ hmark
    rcases hx.eq_or_lt with rfl | hlt
    · exact hm.not_accessed hs hocc h11 hmark
    · -- a younger store is not fired before the row is completed
      have hls : inst.opcode.isLoadStore = true := by
        rw [hstore]
        rfl
      have hix : Conflict prog (s.tag i) x :=
        ⟨hlt, _, inst, hrow.get, hget, hop, hls, haddr.symm, .inr hstore⟩
      have hcompleted := hmem (ho _ x hix) (hmem (hl x).1 hmark)
      have hdone := (hm.done i hocc ((hm.completed _).mp hcompleted)).2
      omega

section Access

variable {row : Row} {t : ℕ} {addr : BitVec 64}

theorem access_loaded_self (h : row.opcode = .load) :
    (d.access sem row).loaded row.instr.sequentialTag = some (d.mem row.instr.ldStAddr) := by
  unfold Data.access
  dsimp only
  rw [if_pos h, Function.update_self]

theorem access_loaded_of_ne (h : row.opcode ≠ .load ∨ t ≠ row.instr.sequentialTag) :
    (d.access sem row).loaded t = d.loaded t := by
  unfold Data.access
  dsimp only
  split
  · rename_i hload
    exact Function.update_of_ne (h.resolve_left (not_not_intro hload)) ..
  · rfl

theorem access_mem_self (h : row.opcode = .store) :
    (d.access sem row).mem row.instr.ldStAddr =
      sem.stored row.instr.toTraceInst (d.operand row.instr.sequentialTag) := by
  unfold Data.access
  dsimp only
  rw [if_pos h, Function.update_self]

theorem access_mem_of_ne (h : ¬ (row.opcode = .store ∧ row.instr.ldStAddr = addr)) :
    (d.access sem row).mem addr = d.mem addr := by
  unfold Data.access
  dsimp only
  split
  · rename_i hstore
    exact Function.update_of_ne (fun haddr => h ⟨hstore, haddr.symm⟩) ..
  · rfl

end Access

/-- The row `i` accesses the cache. -/
theorem Valued.access (h : Valued sem prog m s d) (hs : Books prog s) (hm : Marked prog s)
    (hr : Renamed prog s) (hf : FiresAfterProducers prog s) (hl : LifeCycle prog s)
    (ho : FiresInOrder prog s) {i : Fin conf.scheduleQueueSize}
    (hocc : (s.scheduleQueue i).occupied = true) (hfired : (s.scheduleQueue i).fired = true)
    (h11 : (s.scheduleQueue i).remainingTime = 11) (hsame : SameBooks s s')
    (hhistory : s'.history = s.history ++ [Mark.accessed (s.tag i)]) :
    Valued sem prog m s' (d.access sem (s.scheduleQueue i)) := by
  have hrow := hs.rowsOk.row i hocc
  obtain ⟨holder, hyounger⟩ := accessed_stores hs hm hl ho hocc hfired h11
  have haccessed : ∀ t, Mark.accessed t ∈ s'.history ↔
      Mark.accessed t ∈ s.history ∨ t = s.tag i := by
    intro t
    rw [hhistory]
    simp
  constructor
  case file =>
    rw [hsame.registerFile, hsame.dispatchQueueHead]
    exact h.file
  case source =>
    intro j k hj hready
    rw [(hsame.rows j).occupied] at hj
    rw [hsame.src] at hready
    rw [hsame.tag, (hsame.rows j).inst]
    exact h.source j k hj hready
  case loaded =>
    intro t inst hget
    rw [if_congr (haccessed t) rfl rfl]
    rcases eq_or_ne t (s.tag i) with rfl | hne
    · obtain rfl := Option.some.inj (hrow.get.symm.trans hget)
      refine Eq.trans ?_ (if_pos (.inr rfl)).symm
      by_cases hload : (s.scheduleQueue i).opcode = .load
      · refine (access_loaded_self hload).trans ?_
        rw [h.memory _ (s.tag i) holder hyounger]
        exact (if_pos (hrow.op.symm.trans hload)).symm
      · have hnone : (sem.before prog m (s.tag i)).loaded (s.scheduleQueue i).instr.toTraceInst =
            none := if_neg (hrow.op ▸ hload)
        rw [access_loaded_of_ne (.inl hload), h.loaded (s.tag i) _ hget, hnone, ite_self]
    · rw [access_loaded_of_ne (.inr hne), h.loaded t inst hget]
      exact if_congr (or_iff_left hne).symm rfl rfl
  case memory =>
    intro addr t hdone hnot
    simp only [haccessed, not_or] at hdone hnot
    by_cases hstore : (s.scheduleQueue i).opcode = .store ∧ (s.scheduleQueue i).instr.ldStAddr = addr
    · obtain ⟨hop, rfl⟩ := hstore
      have hstores : StoresTo prog (s.tag i) (s.scheduleQueue i).instr.ldStAddr :=
        ⟨_, hrow.get, hrow.op ▸ hop, rfl⟩
      have hlt : s.tag i < t := by
        by_contra hge
        exact (hnot (s.tag i) (Nat.le_of_not_lt hge) hstores).2 rfl
      -- it is the last of the stores before `t`
      have hlast : ∀ k, s.tag i + 1 ≤ k → k < t →
          ¬ StoresTo prog k (s.scheduleQueue i).instr.ldStAddr := by
        intro k hk hkt hstores
        rcases hdone k hkt hstores with hmark | rfl
        · exact hyounger k (Nat.le_of_succ_le hk) hstores hmark
        · exact Nat.lt_irrefl _ hk
      rw [value_congr (fun j => (sem.before prog m j).mem)
        (fun k hk => before_succ_mem hk) hlt hlast]
      have hnext : sem.before prog m (s.tag i + 1) =
          sem.step (sem.before prog m (s.tag i)) (s.scheduleQueue i).instr.toTraceInst :=
        before_succ hrow.get
      show _ = (sem.before prog m (s.tag i + 1)).mem _
      rw [hnext, access_mem_self hop]
      show sem.stored _ (d.operand (s.tag i)) = _
      rw [h.operands hs hm hr hf hocc hfired]
      exact (if_pos ⟨hrow.op.symm.trans hop, rfl⟩).symm
    · have hnstores : ¬ StoresTo prog (s.tag i) addr := by
        rintro ⟨inst, hget, hop, haddr⟩
        obtain rfl := Option.some.inj (hrow.get.symm.trans hget)
        exact hstore ⟨hrow.op.trans hop, haddr⟩
      rw [access_mem_of_ne hstore]
      refine h.memory addr t ?_ fun x hx hstores => (hnot x hx hstores).1
      intro x hx hstores
      refine (hdone x hx hstores).resolve_right ?_
      rintro rfl
      exact hnstores hstores

theorem Valued.executeRow (h : Valued sem prog m s d) (hs : Books prog s) (hm : Marked prog s)
    (hr : Renamed prog s) (hf : FiresAfterProducers prog s) (hl : LifeCycle prog s)
    (ho : FiresInOrder prog s) (i : Fin conf.scheduleQueueSize) :
    Valued sem prog m (s.executeRow i) (d.executeRow sem i s) := by
  have hsame := (executeRow_same i s).1
  unfold Data.executeRow
  dsimp only
  by_cases hguard : (s.scheduleQueue i).occupied = true ∧ (s.scheduleQueue i).fired = true
  · obtain ⟨hocc, hfired⟩ := hguard
    obtain ⟨t, history, l1Cache, cacheMisses, e, ht, -⟩ := s.executeRow_eq i hocc hfired
    have hhistory : (s.executeRow i).history = history := by rw [e]
    rcases ht with ⟨hne, -, rfl⟩ | ⟨h11, -, rfl⟩
    · rw [if_neg (by simp [hne])]
      exact h.congr hsame.rows hsame.src hsame.registerFile hsame.dispatchQueueHead
        fun _ => by rw [hhistory]
    · rw [if_pos (by simp [hocc, hfired, h11])]
      exact h.access hs hm hr hf hl ho hocc hfired h11 hsame hhistory
  · rw [if_neg (by
      intro hall
      simp only [Bool.and_eq_true] at hall
      exact hguard hall.1), s.executeRow_eq_self i hguard]
    exact h

/-! ### Dispatching -/

theorem Valued.skip (h : Valued sem prog m s d) (hs : Books prog s) {k : ℕ}
    (hnops : s.NopsAhead k) : Valued sem prog m (s.skip k) d where
  file := by
    intro r hready
    refine (h.file r hready).trans ?_
    refine (value_congr (fun j => (sem.before prog m j).regs)
      (fun t ht => before_succ_regs ht) (Nat.le_add_right _ k) ?_).symm
    intro t hge hlt hw
    exact hnops.not_issues hs.queueOk hge hlt hw.issues
  source := h.source
  loaded := h.loaded
  memory := h.memory

/-- A row that is filled takes the registers that are ready. -/
theorem Valued.placeRow (h : Valued sem prog m s d) (hs : Books prog s)
    {i : Fin conf.scheduleQueueSize} {inst : Inst}
    (hget : s.dispatchQueue[s.dispatchQueueHead]? = some inst) (hop : inst.opcode ≠ .nop) :
    Valued sem prog m (s.placeRow i inst)
      (d.fill ((s.placeRow i inst).scheduleQueue i)) := by
  have hself := s.placeRow_self i inst
  have htag := placeRow_tag (i := i) hs.queueOk hget
  have hwrites := hs.queueOk.writes_head hget hop
  have hfields : (s.placeRow i inst).registerFile = rename s.registerFile inst.destReg s.instrTag ∧
      (s.placeRow i inst).history = s.history := by
    rw [s.placeRow_eq]
    exact ⟨rfl, rfl⟩
  constructor
  case file =>
    intro r hready
    rw [hfields.1, rename_eq] at hready
    rw [s.placeRow_head]
    split at hready
    · cases hready
    · -- the new instruction does not write the register
      rename_i hr
      rw [before_succ_regs (mt (hwrites r).mp hr)]
      exact h.file r hready
  case source =>
    intro k j hk hready
    rcases eq_or_ne k i with rfl | hki
    · have hfill : (d.fill ((s.placeRow k inst).scheduleQueue k)).operand
          ((s.placeRow k inst).tag k) j =
          (((s.placeRow k inst).scheduleQueue k).src j).reg.map d.regs :=
        (congrFun (Function.update_self ..) j).trans (if_pos hready)
      rw [hfill, htag, hself]
      rw [hself] at hready
      obtain ⟨hreg, -, hfrom⟩ := fill_eq s.registerFile ((s.scheduleQueue k).src j) (inst.srcReg j)
      show Option.map d.regs (Operand.fill _ _ _).reg =
        Option.map (sem.before prog m s.dispatchQueueHead).regs (inst.srcReg j)
      rw [hreg]
      rcases e : inst.srcReg j with - | r
      · rfl
      · exact congrArg some (h.file r ((hfrom r e).1.symm.trans hready))
    · have hne : (s.placeRow i inst).tag k ≠ (s.placeRow i inst).tag i := by
        rw [placeRow_tag_of_ne inst hki, htag]
        rw [s.placeRow_of_ne inst hki] at hk
        exact (hs.rowsOk.row k hk).lt.ne
      have hkept : (d.fill ((s.placeRow i inst).scheduleQueue i)).operand
          ((s.placeRow i inst).tag k) = d.operand ((s.placeRow i inst).tag k) :=
        Function.update_of_ne hne ..
      rw [s.placeRow_of_ne inst hki] at hk hready ⊢
      rw [hkept, placeRow_tag_of_ne inst hki]
      exact h.source k j hk hready
  case loaded =>
    rw [hfields.2]
    exact h.loaded
  case memory =>
    rw [hfields.2]
    exact h.memory

theorem Valued.dispatchRow (h : Valued sem prog m s d) (hs : Books prog s)
    (i : Fin conf.scheduleQueueSize) :
    Valued sem prog m (s.dispatchRow i) (d.dispatchRow i s) := by
  have hcases := s.dispatchRow_cases i hs.queueOk.size
  unfold Data.dispatchRow
  dsimp only
  generalize s.dispatchRow i = s' at hcases ⊢
  have hflag : ∀ {a : Proc conf} b, Valued sem prog m a d →
      Valued sem prog m { a with dispatching := b } d :=
    fun _ ha => ⟨ha.file, ha.source, ha.loaded, ha.memory⟩
  cases hcases with
  | stopped =>
      rw [if_neg (by simp)]
      exact h
  | empty =>
      rw [if_neg (by simp)]
      exact hflag false h
  | full =>
      rw [if_neg (by simp)]
      exact h
  | ends k _ _ _ hnops _ =>
      rw [if_neg (by simp [Proc.skip])]
      exact hflag false (h.skip hs hnops)
  | places k inst _ hfree hnops hget hop =>
      have hocc : (((s.skip k).placeRow i inst).scheduleQueue i).occupied = true := by
        rw [(s.skip k).placeRow_self]
        rfl
      rw [hfree, hocc]
      exact (h.skip hs hnops).placeRow (hs.skip hnops) hget hop

/-! ### The stages -/

/-- The books while `update_state` completes rows. -/
structure Completing (sem : Semantics V) (prog : List TraceInst) (m : Store V) (k : ℕ)
    (p : Machine conf V) : Prop where
  updating : Updating prog k p.1
  marked : Marked prog p.1
  renamed : Renamed prog p.1
  fires : FiresAfterProducers prog p.1
  valued : Valued sem prog m p.1 p.2

theorem Completing.updateRow {p : Machine conf V} {i : Fin conf.scheduleQueueSize}
    (h : Completing sem prog m i p) :
    Completing sem prog m (i + 1) (beside Proc.updateRow (Data.updateRow sem) i p) := by
  have hupdating := h.updating.updateRow
  obtain ⟨s, d⟩ := p
  unfold beside Data.updateRow
  unfold Proc.updateRow at hupdating ⊢
  dsimp only at hupdating ⊢
  by_cases hfin : s.finished i = true
  · rw [if_pos hfin] at hupdating
    rw [if_pos hfin, if_pos hfin]
    have hs : Books prog s := h.updating.books
    have hnew : ¬ s.Completed (s.tag i) := by
      intro hc
      have hocc := ((finished_eq_true s i).mp hfin).1
      exact Nat.lt_irrefl _ ((h.updating.done i hocc).mp hc).1
    have hstep : Step (keepOrder conf) s (s.completeRow i) := .completes i hfin hnew
    exact ⟨hupdating, h.marked.step hs hstep, h.renamed.step hs hstep,
      h.fires.step hs h.marked h.renamed hstep,
      h.valued.completeRow hs h.marked h.renamed h.fires hfin⟩
  · rw [if_neg hfin] at hupdating
    rw [if_neg hfin, if_neg hfin]
    exact ⟨hupdating, h.marked, h.renamed, h.fires, h.valued⟩

/-- The books while `execute_instr` executes rows. -/
structure Executing (sem : Semantics V) (prog : List TraceInst) (m : Store V)
    (p : Machine conf V) : Prop where
  books : Books prog p.1
  marked : Marked prog p.1
  renamed : Renamed prog p.1
  fires : FiresAfterProducers prog p.1
  lifeCycle : LifeCycle prog p.1
  order : FiresInOrder prog p.1
  valued : Valued sem prog m p.1 p.2

theorem Executing.executeRow {p : Machine conf V} (h : Executing sem prog m p)
    (i : Fin conf.scheduleQueueSize) :
    Executing sem prog m (beside Proc.executeRow (Data.executeRow sem) i p) := by
  obtain ⟨s, d⟩ := p
  have hs : Books prog s := h.books
  have hvalued : Valued sem prog m (s.executeRow i) (d.executeRow sem i s) :=
    h.valued.executeRow hs h.marked h.renamed h.fires h.lifeCycle h.order i
  by_cases hguard : (s.scheduleQueue i).occupied = true ∧ (s.scheduleQueue i).fired = true
  · have hstep : Step (keepOrder conf) s (s.executeRow i) := .executes i hguard.1 hguard.2
    refine ⟨(executeRow_same i s).1.books hs, h.marked.step hs hstep, h.renamed.step hs hstep,
      h.fires.step hs h.marked h.renamed hstep, h.lifeCycle.step hs h.marked hstep, ?_, hvalued⟩
    obtain ⟨t₀, history, l1Cache, cacheMisses, e, ht₀, -⟩ := s.executeRow_eq i hguard.1 hguard.2
    show FiresInOrder prog (s.executeRow i)
    rcases ht₀ with ⟨-, -, rfl⟩ | ⟨-, -, rfl⟩
    · exact h.order.congr (by rw [e])
    · exact h.order.append (.accessed (s.tag i)) (by rw [e]; rfl) (fun t ht => by cases ht)
  · have hself : s.executeRow i = s := s.executeRow_eq_self i hguard
    rw [hself] at hvalued
    show Executing sem prog m (s.executeRow i, d.executeRow sem i s)
    rw [hself]
    exact ⟨hs, h.marked, h.renamed, h.fires, h.lifeCycle, h.order, hvalued⟩

/-- `schedule_instr` does not access the cache. -/
theorem scheduleInstr_accessed (s : Proc conf) (t : ℕ) :
    Mark.accessed t ∈ s.scheduleInstr.history ↔ Mark.accessed t ∈ s.history := by
  refine sweep_preserves
    (P := fun a : Proc conf => Mark.accessed t ∈ a.history ↔ Mark.accessed t ∈ s.history) Iff.rfl ?_
  intro i a ha
  rcases scheduleRow_marks a i with ⟨hhistory, -⟩ | ⟨hhistory, -⟩
  · rw [hhistory]
    exact ha
  · rw [hhistory]
    simpa using ha

theorem Valued.dispatchInstr (h : Valued sem prog m s d) (hs : Books prog s) :
    Valued sem prog m (Machine.dispatchInstr (s, d)).1 (Machine.dispatchInstr (s, d)).2 := by
  have hmarked : Valued sem prog m s.markDispatch d :=
    h.congr (fun _ => Row.Same.refl _) (fun _ => rfl) rfl rfl fun _ => Iff.rfl
  unfold Machine.dispatchInstr
  dsimp only
  split
  · exact hmarked
  · have hsame : SameBooks s.markDispatch { s.markDispatch with dispatching := true } := {}
    have hpass : Books prog (sweep (beside Proc.dispatchRow Data.dispatchRow)
          ({ s.markDispatch with dispatching := true }, d)).1 ∧
        Valued sem prog m (sweep (beside Proc.dispatchRow Data.dispatchRow)
          ({ s.markDispatch with dispatching := true }, d)).1
          (sweep (beside Proc.dispatchRow Data.dispatchRow)
          ({ s.markDispatch with dispatching := true }, d)).2 := by
      refine sweep_preserves
        (P := fun p : Machine conf V => Books prog p.1 ∧ Valued sem prog m p.1 p.2)
        ⟨hsame.books hs.markDispatch, ⟨hmarked.file, hmarked.source, hmarked.loaded,
          hmarked.memory⟩⟩ ?_
      rintro i ⟨a, d⟩ ⟨ha, hd⟩
      have hbooks := dispatchRow_induction (P := fun _ => True) (fun _ _ _ => trivial)
        (fun _ _ _ _ _ => trivial) (fun _ _ _ _ _ _ _ _ => trivial) i ha trivial
      exact ⟨hbooks.1, hd.dispatchRow ha i⟩
    exact hpass.2

theorem Valued.fetchStage (h : Valued sem prog m s d) (hfetch : s.fetchStage = .ok s') :
    Valued sem prog m s' d := by
  refine Proc.fetchStage_induction (P := fun a => Valued sem prog m a d) ?_ ?_ h hfetch
  · exact fun a inst trace ha _ _ =>
      ha.congr (fun _ => Row.Same.refl _) (fun _ => rfl) rfl rfl fun _ => Iff.rfl
  · exact fun a more ha => ⟨ha.file, ha.source, ha.loaded, ha.memory⟩

theorem Valued.endCycle (h : Valued sem prog m s d) (hs : Books prog s) :
    Valued sem prog m (s.endCycle qsort) d := by
  obtain ⟨cumulativeSize, e⟩ := endCycle_eq qsort hs
  obtain ⟨σ, hσ⟩ := endCycle_reorders qsort hs
  have hfields : (s.endCycle qsort).registerFile = s.registerFile ∧
      (s.endCycle qsort).dispatchQueueHead = s.dispatchQueueHead ∧
      (s.endCycle qsort).history = s.history := by
    rw [e]
    exact ⟨rfl, rfl, rfl⟩
  constructor
  case file =>
    rw [hfields.1, hfields.2.1]
    exact h.file
  case source =>
    intro i k hi hready
    obtain ⟨hocc, -, heq⟩ := hσ.stayed hi
    rw [heq] at hready ⊢
    rw [hσ.tag hi]
    exact h.source (σ i) k hocc hready
  case loaded =>
    rw [hfields.2.2]
    exact h.loaded
  case memory =>
    rw [hfields.2.2]
    exact h.memory

/-! ### Runs -/

/-- In every state of a run the values are those of the program. -/
theorem Carried.valued {stage : Stage} {p : Machine conf V}
    (h : Carried sem conf (glibcQsort conf) prog m stage p) : Valued sem prog m p.1 p.2 := by
  induction h with
  | setup => exact valued_setup
  | @step stage p p' hp _ hrun ih =>
      have hr := hp.reached
      have hs := hr.ledger.books
      cases stage with
      | updateState =>
          obtain rfl := Except.ok.inj hrun
          have hstart : Completing sem prog m 0
              ({ p.1 with
                stats := { p.1.stats with cycleCount := p.1.stats.cycleCount + 1 }
                finishedFuIdx := 0 }, p.2) := by
            have hstep : Step (keepOrder conf) p.1 { p.1 with
                stats := { p.1.stats with cycleCount := p.1.stats.cycleCount + 1 }
                finishedFuIdx := 0 } := .locals rfl
            exact ⟨hr.ledger.updating {} rfl rfl, hr.marked.step hs hstep, hr.renamed.step hs hstep,
              hr.firesAfterProducers.step hs hr.marked hr.renamed hstep,
              ⟨ih.file, ih.source, ih.loaded, ih.memory⟩⟩
          have hpass := sweep_induction (Completing sem prog m) hstart fun i q hq => hq.updateRow
          exact hpass.valued
      | executeInstr =>
          obtain rfl := Except.ok.inj hrun
          have hpass := sweep_preserves (P := Executing sem prog m)
            (⟨hs, hr.marked, hr.renamed, hr.firesAfterProducers, hr.lifeCycle, hr.firesInOrder,
              ih⟩ : Executing sem prog m p) fun i q hq => hq.executeRow i
          exact hpass.valued
      | scheduleInstr =>
          obtain rfl := Except.ok.inj hrun
          have hsame := (scheduleInstr_same p.1).1
          exact ih.congr hsame.rows hsame.src hsame.registerFile hsame.dispatchQueueHead
            (scheduleInstr_accessed p.1)
      | dispatchInstr =>
          obtain rfl := Except.ok.inj hrun
          exact ih.dispatchInstr hs
      | fetchInstr =>
          obtain ⟨s₁, hfetch, rfl⟩ := fetchStage_eq_ok hrun
          exact ih.fetchStage hfetch
      | updateState2 =>
          obtain rfl := Except.ok.inj hrun
          exact ih.endCycle hs

theorem StoresTo.lt_length {t : ℕ} {addr : BitVec 64} (h : StoresTo prog t addr) :
    t < prog.length := by
  obtain ⟨inst, hget, -⟩ := h
  exact (List.getElem?_eq_some_iff.mp hget).1

/-- Of the stores to an address the first ones have accessed the cache. -/
theorem Reached.accessed_prefix {stage : Stage} (h : Reached conf (glibcQsort conf) prog stage s)
    (addr : BitVec 64) :
    ∃ t, ∀ x, StoresTo prog x addr → (Mark.accessed x ∈ s.history ↔ x < t) := by
  classical
  by_cases hexists : ∃ x, StoresTo prog x addr ∧ Mark.accessed x ∉ s.history
  · obtain ⟨t, ⟨hstores, hnot⟩, hfirst⟩ := Nat.findX hexists
    refine ⟨t, fun x hx => ⟨?_, ?_⟩⟩
    · intro hmark
      by_contra hge
      rcases (Nat.le_of_not_lt hge).eq_or_lt with rfl | hlt
      · exact hnot hmark
      · -- the two stores access the cache in program order
        obtain ⟨inst, hget, hop, haddr⟩ := hstores
        obtain ⟨inst', hget', hop', haddr'⟩ := hx
        have hconflict : Conflict prog t x :=
          ⟨hlt, inst, inst', hget, hget', by rw [hop]; rfl, by rw [hop']; rfl,
            haddr.trans haddr'.symm, .inl hop⟩
        obtain ⟨l₁, l₂, e⟩ := List.append_of_mem hmark
        have hls : IsLoadStore prog t := ⟨inst, hget, by rw [hop]; rfl⟩
        have hbefore : Precedes (.accessed t) (.accessed x) s.history :=
          (((h.lifeCycle t).2 hls).trans (h.firesInOrder t x hconflict)).trans (h.lifeCycle x).1
        rw [e] at hnot
        exact hnot (List.mem_append_left _ (hbefore l₁ l₂ e))
    · intro hlt
      by_contra hnot
      exact hfirst x hlt ⟨hx, hnot⟩
  · refine ⟨prog.length, fun x hx => ⟨fun _ => hx.lt_length, fun _ => ?_⟩⟩
    by_contra hnot
    exact hexists ⟨x, hx, hnot⟩

/-- A register whose producer is completed holds what the program finds in it. -/
theorem Valued.regs (h : Valued sem prog m s d) (hr : Renamed prog s) {r : Reg}
    (hdone : ∀ t, Producer prog r s.dispatchQueueHead t → s.Completed t) :
    d.regs r = (sem.before prog m s.dispatchQueueHead).regs r := by
  refine h.file r ?_
  by_cases hexists : ∃ t, Producer prog r s.dispatchQueueHead t
  · obtain ⟨t, ht⟩ := hexists
    exact (hr.file r t ht).ready_iff.mpr (hdone t ht)
  · exact hr.fileFree r fun t ht => hexists ⟨t, ht⟩

/-- In every state of a run, a register that no instruction in flight writes and
a source that does not wait hold what the program finds in the register, a load
that has accessed the cache has read what the program reads, and a cell of the
memory holds what the program leaves there before the first of its stores that
has not accessed the cache. -/
theorem values_agree {stage : Stage} {p : Machine conf V}
    (h : Carried sem conf (glibcQsort conf) prog m stage p) :
    (∀ r, (∀ t, Producer prog r p.1.dispatchQueueHead t → p.1.Completed t) →
      p.2.regs r = (sem.before prog m p.1.dispatchQueueHead).regs r) ∧
    (∀ i k r, (p.1.scheduleQueue i).occupied = true →
      ((p.1.scheduleQueue i).src k).reg = some r → ((p.1.scheduleQueue i).src k).ready = true →
      p.2.operand (p.1.tag i) k = some ((sem.before prog m (p.1.tag i)).regs r)) ∧
    (∀ t inst, prog[t]? = some inst → inst.opcode = .load → Mark.accessed t ∈ p.1.history →
      p.2.loaded t = some ((sem.before prog m t).mem inst.ldStAddr)) ∧
    ∀ addr, ∃ t, p.2.mem addr = (sem.before prog m t).mem addr ∧
      ∀ x, StoresTo prog x addr → (Mark.accessed x ∈ p.1.history ↔ x < t) := by
  have hvalued := h.valued
  have hreach := h.reached
  have hr := hreach.renamed
  refine ⟨?_, ?_, ?_, ?_⟩
  · exact fun r hdone => hvalued.regs hr hdone
  · intro i k r hocc hreg hready
    have hrow := hreach.ledger.books.rowsOk.row i hocc
    rw [hvalued.source i k hocc hready]
    unfold Store.operands
    rw [← hrow.src k, hreg]
    rfl
  · intro t inst hget hload hmark
    rw [hvalued.loaded t inst hget, if_pos hmark]
    exact if_pos hload
  · intro addr
    obtain ⟨t, ht⟩ := hreach.accessed_prefix addr
    refine ⟨t, hvalued.memory addr t ?_ ?_, ht⟩
    · exact fun x hx hstores => (ht x hstores).mpr hx
    · exact fun x hx hstores hmark => Nat.not_lt.mpr hx ((ht x hstores).mp hmark)

/-- Instructions add up what they read, and a store stores its first operand. -/
def addUp : Semantics ℕ where
  result _ operands loaded :=
    (operands ⟨0, Nat.zero_lt_two⟩).getD 1 + (operands ⟨1, Nat.one_lt_two⟩).getD 1 + loaded.getD 0
  stored _ operands := (operands ⟨0, Nat.zero_lt_two⟩).getD 0

set_option maxRecDepth 4000 in
/-- The load reads the sum that the store before it has stored. -/
theorem values_agree_load : ∃ p : Machine smallConf ℕ, Mark.accessed 2 ∈ p.1.history ∧
    p.2.loaded 2 = some 2 := by
  have hends : ∃ s, Mark.accessed 2 ∈ s.history ∧
      whileLoop Proc.continueBool (Proc.cycleBody (glibcQsort smallConf)) 40
        (setupProc smallConf [⟨0, .add, some 1, fun _ => none, 0, false⟩,
          ⟨4, .store, none, fun _ => some 1, 64, false⟩,
          ⟨8, .load, some 2, fun _ => none, 64, false⟩]) = .ok (some s) :=
    ⟨_, by decide +kernel, rfl⟩
  obtain ⟨s, hmark, hrun⟩ := hends
  obtain ⟨d, hdata⟩ := exists_machine hrun addUp ⟨fun _ => 0, fun _ => 0⟩
  have hloaded := (values_agree (Carried.of_iterates (of_whileLoop hdata).1)).2.2.1 2 _ rfl rfl hmark
  exact ⟨(s, d), hmark, hloaded.trans (by decide)⟩

/-! ### The end of a run -/

/-- When there is nothing left to do, the values are those of the whole program. -/
theorem Carried.execute {p : Machine conf V}
    (h : Carried sem conf (glibcQsort conf) prog m .updateState p) (hidle : ¬ Busy p.1) :
    (⟨p.2.regs, p.2.mem⟩ : Store V) = sem.execute prog m := by
  have hreach := h.reached
  have hs := hreach.ledger.books
  have hvalued := h.valued
  have hcompleted := completed_of_not_busy hs hreach.fetching hidle
  have hhead : p.1.dispatchQueueHead = prog.length := by
    unfold Busy at hidle
    simp only [not_or, not_exists, not_not] at hidle
    obtain ⟨hmore, -, hempty⟩ := hidle
    have hdrained := hreach.fetching.drained (Bool.eq_false_of_not_eq_true hmore)
    have htail := hs.tail_add
    rw [hdrained, List.length_nil, Nat.add_zero] at htail
    exact hempty.trans htail
  have hregs : p.2.regs = (sem.execute prog m).regs := by
    funext r
    rw [← before_of_length_le hhead.ge]
    exact hvalued.regs hreach.renamed fun t ht => (hcompleted t).mpr ht.wrote.issues
  have hmem : p.2.mem = (sem.execute prog m).mem := by
    funext addr
    rw [← before_of_length_le (Nat.le_refl prog.length)]
    refine hvalued.memory addr prog.length ?_ ?_
    · rintro x - ⟨inst, hget, hop, -⟩
      have hls : inst.opcode.isLoadStore = true := by
        rw [hop]
        rfl
      have hissues : Issues prog x := ⟨inst, hget, by rw [hop]; decide⟩
      exact (hreach.marked.accessed x).mpr (.inl ⟨(hcompleted x).mpr hissues, inst, hget, hls⟩)
    · exact fun x hx hstores => absurd hstores.lt_length (Nat.not_lt.mpr hx)
  rw [hregs, hmem]

/-- On every trace that fits into the dispatch queue, and whatever the
instructions mean, `run_proc` ends and leaves the registers and the memory as
the program leaves them that is executed one instruction after the other. -/
theorem runData_eq_execute (sem : Semantics V) (conf : ProcConf) (prog : List TraceInst)
    (m : Store V) (hlen : prog.length < dqDataStructureSize) :
    ∃ s, ∃ N, ∀ fuel, N ≤ fuel → runProc conf (glibcQsort conf) prog fuel = .ok (some s) ∧
      ∃ d, runData sem conf (glibcQsort conf) prog m fuel = .ok (some (s, d)) ∧
        (⟨d.regs, d.mem⟩ : Store V) = sem.execute prog m := by
  have hok : ∀ s, Reached conf (glibcQsort conf) prog .fetchInstr s → ∃ s', s.fetchStage = .ok s' :=
    fun s hs => fetchStage_ok hlen hs.ledger.books
  obtain ⟨s, ⟨N, hN⟩, -, hidle⟩ := run_ends hok
  refine ⟨{ s with stats := { s.stats with cycleCount := s.stats.cycleCount - 1 } }, N, ?_⟩
  intro fuel hfuel
  have hrun := hN fuel hfuel
  refine ⟨by unfold runProc; rw [hrun]; rfl, ?_⟩
  obtain ⟨d, hdata⟩ := exists_machine hrun sem m
  refine ⟨d, by unfold runData; rw [hdata]; rfl, ?_⟩
  exact (Carried.of_iterates (of_whileLoop hdata).1).execute hidle

/-- A sum is stored, loaded and added to itself. -/
theorem runData_eq_execute_addUp : ∃ s : Proc smallConf, ∃ N, ∀ fuel, N ≤ fuel →
    ∃ d, runData addUp smallConf (glibcQsort smallConf)
      [⟨0, .add, some 1, fun _ => none, 0, false⟩, ⟨4, .store, none, fun _ => some 1, 64, false⟩,
        ⟨8, .load, some 2, fun _ => none, 64, false⟩, ⟨12, .mul, some 2, fun _ => some 2, 0, false⟩]
      ⟨fun _ => 0, fun _ => 0⟩ fuel = .ok (some (s, d)) ∧ d.regs 2 = 8 ∧ d.mem 64 = 2 := by
  obtain ⟨s, N, h⟩ := runData_eq_execute addUp smallConf
    [⟨0, .add, some 1, fun _ => none, 0, false⟩, ⟨4, .store, none, fun _ => some 1, 64, false⟩,
      ⟨8, .load, some 2, fun _ => none, 64, false⟩, ⟨12, .mul, some 2, fun _ => some 2, 0, false⟩]
    ⟨fun _ => 0, fun _ => 0⟩ (by decide)
  refine ⟨s, N, fun fuel hfuel => ?_⟩
  obtain ⟨-, d, hrun, hend⟩ := h fuel hfuel
  refine ⟨d, hrun, ?_, ?_⟩
  · exact (congrFun (congrArg Store.regs hend) 2).trans (by decide)
  · exact (congrFun (congrArg Store.mem hend) 64).trans (by decide)

end ProjectArchive.Tomasulo
