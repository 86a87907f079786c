/-
ProjectArchive/Tomasulo/Renaming.lean

True dependences.

The producer of a source is the closest instruction before its reader that
writes the register.  `instr_tag` numbers the instructions that are dispatched,
so `dest_reg_tag` is the number of NOPs-excluded predecessors of an instruction
and identifies it.  `Renamed` says what the register file and the sources of
the rows know of their producers; a tag is only right while its source waits,
and it is only used then.

`sources_ready` is the result: a source is ready exactly when its producer is
completed, a source that waits names the row of its producer, and no instruction
is fired before its producers are completed.
-/
import ProjectArchive.Tomasulo.Marks

namespace ProjectArchive.Tomasulo

open Sweep EventLog ProgramOrder

variable {conf : ProcConf} {prog : List TraceInst} {s s' : Proc conf} {qsort : Qsort conf}

/-- The tag that the instruction `t` is given when it is dispatched. -/
def destTag (prog : List TraceInst) (t : ℕ) : ℕ := Nat.count (Issues prog) t

/-- The producer of the register `r` for the instruction `t`. -/
abbrev Producer (prog : List TraceInst) (r : Reg) (t p : ℕ) : Prop :=
  LastWriter (Writes prog) r t p

theorem destTag_inj {p q : ℕ} (hp : Issues prog p) (hq : Issues prog q)
    (h : destTag prog p = destTag prog q) : p = q :=
  (count_eq_iff hp hq).mp h

/-- What an entry of the register file, or a source of a row, knows of its
producer `p`. -/
structure Tracks (prog : List TraceInst) (s : Proc conf) (ready : Bool) (tag p : ℕ) : Prop where
  ready_iff : ready = true ↔ s.Completed p
  tag_eq : ready = false → tag = destTag prog p

/-- The state of renaming. -/
structure Renamed (prog : List TraceInst) (s : Proc conf) : Prop where
  instrTag : s.instrTag = destTag prog s.dispatchQueueHead
  destRegTag : ∀ i, (s.scheduleQueue i).occupied = true →
    (s.scheduleQueue i).destRegTag = destTag prog (s.tag i)
  file : ∀ r p, Producer prog r s.dispatchQueueHead p →
    Tracks prog s (s.registerFile r).ready (s.registerFile r).tag p
  fileFree : ∀ r, (∀ p, ¬ Producer prog r s.dispatchQueueHead p) →
    (s.registerFile r).ready = true
  source : ∀ i k r, (s.scheduleQueue i).occupied = true →
    ((s.scheduleQueue i).src k).reg = some r → ∀ p, Producer prog r (s.tag i) p →
      Tracks prog s ((s.scheduleQueue i).src k).ready ((s.scheduleQueue i).src k).tag p
  sourceFree : ∀ i k, (s.scheduleQueue i).occupied = true →
    (∀ r p, ((s.scheduleQueue i).src k).reg = some r → ¬ Producer prog r (s.tag i) p) →
      ((s.scheduleQueue i).src k).ready = true

theorem renamed_setup (trace : List TraceInst) : Renamed trace (setupProc conf trace) where
  instrTag := (Nat.count_zero _).symm
  destRegTag := by simp [setupProc, emptyRow]
  file := fun r p hp => absurd hp not_lastWriter_zero
  fileFree := fun _ _ => rfl
  source := by simp [setupProc, emptyRow]
  sourceFree := by simp [setupProc, emptyRow]

theorem Tracks.congr {ready : Bool} {tag p : ℕ} (h : Tracks prog s ready tag p)
    (hresult : s'.result = s.result) : Tracks prog s' ready tag p := by
  refine ⟨?_, h.tag_eq⟩
  rw [Proc.completed_congr hresult]
  exact h.ready_iff

/-- Steps that leave the sources, the register file and the result alone. -/
theorem Renamed.congr (h : Renamed prog s)
    (hrows : ∀ i, (s.scheduleQueue i).Same (s'.scheduleQueue i))
    (hsrc : ∀ i, (s'.scheduleQueue i).src = (s.scheduleQueue i).src)
    (hfile : s'.registerFile = s.registerFile) (hresult : s'.result = s.result)
    (hinstrTag : s'.instrTag = s.instrTag)
    (hhead : s'.dispatchQueueHead = s.dispatchQueueHead) : Renamed prog s' := by
  have htag : ∀ i, s'.tag i = s.tag i := fun i => (hrows i).tag
  constructor
  case instrTag =>
    rw [hinstrTag, hhead]
    exact h.instrTag
  case destRegTag =>
    intro i hi
    rw [(hrows i).occupied] at hi
    rw [(hrows i).destRegTag, htag]
    exact h.destRegTag i hi
  case file =>
    intro r p hp
    rw [hhead] at hp
    rw [hfile]
    exact (h.file r p hp).congr hresult
  case fileFree =>
    rw [hfile, hhead]
    exact h.fileFree
  case source =>
    intro i k r hi hreg p hp
    rw [(hrows i).occupied] at hi
    rw [hsrc] at hreg ⊢
    rw [htag] at hp
    exact (h.source i k r hi hreg p hp).congr hresult
  case sourceFree =>
    intro i k hi hnone
    rw [(hrows i).occupied] at hi
    rw [hsrc, htag] at hnone
    rw [hsrc]
    exact h.sourceFree i k hi hnone

theorem Renamed.sameBooks (h : Renamed prog s) (hsame : SameBooks s s') : Renamed prog s' :=
  h.congr hsame.rows hsame.src hsame.registerFile hsame.result hsame.instrTag
    hsame.dispatchQueueHead

/-! ### Completing: the broadcast -/

/-- The instruction in a row, and the register that the row names. -/
theorem RowOk.writes_iff {head : ℕ} {row : Row} (h : RowOk prog head row) (r : Reg) :
    Writes prog row.instr.sequentialTag r ↔ row.destReg = some r := by
  unfold Writes
  rw [h.get, h.dest]
  constructor
  · rintro ⟨inst, hinst, -, hr⟩
    obtain rfl := Option.some.inj hinst
    exact hr
  · intro hr
    exact ⟨_, rfl, h.issued, hr⟩

/-- A source that hears the broadcast of its producer becomes ready, and no
other source that waits does. -/
theorem Tracks.wake {i : Fin conf.scheduleQueueSize} (operand operand' : Operand) {r : Reg}
    {p : ℕ} (hs : Books prog s) (hr : Renamed prog s)
    (hocc : (s.scheduleQueue i).occupied = true) (h : Tracks prog s operand.ready operand.tag p)
    (hreg : operand.reg = some r) (hp : Writes prog p r) (htag : operand'.tag = operand.tag)
    (hready : operand'.ready = true ↔
      operand.ready = true ∨ (s.scheduleQueue i).produces operand) :
    Tracks prog (s.completeRow i) operand'.ready operand'.tag p := by
  have hrow := hs.rowsOk.row i hocc
  have hdest := hr.destRegTag i hocc
  refine ⟨?_, ?_⟩
  · rw [completeRow_completed, hready, h.ready_iff]
    constructor
    · rintro (hc | ⟨-, -, heq⟩)
      · exact .inl hc
      · rcases e : operand.ready with - | -
        · -- the tag of a source that waits is the tag of its producer
          have htags : destTag prog p = destTag prog (s.tag i) := by
            rw [← h.tag_eq e, ← hdest, heq]
          exact .inr (destTag_inj hp.issues hrow.issues htags)
        · exact .inl (h.ready_iff.mp e)
    · rintro (hc | rfl)
      · exact .inl hc
      · rcases e : operand.ready with - | -
        · refine .inr ⟨?_, by simp [hreg], ?_⟩
          · rw [hreg]
            exact ((hrow.writes_iff r).mp hp).symm
          · rw [h.tag_eq e, hdest]
        · exact .inl (h.ready_iff.mp e)
  · intro hwaits
    rw [htag]
    apply h.tag_eq
    rcases e : operand.ready with - | -
    · rfl
    · rw [hready.mpr (.inl e)] at hwaits
      cases hwaits

/-- The sources of the rows after a row has been completed. -/
theorem completeRow_src (s : Proc conf) (i k : Fin conf.scheduleQueueSize) (j : Fin 2)
    (hk : (s.scheduleQueue k).occupied = true) :
    (((s.completeRow i).scheduleQueue k).src j).tag = ((s.scheduleQueue k).src j).tag ∧
      ((((s.completeRow i).scheduleQueue k).src j).ready = true ↔
        ((s.scheduleQueue k).src j).ready = true ∨
          (s.scheduleQueue i).produces ((s.scheduleQueue k).src j)) := by
  obtain ⟨branchTable, ghr, e⟩ := s.completeRow_eq i
  rw [e]
  obtain ⟨src, hsrc, hregs⟩ := Row.wokenBy_eq
    (Function.update s.scheduleQueue i ((s.scheduleQueue i).completed s.cycle) k)
    (s.scheduleQueue i)
  show ((Row.wokenBy _ _).src j).tag = _ ∧ (((Row.wokenBy _ _).src j).ready = true ↔ _)
  rw [hsrc]
  have hsame : (Function.update s.scheduleQueue i ((s.scheduleQueue i).completed s.cycle) k).src =
        (s.scheduleQueue k).src ∧
      (Function.update s.scheduleQueue i ((s.scheduleQueue i).completed s.cycle) k).occupied =
        (s.scheduleQueue k).occupied := by
    rcases eq_or_ne k i with rfl | hki
    · rw [Function.update_self]
      exact ⟨rfl, rfl⟩
    · rw [Function.update_of_ne hki]
      exact ⟨rfl, rfl⟩
  obtain ⟨-, htag, hready⟩ := hregs j
  rw [hsame.1] at htag hready
  rw [hsame.2, hk] at hready
  exact ⟨htag, by simpa using hready⟩

/-- An entry of the register file after a row has been completed. -/
theorem writeBack_eq (done : Row) (registerFile : Reg → Rf) (r : Reg) :
    (done.writeBack registerFile r).tag = (registerFile r).tag ∧
      ((done.writeBack registerFile r).ready = true ↔ (registerFile r).ready = true ∨
        done.produces ⟨some r, (registerFile r).ready, (registerFile r).tag⟩) := by
  unfold Row.writeBack Row.produces
  rcases e : done.destReg with - | r'
  · simp
  · dsimp only
    split
    · rename_i htag
      rcases eq_or_ne r r' with rfl | hr
      · simp [htag]
      · simp [hr]
    · rename_i htag
      refine ⟨rfl, .inl, ?_⟩
      rintro (hready | ⟨hreg, -, heq⟩)
      · exact hready
      · obtain rfl : r = r' := by simpa using hreg
        exact absurd heq htag

theorem Renamed.completeRow (h : Renamed prog s) (hs : Books prog s)
    {i : Fin conf.scheduleQueueSize} (hocc : (s.scheduleQueue i).occupied = true) :
    Renamed prog (s.completeRow i) := by
  have hrow := completeRow_row s i
  have htag : ∀ k, (s.completeRow i).tag k = s.tag k := fun k => (hrow k).1.tag
  have hfile : (s.completeRow i).registerFile =
      (s.scheduleQueue i).writeBack s.registerFile ∧
      (s.completeRow i).instrTag = s.instrTag ∧
      (s.completeRow i).dispatchQueueHead = s.dispatchQueueHead := by
    obtain ⟨branchTable, ghr, e⟩ := s.completeRow_eq i
    rw [e]
    exact ⟨rfl, rfl, rfl⟩
  constructor
  case instrTag =>
    rw [hfile.2.1, hfile.2.2]
    exact h.instrTag
  case destRegTag =>
    intro k hk
    rw [(hrow k).1.occupied] at hk
    rw [(hrow k).1.destRegTag, htag]
    exact h.destRegTag k hk
  case file =>
    intro r p hp
    rw [hfile.2.2] at hp
    rw [hfile.1]
    obtain ⟨hwtag, hwready⟩ := writeBack_eq (s.scheduleQueue i) s.registerFile r
    -- the entry of the register file hears the broadcast like a source
    exact Tracks.wake ⟨some r, (s.registerFile r).ready, (s.registerFile r).tag⟩
      ⟨some r, ((s.scheduleQueue i).writeBack s.registerFile r).ready,
        ((s.scheduleQueue i).writeBack s.registerFile r).tag⟩
      hs h hocc (h.file r p hp) rfl hp.wrote hwtag hwready
  case fileFree =>
    intro r hnone
    rw [hfile.2.2] at hnone
    rw [hfile.1]
    exact (writeBack_eq (s.scheduleQueue i) s.registerFile r).2.mpr (.inl (h.fileFree r hnone))
  case source =>
    intro k j r hk hreg p hp
    rw [(hrow k).1.occupied] at hk
    rw [(hrow k).1.srcReg] at hreg
    rw [htag] at hp
    obtain ⟨hstag, hsready⟩ := completeRow_src s i k j hk
    exact Tracks.wake _ _ hs h hocc (h.source k j r hk hreg p hp) hreg hp.wrote hstag hsready
  case sourceFree =>
    intro k j hk hnone
    rw [(hrow k).1.occupied] at hk
    rw [(hrow k).1.srcReg, htag] at hnone
    exact (completeRow_src s i k j hk).2.mpr (.inl (h.sourceFree k j hk hnone))

/-! ### Dispatching -/

theorem Renamed.skip (h : Renamed prog s) (hs : Books prog s) {k : ℕ} (hnops : s.NopsAhead k) :
    Renamed prog (s.skip k) := by
  have hnot : ∀ m, s.dispatchQueueHead ≤ m → m < s.dispatchQueueHead + k → ¬ Issues prog m :=
    fun m hge hlt => hnops.not_issues hs.queueOk hge hlt
  have hproducer : ∀ {r p}, Producer prog r (s.dispatchQueueHead + k) p ↔
      Producer prog r s.dispatchQueueHead p := by
    intro r p
    exact lastWriter_congr (Nat.le_add_right _ k) fun m hge hlt hw => hnot m hge hlt hw.issues
  constructor
  case instrTag =>
    show s.instrTag = destTag prog (s.dispatchQueueHead + k)
    rw [h.instrTag]
    exact (count_congr (Nat.le_add_right _ k) hnot).symm
  case destRegTag => exact h.destRegTag
  case file => exact fun r p hp => (h.file r p (hproducer.mp hp)).congr rfl
  case fileFree => exact fun r hnone => h.fileFree r fun p hp => hnone p (hproducer.mpr hp)
  case source => exact fun i k r hi hreg p hp => (h.source i k r hi hreg p hp).congr rfl
  case sourceFree => exact h.sourceFree

/-- A source that is filled knows what the register file knows. -/
theorem fill_eq (registerFile : Reg → Rf) (operand : Operand) (srcReg : Option Reg) :
    (operand.fill registerFile srcReg).reg = srcReg ∧
      (srcReg = none → (operand.fill registerFile srcReg).ready = true) ∧
      ∀ r, srcReg = some r →
        (operand.fill registerFile srcReg).ready = (registerFile r).ready ∧
          ((registerFile r).ready = false →
            (operand.fill registerFile srcReg).tag = (registerFile r).tag) := by
  unfold Operand.fill
  rcases srcReg with - | r
  · simp
  · dsimp only
    split
    · rename_i hready
      refine ⟨rfl, by simp, ?_⟩
      rintro r' hr'
      obtain rfl := Option.some.inj hr'
      simp [hready]
    · rename_i hready
      refine ⟨rfl, by simp, ?_⟩
      rintro r' hr'
      obtain rfl := Option.some.inj hr'
      simpa using hready

theorem rename_eq (registerFile : Reg → Rf) (destReg : Option Reg) (tag : ℕ) (r : Reg) :
    rename registerFile destReg tag r =
      if destReg = some r then ⟨tag, false⟩ else registerFile r := by
  unfold rename
  rcases destReg with - | r'
  · rfl
  · dsimp only
    rcases eq_or_ne r' r with rfl | hr
    · simp
    · rw [Function.update_of_ne hr.symm, if_neg (by simpa using hr)]

/-- The instruction at the head of the queue writes its register. -/
theorem QueueOk.writes_head (h : QueueOk prog s) {inst : Inst}
    (hget : s.dispatchQueue[s.dispatchQueueHead]? = some inst) (hop : inst.opcode ≠ .nop) (r : Reg) :
    Writes prog s.dispatchQueueHead r ↔ inst.destReg = some r := by
  unfold Writes
  rw [h.get hget]
  constructor
  · rintro ⟨inst', hinst', -, hr⟩
    obtain rfl := Option.some.inj hinst'
    exact hr
  · exact fun hr => ⟨_, rfl, hop, hr⟩

/-- A source that is filled tracks the producer of its register. -/
theorem Renamed.fill (h : Renamed prog s) (operand : Operand) {srcReg : Option Reg} {r : Reg}
    (hsrc : srcReg = some r) {p : ℕ} (hp : Producer prog r s.dispatchQueueHead p) :
    Tracks prog s (operand.fill s.registerFile srcReg).ready
      (operand.fill s.registerFile srcReg).tag p := by
  obtain ⟨-, -, hfill⟩ := fill_eq s.registerFile operand srcReg
  obtain ⟨hready, htags⟩ := hfill r hsrc
  have htracks := h.file r p hp
  rw [hready]
  refine ⟨htracks.ready_iff, ?_⟩
  intro hwaits
  rw [htags hwaits]
  exact htracks.tag_eq hwaits

/-- A source that is filled is ready if nothing produces its register. -/
theorem Renamed.fill_free (h : Renamed prog s) (operand : Operand) (srcReg : Option Reg)
    (hnone : ∀ r p, srcReg = some r → ¬ Producer prog r s.dispatchQueueHead p) :
    (operand.fill s.registerFile srcReg).ready = true := by
  obtain ⟨-, hfnone, hfill⟩ := fill_eq s.registerFile operand srcReg
  rcases e : srcReg with - | r
  · rw [← e]
    exact hfnone e
  · rw [← e, (hfill r e).1]
    exact h.fileFree r fun p hp => hnone r p e hp

theorem Renamed.placeRow (h : Renamed prog s) (hs : Books prog s)
    {i : Fin conf.scheduleQueueSize} {inst : Inst}
    (hget : s.dispatchQueue[s.dispatchQueueHead]? = some inst) (hop : inst.opcode ≠ .nop) :
    Renamed prog (s.placeRow i inst) := by
  have hself := s.placeRow_self i inst
  have htag := placeRow_tag (i := i) hs.queueOk hget
  have hresult := s.placeRow_result i inst
  have hfields : (s.placeRow i inst).registerFile = rename s.registerFile inst.destReg s.instrTag ∧
      (s.placeRow i inst).instrTag = s.instrTag + 1 := by
    rw [s.placeRow_eq]
    exact ⟨rfl, rfl⟩
  have hissues : Issues prog s.dispatchQueueHead := ⟨inst.toTraceInst, hs.queueOk.get hget, hop⟩
  have hwrites := hs.queueOk.writes_head hget hop
  constructor
  case instrTag =>
    rw [hfields.2, s.placeRow_head, h.instrTag]
    unfold destTag
    rw [Nat.count_succ, if_pos hissues]
  case destRegTag =>
    intro k hk
    rcases eq_or_ne k i with rfl | hki
    · rw [hself, htag]
      exact h.instrTag
    · rw [s.placeRow_of_ne inst hki] at hk ⊢
      rw [placeRow_tag_of_ne inst hki]
      exact h.destRegTag k hk
  case file =>
    intro r p hp
    rw [s.placeRow_head] at hp
    rw [hfields.1, rename_eq]
    split
    · -- the register waits for the new instruction
      rename_i hr
      obtain rfl := (lastWriter_succ_of_writes ((hwrites r).mpr hr)).mp hp
      refine ⟨?_, fun _ => h.instrTag⟩
      rw [placeRow_completed]
      constructor
      · intro hready
        cases hready
      · intro hc
        exact absurd (hs.rowsOk.completed _ hc).1 (Nat.lt_irrefl _)
    · rename_i hr
      have hp' := (lastWriter_succ_of_not_writes (mt (hwrites r).mp hr)).mp hp
      exact (h.file r p hp').congr hresult
  case fileFree =>
    intro r hnone
    rw [s.placeRow_head] at hnone
    rw [hfields.1, rename_eq, if_neg]
    · refine h.fileFree r fun p hp => ?_
      by_cases hr : inst.destReg = some r
      · exact hnone _ ((lastWriter_succ_of_writes ((hwrites r).mpr hr)).mpr rfl)
      · exact hnone p ((lastWriter_succ_of_not_writes (mt (hwrites r).mp hr)).mpr hp)
    · intro hr
      exact hnone _ ((lastWriter_succ_of_writes ((hwrites r).mpr hr)).mpr rfl)
  case source =>
    intro k j r hk hreg p hp
    rcases eq_or_ne k i with rfl | hki
    · rw [hself] at hreg ⊢
      rw [htag] at hp
      have hfreg := (fill_eq s.registerFile ((s.scheduleQueue k).src j) (inst.srcReg j)).1
      have hsrc : inst.srcReg j = some r := hfreg.symm.trans hreg
      exact (h.fill ((s.scheduleQueue k).src j) hsrc hp).congr hresult
    · rw [s.placeRow_of_ne inst hki] at hk hreg ⊢
      rw [placeRow_tag_of_ne inst hki] at hp
      exact (h.source k j r hk hreg p hp).congr hresult
  case sourceFree =>
    intro k j hk hnone
    rcases eq_or_ne k i with rfl | hki
    · rw [hself, htag] at hnone
      rw [hself]
      have hfreg := (fill_eq s.registerFile ((s.scheduleQueue k).src j) (inst.srcReg j)).1
      refine h.fill_free ((s.scheduleQueue k).src j) (inst.srcReg j) ?_
      intro r p hsrc
      exact hnone r p (hfreg.trans hsrc)
    · rw [s.placeRow_of_ne inst hki] at hk hnone ⊢
      rw [placeRow_tag_of_ne inst hki] at hnone
      exact h.sourceFree k j hk hnone

/-! ### Runs -/

theorem Renamed.endCycle (h : Renamed prog s) (hs : Books prog s) :
    Renamed prog (s.endCycle qsort) := by
  obtain ⟨cumulativeSize, e⟩ := endCycle_eq qsort hs
  obtain ⟨σ, hσ⟩ := endCycle_reorders qsort hs
  have hfields : (s.endCycle qsort).registerFile = s.registerFile ∧
      (s.endCycle qsort).instrTag = s.instrTag ∧
      (s.endCycle qsort).dispatchQueueHead = s.dispatchQueueHead ∧
      (s.endCycle qsort).result = s.result := by
    rw [e]
    exact ⟨rfl, rfl, rfl, rfl⟩
  obtain ⟨hfile, hinstrTag, hhead, hresult⟩ := hfields
  constructor
  case instrTag =>
    rw [hinstrTag, hhead]
    exact h.instrTag
  case destRegTag =>
    intro k hk
    obtain ⟨hk', -, heq⟩ := hσ.stayed hk
    rw [hσ.tag hk, heq]
    exact h.destRegTag (σ k) hk'
  case file =>
    intro r p hp
    rw [hhead] at hp
    rw [hfile]
    exact (h.file r p hp).congr hresult
  case fileFree =>
    rw [hfile, hhead]
    exact h.fileFree
  case source =>
    intro k j r hk hreg p hp
    obtain ⟨hk', -, heq⟩ := hσ.stayed hk
    rw [heq] at hreg ⊢
    rw [hσ.tag hk] at hp
    exact (h.source (σ k) j r hk' hreg p hp).congr hresult
  case sourceFree =>
    intro k j hk hnone
    obtain ⟨hk', -, heq⟩ := hσ.stayed hk
    rw [heq, hσ.tag hk] at hnone
    rw [heq]
    exact h.sourceFree (σ k) j hk' hnone

theorem Renamed.step (h : Renamed prog s) (hs : Books prog s) (hstep : Step qsort s s') :
    Renamed prog s' := by
  cases hstep with
  | locals e =>
      refine h.congr ?_ ?_ ?_ ?_ ?_ ?_ <;> rw [e]
      · exact fun _ => Row.Same.refl _
      · exact fun _ => rfl
  | completes i hfin _ => exact h.completeRow hs ((finished_eq_true s i).mp hfin).1
  | executes i _ _ => exact h.sameBooks (executeRow_same i s).1
  | schedules i => exact h.sameBooks (scheduleRow_same i s).1
  | marks => exact h.congr (fun _ => Row.Same.refl _) (fun _ => rfl) rfl rfl rfl rfl
  | skips k hnops => exact h.skip hs hnops
  | places i inst _ hget hop => exact h.placeRow hs hget hop
  | fetches inst trace _ _ =>
      exact h.congr (fun _ => Row.Same.refl _) (fun _ => rfl) rfl rfl rfl rfl
  | releases => exact h.endCycle hs

theorem Reached.renamed {trace : List TraceInst} {stage : Stage}
    (h : Reached conf qsort trace stage s) : Renamed trace s :=
  h.step_invariant (renamed_setup trace) fun _ _ hs hr hstep => hr.step hs hstep

/-- A source is ready when all its producers, if there are any, are completed. -/
theorem Renamed.ready (h : Renamed prog s) {i : Fin conf.scheduleQueueSize} {k : Fin 2}
    (hocc : (s.scheduleQueue i).occupied = true)
    (hproducers : ∀ r p, ((s.scheduleQueue i).src k).reg = some r → Producer prog r (s.tag i) p →
      s.Completed p) : ((s.scheduleQueue i).src k).ready = true := by
  by_cases hexists : ∃ r p, ((s.scheduleQueue i).src k).reg = some r ∧ Producer prog r (s.tag i) p
  · obtain ⟨r, p, hreg, hp⟩ := hexists
    exact (h.source i k r hocc hreg p hp).ready_iff.mpr (hproducers r p hreg hp)
  · exact h.sourceFree i k hocc fun r p hreg hp => hexists ⟨r, p, hreg, hp⟩

/-! ### No instruction is fired before its producers are completed -/

/-- A mark that is added to the history is for a row that could be fired, if it
is `fired`. -/
theorem Step.history (hstep : Step qsort s s') :
    s'.history = s.history ∨ ∃ mark, s'.history = s.history ++ [mark] ∧
      ∀ t, mark = .fired t → ∃ i, s.tag i = t ∧ (s.scheduleQueue i).occupied = true ∧
        ∀ k, ((s.scheduleQueue i).src k).ready = true := by
  cases hstep with
  | locals e => exact .inl (by rw [e])
  | completes i _ _ =>
      obtain ⟨branchTable, ghr, e⟩ := s.completeRow_eq i
      exact .inr ⟨_, by rw [e], by simp⟩
  | executes i hocc hfired =>
      obtain ⟨t, history, l1Cache, cacheMisses, e, ht, -⟩ := s.executeRow_eq i hocc hfired
      rcases ht with ⟨-, -, rfl⟩ | ⟨-, -, rfl⟩
      · exact .inl (by rw [e])
      · exact .inr ⟨_, by rw [e], by simp⟩
  | schedules i =>
      rcases scheduleRow_marks s i with ⟨hhistory, -⟩ | ⟨hhistory, hocc, -, hready, -⟩
      · exact .inl hhistory
      · refine .inr ⟨_, hhistory, ?_⟩
        rintro t ht
        exact ⟨i, by simpa using ht, hocc, hready⟩
  | marks => exact .inl rfl
  | skips k _ => exact .inl rfl
  | places i inst _ _ _ => exact .inl (by rw [s.placeRow_eq])
  | fetches inst trace _ _ => exact .inl rfl
  | releases =>
      refine .inl ?_
      have hsweep : (sweep Proc.freeRow s).history = s.history := by
        refine sweep_preserves (P := fun a : Proc conf => a.history = s.history) rfl ?_
        intro i a ha
        unfold Proc.freeRow
        split
        · exact ha
        · exact ha
      exact hsweep

/-- The order of the history, as far as registers are concerned. -/
def FiresAfterProducers (prog : List TraceInst) (s : Proc conf) : Prop :=
  ∀ t inst k r p, prog[t]? = some inst → inst.srcReg k = some r → Producer prog r t p →
    Precedes (.completed p) (.fired t) s.history

theorem FiresAfterProducers.step (h : FiresAfterProducers prog s) (hs : Books prog s)
    (hm : Marked prog s) (hr : Renamed prog s) (hstep : Step qsort s s') :
    FiresAfterProducers prog s' := by
  intro t inst k r p hinst hsrc hp
  rcases hstep.history with hhistory | ⟨mark, hhistory, hmark⟩
  · rw [hhistory]
    exact h t inst k r p hinst hsrc hp
  · rw [hhistory, precedes_append_singleton]
    refine ⟨h t inst k r p hinst hsrc hp, ?_⟩
    intro hfired
    obtain ⟨i, rfl, hocc, hready⟩ := hmark t hfired
    have hrow := hs.rowsOk.row i hocc
    obtain rfl := Option.some.inj (hrow.get.symm.trans hinst)
    have hreg : ((s.scheduleQueue i).src k).reg = some r := (hrow.src k).trans hsrc
    exact (hm.completed p).mpr ((hr.source i k r hocc hreg p hp).ready_iff.mp (hready k))

theorem Reached.firesAfterProducers {stage : Stage}
    (h : Reached conf qsort prog stage s) : FiresAfterProducers prog s := by
  have hall : Marked prog s ∧ Renamed prog s ∧ FiresAfterProducers prog s := by
    refine h.step_invariant
      (P := fun s => Marked prog s ∧ Renamed prog s ∧ FiresAfterProducers prog s) ⟨marked_setup prog, renamed_setup prog, ?_⟩ ?_
    · intro t inst k r p _ _ _
      exact precedes_of_not_mem (by simp [setupProc])
    · rintro s s' hs ⟨hm, hr, hf⟩ hstep
      exact ⟨hm.step hs hstep, hr.step hs hstep, hf.step hs hm hr hstep⟩
  exact hall.2.2

/-- In every reachable state a source is ready exactly when its producer, if it
has one, is completed; the row of a producer that a source waits for carries the
tag that the source waits for; and no instruction is fired before its producers
are completed. -/
theorem sources_ready {stage : Stage}
    (h : Reached conf qsort prog stage s) :
    (∀ i k r, (s.scheduleQueue i).occupied = true → ((s.scheduleQueue i).src k).reg = some r →
      prog[s.tag i]? = some (s.scheduleQueue i).instr.toTraceInst ∧
      (((s.scheduleQueue i).src k).ready = true ↔
        ∀ p, Producer prog r (s.tag i) p → s.Completed p) ∧
      (((s.scheduleQueue i).src k).ready = false →
        ∃ p, Producer prog r (s.tag i) p ∧
          ∃ j, (s.scheduleQueue j).occupied = true ∧ s.tag j = p ∧
            (s.scheduleQueue j).destRegTag = ((s.scheduleQueue i).src k).tag)) ∧
    ∀ t inst k r p, prog[t]? = some inst → inst.srcReg k = some r → Producer prog r t p →
      Precedes (.completed p) (.fired t) s.history := by
  refine ⟨?_, h.firesAfterProducers⟩
  intro i k r hocc hreg
  have hs := h.ledger.books
  have hr := h.renamed
  have hrow := hs.rowsOk.row i hocc
  refine ⟨hrow.get, ⟨?_, ?_⟩, ?_⟩
  · intro hready p hp
    exact (hr.source i k r hocc hreg p hp).ready_iff.mp hready
  · intro hall
    refine hr.ready hocc ?_
    intro r' p hreg' hp
    obtain rfl := Option.some.inj (hreg.symm.trans hreg')
    exact hall p hp
  · intro hwaits
    -- a source that waits has a producer, which is not completed
    obtain ⟨p, hp⟩ : ∃ p, Producer prog r (s.tag i) p := by
      by_contra hnone
      have hready := hr.ready hocc fun r' p hreg' hp => by
        obtain rfl := Option.some.inj (hreg.symm.trans hreg')
        exact absurd ⟨p, hp⟩ hnone
      rw [hwaits] at hready
      cases hready
    have htracks := hr.source i k r hocc hreg p hp
    have hnot : ¬ s.Completed p := by
      intro hc
      rw [htracks.ready_iff.mpr hc] at hwaits
      cases hwaits
    -- the producer has been dispatched, so it is in a row
    have hlt : p < s.dispatchQueueHead := hp.lt.trans hrow.lt
    obtain ⟨j, hj, hjp⟩ := (hs.rowsOk.dispatched p hlt hp.wrote.issues).resolve_left hnot
    refine ⟨p, hp, j, hj, hjp, ?_⟩
    rw [hr.destRegTag j hj, hjp, htracks.tag_eq hwaits]

/-- The second addition waits for the first one, whose result it reads. -/
theorem sources_ready_additions : ∃ s : Proc smallConf,
    ((s.scheduleQueue ⟨1, by decide⟩).src 0).ready = false ∧
    ∃ p, Producer [⟨0, .add, some 1, fun _ => none, 0, false⟩,
        ⟨4, .add, some 2, fun _ => some 1, 0, false⟩] 1 (s.tag ⟨1, by decide⟩) p ∧
      ∃ j, (s.scheduleQueue j).occupied = true ∧ s.tag j = p ∧
        (s.scheduleQueue j).destRegTag = ((s.scheduleQueue ⟨1, by decide⟩).src 0).tag := by
  have h₁ : Reached smallConf (keepOrder smallConf) [⟨0, .add, some 1, fun _ => none, 0, false⟩,
      ⟨4, .add, some 2, fun _ => some 1, 0, false⟩] .updateState _ :=
    Reached.cycle .setup rfl rfl
  have h₂ : Reached _ _ _ .fetchInstr _ := h₁.dispatched rfl
  exact ⟨_, rfl, ((sources_ready h₂).1 ⟨1, by decide⟩ 0 1 rfl rfl).2.2 rfl⟩

end ProjectArchive.Tomasulo
