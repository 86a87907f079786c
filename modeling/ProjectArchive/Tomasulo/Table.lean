/-
ProjectArchive/Tomasulo/Table.lean

The table of `complete_proc`.

`update_state` records the instructions in the order in which they are completed.
`complete_proc` sorts the records with `compare`, which returns the difference of
two 64-bit tags as an `int`, and prints the times of each.  The tags of a run are
small enough for that to be an order, so that every sort that meets the contract
of `qsort` prints the instructions in program order (`table_in_program_order`).
-/
import ProjectArchive.Tomasulo.SortedQueue
import ProjectArchive.Tomasulo.Timeline

namespace ProjectArchive.Tomasulo

open MergeSort

variable {conf : ProcConf} {prog : List TraceInst} {s : Proc conf} {qsort : Qsort conf}

/-! ### `complete_proc` -/

/-- `compare`: the difference of the tags, returned as an `int`. -/
def ResultRow.compare (a b : ResultRow) : ℤ := Int.bmod ((a.tag : ℤ) - b.tag) (2 ^ 32)

/-- `compare` says which of two rows comes first. -/
def Ranked (rows : List ResultRow) : Prop :=
  ∃ place : ResultRow → ℕ, ∀ a ∈ rows, ∀ b ∈ rows, a.compare b ≤ 0 ↔ place a ≤ place b

/-- A sort of `result`: it permutes the rows, and puts them in order if `compare`
is one. -/
structure ResultSort where
  run : List ResultRow → List ResultRow
  perm : ∀ rows, (run rows).Perm rows
  sorted : ∀ rows, Ranked rows → (run rows).Pairwise fun a b => a.compare b ≤ 0

/-- `qsort` as a merge sort. -/
def glibcSort : ResultSort where
  run := msort fun a b => decide (a.compare b ≤ 0)
  perm := msort_perm _
  sorted := by
    rintro rows ⟨place, hplace⟩
    have hmem : ∀ a, a ∈ msort (fun a b => decide (ResultRow.compare a b ≤ 0)) rows ↔ a ∈ rows :=
      fun a => (msort_perm _ rows).mem_iff
    have hsorted : (msort (fun a b => decide (ResultRow.compare a b ≤ 0)) rows).Pairwise
        fun a b => place a ≤ place b := by
      refine pairwise_msort (List.pairwise_of_forall_mem_list fun a ha b hb => ?_)
      exact decide_eq_decide.mpr (hplace a ha b hb)
    refine hsorted.imp_of_mem fun {a b} ha hb hab => ?_
    exact (hplace a ((hmem a).mp ha) b ((hmem b).mp hb)).mpr hab

/-- A line of the table. -/
def ResultRow.line (r : ResultRow) : List ℕ :=
  [r.fetch, r.dispatch, r.schedule, r.execute, r.update]

/-- The table of `complete_proc`. -/
def completeProc (sort : ResultSort) (s : Proc conf) : List (List ℕ) :=
  (sort.run s.result).map ResultRow.line

/-! ### Program order -/

/-- Small tags are compared as they are. -/
theorem ResultRow.compare_eq {a b : ResultRow} (ha : a.tag ≤ dqDataStructureSize)
    (hb : b.tag ≤ dqDataStructureSize) : a.compare b = (a.tag : ℤ) - b.tag := by
  unfold dqDataStructureSize at ha hb
  unfold ResultRow.compare
  apply Int.bmod_eq_of_le <;> omega

theorem ranked_of_small {rows : List ResultRow}
    (hsmall : ∀ r ∈ rows, r.tag ≤ dqDataStructureSize) : Ranked rows := by
  refine ⟨ResultRow.tag, fun a ha b hb => ?_⟩
  rw [ResultRow.compare_eq (hsmall a ha) (hsmall b hb)]
  omega

/-- The tags of a run are small. -/
theorem Books.small (h : Books prog s) {r : ResultRow} (hr : r ∈ s.result) :
    r.tag ≤ dqDataStructureSize := by
  have hlt := (h.rowsOk.completed r.tag (List.mem_map_of_mem hr)).1
  exact (hlt.le.trans h.queueOk.size.1).trans h.queueOk.tail_le

/-- The rows of a run, sorted. -/
theorem Books.sorted (h : Books prog s) (sort : ResultSort) :
    (sort.run s.result).Pairwise fun a b => a.tag < b.tag := by
  have hperm := sort.perm s.result
  have hmem : ∀ {r}, r ∈ sort.run s.result → r.tag ≤ dqDataStructureSize :=
    fun hr => h.small (hperm.mem_iff.mp hr)
  have hle := sort.sorted s.result (ranked_of_small fun r hr => h.small hr)
  have hne : (sort.run s.result).Pairwise fun a b => a.tag ≠ b.tag :=
    List.pairwise_map.mp ((hperm.map ResultRow.tag).nodup_iff.mpr h.rowsOk.nodup)
  refine (hle.and hne).imp_of_mem fun {a b} ha hb hab => ?_
  have hdiff := hab.1
  rw [ResultRow.compare_eq (hmem ha) (hmem hb)] at hdiff
  have hdistinct := hab.2
  omega

/-- **The table is in program order.**  It has a line for every instruction that is no NOP, in
the order of the program, whatever the order of their completion.  The `t`-th instruction of the
trace is fetched in the cycle `t / f` and dispatched in the next one, the instructions are
scheduled in program order, and the times of a line increase. -/
theorem table_in_program_order (conf : ProcConf) (qsort : Qsort conf) (sort : ResultSort)
    (prog : List TraceInst) (hlen : prog.length < dqDataStructureSize) :
    ∃ (s : Proc conf) (rows : List ResultRow),
      (∃ N, ∀ fuel, N ≤ fuel → runProc conf qsort prog fuel = .ok (some s)) ∧
      completeProc sort s = rows.map ResultRow.line ∧
      rows.map ResultRow.tag =
        (List.range prog.length).filter (fun t => decide (Issues prog t)) ∧
      rows.Pairwise (fun a b => a.schedule ≤ b.schedule) ∧
      ∀ r ∈ rows, r.fetch = r.tag / conf.f ∧ r.dispatch = r.tag / conf.f + 1 ∧
        r.dispatch < r.schedule ∧ r.schedule < r.execute ∧ r.execute < r.update := by
  have hok : ∀ s, Reached conf qsort prog .fetchInstr s → ∃ s', s.fetchStage = .ok s' :=
    fun s hs => fetchStage_ok hlen hs.ledger.books
  obtain ⟨s, ⟨N, hN⟩, hreach, hidle⟩ := run_ends hok
  have hbooks := hreach.ledger.books
  have hcompleted := completed_of_not_busy hbooks hreach.fetching hidle
  have hperm := sort.perm s.result
  have hsorted := hbooks.sorted sort
  obtain ⟨left, hleft⟩ := hreach.departs
  refine ⟨{ s with stats := { s.stats with cycleCount := s.stats.cycleCount - 1 } },
    sort.run s.result, ⟨N, ?_⟩, rfl, ?_, ?_, ?_⟩
  · intro fuel hfuel
    unfold runProc
    rw [hN fuel hfuel]
    rfl
  · have hlt : ((sort.run s.result).map ResultRow.tag).Pairwise fun a b => a < b :=
      List.pairwise_map.mpr hsorted
    refine List.Perm.eq_of_pairwise (fun a b _ _ hab hba => absurd hba hab.asymm) hlt
      (List.pairwise_lt_range.filter _) ?_
    refine (List.perm_ext_iff_of_nodup (hlt.imp fun {a b} hab => Nat.ne_of_lt hab)
      (List.nodup_range.filter _)).mpr fun t => ?_
    rw [(hperm.map ResultRow.tag).mem_iff, List.mem_filter, List.mem_range, decide_eq_true_eq]
    constructor
    · intro hc
      obtain ⟨inst, hget, hop⟩ := (hcompleted t).mp hc
      exact ⟨(List.getElem?_eq_some_iff.mp hget).1, ⟨inst, hget, hop⟩⟩
    · exact fun ht => (hcompleted t).mpr ht.2
  · refine hsorted.imp_of_mem fun {a b} ha hb hab => ?_
    have hb' := hperm.mem_iff.mp hb
    rw [hleft.result a (hperm.mem_iff.mp ha), hleft.result b hb']
    refine Nat.succ_le_succ (hleft.mono _ _ hab.le ?_)
    exact (hbooks.rowsOk.completed b.tag (List.mem_map_of_mem hb')).1
  · intro r hr
    have hr' := hperm.mem_iff.mp hr
    obtain ⟨hfetch, hdispatch⟩ := hreach.paced.result r hr'
    have htimes := hreach.timed.result r hr'
    exact ⟨hfetch, hdispatch, htimes.dispatch, htimes.schedule, htimes.execute⟩

/-- The table of three instructions, none of them a NOP. -/
theorem table_in_program_order_loadBranchStore : ∃ (s : Proc smallConf) (rows : List ResultRow),
    completeProc glibcSort s = rows.map ResultRow.line ∧ rows.map ResultRow.tag = [0, 1, 2] := by
  obtain ⟨s, rows, -, htable, htags, -⟩ := table_in_program_order smallConf (keepOrder smallConf)
    glibcSort (loadBranchStore 1) (by decide)
  exact ⟨s, rows, htable, htags⟩

end ProjectArchive.Tomasulo
