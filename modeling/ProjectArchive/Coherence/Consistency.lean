/-
ProjectArchive/Coherence/Consistency.lean

The caches and the memory behave like one memory.

`contents` replays a history like `versions` does, but moves what the lines
contain, and keeps what every operation has seen.  `Carries` relates the two:
whoever has a version of a line has the contents which that version had when it
was stored.  An operation is completed on the latest version of its line, so it
sees what it would have seen had the operations been carried out one at a time
on a single memory, in the order in which they were completed.
-/
import ProjectArchive.Coherence.CacheSteps
import ProjectArchive.Library.AtomicMemory

namespace ProjectArchive.Coherence

open SnoopLine Exec Relation AtomicMemory

variable {P : Protocol} {T : Table P.State} {n : ℕ} {traces : Fin n → Trace} {V : Type*}

/-! ### Contents -/

/-- What the lines contain. -/
structure Contents (V : Type*) where
  /-- What a cache holds. -/
  held : ModuleID → Paddr → V
  memory : Paddr → V
  /-- What the `DATA` in `data_reply` carries. -/
  reply : V
  /-- What the `DATA` in `current_request` carries. -/
  current : V
  /-- The operation each cache works on. -/
  op : ModuleID → Message
  /-- What the operations completed by each cache have seen, oldest first. -/
  seen : ModuleID → List V

/-- Before the first event every copy is the one in memory. -/
def Contents.new (cells : Paddr → V) : Contents V where
  held := fun _ => cells
  memory := cells
  reply := cells 0
  current := cells 0
  op := fun _ => .NOP
  seen := fun _ => []

/-- What a module holds: a cache, or the memory controller. -/
def Contents.heldBy (c : Contents V) (mid : ModuleID) (addr : Paddr) : V :=
  if mid.moduleIndex = .MC_M then c.memory addr else c.held mid addr

/-- The line at `addr` of the cache `mid` contains `x`. -/
def Contents.setHeld (c : Contents V) (mid : ModuleID) (addr : Paddr) (x : V) : Contents V :=
  { c with held := Function.update c.held mid (Function.update (c.held mid) addr x) }

/-- The cache `mid` has completed an operation that has seen `x`. -/
def Contents.see (c : Contents V) (mid : ModuleID) (x : V) : Contents V :=
  { c with seen := Function.update c.seen mid (c.seen mid ++ [x]) }

section Replay

variable (write : ModuleID → ℕ → V → V) (cells : Paddr → V)

/-- What one event does to the contents.  The store that is operation `j` of the
cache `mid` replaces `x` by `write mid j x`. -/
def Contents.step (c : Contents V) : Event → Contents V
  | .granted _ m =>
      if m.msg = .DATA then
        { c with current := c.reply, memory := Function.update c.memory m.addr c.reply }
      else c
  | .requested _ m => if m.msg = .DATA then { c with reply := c.heldBy m.srcMid m.addr } else c
  | .accepted mid m => { c with op := Function.update c.op mid m.msg }
  | .snooped mid m => if m.msg = .DATA then c.setHeld mid m.addr c.current else c
  | .answered mid m =>
      let x := c.held mid m.addr
      if c.op mid = .STORE then
        (c.see mid x).setHeld mid m.addr (write mid (c.seen mid).length x)
      else c.see mid x

/-- The contents after a history. -/
def contents : List Event → Contents V
  | [] => .new cells
  | e :: past => (contents past).step write e

/-- What version `x` of the line at `addr` contains. -/
def containedBy : List Event → (addr : Paddr) → (x : ℕ) → V
  | [], addr, _ => cells addr
  | .answered mid m :: past, addr, x =>
      let v := versions past
      if v.op mid = .STORE ∧ addr = m.addr ∧ x = v.latest addr + 1 then
        write mid (answers mid past).length (containedBy past addr (v.latest addr))
      else containedBy past addr x
  | _ :: past, addr, x => containedBy past addr x

end Replay

/-- The caches that have completed the operations of a history, oldest first. -/
def completions : List Event → List ModuleID
  | [] => []
  | .answered mid _ :: past => completions past ++ [mid]
  | _ :: past => completions past

/-- The operations of the traces. -/
def programs (traces : Fin n → Trace) (write : ModuleID → ℕ → V → V) (i : Fin n) :
    List (Operation Paddr V) :=
  (traces i).lines.mapIdx fun j l =>
    ⟨TraceLine.line l, if TraceLine.access l = .write then write (.L1 i) j else id⟩

/-! ### Versions have their contents -/

section Carries

variable {write : ModuleID → ℕ → V → V} {cells : Paddr → V} {past : List Event}
  {reply current : Option Mreq} {m : Mreq} {t : ℕ} {mid : ModuleID} {addr : Paddr} {x : ℕ} {y : V}
  {e : Event}

/-- A copy of version `x` of the line at `addr` contains `y`. -/
structure Copy (write : ModuleID → ℕ → V → V) (cells : Paddr → V) (past : List Event)
    (addr : Paddr) (x : ℕ) (y : V) : Prop where
  le : x ≤ (versions past).latest addr
  eq : y = containedBy write cells past addr x

theorem containedBy_cons (hle : x ≤ (versions past).latest addr) :
    containedBy write cells (e :: past) addr x = containedBy write cells past addr x := by
  cases e with
  | answered mid m =>
      refine if_neg ?_
      rintro ⟨-, -, rfl⟩
      exact Nat.not_succ_le_self _ hle
  | _ => rfl

/-- Copies stay what they are. -/
theorem Copy.cons (h : Copy write cells past addr x y) (e : Event) :
    Copy write cells (e :: past) addr x y :=
  ⟨h.le.trans (Versions.latest_le_step e), h.eq.trans (containedBy_cons h.le).symm⟩

/-- The copies in the system have the contents of their versions, when `reply`
is in `data_reply` and `current` in `current_request`. -/
structure Carries (write : ModuleID → ℕ → V → V) (cells : Paddr → V) (past : List Event)
    (reply current : Option Mreq) : Prop where
  held : ∀ mid addr, Copy write cells past addr ((versions past).held mid addr)
    ((contents write cells past).held mid addr)
  memory : ∀ addr, Copy write cells past addr ((versions past).memory addr)
    ((contents write cells past).memory addr)
  reply : ∀ m, reply = some m → Copy write cells past m.addr (versions past).reply
    (contents write cells past).reply
  current : ∀ m, current = some m → m.msg = .DATA → Copy write cells past m.addr
    (versions past).current (contents write cells past).current
  op : ∀ mid, (contents write cells past).op mid = (versions past).op mid
  seen : ∀ mid, ((contents write cells past).seen mid).length = (answers mid past).length

theorem Carries.nil : Carries write cells [] none none where
  held := fun _ _ => ⟨le_rfl, rfl⟩
  memory := fun _ => ⟨le_rfl, rfl⟩
  reply := fun _ h => by cases h
  current := fun _ h => by cases h
  op := fun _ => rfl
  seen := fun _ => rfl

/-- Nothing is on the bus. -/
theorem Carries.silent (h : Carries write cells past reply current) :
    Carries write cells past reply none :=
  { h with current := fun _ e => by cases e }

/-- An event that moves nothing. -/
theorem Carries.frame (h : Carries write cells past reply current)
    (hversions : ∃ op, (versions past).step e = { versions past with op := op } ∧
      (contents write cells past).step write e = { contents write cells past with op := op })
    (hanswers : ∀ mid, answers mid (e :: past) = answers mid past) :
    Carries write cells (e :: past) reply current := by
  obtain ⟨op, hv, hc⟩ := hversions
  have hv : versions (e :: past) = { versions past with op := op } := hv
  have hc : contents write cells (e :: past) = { contents write cells past with op := op } := hc
  constructor
  case held =>
    intro mid addr
    rw [hv, hc]
    exact (h.held mid addr).cons e
  case memory =>
    intro addr
    rw [hv, hc]
    exact (h.memory addr).cons e
  case reply =>
    intro m hm
    rw [hv, hc]
    exact (h.reply m hm).cons e
  case current =>
    intro m hm hdata
    rw [hv, hc]
    exact (h.current m hm hdata).cons e
  case op =>
    intro mid
    rw [hv, hc]
  case seen =>
    intro mid
    rw [hc, hanswers]
    exact h.seen mid

theorem Carries.ops (h : Carries write cells past reply current) :
    (contents write cells past).op = (versions past).op := funext h.op

theorem Carries.accepted (h : Carries write cells past reply current) :
    Carries write cells (.accepted mid m :: past) reply current :=
  h.frame ⟨_, rfl, by rw [← h.ops]; rfl⟩ fun _ => rfl

theorem Carries.requestedRequest (h : Carries write cells past reply current) (hm : m.msg ≠ .DATA) :
    Carries write cells (.requested t m :: past) reply current :=
  h.frame ⟨(versions past).op, Versions.step_requested_request hm, by
    rw [← h.ops]
    exact if_neg hm⟩ fun _ => rfl

theorem Carries.snoopedRequest (h : Carries write cells past reply current) (hm : m.msg ≠ .DATA) :
    Carries write cells (.snooped mid m :: past) reply current :=
  h.frame ⟨(versions past).op, Versions.step_snooped_request hm, by
    rw [← h.ops]
    exact if_neg hm⟩ fun _ => rfl

/-- The bus grants a request. -/
theorem Carries.grantedRequest (h : Carries write cells past reply current) (hm : m.msg ≠ .DATA) :
    Carries write cells (.granted t m :: past) reply (some m) := by
  have hframe : Carries write cells (.granted t m :: past) reply none :=
    h.silent.frame ⟨(versions past).op, Versions.step_granted_request hm, by
      rw [← h.ops]
      exact if_neg hm⟩ fun _ => rfl
  refine { hframe with current := ?_ }
  rintro _ ⟨⟩ hdata
  exact absurd hdata hm

/-- What a module holds. -/
theorem Carries.heldBy (h : Carries write cells past reply current) (mid : ModuleID)
    (addr : Paddr) : Copy write cells past addr ((versions past).heldBy mid addr)
      ((contents write cells past).heldBy mid addr) := by
  unfold Versions.heldBy Contents.heldBy
  split
  · exact h.memory addr
  · exact h.held mid addr

/-- A module hands its data to the bus. -/
theorem Carries.requestedData (h : Carries write cells past reply current) (hm : m.msg = .DATA) :
    Carries write cells (.requested t m :: past) (some m) current := by
  have hv : versions (.requested t m :: past) =
      { versions past with reply := (versions past).heldBy m.srcMid m.addr } := if_pos hm
  have hc : contents write cells (.requested t m :: past) =
      { contents write cells past with
        reply := (contents write cells past).heldBy m.srcMid m.addr } := if_pos hm
  refine ⟨fun mid addr => ?_, fun addr => ?_, ?_, fun m' hm' hdata => ?_, fun mid => ?_,
    fun mid => ?_⟩
  · rw [hv, hc]
    exact (h.held mid addr).cons _
  · rw [hv, hc]
    exact (h.memory addr).cons _
  · rintro _ ⟨⟩
    rw [hv, hc]
    exact (h.heldBy m.srcMid m.addr).cons _
  · rw [hv, hc]
    exact (h.current m' hm' hdata).cons _
  · rw [hv, hc]
    exact h.op mid
  · rw [hc]
    exact h.seen mid

/-- The bus grants the data, which refresh the memory. -/
theorem Carries.grantedData (h : Carries write cells past (some m) current) (hm : m.msg = .DATA) :
    Carries write cells (.granted t m :: past) none (some m) := by
  have hv : versions (.granted t m :: past) = { versions past with
      current := (versions past).reply
      memory := Function.update (versions past).memory m.addr (versions past).reply } := if_pos hm
  have hc : contents write cells (.granted t m :: past) = { contents write cells past with
      current := (contents write cells past).reply
      memory := Function.update (contents write cells past).memory m.addr
        (contents write cells past).reply } := if_pos hm
  have hreply := (h.reply m rfl).cons (.granted t m)
  refine ⟨fun mid addr => ?_, fun addr => ?_, fun m' e => ?_, ?_, fun mid => ?_, fun mid => ?_⟩
  · rw [hv, hc]
    exact (h.held mid addr).cons _
  · rw [hv, hc]
    rcases eq_or_ne addr m.addr with rfl | hne
    · simpa using hreply
    · simpa [hne] using (h.memory addr).cons (.granted t m)
  · cases e
  · rintro _ ⟨⟩ -
    rw [hv, hc]
    exact hreply
  · rw [hv, hc]
    exact h.op mid
  · rw [hc]
    exact h.seen mid

theorem Versions.setHeld_held {v : Versions} {mid' : ModuleID} {a : Paddr} :
    (v.setHeld mid a x).held mid' addr =
      if mid' = mid ∧ addr = a then x else v.held mid' addr := by
  rcases eq_or_ne mid' mid with rfl | hmid
  · rcases eq_or_ne addr a with rfl | haddr
    · simp [Versions.setHeld]
    · simp [Versions.setHeld, haddr]
  · simp [Versions.setHeld, hmid]

theorem Contents.setHeld_held {c : Contents V} {mid' : ModuleID} {a : Paddr} :
    (c.setHeld mid a y).held mid' addr =
      if mid' = mid ∧ addr = a then y else c.held mid' addr := by
  rcases eq_or_ne mid' mid with rfl | hmid
  · rcases eq_or_ne addr a with rfl | haddr
    · simp [Contents.setHeld]
    · simp [Contents.setHeld, haddr]
  · simp [Contents.setHeld, hmid]

/-- A cache takes the data on the bus. -/
theorem Carries.snoopedData (h : Carries write cells past reply (some m)) (hm : m.msg = .DATA) :
    Carries write cells (.snooped mid m :: past) reply (some m) := by
  have hv : versions (.snooped mid m :: past) =
      (versions past).setHeld mid m.addr (versions past).current := if_pos hm
  have hc : contents write cells (.snooped mid m :: past) =
      (contents write cells past).setHeld mid m.addr (contents write cells past).current :=
    if_pos hm
  refine ⟨fun mid' addr => ?_, fun addr => ?_, fun m' hm' => ?_, fun m' hm' hdata => ?_,
    fun mid' => ?_, fun mid' => ?_⟩
  · rw [hv, hc, Versions.setHeld_held, Contents.setHeld_held]
    split
    · rename_i heq
      rw [heq.2]
      exact (h.current m rfl hm).cons _
    · exact (h.held mid' addr).cons _
  · rw [hv, hc]
    exact (h.memory addr).cons _
  · rw [hv, hc]
    exact (h.reply m' hm').cons _
  · rw [hv, hc]
    exact (h.current m' hm' hdata).cons _
  · rw [hv, hc]
    exact h.op mid'
  · rw [hc]
    exact h.seen mid'

/-- What a store leaves is the next version. -/
theorem containedBy_store (hop : (versions past).op mid = .STORE) :
    containedBy write cells (.answered mid m :: past) m.addr ((versions past).latest m.addr + 1) =
      write mid (answers mid past).length
        (containedBy write cells past m.addr ((versions past).latest m.addr)) :=
  if_pos ⟨hop, rfl, rfl⟩

theorem answers_answered (mid' : ModuleID) : (answers mid' (.answered mid m :: past)).length =
    (answers mid' past).length + if mid = mid' then 1 else 0 := by
  simp only [answers]
  split <;> simp

/-- A cache completes an operation on the latest version of its line. -/
theorem Carries.answered (h : Carries write cells past reply current)
    (hfresh : (versions past).held mid m.addr = (versions past).latest m.addr) :
    Carries write cells (.answered mid m :: past) reply current := by
  have hseen : ∀ mid', (((contents write cells past).see mid
      ((contents write cells past).held mid m.addr)).seen mid').length =
        (answers mid' (.answered mid m :: past)).length := by
    intro mid'
    rw [answers_answered]
    rcases eq_or_ne mid' mid with rfl | hne
    · simp [Contents.see, h.seen]
    · simp [Contents.see, hne, hne.symm, h.seen]
  by_cases hop : (versions past).op mid = .STORE
  · have hv : versions (.answered mid m :: past) =
        { (versions past).setHeld mid m.addr ((versions past).held mid m.addr + 1) with
          latest := Function.update (versions past).latest m.addr
            ((versions past).latest m.addr + 1) } := if_pos hop
    have hc : contents write cells (.answered mid m :: past) =
        ((contents write cells past).see mid ((contents write cells past).held mid m.addr)).setHeld
          mid m.addr (write mid ((contents write cells past).seen mid).length
            ((contents write cells past).held mid m.addr)) := if_pos ((h.op mid).trans hop)
    have hnew : Copy write cells (.answered mid m :: past) m.addr
        ((versions past).held mid m.addr + 1) (write mid ((contents write cells past).seen mid).length
            ((contents write cells past).held mid m.addr)) := by
      rw [hfresh]
      refine ⟨?_, ?_⟩
      · rw [hv]
        simp
      · rw [containedBy_store hop, h.seen, (h.held mid m.addr).eq, hfresh]
    refine ⟨fun mid' addr => ?_, fun addr => ?_, fun m' hm' => ?_, fun m' hm' hdata => ?_,
      fun mid' => ?_, fun mid' => ?_⟩
    · have hheld : (versions (.answered mid m :: past)).held mid' addr =
          ((versions past).setHeld mid m.addr ((versions past).held mid m.addr + 1)).held mid'
            addr := by rw [hv]
      rw [hheld, hc, Versions.setHeld_held, Contents.setHeld_held]
      split
      · rename_i heq
        rw [heq.2]
        exact hnew
      · exact (h.held mid' addr).cons _
    · rw [hc, versions_cons, Versions.step_answered_memory]
      exact (h.memory addr).cons _
    · rw [hc, versions_cons, Versions.step_answered_reply]
      exact (h.reply m' hm').cons _
    · rw [hc, versions_cons, Versions.step_answered_current]
      exact (h.current m' hm' hdata).cons _
    · rw [hc, versions_cons, Versions.step_answered_op]
      exact h.op mid'
    · rw [hc]
      exact hseen mid'
  · have hv : versions (.answered mid m :: past) = versions past := if_neg hop
    have hc : contents write cells (.answered mid m :: past) =
        (contents write cells past).see mid ((contents write cells past).held mid m.addr) :=
      if_neg (h.op mid ▸ hop)
    refine ⟨fun mid' addr => ?_, fun addr => ?_, fun m' hm' => ?_, fun m' hm' hdata => ?_,
      fun mid' => ?_, fun mid' => ?_⟩
    · rw [hv, hc]
      exact (h.held mid' addr).cons _
    · rw [hv, hc]
      exact (h.memory addr).cons _
    · rw [hv, hc]
      exact (h.reply m' hm').cons _
    · rw [hv, hc]
      exact (h.current m' hm' hdata).cons _
    · rw [hv, hc]
      exact h.op mid'
    · rw [hc]
      exact hseen mid'

/-! ### The single memory -/

/-- One memory, on which the operations were carried out in the order in which
they were completed, contains the latest versions, and its operations have seen
the same. -/
def Linear (traces : Fin n → Trace) (write : ModuleID → ℕ → V → V) (cells : Paddr → V)
    (past : List Event) : Prop :=
  ∃ order : List (Fin n), order.map (fun i : Fin n => ModuleID.L1 i) = completions past ∧
    serial (programs traces write) cells order =
      ⟨fun addr => containedBy write cells past addr ((versions past).latest addr),
        fun i => (contents write cells past).seen (.L1 i)⟩

theorem Linear.nil : Linear traces write cells [] := ⟨[], rfl, rfl⟩

/-- Only the completion of an operation is a turn. -/
theorem Linear.cons (h : Linear traces write cells past) (he : ∀ mid m, e ≠ .answered mid m) :
    Linear traces write cells (e :: past) := by
  obtain ⟨order, horder, hserial⟩ := h
  have hsame : completions (e :: past) = completions past ∧
      (versions (e :: past)).latest = (versions past).latest ∧
      (contents write cells (e :: past)).seen = (contents write cells past).seen ∧
      containedBy write cells (e :: past) = containedBy write cells past := by
    cases e with
    | answered mid m => exact absurd rfl (he mid m)
    | granted t m =>
        refine ⟨rfl, ?_, ?_, rfl⟩
        · simp only [versions_cons, Versions.step]
          split <;> rfl
        · simp only [contents, Contents.step]
          split <;> rfl
    | requested t m =>
        refine ⟨rfl, ?_, ?_, rfl⟩
        · simp only [versions_cons, Versions.step]
          split <;> rfl
        · simp only [contents, Contents.step]
          split <;> rfl
    | accepted mid m => exact ⟨rfl, rfl, rfl, rfl⟩
    | snooped mid m =>
        refine ⟨rfl, ?_, ?_, rfl⟩
        · simp only [versions_cons, Versions.step]
          split <;> rfl
        · simp only [contents, Contents.step]
          split <;> rfl
  obtain ⟨hcompletions, hlatest, hseen, hcontained⟩ := hsame
  refine ⟨order, horder.trans hcompletions.symm, ?_⟩
  rw [hserial, hlatest, hseen, hcontained]

/-- The operation that cache `i` works on after the history. -/
def Works (traces : Fin n → Trace) (i : Fin n) (past : List Event) (op : Access) (a : LineAddr) :
    Prop :=
  ∃ l, (traces i).lines[(answers (.L1 i) past).length]? = some l ∧ TraceLine.access l = op ∧
    TraceLine.line l = a

theorem opMessage_eq_STORE {op : Access} : opMessage op = .STORE ↔ op = .write := by
  cases op <;> simp [opMessage]

/-- A cache completes the operation it works on. -/
theorem Linear.answered {i : Fin n} {op : Access} {a : LineAddr} (h : Linear traces write cells past)
    (hc : Carries write cells past reply current) (hworks : Works traces i past op a)
    (hop : (versions past).op (.L1 i) = opMessage op) (haddr : m.addr = a)
    (hfresh : (versions past).held (.L1 i) m.addr = (versions past).latest m.addr) :
    Linear traces write cells (.answered (.L1 i) m :: past) := by
  obtain ⟨order, horder, hserial⟩ := h
  obtain ⟨l, hget, hl, hline⟩ := hworks
  have hlen : ((contents write cells past).seen (.L1 i)).length = (answers (.L1 i) past).length :=
    hc.seen _
  have hturn : (programs traces write i)[((contents write cells past).seen (.L1 i)).length]? =
      some ⟨a, if op = .write then write (.L1 i) (answers (.L1 i) past).length else id⟩ := by
    unfold programs
    rw [hlen, List.getElem?_mapIdx, hget, Option.map_some, hl, hline]
  have hx : (contents write cells past).held (.L1 i) m.addr =
      containedBy write cells past m.addr ((versions past).latest m.addr) := by
    rw [(hc.held (.L1 i) m.addr).eq, hfresh]
  refine ⟨order ++ [i], by rw [List.map_append, horder]; rfl, ?_⟩
  rw [serial_concat, hserial, State.turn_eq hturn, ← haddr]
  have hseen : (contents write cells (.answered (.L1 i) m :: past)).seen =
      Function.update (contents write cells past).seen (.L1 i)
        ((contents write cells past).seen (.L1 i) ++
          [(contents write cells past).held (.L1 i) m.addr]) := by
    simp only [contents, Contents.step]
    split <;> rfl
  rw [hseen, hx]
  congr 1
  · funext addr
    rcases eq_or_ne addr m.addr with rfl | hne
    · rw [Function.update_self]
      by_cases hstore : op = .write
      · have hop' : (versions past).op (.L1 i) = .STORE := hop.trans (opMessage_eq_STORE.mpr hstore)
        have hlatest : (versions (.answered (.L1 i) m :: past)).latest m.addr =
            (versions past).latest m.addr + 1 := by
          simp [Versions.step, hop']
        rw [if_pos hstore, hlatest, containedBy_store hop']
      · have hop' : (versions past).op (.L1 i) ≠ .STORE :=
          fun e => hstore (opMessage_eq_STORE.mp (hop.symm.trans e))
        have hv : versions (.answered (.L1 i) m :: past) = versions past := if_neg hop'
        rw [if_neg hstore, hv, containedBy_cons le_rfl]
        rfl
    · rw [Function.update_of_ne hne]
      have hlatest : (versions (.answered (.L1 i) m :: past)).latest addr =
          (versions past).latest addr := Versions.step_answered_latest_ne hne
      rw [hlatest, containedBy_cons le_rfl]
  · funext j
    rcases eq_or_ne j i with rfl | hne
    · simp
    · simp [hne, Fin.val_inj]

end Carries

/-! ### The operation under way -/

section Works

variable {i : Fin n} {nd : Node P} {past : List Event} {queue : List Mreq} {op q : Access}
  {a : LineAddr} {mid : ModuleID} {m : Mreq} {stage : Stage}

/-- A cache works on the operation that it took last. -/
theorem op_of_accepts (h : (accepts mid past).getLast? = some m) :
    (versions past).op mid = m.msg := by
  induction past with
  | nil => cases h
  | cons e past ih =>
      cases e with
      | accepted mid' m' =>
          rw [versions_cons, Versions.step_accepted]
          simp only [accepts] at h
          split at h
          · rename_i heq
            rw [List.getLast?_concat] at h
            obtain rfl := Option.some.inj h
            rw [heq]
            exact Function.update_self ..
          · rename_i hne
            exact (Function.update_of_ne (Ne.symm hne) ..).trans (ih h)
      | answered mid' m' => exact (congrFun Versions.step_answered_op mid).trans (ih h)
      | granted t m' =>
          rw [versions_cons, Versions.step]
          split <;> exact ih h
      | requested t m' =>
          rw [versions_cons, Versions.step]
          split <;> exact ih h
      | snooped mid' m' =>
          rw [versions_cons, Versions.step]
          split <;> exact ih h

/-- A line of the trace that makes a given message. -/
theorem Works.of_message {op : Access} (hmsg : m.msg = opMessage op) (haddr : m.addr = a)
    (h : ((traces i).lines.map (TraceLine.mreq i))[(answers (.L1 i) past).length]? = some m) :
    Works traces i past op a := by
  rw [List.getElem?_map, Option.map_eq_some_iff] at h
  obtain ⟨l, hget, rfl⟩ := h
  refine ⟨l, hget, ?_, ?_⟩
  · have hop : opMessage (TraceLine.access l) = opMessage op := hmsg
    revert hop
    cases TraceLine.access l <;> cases op <;> simp [opMessage]
  · exact Subtype.ext ((opMreq_addr i _ _).symm.trans haddr)

theorem NodeOk.works_fetched (h : NodeOk T i (traces i) nd past queue stage)
    (hst : stage = .fetched op a) : Works traces i past op a := by
  subst hst
  refine Works.of_message (m := opMreq i op a) rfl (opMreq_addr i op a) ?_
  have hlen : (accepts (.L1 i) past).length = (answers (.L1 i) past).length := by
    simpa [Stage.unanswered] using congrArg List.length h.answered
  rw [h.ledger, ← hlen]
  simp [Stage.proc]

theorem NodeOk.works_waiting (h : NodeOk T i (traces i) nd past queue stage)
    (hst : stage = .waiting op q a) : Works traces i past op a := by
  subst hst
  have hne : accepts (.L1 i) past ≠ [] := by
    intro hnil
    have := congrArg List.length h.answered
    simp [hnil, Stage.unanswered] at this
  have hlen : (accepts (.L1 i) past).length = (answers (.L1 i) past).length + 1 := by
    simpa [Stage.unanswered] using congrArg List.length h.answered
  have hlast : (accepts (.L1 i) past).getLast? = some ((accepts (.L1 i) past).getLast hne) :=
    List.getLast?_eq_some_getLast hne
  refine Works.of_message (m := (accepts (.L1 i) past).getLast hne) ?_ ?_ ?_
  · rw [← op_of_accepts hlast]
    exact (h.op rfl).1
  · have haddr := congrArg List.getLast? h.answered
    rw [List.getLast?_map, hlast] at haddr
    simpa [Stage.unanswered] using haddr
  · have hget : (accepts (.L1 i) past)[(answers (.L1 i) past).length]? =
        some ((accepts (.L1 i) past).getLast hne) := by
      rw [← hlast, List.getLast?_eq_getElem?, hlen]
      rfl
    rw [h.ledger, List.append_assoc, List.getElem?_append_left (by omega), hget]

end Works

/-! ### Runs -/

/-- The contents of the lines are those of a single memory. -/
structure Consistent (traces : Fin n → Trace) (write : ModuleID → ℕ → V → V) (cells : Paddr → V)
    (g : Globals) : Prop where
  carries : Carries write cells g.log g.bus.dataReply g.bus.currentRequest
  linear : Linear traces write cells g.log

section Steps

variable {write : ModuleID → ℕ → V → V} {cells : Paddr → V} {c c' : Config P n}

theorem BusStep.consistent (hstep : BusStep c c')
    (h : Consistent traces write cells c.sim.globals) :
    Consistent traces write cells c'.sim.globals := by
  obtain ⟨hc, hl⟩ := h
  cases hstep with
  | quiet hq => exact ⟨hc.silent, hl⟩
  | request k q a rest hreply hmc hq =>
      exact ⟨hc.grantedRequest (busMessage_ne_DATA q), hl.cons fun _ _ e => by cases e⟩
  | wait k q a hreply hmc => exact ⟨hc.silent, hl⟩
  | @data s stage k q a m hreply hm haddr =>
      have hc : Carries write cells s.globals.log (some m) s.globals.bus.currentRequest :=
        hreply ▸ hc
      exact ⟨hc.grantedData hm, hl.cons fun _ _ e => by cases e⟩

theorem CacheStep.consistent (hT : T.Lawful) (hstep : CacheStep T c c') (hI : c.Inv T traces)
    (h : Consistent traces write cells c.sim.globals) :
    Consistent traces write cells c'.sim.globals := by
  have hI' := hstep.inv hT hI
  obtain ⟨hc, hl⟩ := h
  cases hstep with
  | @served s tx stage i op a hst hhit =>
      have hworks := (hI.nodes i).works_fetched hst
      have hfresh := hI'.fresh
      rw [Simulator.served_log] at hfresh
      have hc' : Carries write cells (.accepted (.L1 i) (opMreq i op a) :: s.globals.log) _ _ :=
        hc.accepted
      have hlatest := (hfresh _ _ _ (List.suffix_refl _)).1
      have hcarries := hc'.answered hlatest
      have hlinear := (hl.cons (e := .accepted (.L1 i) (opMreq i op a)) fun _ _ e => by cases e)
        |>.answered (m := answerMreq (.L1 i) (opMreq i op a).addr) hc' hworks (by simp)
          (by simp) hlatest
      show Consistent traces write cells (s.served T i (opMreq i op a) op).globals
      exact ⟨by rw [Simulator.served_log, Simulator.served_bus]; exact hcarries,
        by rw [Simulator.served_log]; exact hlinear⟩
  | @queued s tx stage i op q a hst hmiss =>
      exact ⟨hc.accepted.requestedRequest (busMessage_ne_DATA q),
        (hl.cons fun _ _ e => by cases e).cons fun _ _ e => by cases e⟩
  | @observed s stage i k q a hcur hmc =>
      show Consistent traces write cells (s.observed T i (busMreq (.L1 k) q a) q).globals
      have hsnooped : Carries write cells (.snooped (.L1 i) (busMreq (.L1 k) q a) ::
          s.globals.log) s.globals.bus.dataReply s.globals.bus.currentRequest :=
        hc.snoopedRequest (busMessage_ne_DATA q)
      have hlinear : Linear traces write cells (.snooped (.L1 i) (busMreq (.L1 k) q a) ::
          s.globals.log) := hl.cons fun _ _ e => by cases e
      constructor
      · rw [Simulator.observed_log, Simulator.observed_bus]
        unfold observedEvents
        split
        · exact hsnooped.requestedData rfl
        · exact hsnooped
      · rw [Simulator.observed_log]
        unfold observedEvents
        split
        · exact hlinear.cons fun _ _ e => by cases e
        · exact hlinear
  | @filled s stage k op q a m hst hcur hm haddr =>
      have hworks := (hI.nodes k).works_waiting hst
      have hfresh := hI'.fresh
      rw [Simulator.filled_log] at hfresh
      have hc : Carries write cells s.globals.log s.globals.bus.dataReply (some m) := hcur ▸ hc
      have hc' : Carries write cells (.snooped (.L1 k) m :: s.globals.log)
        s.globals.bus.dataReply (some m) := hc.snoopedData hm
      have hlatest := (hfresh _ _ _ (List.suffix_refl _)).1
      have hop : (versions (.snooped (.L1 k) m :: s.globals.log)).op (.L1 k) = opMessage op := by
        rw [versions_cons, Versions.step_snooped_data hm]
        exact ((hI.nodes k).op hst).1
      have hlinear := (hl.cons (e := .snooped (.L1 k) m) fun _ _ e => by cases e)
        |>.answered (m := answerMreq (.L1 k) m.addr) hc' hworks hop (by simp [haddr])
          hlatest
      refine ⟨?_, hlinear⟩
      show Carries write cells _ s.globals.bus.dataReply s.globals.bus.currentRequest
      rw [hcur]
      exact hc'.answered hlatest

theorem MemStep.consistent {tx : Tx n} {g g' : Globals} {mc mc' : MemoryController}
    (hstep : MemStep n tx g mc g' mc') (h : Consistent traces write cells g) :
    Consistent traces write cells g' := by
  cases hstep with
  | idle busy => exact h
  | started k q a hcur hmc => exact h
  | early k q a hreply hmc htime => exact h
  | expired k q a hreply hmc htime haddr =>
      exact ⟨h.carries.requestedData rfl, h.linear.cons fun _ _ e => by cases e⟩

theorem CycleSteps.consistent (hT : T.Lawful) (hsteps : CycleSteps T traces c c')
    (h : Consistent traces write cells c.sim.globals) :
    Consistent traces write cells c'.sim.globals := by
  obtain ⟨c₁, c₂, g, hbus, hI₁, hcaches, -, hmem, hclock, -⟩ := hsteps.steps
  have hcaches' := CacheStep.preserves hT (J := fun c => Consistent traces write cells c.sim.globals)
    (fun hstep hI hc => hstep.consistent hT hI hc) hcaches hI₁ (hbus.consistent h)
  have hend := hmem.consistent hcaches'.2
  rw [hclock]
  exact ⟨hend.carries, hend.linear⟩

end Steps

/-- When every processor is done, every operation of its trace is completed. -/
theorem Good.answers_of_done {s : Simulator P n} {tx : Tx n} {stage : Fin n → Stage}
    (h : Good T traces s tx stage) (hdone : s.done = true) (i : Fin n) :
    (answers (.L1 i) s.globals.log).length = (traces i).lines.length := by
  have hN := h.inv.nodes i
  have hidle := h.idle_of_done hdone i
  have hi : (s.Nd i).processor.done = true := by
    simp only [Simulator.done, decide_eq_true_eq] at hdone
    exact hdone i
  simp only [Processor.done, Bool.and_eq_true] at hi
  have hfile := hN.ended hi.1
  have hledger := congrArg List.length hN.ledger
  have hanswered := congrArg List.length hN.answered
  simp only [hidle, hfile, Stage.proc, Stage.unanswered, List.length_map, List.length_append,
    Option.toList_none, List.length_nil, List.map_nil, Nat.add_zero] at hledger hanswered
  rw [hledger, hanswered]

theorem Good.tx_of_done {s : Simulator P n} {tx : Tx n} {stage : Fin n → Stage}
    (h : Good T traces s tx stage) (hdone : s.done = true) : tx = .idle := by
  obtain ⟨-, hprog, -⟩ := h.quiet_of_done hdone
  cases h.rest with
  | idle _ _ _ _ => rfl
  | waiting hask _ _ _ _ => rw [hask.inProgress] at hprog; cases hprog
  | cache _ hask _ _ => rw [hask.inProgress] at hprog; cases hprog
  | memory hask _ _ => rw [hask.inProgress] at hprog; cases hprog

/-- **The caches and the memory behave like one memory.**  Whatever the lines
contain and the stores write, after any number of cycles the operations have
seen what they see when they are carried out one at a time on a single memory, in
the order in which they were completed; and a run ends with every operation of
every trace completed, and with the contents of that memory in every cache that
holds a line, and in the memory itself unless a cache is there to supply them. -/
theorem sequentially_consistent (p : ProtocolKind) {n : ℕ} (traces : Fin n → Trace)
    (write : ModuleID → ℕ → V → V) (cells : Paddr → V) :
    (∀ k, ∃ (s : Simulator p.protocol n) (order : List (Fin n)),
      Simulator.cycles p.protocol traces k = .ok s ∧
        order.map (fun i : Fin n => ModuleID.L1 i) = completions s.globals.log ∧
        ∀ i : Fin n, (contents write cells s.globals.log).seen (.L1 i) =
          (serial (programs traces write) cells order).seen i) ∧
    ∃ (N : ℕ) (s : Simulator p.protocol n) (order : List (Fin n)),
      (∀ fuel, N ≤ fuel → (Simulator.new p.protocol traces).run fuel = .ok (some s)) ∧
        order.map (fun i : Fin n => ModuleID.L1 i) = completions s.globals.log ∧
        (∀ i : Fin n, (contents write cells s.globals.log).seen (.L1 i) =
            (serial (programs traces write) cells order).seen i ∧
          ((serial (programs traces write) cells order).seen i).length =
            (traces i).lines.length) ∧
        ∀ addr,
          (∀ i : Fin n, p.table.holds (s.states addr i) = true →
            (contents write cells s.globals.log).held (.L1 i) addr =
              (serial (programs traces write) cells order).cells addr) ∧
          ((∃ i, p.table.supplies (s.states addr i) = true) ∨
            (contents write cells s.globals.log).memory addr =
              (serial (programs traces write) cells order).cells addr) := by
  have hP := p.implements
  have hT := p.lawful
  have hstart : Consistent traces write cells (Simulator.new p.protocol traces).globals :=
    ⟨.nil, .nil⟩
  constructor
  · intro k
    obtain ⟨s, hs, -, -, hlinear⟩ := CycleSteps.cycles
      (J := fun s => Consistent traces write cells s.globals) hP hT
      (fun hsteps h => hsteps.consistent hT h) hstart k
    obtain ⟨order, horder, hserial⟩ := hlinear
    exact ⟨s, order, hs, horder, fun i => by rw [hserial]⟩
  · have hinit := Good.init hP hT traces
    obtain ⟨N, s, tx, stage, hrun, hdone, h⟩ := hinit.finishes hP hT
    obtain ⟨hcarries, order, horder, hserial⟩ := CycleSteps.run
      (J := fun s => Consistent traces write cells s.globals) hP hT
      (fun hsteps h => hsteps.consistent hT h) hinit hstart (hrun N le_rfl)
    refine ⟨N, s, order, hrun, horder, fun i => ⟨by rw [hserial], ?_⟩, fun addr => ⟨?_, ?_⟩⟩
    · rw [hserial, hcarries.seen, h.answers_of_done hdone]
    · intro i hholds
      have hlatest := (h.inv.coherent hT addr).current i hholds
      rw [hserial, (hcarries.held (.L1 i) addr).eq]
      exact congrArg _ hlatest
    · have hidle : (s.view tx addr).phase = .idle := by
        rw [h.tx_of_done hdone]
        rfl
      rcases (h.inv.coherent hT addr).idle hidle with hsupplies | hmem
      · exact .inl hsupplies
      · refine .inr ?_
        rw [hserial, (hcarries.memory addr).eq]
        exact congrArg _ hmem

end ProjectArchive.Coherence
