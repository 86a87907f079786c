/-
ProjectArchive/Coherence/History.lean

What the history of a run says.

The simulator moves no data, only permissions.  The functions below replay a
history (newest event first) and compute what the caches would hold:

* `versions`: the version of every line in every cache and in memory, where
  the version of a line is the number of stores to it completed so far;
* `copies`: which caches hold an up-to-date copy, that is, one received by
  `DATA` and not invalidated by a `GETM` snooped since;
* `exchanges`: the messages granted by the bus, each with the `DATA` handed to
  the bus before the next grant.
-/
import ProjectArchive.Coherence.Simulator

namespace ProjectArchive.Coherence

open SnoopLine

/-! ### Versions -/

/-- The versions in the system. -/
structure Versions where
  /-- Stores completed so far. -/
  latest : Paddr → ℕ
  /-- The version a cache holds. -/
  held : ModuleID → Paddr → ℕ
  /-- The version in memory. -/
  memory : Paddr → ℕ
  /-- The version carried by the `DATA` in `data_reply`. -/
  reply : ℕ
  /-- The version carried by the `DATA` in `current_request`. -/
  current : ℕ
  /-- The operation each cache works on. -/
  op : ModuleID → Message

/-- Before the first event every copy has version 0. -/
def Versions.new : Versions := ⟨fun _ => 0, fun _ _ => 0, fun _ => 0, 0, 0, fun _ => .NOP⟩

/-- The version held by a module: a cache, or the memory controller. -/
def Versions.heldBy (v : Versions) (mid : ModuleID) (addr : Paddr) : ℕ :=
  if mid.moduleIndex = .MC_M then v.memory addr else v.held mid addr

/-- The cache `mid` holds version `x` of the line at `addr`. -/
def Versions.setHeld (v : Versions) (mid : ModuleID) (addr : Paddr) (x : ℕ) : Versions :=
  { v with held := Function.update v.held mid (Function.update (v.held mid) addr x) }

/-- What one event does to the versions. -/
def Versions.step (v : Versions) : Event → Versions
  | .granted _ m =>
      -- a `DATA` message on the bus refreshes memory
      if m.msg = .DATA then
        { v with current := v.reply, memory := Function.update v.memory m.addr v.reply }
      else v
  | .requested _ m =>
      -- a `DATA` message carries the version of its sender
      if m.msg = .DATA then { v with reply := v.heldBy m.srcMid m.addr } else v
  | .accepted mid m => { v with op := Function.update v.op mid m.msg }
  | .snooped mid m =>
      -- a cache adopts the version of the `DATA` it receives
      if m.msg = .DATA then v.setHeld mid m.addr v.current else v
  | .answered mid m =>
      -- a completed store is a new version on top of the one held
      if v.op mid = .STORE then
        { v.setHeld mid m.addr (v.held mid m.addr + 1) with
          latest := Function.update v.latest m.addr (v.latest m.addr + 1) }
      else v

/-- The versions after a history. -/
def versions : List Event → Versions
  | [] => .new
  | e :: past => (versions past).step e

@[simp] theorem versions_nil : versions [] = .new := rfl

@[simp] theorem versions_cons (e : Event) (past : List Event) :
    versions (e :: past) = (versions past).step e := rfl

section Versions

variable {v : Versions} {mid mid' : ModuleID} {m : Mreq} {addr : Paddr}

@[simp] theorem Versions.heldBy_L1 (i : ℕ) : v.heldBy (.L1 i) addr = v.held (.L1 i) addr := rfl

@[simp] theorem Versions.heldBy_MC (n : ℕ) : v.heldBy (.MC n) addr = v.memory addr := rfl

@[simp] theorem Versions.step_accepted :
    v.step (.accepted mid m) = { v with op := Function.update v.op mid m.msg } := rfl

theorem Versions.step_granted_request {t : ℕ} (h : m.msg ≠ .DATA) :
    v.step (.granted t m) = v := if_neg h

theorem Versions.step_granted_data {t : ℕ} (h : m.msg = .DATA) :
    v.step (.granted t m) = { v with
      current := v.reply, memory := Function.update v.memory m.addr v.reply } := if_pos h

theorem Versions.step_requested_request {t : ℕ} (h : m.msg ≠ .DATA) :
    v.step (.requested t m) = v := if_neg h

theorem Versions.step_requested_data {t : ℕ} (h : m.msg = .DATA) :
    v.step (.requested t m) = { v with reply := v.heldBy m.srcMid m.addr } := if_pos h

@[simp] theorem Versions.step_requested_busMreq {t : ℕ} {q : Access} :
    v.step (.requested t (busMreq mid q addr)) = v :=
  Versions.step_requested_request (busMessage_ne_DATA q)

@[simp] theorem Versions.step_requested_dataMreq {t : ℕ} {dest : ModuleID} :
    v.step (.requested t (dataMreq mid addr dest)) =
      { v with reply := v.heldBy mid (dataMreq mid addr dest).addr } :=
  Versions.step_requested_data rfl

theorem Versions.step_snooped_request (h : m.msg ≠ .DATA) : v.step (.snooped mid m) = v :=
  if_neg h

@[simp] theorem Versions.step_snooped_busMreq {mid' : ModuleID} {q : Access} :
    v.step (.snooped mid (busMreq mid' q addr)) = v :=
  Versions.step_snooped_request (busMessage_ne_DATA q)

theorem Versions.step_snooped_data (h : m.msg = .DATA) :
    v.step (.snooped mid m) = v.setHeld mid m.addr v.current := if_pos h

@[simp] theorem Versions.step_answered_memory :
    (v.step (.answered mid m)).memory = v.memory := by
  simp only [Versions.step]
  split <;> rfl

@[simp] theorem Versions.step_answered_reply : (v.step (.answered mid m)).reply = v.reply := by
  simp only [Versions.step]
  split <;> rfl

@[simp] theorem Versions.step_answered_current :
    (v.step (.answered mid m)).current = v.current := by
  simp only [Versions.step]
  split <;> rfl

@[simp] theorem Versions.step_answered_op : (v.step (.answered mid m)).op = v.op := by
  simp only [Versions.step]
  split <;> rfl

theorem Versions.step_answered_latest_ne (h : addr ≠ m.addr) :
    (v.step (.answered mid m)).latest addr = v.latest addr := by
  simp only [Versions.step]
  split <;> simp [h]

theorem Versions.setHeld_held_ne {x : ℕ} (h : addr ≠ m.addr) :
    (v.setHeld mid m.addr x).held mid' addr = v.held mid' addr := by
  rcases eq_or_ne mid' mid with rfl | hmid
  · simp [Versions.setHeld, h]
  · simp [Versions.setHeld, hmid]

theorem Versions.step_answered_held_ne (h : addr ≠ m.addr) :
    (v.step (.answered mid m)).held mid' addr = v.held mid' addr := by
  simp only [Versions.step]
  split
  · exact Versions.setHeld_held_ne h
  · rfl

/-- No event takes a completed store back. -/
theorem Versions.latest_le_step (e : Event) :
    v.latest addr ≤ (v.step e).latest addr := by
  cases e with
  | granted t m =>
      simp only [Versions.step]
      split <;> exact le_rfl
  | requested t m =>
      simp only [Versions.step]
      split <;> exact le_rfl
  | accepted mid m => exact le_rfl
  | snooped mid m =>
      simp only [Versions.step]
      split <;> exact le_rfl
  | answered mid m =>
      rcases eq_or_ne addr m.addr with rfl | ha
      · simp only [Versions.step]
        split <;> simp
      · exact (Versions.step_answered_latest_ne ha).ge

end Versions

/-! ### Copies -/

/-- The caches with an up-to-date copy after a history: one received by `DATA`
and not since invalidated by a snooped `GETM`. -/
def copies : List Event → ModuleID → Paddr → Bool
  | [], _, _ => false
  | .snooped mid m :: past, mid', addr =>
      if mid' = mid ∧ addr = m.addr ∧ m.msg = .DATA then true
      else if mid' = mid ∧ addr = m.addr ∧ m.msg = .GETM then false
      else copies past mid' addr
  | _ :: past, mid', addr => copies past mid' addr

/-- The same, counting also an operation completed in place as a reason to
hold a copy. -/
def copiesInPlace : List Event → ModuleID → Paddr → Bool
  | [], _, _ => false
  | .snooped mid m :: past, mid', addr =>
      if mid' = mid ∧ addr = m.addr ∧ m.msg = .DATA then true
      else if mid' = mid ∧ addr = m.addr ∧ m.msg = .GETM then false
      else copiesInPlace past mid' addr
  | .answered mid m :: past, mid', addr =>
      if mid' = mid ∧ addr = m.addr then true else copiesInPlace past mid' addr
  | _ :: past, mid', addr => copiesInPlace past mid' addr

/-- Every operation in the history was completed by a cache that had an
up-to-date copy of the latest version of its line. -/
def Fresh (log : List Event) : Prop :=
  ∀ past mid m, (.answered mid m :: past) <:+ log →
    (versions past).held mid m.addr = (versions past).latest m.addr ∧
      copies past mid m.addr = true

theorem Fresh.nil : Fresh [] := by
  intro past mid m h
  have := h.length_le
  simp at this

theorem Fresh.cons {log : List Event} {e : Event} (h : Fresh log)
    (he : ∀ mid m, e = .answered mid m →
      (versions log).held mid m.addr = (versions log).latest m.addr ∧
        copies log mid m.addr = true) : Fresh (e :: log) := by
  intro past mid m hs
  rcases List.suffix_cons_iff.mp hs with heq | hs
  · obtain ⟨rfl, rfl⟩ := List.cons.inj heq
    exact he mid m rfl
  · exact h past mid m hs

theorem Fresh.suffix {log log' : List Event} (h : Fresh log) (hs : log' <:+ log) : Fresh log' :=
  fun past mid m hp => h past mid m (hp.trans hs)

/-- In a fresh history completing an operation in place is no other reason to
hold a copy. -/
theorem Fresh.copiesInPlace_eq {log : List Event} (h : Fresh log) (mid : ModuleID)
    (addr : Paddr) : copiesInPlace log mid addr = copies log mid addr := by
  induction log with
  | nil => rfl
  | cons e past ih =>
      have ih := ih (h.suffix (List.suffix_cons e past))
      cases e with
      | granted t m => exact ih
      | requested t m => exact ih
      | accepted mid' m => exact ih
      | snooped mid' m => simp only [copiesInPlace, copies, ih]
      | answered mid' m =>
          simp only [copiesInPlace, copies, ih]
          split
          · rename_i heq
            rw [heq.1, heq.2]
            exact (h past mid' m (List.suffix_refl _)).2.symm
          · rfl

/-! ### Transactions -/

/-- A message granted by the bus. -/
structure Exchange where
  clock : ℕ
  message : Mreq
  /-- The `DATA` messages handed to the bus before the next grant, oldest first. -/
  replies : List (ℕ × Mreq)
  /-- The history before the grant. -/
  past : List Event

/-- The granted messages of a history, newest first. -/
def exchanges : List Event → List Exchange
  | [] => []
  | .granted t m :: past => ⟨t, m, [], past⟩ :: exchanges past
  | .requested t m :: past =>
      match exchanges past with
      | x :: xs =>
          if m.msg = .DATA then { x with replies := x.replies ++ [(t, m)] } :: xs else x :: xs
      | [] => []
  | _ :: past => exchanges past

/-- The requests handed to the bus, oldest first. -/
def requests : List Event → List Mreq
  | [] => []
  | .requested _ m :: past => if m.msg = .DATA then requests past else requests past ++ [m]
  | _ :: past => requests past

/-- The requests granted by the bus, oldest first. -/
def grants : List Event → List Mreq
  | [] => []
  | .granted _ m :: past => if m.msg = .DATA then grants past else grants past ++ [m]
  | _ :: past => grants past

/-- The newest request granted, with the history before its grant. -/
def lastRequest : List Event → Option (Mreq × List Event)
  | [] => none
  | .granted _ m :: past => if m.msg = .DATA then lastRequest past else some (m, past)
  | _ :: past => lastRequest past

/-- The newest message granted. -/
def lastGranted : List Event → Option Mreq
  | [] => none
  | .granted _ m :: _ => some m
  | _ :: past => lastGranted past

theorem lastGranted_eq (log : List Event) :
    lastGranted log = (exchanges log).head?.map Exchange.message := by
  induction log with
  | nil => rfl
  | cons e past ih =>
      cases e with
      | granted t m => rfl
      | requested t m =>
          rcases hx : exchanges past with - | ⟨x, xs⟩
          · simp [lastGranted, exchanges, ih, hx]
          · by_cases hm : m.msg = .DATA <;> simp [lastGranted, exchanges, ih, hx, hm]
      | accepted mid m => exact ih
      | snooped mid m => exact ih
      | answered mid m => exact ih

theorem lastRequest_suffix {log past : List Event} {m : Mreq}
    (h : lastRequest log = some (m, past)) : past <:+ log := by
  induction log with
  | nil => cases h
  | cons e log ih =>
      cases e with
      | granted t m' =>
          by_cases hm : m'.msg = .DATA
          · exact (ih (by simpa [lastRequest, hm] using h)).trans (List.suffix_cons _ _)
          · obtain ⟨-, rfl⟩ : m' = m ∧ log = past := by simpa [lastRequest, hm] using h
            exact List.suffix_cons _ _
      | requested t m' => exact (ih h).trans (List.suffix_cons _ _)
      | accepted mid m' => exact (ih h).trans (List.suffix_cons _ _)
      | snooped mid m' => exact (ih h).trans (List.suffix_cons _ _)
      | answered mid m' => exact (ih h).trans (List.suffix_cons _ _)

/-- The request `m` was granted after the history `past`; and while it was the
newest message granted, a read did not change who has a copy of its line. -/
def TracedAt (log : List Event) (m : Mreq) (past : List Event) : Prop :=
  lastRequest log = some (m, past) ∧
    (m.msg = .GETS → ∀ now, past <:+ now → now <:+ log → lastGranted now = some m →
      ∀ mid, copies now mid m.addr = copies past mid m.addr)

section TracedAt

variable {log past : List Event} {m m' : Mreq} {e : Event} {t : ℕ} {mid : ModuleID}

theorem TracedAt.granted (hm : m.msg ≠ .DATA) : TracedAt (.granted t m :: past) m past := by
  refine ⟨by simp [lastRequest, hm], ?_⟩
  intro _ now hpast hnow _ mid
  rcases List.suffix_cons_iff.mp hnow with rfl | hnow
  · rfl
  · rw [hnow.eq_of_length (Nat.le_antisymm hnow.length_le hpast.length_le)]

theorem TracedAt.cons (h : TracedAt log m past)
    (hlast : lastRequest (e :: log) = lastRequest log)
    (hcopies : m.msg = .GETS → lastGranted (e :: log) = some m →
      lastGranted log = some m ∧
        ∀ mid, copies (e :: log) mid m.addr = copies log mid m.addr) :
    TracedAt (e :: log) m past := by
  refine ⟨hlast.trans h.1, ?_⟩
  intro hm now hpast hnow hg mid
  rcases List.suffix_cons_iff.mp hnow with rfl | hnow
  · obtain ⟨hg', hc⟩ := hcopies hm hg
    rw [hc]
    exact h.2 hm log (lastRequest_suffix h.1) (List.suffix_refl log) hg' mid
  · exact h.2 hm now hpast hnow hg mid

theorem TracedAt.accepted (h : TracedAt log m past) : TracedAt (.accepted mid m' :: log) m past :=
  h.cons rfl fun _ hg => ⟨hg, fun _ => rfl⟩

theorem TracedAt.answered (h : TracedAt log m past) : TracedAt (.answered mid m' :: log) m past :=
  h.cons rfl fun _ hg => ⟨hg, fun _ => rfl⟩

theorem TracedAt.requested (h : TracedAt log m past) : TracedAt (.requested t m' :: log) m past :=
  h.cons rfl fun _ hg => ⟨hg, fun _ => rfl⟩

/-- A cache snoops the newest message granted. -/
theorem TracedAt.snooped (h : TracedAt log m past) (hg : lastGranted log = some m') :
    TracedAt (.snooped mid m' :: log) m past := by
  refine h.cons rfl fun hm hg' => ?_
  have hg' : lastGranted log = some m := hg'
  obtain rfl : m' = m := Option.some.inj (hg.symm.trans hg')
  exact ⟨hg', fun _ => by simp [copies, hm]⟩

/-- Granting data does not concern requests. -/
theorem TracedAt.grantedData (h : TracedAt log m past) (hm' : m'.msg = .DATA) :
    TracedAt (.granted t m' :: log) m past := by
  refine h.cons (by simp [lastRequest, hm']) fun hm hg => ?_
  obtain rfl : m' = m := Option.some.inj hg
  rw [hm'] at hm
  cases hm

end TracedAt

/-! ### Operations -/

/-- The operations cache `mid` took from its processor, oldest first. -/
def accepts (mid : ModuleID) : List Event → List Mreq
  | [] => []
  | .accepted mid' m :: past => if mid' = mid then accepts mid past ++ [m] else accepts mid past
  | _ :: past => accepts mid past

/-- The answers cache `mid` gave its processor, oldest first. -/
def answers (mid : ModuleID) : List Event → List Mreq
  | [] => []
  | .answered mid' m :: past => if mid' = mid then answers mid past ++ [m] else answers mid past
  | _ :: past => answers mid past

end ProjectArchive.Coherence
