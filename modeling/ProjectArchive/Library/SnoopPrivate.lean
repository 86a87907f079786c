/-
ProjectArchive/Library/SnoopPrivate.lean

A line that only one cache uses.

All that matters of the past of such a line is whether its processor has
touched it and whether it has stored to it (`Touch`).  `Table.Private` says
that a protocol table, restricted to what can happen to such a line, is driven
by that: `st` maps every `Touch` to the state of the line between two
operations.

`tally` counts the operations of a history at which something happens that
depends only on the `Touch` of the line; the counts of first operations and of
upgrades have closed forms.  Histories are newest first.
-/
import ProjectArchive.Library.SnoopLine
import Mathlib.Data.Finset.Card
import Mathlib.Data.List.Basic

namespace SnoopLine

/-! ### What has been done to a line -/

/-- What a processor has done to a line. -/
inductive Touch
  | untouched | loaded | stored
  deriving DecidableEq, Repr

/-- One more operation. -/
def Touch.access : Touch → Access → Touch
  | .stored, _ => .stored
  | _, .write => .stored
  | _, .read => .loaded

/-- What the operations of a history, newest first, have done to their line. -/
def touch : List Access → Touch
  | [] => .untouched
  | op :: past => (touch past).access op

/-- The operation is the first store to a line that was loaded before. -/
def Touch.upgrades (t : Touch) (op : Access) : Bool := t = .loaded ∧ op = .write

theorem touch_eq_untouched {ops : List Access} : touch ops = .untouched ↔ ops = [] := by
  rcases ops with - | ⟨op, past⟩
  · simp [touch]
  · cases e : touch past <;> cases op <;> simp [touch, e, Touch.access]

theorem touch_eq_loaded {ops : List Access} :
    touch ops = .loaded ↔ ops ≠ [] ∧ .write ∉ ops := by
  induction ops with
  | nil => simp [touch]
  | cons op past ih =>
      rcases eq_or_ne past [] with rfl | hpast
      · cases op <;> simp [touch, Touch.access]
      · have hne : touch past ≠ .untouched := fun e => hpast (touch_eq_untouched.mp e)
        cases op <;> cases e : touch past <;> simp_all [touch, Touch.access]

/-- A line that was first loaded, and later stored to. -/
def Upgraded (ops : List Access) : Prop := ops.getLast? = some .read ∧ .write ∈ ops

instance (ops : List Access) : Decidable (Upgraded ops) := inferInstanceAs (Decidable (_ ∧ _))

theorem Upgraded.cons_iff {op : Access} {past : List Access} :
    Upgraded (op :: past) ↔ Upgraded past ∨ (touch past).upgrades op = true := by
  rcases eq_or_ne past [] with rfl | hpast
  · cases op <;> simp [Upgraded, touch, Touch.upgrades]
  · have hlast : (op :: past).getLast? = past.getLast? := by
      rw [List.getLast?_cons, List.getLast?_eq_some_getLast hpast]
      simp
    simp only [Upgraded, hlast, List.mem_cons, Touch.upgrades, touch_eq_loaded, decide_eq_true_eq]
    constructor
    · rintro ⟨hr, hw⟩
      by_cases hmem : .write ∈ past
      · exact Or.inl ⟨hr, hmem⟩
      · rcases hw with rfl | hw
        · exact Or.inr ⟨⟨hpast, hmem⟩, rfl⟩
        · exact absurd hw hmem
    · rintro (⟨hr, hw⟩ | ⟨⟨-, hmem⟩, rfl⟩)
      · exact ⟨hr, Or.inr hw⟩
      · refine ⟨?_, Or.inl rfl⟩
        -- without a store every operation is a load
        have hlast := List.getLast_mem hpast
        rw [List.getLast?_eq_some_getLast hpast]
        cases e : past.getLast hpast with
        | read => rfl
        | write => exact absurd (e ▸ hlast) hmem

theorem Upgraded.not_upgrades {op : Access} {past : List Access} (h : Upgraded past) :
    (touch past).upgrades op = false := by
  have : touch past ≠ .loaded := fun e => (touch_eq_loaded.mp e).2 h.2
  simp [Touch.upgrades, this]

/-! ### Private tables -/

variable {σ : Type*}

/-- Between two operations the state of a line that only one cache uses is
given by what its processor has done to it, and no reply and no shared line
comes from anywhere. -/
structure Table.Private (T : Table σ) (st : Touch → σ) : Prop where
  untouched : st .untouched = T.init
  waits : ∀ t, T.waits (st t) = none
  -- a cache that has not touched the line
  init_observe : ∀ q, T.observe T.init q = T.init
  init_supplies : T.supplies T.init = false
  init_asserts : ∀ q, T.asserts T.init q = false
  -- the cache that uses the line
  hit : ∀ t op, (T.request (st t) op).2 = none → (T.request (st t) op).1 = st (t.access op)
  miss_waits : ∀ t op q, (T.request (st t) op).2 = some q →
    T.waits (T.request (st t) op).1 = some q
  miss_observe : ∀ t op q, (T.request (st t) op).2 = some q →
    T.observe (T.request (st t) op).1 q = (T.request (st t) op).1
  miss_supplies : ∀ t op q, (T.request (st t) op).2 = some q →
    T.supplies (T.request (st t) op).1 = false
  miss_asserts : ∀ t op q, (T.request (st t) op).2 = some q →
    T.asserts (T.request (st t) op).1 q = false
  miss_fill : ∀ t op q, (T.request (st t) op).2 = some q →
    T.fill (T.request (st t) op).1 false = st (t.access op)

/-- A state of the line after a history of operations of its only user. -/
inductive PrivateState (T : Table σ) (st : Touch → σ) : σ → List Access → Prop
  /-- The newest operation is completed. -/
  | stable (ops : List Access) : PrivateState T st (st (touch ops)) ops
  /-- The newest operation waits for data. -/
  | waiting (op q : Access) (past : List Access) : (T.request (st (touch past)) op).2 = some q →
      PrivateState T st (T.request (st (touch past)) op).1 (op :: past)

section PrivateState

variable {T : Table σ} {st : Touch → σ} {x : σ} {ops : List Access} {op q : Access}

theorem PrivateState.init (hT : T.Private st) : PrivateState T st T.init [] :=
  hT.untouched ▸ .stable []

/-- Between two operations the history gives the state. -/
theorem PrivateState.eq_of_waits (hT : T.Private st) (h : PrivateState T st x ops)
    (hw : T.waits x = none) : x = st (touch ops) := by
  cases h with
  | stable => rfl
  | waiting op q past hq =>
      rw [hT.miss_waits _ _ _ hq] at hw
      cases hw

theorem PrivateState.hit (hT : T.Private st) (h : PrivateState T st x ops)
    (hw : T.waits x = none) (hhit : (T.request x op).2 = none) :
    PrivateState T st (T.request x op).1 (op :: ops) := by
  obtain rfl := h.eq_of_waits hT hw
  rw [hT.hit _ _ hhit]
  exact .stable (op :: ops)

theorem PrivateState.miss (hT : T.Private st) (h : PrivateState T st x ops)
    (hw : T.waits x = none) (hmiss : (T.request x op).2 = some q) :
    PrivateState T st (T.request x op).1 (op :: ops) := by
  obtain rfl := h.eq_of_waits hT hw
  exact .waiting op q ops hmiss

theorem PrivateState.ne_nil (hT : T.Private st) (h : PrivateState T st x ops)
    (hw : T.waits x = some q) : ops ≠ [] := by
  cases h with
  | stable =>
      rw [hT.waits] at hw
      cases hw
  | waiting op q' past _ => simp

theorem PrivateState.fill (hT : T.Private st) (h : PrivateState T st x ops)
    (hw : T.waits x = some q) : PrivateState T st (T.fill x false) ops := by
  cases h with
  | stable =>
      rw [hT.waits] at hw
      cases hw
  | waiting op q' past hq =>
      rw [hT.miss_fill _ _ _ hq]
      exact .stable (op :: past)

/-- The user of the line does not react to its own request. -/
theorem PrivateState.observe_own (hT : T.Private st) (h : PrivateState T st x ops)
    (hw : T.waits x = some q) :
    T.observe x q = x ∧ T.supplies x = false ∧ T.asserts x q = false := by
  cases h with
  | stable =>
      rw [hT.waits] at hw
      cases hw
  | waiting op q' past hq =>
      obtain rfl : q' = q := Option.some.inj ((hT.miss_waits _ _ _ hq).symm.trans hw)
      exact ⟨hT.miss_observe _ _ _ hq, hT.miss_supplies _ _ _ hq, hT.miss_asserts _ _ _ hq⟩

/-- Nobody else reacts to a request for the line. -/
theorem PrivateState.observe_other (hT : T.Private st) (h : PrivateState T st x []) (q : Access) :
    T.observe x q = x ∧ T.supplies x = false ∧ T.asserts x q = false := by
  have hx : x = T.init := by
    rcases e : T.waits x with - | q'
    · exact (h.eq_of_waits hT e).trans hT.untouched
    · exact absurd rfl (h.ne_nil hT e)
  rw [hx]
  exact ⟨hT.init_observe q, hT.init_supplies, hT.init_asserts q⟩

end PrivateState

/-- The operation misses. -/
def Table.misses (T : Table σ) (st : Touch → σ) (t : Touch) (op : Access) : Bool :=
  (T.request (st t) op).2.isSome

/-! ### Tallies -/

variable {α : Type*} [DecidableEq α]

/-- The operations of a history on one line. -/
def opsAt (a : α) (l : List (α × Access)) : List Access :=
  (l.filter fun x => x.1 = a).map Prod.snd

/-- The operations of a history at which `f` happens. -/
def tally (f : Touch → Access → Bool) : List (α × Access) → ℕ
  | [] => 0
  | x :: past => tally f past + if f (touch (opsAt x.1 past)) x.2 then 1 else 0

@[simp] theorem opsAt_nil (a : α) : opsAt a [] = [] := rfl

theorem opsAt_cons_self (a : α) (op : Access) (past : List (α × Access)) :
    opsAt a ((a, op) :: past) = op :: opsAt a past := by
  simp [opsAt]

theorem opsAt_cons_ne {a b : α} (h : a ≠ b) (op : Access) (past : List (α × Access)) :
    opsAt a ((b, op) :: past) = opsAt a past := by
  simp [opsAt, h.symm]

theorem opsAt_eq_nil {a : α} {l : List (α × Access)} :
    opsAt a l = [] ↔ a ∉ l.map Prod.fst := by
  simp only [opsAt, List.map_eq_nil_iff, List.filter_eq_nil_iff, decide_eq_true_eq, List.mem_map]
  constructor
  · rintro h ⟨x, hx, hxa⟩
    exact h x hx hxa
  · intro h x hx hxa
    exact h ⟨x, hx, hxa⟩

theorem tally_congr {f g : Touch → Access → Bool} (h : ∀ t op, f t op = g t op)
    (l : List (α × Access)) : tally f l = tally g l := by
  rw [show f = g from funext fun t => funext fun op => h t op]

/-- Tallies of things that do not happen at the same operation add up. -/
theorem tally_or {f g : Touch → Access → Bool} (h : ∀ t op, ¬ (f t op = true ∧ g t op = true))
    (l : List (α × Access)) :
    tally (fun t op => f t op || g t op) l = tally f l + tally g l := by
  induction l with
  | nil => rfl
  | cons x past ih =>
      have hx := h (touch (opsAt x.1 past)) x.2
      simp only [tally, ih, Bool.or_eq_true]
      by_cases e : f (touch (opsAt x.1 past)) x.2 = true
      · have e' : ¬ g (touch (opsAt x.1 past)) x.2 = true := fun e' => hx ⟨e, e'⟩
        simp only [e, e', or_false, if_true, Bool.false_eq_true, if_false]
        omega
      · simp only [e, false_or, Bool.false_eq_true, if_false]
        omega

/-- First operations are counted by the lines. -/
theorem tally_untouched (l : List (α × Access)) :
    tally (fun t _ => t = .untouched) l = (l.map Prod.fst).toFinset.card := by
  induction l with
  | nil => rfl
  | cons x past ih =>
      by_cases hx : x.1 ∈ past.map Prod.fst
      · have hne : touch (opsAt x.1 past) ≠ .untouched := fun e =>
          opsAt_eq_nil.mp (touch_eq_untouched.mp e) hx
        rw [tally, ih, List.map_cons, List.toFinset_cons,
          Finset.insert_eq_of_mem (List.mem_toFinset.mpr hx)]
        simp [hne]
      · have heq : touch (opsAt x.1 past) = .untouched :=
          touch_eq_untouched.mpr (opsAt_eq_nil.mpr hx)
        rw [tally, ih, List.map_cons, List.toFinset_cons,
          Finset.card_insert_of_notMem (fun e => hx (List.mem_toFinset.mp e))]
        simp [heq]

/-- The lines of a history that were first loaded, and later stored to. -/
def upgradedLines (l : List (α × Access)) : Finset α :=
  (l.map Prod.fst).toFinset.filter fun a => Upgraded (opsAt a l)

theorem mem_upgradedLines {a : α} {l : List (α × Access)} :
    a ∈ upgradedLines l ↔ Upgraded (opsAt a l) := by
  simp only [upgradedLines, Finset.mem_filter, List.mem_toFinset, and_iff_right_iff_imp]
  intro h
  by_contra hmem
  rw [opsAt_eq_nil.mpr hmem] at h
  exact absurd h.2 (List.not_mem_nil)

/-- Upgrades are counted by the lines that were first loaded, and later stored to. -/
theorem tally_upgrades (l : List (α × Access)) :
    tally Touch.upgrades l = (upgradedLines l).card := by
  induction l with
  | nil => rfl
  | cons x past ih =>
      obtain ⟨b, op⟩ := x
      -- only the line of the newest operation can have changed
      have hmem : ∀ a, a ∈ upgradedLines ((b, op) :: past) ↔
          a ∈ upgradedLines past ∨ (a = b ∧ (touch (opsAt b past)).upgrades op = true) := by
        intro a
        rw [mem_upgradedLines, mem_upgradedLines]
        rcases eq_or_ne a b with rfl | hab
        · rw [opsAt_cons_self, Upgraded.cons_iff]
          simp
        · rw [opsAt_cons_ne hab]
          simp [hab]
      rw [tally, ih]
      cases e : (touch (opsAt b past)).upgrades op with
      | false =>
          have : upgradedLines ((b, op) :: past) = upgradedLines past := by
            ext a
            rw [hmem, e]
            simp
          rw [this]
          simp
      | true =>
          have hb : b ∉ upgradedLines past := by
            intro hb
            rw [(mem_upgradedLines.mp hb).not_upgrades] at e
            cases e
          have : upgradedLines ((b, op) :: past) = insert b (upgradedLines past) := by
            ext a
            rw [hmem, e, Finset.mem_insert]
            simp [or_comm]
          rw [this, Finset.card_insert_of_notMem hb]
          simp

end SnoopLine
