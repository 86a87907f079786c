/-
ProjectArchive/Scheduler/ReadyQueue.lean

The ready queue of the scheduler: a linked list with a pointer to its last
node.

`queue_pop` leaves `tail` alone, so that it dangles once the queue is empty;
`Represents` asks for it only when there is a node.  Each of the three
operations is the operation on lists that its name says
(`queuePush_represents`, `queueOrderedPush_represents`, `queuePop_represents`),
and none of them follows a null pointer or runs in circles.  A run of operations
loses and duplicates nothing (`queue_sound`).
-/
import ProjectArchive.Library.LinkedList
import ProjectArchive.Library.Exec

namespace ProjectArchive.Scheduler

open LinkedList Exec
open scoped List

/-- A process, by its number. -/
abbrev Pid := ℕ

/-- What goes wrong in memory: a null pointer is followed, or a loop does not end. -/
inductive Fault
  | nullPointer | endless
  deriving DecidableEq, Repr

/-- `linked_queue`, and the nodes it lives in. -/
structure LinkedQueue where
  nodes : Heap Pid
  head : Option ℕ
  tail : Option ℕ

/-- `*a`. -/
def deref (nodes : Heap Pid) (a : ℕ) : Except Fault (Node Pid) :=
  match nodes[a]? with
  | none => .error .nullPointer
  | some nd => .ok nd

/-! ### The operations -/

/-- `queue_push`, with its return value. -/
def queuePush (queue : LinkedQueue) (process : Pid) : Except Fault (ℕ × LinkedQueue) :=
  let newNode := queue.nodes.length
  let nodes := queue.nodes ++ [⟨process, none⟩]
  match queue.head with
  | none => .ok (1, ⟨nodes, some newNode, some newNode⟩)
  | some _ =>
      match queue.tail with
      | none => .error .nullPointer
      | some tail => .ok (0, ⟨setNext nodes tail (some newNode), queue.head, some newNode⟩)

/-- `while (cursor->next != NULL && cursor->next->process->time_remaining > curr)`, for
at most `fuel` rounds. -/
def advance (timeRemaining : Pid → ℕ) (nodes : Heap Pid) (curr : ℕ) : ℕ → ℕ → Except Fault ℕ
  | 0, _ => .error .endless
  | fuel + 1, cursor => do
      let nd ← deref nodes cursor
      match nd.next with
      | none => return cursor
      | some next =>
          let following ← deref nodes next
          if timeRemaining following.value > curr then
            advance timeRemaining nodes curr fuel next
          else return cursor

/-- `queue_ordered_push`, with its return value. -/
def queueOrderedPush (timeRemaining : Pid → ℕ) (queue : LinkedQueue) (process : Pid) :
    Except Fault (ℕ × LinkedQueue) := do
  let newNode := queue.nodes.length
  let nodes := queue.nodes ++ [⟨process, none⟩]
  let curr := timeRemaining process
  match queue.head with
  | none => return (0, ⟨nodes, some newNode, some newNode⟩)
  | some head =>
      let first ← deref nodes head
      if timeRemaining first.value < curr then
        return (0, ⟨setNext nodes newNode (some head), some newNode, queue.tail⟩)
      else
        let cursor ← advance timeRemaining nodes curr nodes.length head
        let nd ← deref nodes cursor
        match nd.next with
        | none => return (0, ⟨setNext nodes cursor (some newNode), queue.head, some newNode⟩)
        | some next =>
            return (0, ⟨setNext (setNext nodes newNode (some next)) cursor (some newNode),
              queue.head, queue.tail⟩)

/-- `queue_pop`: the process, if any. -/
def queuePop (queue : LinkedQueue) : Except Fault (Option Pid × LinkedQueue) :=
  match queue.head with
  | none => .ok (none, queue)
  | some head => do
      let nd ← deref queue.nodes head
      return (some nd.value, { queue with head := nd.next })

/-- The processes in the queue. -/
def LinkedQueue.contents (queue : LinkedQueue) : List Pid :=
  walk queue.nodes queue.nodes.length queue.head

/-! ### What they are for -/

/-- Insertion after the processes with more time remaining. -/
def insertAfter (timeRemaining : Pid → ℕ) (process : Pid) : List Pid → List Pid
  | [] => [process]
  | q :: queue =>
      if timeRemaining q > timeRemaining process then
        q :: insertAfter timeRemaining process queue
      else process :: q :: queue

/-- Insertion by time remaining, where the first process is overtaken only if it has less. -/
def orderedInsert (timeRemaining : Pid → ℕ) (process : Pid) : List Pid → List Pid
  | [] => [process]
  | q :: queue =>
      if timeRemaining q < timeRemaining process then process :: q :: queue
      else q :: insertAfter timeRemaining process queue

/-- The process is inserted at one position. -/
theorem insertAfter_split (time : Pid → ℕ) (p : Pid) (l : List Pid) :
    ∃ before after, l = before ++ after ∧ insertAfter time p l = before ++ p :: after := by
  induction l with
  | nil => exact ⟨[], [], rfl, rfl⟩
  | cons q l ih =>
      simp only [insertAfter]
      split
      · obtain ⟨before, after, hl, hins⟩ := ih
        exact ⟨q :: before, after, by rw [hl]; rfl, by rw [hins]; rfl⟩
      · exact ⟨[], q :: l, rfl, rfl⟩

theorem orderedInsert_split (time : Pid → ℕ) (p : Pid) (l : List Pid) :
    ∃ before after, l = before ++ after ∧ orderedInsert time p l = before ++ p :: after := by
  cases l with
  | nil => exact ⟨[], [], rfl, rfl⟩
  | cons q l =>
      simp only [orderedInsert]
      split
      · exact ⟨[], q :: l, rfl, rfl⟩
      · obtain ⟨before, after, hl, hins⟩ := insertAfter_split time p l
        exact ⟨q :: before, after, by rw [hl]; rfl, by rw [hins]; rfl⟩

theorem insertAfter_perm (time : Pid → ℕ) (p : Pid) (l : List Pid) :
    (insertAfter time p l).Perm (p :: l) := by
  obtain ⟨before, after, rfl, hins⟩ := insertAfter_split time p l
  rw [hins]
  exact List.perm_middle

theorem orderedInsert_perm (time : Pid → ℕ) (p : Pid) (l : List Pid) :
    (orderedInsert time p l).Perm (p :: l) := by
  obtain ⟨before, after, rfl, hins⟩ := orderedInsert_split time p l
  rw [hins]
  exact List.perm_middle

/-- The nodes of the queue, from the head to `NULL`. -/
structure Linked (queue : LinkedQueue) (l : List ℕ) : Prop where
  segment : Segment queue.nodes queue.head l none
  nodup : l.Nodup
  /-- The tail is the last node, when there is one. -/
  tail : ∀ a, l.getLast? = some a → queue.tail = some a

/-- The queue holds some processes, in order. -/
def Represents (queue : LinkedQueue) (ps : List Pid) : Prop :=
  ∃ l, Linked queue l ∧ valuesAt queue.nodes l = ps

section Represents

variable {queue : LinkedQueue} {l : List ℕ} {ps : List Pid} {p : Pid}

theorem Represents.contents (h : Represents queue ps) : queue.contents = ps := by
  obtain ⟨l, hl, rfl⟩ := h
  exact walk_segment hl.segment (hl.segment.length_le hl.nodup)

theorem represents_null (nodes : Heap Pid) (tail : Option ℕ) : Represents ⟨nodes, none, tail⟩ [] :=
  ⟨[], ⟨rfl, .nil, fun _ h => by cases h⟩, rfl⟩

theorem represents_empty : Represents ⟨[], none, none⟩ [] := represents_null [] none

/-- The new node is none of the nodes of the queue. -/
theorem Linked.fresh (h : Linked queue l) : queue.nodes.length ∉ l := fun ha =>
  Nat.lt_irrefl _ (h.segment.lt_length ha)

theorem getElem?_new (queue : LinkedQueue) (nd : Node Pid) :
    (queue.nodes ++ [nd])[queue.nodes.length]? = some nd := by simp

/-- The head of a queue with a node. -/
theorem Linked.head (h : Linked queue l) (hne : l ≠ []) : ∃ a, queue.head = some a := by
  obtain ⟨a, l, rfl⟩ := List.exists_cons_of_ne_nil hne
  exact ⟨a, h.segment.1⟩

/-- A new node alone. -/
theorem Linked.single (queue : LinkedQueue) (p : Pid) :
    Linked ⟨queue.nodes ++ [⟨p, none⟩], some queue.nodes.length, some queue.nodes.length⟩
      [queue.nodes.length] :=
  ⟨⟨rfl, _, getElem?_new .., rfl⟩, by simp, by simp⟩

theorem valuesAt_new (queue : LinkedQueue) (nd : Node Pid) (l : List ℕ) :
    valuesAt (queue.nodes ++ [nd]) (queue.nodes.length :: l) =
      nd.value :: valuesAt (queue.nodes ++ [nd]) l :=
  valuesAt_cons (getElem?_new ..)

theorem queuePush_represents (h : Represents queue ps) (p : Pid) :
    Ends (queuePush queue p) fun r => Represents r.2 (ps ++ [p]) := by
  obtain ⟨l, hl, rfl⟩ := h
  rcases List.eq_nil_or_concat' l with rfl | ⟨l, a, rfl⟩
  · have hhead : queue.head = none := hl.segment
    rw [queuePush, hhead]
    exact .ok ⟨_, Linked.single queue p, valuesAt_new ..⟩
  · obtain ⟨b, hhead⟩ := hl.head (by simp)
    have htail : queue.tail = some a := hl.tail a (by simp)
    have hnew := hl.fresh
    have hs := hl.segment.alloc ⟨p, none⟩
    rw [queuePush, hhead, htail]
    refine .ok ⟨l ++ [a] ++ [queue.nodes.length], ⟨?_, ?_, by simp⟩, ?_⟩
    · rw [← hhead]
      refine hs.insert (m := none) rfl (getElem?_new ..) rfl (by simpa using hl.nodup) ?_
      rintro rfl
      exact hnew (by simp)
    · exact List.nodup_append.mpr ⟨hl.nodup, by simp, by
        rintro b hb c hc rfl
        obtain rfl := List.mem_singleton.mp hc
        exact hnew hb⟩
    · rw [valuesAt_setNext, valuesAt_append, valuesAt_alloc hl.segment, valuesAt_new]
      rfl

theorem queuePop_represents (h : Represents queue ps) :
    Ends (queuePop queue) fun r => r.1 = ps.head? ∧ Represents r.2 ps.tail := by
  obtain ⟨l, hl, rfl⟩ := h
  rcases l with - | ⟨a, l⟩
  · have hhead : queue.head = none := hl.segment
    rw [queuePop, hhead]
    exact .ok ⟨rfl, [], hl, rfl⟩
  · obtain ⟨hhead, nd, hnd, hs⟩ := hl.segment
    rw [queuePop, hhead]
    simp only [deref, hnd]
    rw [valuesAt_cons hnd]
    refine .ok ⟨rfl, l, ⟨hs, (List.nodup_cons.mp hl.nodup).2, ?_⟩, rfl⟩
    intro b hb
    apply hl.tail b
    rw [List.getLast?_cons, hb]
    rfl

/-- The cursor stops at the node after which the process belongs. -/
theorem advance_spec (time : Pid → ℕ) {nodes : Heap Pid} (p : Pid) {l : List ℕ} {a fuel : ℕ}
    (hs : Segment nodes (some a) (a :: l) none) (hfuel : l.length < fuel) :
    ∃ l₁ c l₂, a :: l = l₁ ++ [c] ++ l₂ ∧ advance time nodes (time p) fuel a = .ok c ∧
      valuesAt nodes [a] ++ insertAfter time p (valuesAt nodes l) =
        valuesAt nodes (l₁ ++ [c]) ++ p :: valuesAt nodes l₂ := by
  induction l generalizing a fuel with
  | nil =>
      obtain ⟨fuel, rfl⟩ : ∃ f, fuel = f + 1 := ⟨fuel - 1, by omega⟩
      obtain ⟨-, nd, hnd, hnext⟩ := hs
      have hnext : nd.next = none := hnext
      refine ⟨[], a, [], rfl, ?_, rfl⟩
      simp only [advance, deref, hnd, ok_bind, hnext]
      rfl
  | cons b l ih =>
      obtain ⟨fuel, rfl⟩ : ∃ f, fuel = f + 1 := ⟨fuel - 1, by omega⟩
      obtain ⟨-, nd, hnd, hb⟩ := hs
      have hnext : nd.next = some b := hb.1
      have hs : Segment nodes (some b) (b :: l) none := hnext ▸ hb
      obtain ⟨nd', hnd', -⟩ := hs.2
      by_cases hlt : time nd'.value > time p
      · -- the following process keeps its place
        obtain ⟨l₁, c, l₂, hl, hadv, hins⟩ := ih hs (Nat.lt_of_succ_lt_succ hfuel)
        refine ⟨a :: l₁, c, l₂, by rw [hl]; rfl, ?_, ?_⟩
        · simp only [advance, deref, hnd, hnd', ok_bind, hnext, if_pos hlt]
          exact hadv
        · rw [valuesAt_cons hnd'] at hins ⊢
          simp only [insertAfter, if_pos hlt, List.cons_append, valuesAt_cons hnd]
          simp only [List.cons_append] at hins
          rw [← hins]
          rfl
      · refine ⟨[], a, b :: l, rfl, ?_, ?_⟩
        · simp only [advance, deref, hnd, hnd', ok_bind, hnext, if_neg hlt]
          rfl
        · rw [valuesAt_cons hnd']
          simp only [insertAfter, if_neg hlt]
          rfl

theorem queueOrderedPush_represents (time : Pid → ℕ) (h : Represents queue ps) (p : Pid) :
    Ends (queueOrderedPush time queue p) fun r => Represents r.2 (orderedInsert time p ps) := by
  obtain ⟨l, hl, rfl⟩ := h
  rcases l with - | ⟨a, l⟩
  · have hhead : queue.head = none := hl.segment
    rw [queueOrderedPush]
    simp only [hhead]
    exact .ok ⟨_, Linked.single queue p, valuesAt_new ..⟩
  · have hhead := hl.segment.1
    obtain ⟨nd, hnd, -⟩ := hl.segment.2
    have hs := hl.segment.alloc ⟨p, none⟩
    have hnew := hl.fresh
    have hnd' : (queue.nodes ++ [⟨p, none⟩])[a]? = some nd := by
      rw [getElem?_alloc (hl.segment.lt_length (List.mem_cons_self ..)), hnd]
    have hvalues := valuesAt_alloc hl.segment ⟨p, none⟩
    rw [queueOrderedPush]
    simp only [hhead, deref, hnd', ok_bind]
    rw [valuesAt_cons hnd, orderedInsert]
    split
    · -- before the first node
      refine .ok ⟨queue.nodes.length :: a :: l, ⟨⟨rfl, _, getElem?_setNext_self (getElem?_new ..), ?_⟩,
        List.nodup_cons.mpr ⟨hnew, hl.nodup⟩, ?_⟩, ?_⟩
      · rw [← hhead]
        exact hs.setNext_of_notMem hnew _
      · intro b hb
        apply hl.tail b
        rw [List.getLast?_cons_cons] at hb
        exact hb
      · rw [valuesAt_setNext, valuesAt_new, hvalues, valuesAt_cons hnd]
    · -- after a node
      have hlen : l.length < (queue.nodes ++ [(⟨p, none⟩ : Node Pid)]).length := by
        have := hl.segment.length_le hl.nodup
        simp only [List.length_cons] at this
        simp only [List.length_append, List.length_cons, List.length_nil]
        omega
      obtain ⟨l₁, c, l₂, hsplit, hadv, hins⟩ := advance_spec time p (hhead ▸ hs) hlen
      have hnodup := hsplit ▸ hl.nodup
      have hne : c ≠ queue.nodes.length := by
        rintro rfl
        apply hnew
        rw [hsplit]
        simp
      rw [hsplit] at hs hnew
      obtain ⟨m, hfirst, hrest⟩ := segment_append.mp hs
      obtain ⟨-, -, -, ndc, hndc, hm⟩ := segment_append.mp hfirst
      have hm : ndc.next = m := hm
      have hnodup' : (l₁ ++ [c] ++ queue.nodes.length :: l₂).Nodup :=
        List.nodup_middle.mpr (List.nodup_cons.mpr ⟨hnew, hnodup⟩)
      have hins : valuesAt (queue.nodes ++ [⟨p, none⟩]) (l₁ ++ [c] ++ queue.nodes.length :: l₂) =
          nd.value :: insertAfter time p (valuesAt queue.nodes l) := by
        rw [valuesAt_append, valuesAt_new, ← hins, valuesAt_cons hnd']
        have htail := (List.cons.inj ((valuesAt_cons hnd').symm.trans
          (hvalues.trans (valuesAt_cons hnd)))).2
        rw [htail]
        rfl
      simp only [hadv, ok_bind, hndc, hm]
      rcases m with - | next
      · -- the last one
        obtain rfl : l₂ = [] := by
          rcases l₂ with - | ⟨b, l₂⟩
          · rfl
          · cases hrest.1
        refine .ok ⟨_, ⟨?_, hnodup', by simp⟩, by rw [valuesAt_setNext, hins]⟩
        rw [← hhead]
        exact hfirst.insert hrest (getElem?_new ..) rfl hnodup hne
      · refine .ok ⟨_, ⟨?_, hnodup', ?_⟩, by rw [valuesAt_setNext, valuesAt_setNext, hins]⟩
        · rw [← hhead]
          have hnew₁ : queue.nodes.length ∉ l₁ ++ [c] := fun h => hnew (List.mem_append_left _ h)
          have hnew₂ : queue.nodes.length ∉ l₂ := fun h => hnew (List.mem_append_right _ h)
          exact (hfirst.setNext_of_notMem hnew₁ _).insert (hrest.setNext_of_notMem hnew₂ _)
            (getElem?_setNext_self (getElem?_new ..)) rfl hnodup hne
        · intro b hb
          apply hl.tail b
          rcases l₂ with - | ⟨d, l₂⟩
          · cases hrest
          · rw [hsplit, ← hb, List.getLast?_append_cons, List.getLast?_append_cons,
              List.getLast?_cons_cons]

end Represents

/-! ### Runs -/

/-- An operation of the queue.  The time remaining is the one at its time. -/
inductive Operation
  | push (process : Pid)
  | orderedPush (timeRemaining : Pid → ℕ) (process : Pid)
  | pop

/-- The process that an operation adds. -/
def Operation.pushed : Operation → List Pid
  | .push process => [process]
  | .orderedPush _ process => [process]
  | .pop => []

/-- An operation, and the process it takes out of the queue, if any. -/
def LinkedQueue.apply (queue : LinkedQueue) : Operation → Except Fault (Option Pid × LinkedQueue)
  | .push process => do
      let (_, queue) ← queuePush queue process
      return (none, queue)
  | .orderedPush timeRemaining process => do
      let (_, queue) ← queueOrderedPush timeRemaining queue process
      return (none, queue)
  | .pop => queuePop queue

/-- Some operations one after the other, and the processes they take out. -/
def LinkedQueue.run (queue : LinkedQueue) : List Operation → Except Fault (List Pid × LinkedQueue)
  | [] => return ([], queue)
  | op :: ops => do
      let (process, queue) ← queue.apply op
      let (popped, queue) ← queue.run ops
      return (process.toList ++ popped, queue)

/-- The representation of a queue, and what each operation does to it. -/
structure Sound (queue : LinkedQueue) : Prop where
  /-- Following `next` from the head ends at the tail. -/
  linked : queue.head ≠ none → ∃ l tail, Segment queue.nodes queue.head (l ++ [tail]) none ∧
    (l ++ [tail]).Nodup ∧ queue.tail = some tail
  push : ∀ process, Ends (queuePush queue process) fun r =>
    r.2.contents = queue.contents ++ [process]
  orderedPush : ∀ timeRemaining process, Ends (queueOrderedPush timeRemaining queue process) fun r =>
    ∃ before after, queue.contents = before ++ after ∧ r.2.contents = before ++ process :: after
  pop : Ends (queuePop queue) fun r =>
    r.1 = queue.contents.head? ∧ r.2.contents = queue.contents.tail ∧
      (r.1 = none ↔ queue.head = none)

section Runs

variable {queue : LinkedQueue} {ps : List Pid}

theorem Represents.head_eq_none_iff (h : Represents queue ps) : queue.head = none ↔ ps = [] := by
  obtain ⟨l, hl, rfl⟩ := h
  rcases l with - | ⟨a, l⟩
  · exact iff_of_true hl.segment rfl
  · obtain ⟨hhead, nd, hnd, -⟩ := hl.segment
    rw [hhead, valuesAt_cons hnd]
    exact iff_of_false (Option.some_ne_none a) (List.cons_ne_nil _ _)

theorem Represents.sound (h : Represents queue ps) : Sound queue where
  linked := by
    intro hhead
    obtain ⟨l, hl, rfl⟩ := h
    rcases List.eq_nil_or_concat' l with rfl | ⟨l, a, rfl⟩
    · exact absurd hl.segment hhead
    · exact ⟨l, a, hl.segment, hl.nodup, hl.tail a (by simp)⟩
  push := by
    intro process
    refine (queuePush_represents h process).mono ?_
    intro r hr
    rw [hr.contents, h.contents]
  orderedPush := by
    intro timeRemaining process
    refine (queueOrderedPush_represents timeRemaining h process).mono ?_
    intro r hr
    rw [hr.contents, h.contents]
    exact orderedInsert_split timeRemaining process ps
  pop := by
    refine (queuePop_represents h).mono ?_
    rintro r ⟨hp, hr⟩
    rw [hr.contents, h.contents, h.head_eq_none_iff, hp, List.head?_eq_none_iff]
    exact ⟨rfl, rfl, Iff.rfl⟩

/-- One operation keeps the processes together. -/
theorem Represents.apply (h : Represents queue ps) (op : Operation) :
    Ends (queue.apply op) fun r =>
      ∃ ps', Represents r.2 ps' ∧ (op.pushed ++ ps).Perm (r.1.toList ++ ps') := by
  cases op with
  | push process =>
      refine Ends.bind (queuePush_represents h process) ?_
      intro r hr
      exact .ok ⟨_, hr, (List.perm_append_singleton process ps).symm⟩
  | orderedPush timeRemaining process =>
      refine Ends.bind (queueOrderedPush_represents timeRemaining h process) ?_
      intro r hr
      exact .ok ⟨_, hr, (orderedInsert_perm timeRemaining process ps).symm⟩
  | pop =>
      refine (queuePop_represents h).mono ?_
      rintro r ⟨hp, hr⟩
      refine ⟨_, hr, .of_eq ?_⟩
      rw [hp]
      cases ps <;> rfl

theorem Represents.run (h : Represents queue ps) (ops : List Operation) :
    Ends (queue.run ops) fun r =>
      ∃ ps', Represents r.2 ps' ∧ (ops.flatMap Operation.pushed ++ ps).Perm (r.1 ++ ps') := by
  induction ops generalizing queue ps with
  | nil => exact .ok ⟨ps, h, .refl _⟩
  | cons op ops ih =>
      refine Ends.bind (h.apply op) ?_
      rintro ⟨process, queue'⟩ ⟨ps', hr, hperm⟩
      refine Ends.bind (ih hr) ?_
      rintro ⟨popped, queue''⟩ ⟨ps'', hr', hperm'⟩
      refine .ok ⟨ps'', hr', ?_⟩
      have hperm' : (ops.flatMap Operation.pushed ++ ps').Perm (popped ++ ps'') := hperm'
      calc op.pushed ++ ops.flatMap Operation.pushed ++ ps
          _ ~ ops.flatMap Operation.pushed ++ (op.pushed ++ ps) := by
            rw [← List.append_assoc]
            exact List.perm_append_comm.append_right ps
          _ ~ ops.flatMap Operation.pushed ++ (process.toList ++ ps') := hperm.append_left _
          _ ~ process.toList ++ (ops.flatMap Operation.pushed ++ ps') := by
            rw [← List.append_assoc, ← List.append_assoc]
            exact List.perm_append_comm.append_right ps'
          _ ~ process.toList ++ (popped ++ ps'') := hperm'.append_left _
          _ ~ process.toList ++ popped ++ ps'' := .of_eq (List.append_assoc ..).symm

end Runs

/-- **The ready queue holds what has been pushed and not yet popped**, in a list
that ends at its tail, after any operations on an empty queue. -/
theorem queue_sound (nodes : Heap Pid) (tail : Option ℕ) (ops : List Operation) :
    Ends ((LinkedQueue.mk nodes none tail).run ops) fun r =>
      Sound r.2 ∧ (ops.flatMap Operation.pushed).Perm (r.1 ++ r.2.contents) := by
  refine ((represents_null nodes tail).run ops).mono ?_
  rintro ⟨popped, queue⟩ ⟨ps, hr, hperm⟩
  rw [List.append_nil] at hperm
  refine ⟨hr.sound, ?_⟩
  show _ ~ popped ++ queue.contents
  rw [hr.contents]
  exact hperm

/-- A pop empties the queue, and the stale tail is not followed. -/
example : (LinkedQueue.mk [] none none).run
    [.push 1, .pop, .orderedPush (fun p => p) 2, .orderedPush (fun p => p) 3, .push 4] =
      .ok ([1], ⟨[⟨1, none⟩, ⟨2, some 3⟩, ⟨3, some 1⟩, ⟨4, none⟩], some 2, some 3⟩) := rfl

end ProjectArchive.Scheduler
