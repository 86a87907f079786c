/-
ProjectArchive/Scheduler/Process.lean

The table of the processes: for every process, the initial `time_remaining` and
the operations.  The operations alternate and begin and end with `OP_CPU`, as
the simulator asks of them, and `time_remaining` is the length of the first
burst.
-/
import ProjectArchive.Scheduler.Timers

namespace ProjectArchive.Scheduler

namespace OsSim

/-! ### Operations -/

/-- The operations of a process in the table: they alternate, and the first and the last are
`OP_CPU`. -/
inductive Program : List Op → Prop
  | last (time time' : ℕ) : Program [⟨.cpu, time⟩, ⟨.terminate, time'⟩]
  | burst (time time' : ℕ) {ops : List Op} (h : Program ops) :
      Program (⟨.cpu, time⟩ :: ⟨.io, time'⟩ :: ops)

/-! ### The table -/

def pid0_ops : List Op :=
  [⟨.cpu, 2⟩, ⟨.io, 2⟩, ⟨.cpu, 3⟩, ⟨.io, 5⟩, ⟨.cpu, 1⟩, ⟨.io, 4⟩, ⟨.cpu, 2⟩, ⟨.io, 2⟩, ⟨.cpu, 3⟩,
    ⟨.io, 5⟩, ⟨.cpu, 1⟩, ⟨.io, 4⟩, ⟨.cpu, 2⟩, ⟨.io, 2⟩, ⟨.cpu, 3⟩, ⟨.io, 5⟩, ⟨.cpu, 1⟩, ⟨.io, 4⟩,
    ⟨.cpu, 2⟩, ⟨.io, 5⟩, ⟨.cpu, 1⟩, ⟨.io, 4⟩, ⟨.cpu, 2⟩, ⟨.io, 2⟩, ⟨.cpu, 3⟩, ⟨.io, 5⟩, ⟨.cpu, 1⟩,
    ⟨.io, 4⟩, ⟨.cpu, 2⟩, ⟨.terminate, 0⟩]

def pid1_ops : List Op :=
  [⟨.cpu, 3⟩, ⟨.io, 4⟩, ⟨.cpu, 2⟩, ⟨.io, 6⟩, ⟨.cpu, 1⟩, ⟨.io, 3⟩, ⟨.cpu, 4⟩, ⟨.io, 4⟩, ⟨.cpu, 2⟩,
    ⟨.io, 6⟩, ⟨.cpu, 1⟩, ⟨.io, 3⟩, ⟨.cpu, 4⟩, ⟨.io, 4⟩, ⟨.cpu, 2⟩, ⟨.io, 6⟩, ⟨.cpu, 1⟩, ⟨.io, 3⟩,
    ⟨.cpu, 4⟩, ⟨.io, 3⟩, ⟨.cpu, 4⟩, ⟨.io, 4⟩, ⟨.cpu, 2⟩, ⟨.io, 6⟩, ⟨.cpu, 1⟩, ⟨.io, 3⟩, ⟨.cpu, 4⟩,
    ⟨.terminate, 0⟩]

def pid2_ops : List Op :=
  [⟨.cpu, 1⟩, ⟨.io, 4⟩, ⟨.cpu, 2⟩, ⟨.io, 5⟩, ⟨.cpu, 1⟩, ⟨.io, 3⟩, ⟨.cpu, 3⟩, ⟨.io, 4⟩, ⟨.cpu, 2⟩,
    ⟨.io, 5⟩, ⟨.cpu, 1⟩, ⟨.io, 3⟩, ⟨.cpu, 3⟩, ⟨.io, 4⟩, ⟨.cpu, 2⟩, ⟨.io, 5⟩, ⟨.cpu, 1⟩, ⟨.io, 3⟩,
    ⟨.cpu, 3⟩, ⟨.io, 4⟩, ⟨.cpu, 2⟩, ⟨.io, 5⟩, ⟨.cpu, 1⟩, ⟨.io, 3⟩, ⟨.cpu, 3⟩, ⟨.terminate, 0⟩]

def pid3_ops : List Op :=
  [⟨.cpu, 9⟩, ⟨.io, 1⟩, ⟨.cpu, 6⟩, ⟨.io, 1⟩, ⟨.cpu, 8⟩, ⟨.io, 1⟩, ⟨.cpu, 7⟩, ⟨.io, 1⟩, ⟨.cpu, 6⟩,
    ⟨.io, 1⟩, ⟨.cpu, 8⟩, ⟨.io, 1⟩, ⟨.cpu, 7⟩, ⟨.io, 1⟩, ⟨.cpu, 6⟩, ⟨.io, 1⟩, ⟨.cpu, 8⟩, ⟨.io, 1⟩,
    ⟨.cpu, 8⟩, ⟨.terminate, 0⟩]

def pid4_ops : List Op :=
  [⟨.cpu, 10⟩, ⟨.io, 1⟩, ⟨.cpu, 14⟩, ⟨.io, 1⟩, ⟨.cpu, 7⟩, ⟨.io, 2⟩, ⟨.cpu, 11⟩, ⟨.io, 1⟩,
    ⟨.cpu, 14⟩, ⟨.io, 1⟩, ⟨.cpu, 7⟩, ⟨.io, 2⟩, ⟨.cpu, 11⟩, ⟨.io, 1⟩, ⟨.cpu, 14⟩, ⟨.io, 1⟩,
    ⟨.cpu, 7⟩, ⟨.io, 2⟩, ⟨.cpu, 11⟩, ⟨.terminate, 0⟩]

def pid5_ops : List Op :=
  [⟨.cpu, 9⟩, ⟨.io, 1⟩, ⟨.cpu, 10⟩, ⟨.io, 2⟩, ⟨.cpu, 15⟩, ⟨.io, 1⟩, ⟨.cpu, 8⟩, ⟨.io, 1⟩,
    ⟨.cpu, 10⟩, ⟨.io, 2⟩, ⟨.cpu, 15⟩, ⟨.io, 1⟩, ⟨.cpu, 8⟩, ⟨.io, 1⟩, ⟨.cpu, 10⟩, ⟨.io, 2⟩,
    ⟨.cpu, 15⟩, ⟨.io, 1⟩, ⟨.cpu, 8⟩, ⟨.terminate, 0⟩]

def pid6_ops : List Op :=
  [⟨.cpu, 6⟩, ⟨.io, 3⟩, ⟨.cpu, 9⟩, ⟨.io, 1⟩, ⟨.cpu, 14⟩, ⟨.io, 1⟩, ⟨.cpu, 11⟩, ⟨.io, 3⟩, ⟨.cpu, 9⟩,
    ⟨.io, 1⟩, ⟨.cpu, 14⟩, ⟨.io, 1⟩, ⟨.cpu, 11⟩, ⟨.io, 3⟩, ⟨.cpu, 9⟩, ⟨.io, 1⟩, ⟨.cpu, 14⟩,
    ⟨.io, 1⟩, ⟨.cpu, 11⟩, ⟨.terminate, 0⟩]

def pid7_ops : List Op :=
  [⟨.cpu, 6⟩, ⟨.io, 3⟩, ⟨.cpu, 12⟩, ⟨.io, 3⟩, ⟨.cpu, 7⟩, ⟨.io, 1⟩, ⟨.cpu, 9⟩, ⟨.io, 3⟩, ⟨.cpu, 12⟩,
    ⟨.io, 3⟩, ⟨.cpu, 7⟩, ⟨.io, 1⟩, ⟨.cpu, 9⟩, ⟨.io, 3⟩, ⟨.cpu, 12⟩, ⟨.io, 3⟩, ⟨.cpu, 7⟩, ⟨.io, 1⟩,
    ⟨.cpu, 9⟩, ⟨.terminate, 0⟩]

/-- `time_remaining` and `pc`. -/
def processes : List (ℕ × List Op) :=
  [(2, pid0_ops), (3, pid1_ops), (1, pid2_ops), (9, pid3_ops),
    (10, pid4_ops), (9, pid5_ops), (6, pid6_ops), (6, pid7_ops)]

/-- The operations of a process before it is created. -/
def operations (process : Pid) : List Op := (processes[process]?.map Prod.snd).getD []

/-- `time_remaining` before the process is created. -/
def timeRemaining (process : Pid) : ℕ := (processes[process]?.map Prod.fst).getD 0

/-- **The operations of every process are as the simulator asks**, and `time_remaining` is the
length of the first burst. -/
theorem processes_program : ∀ r ∈ processes, Program r.2 ∧ r.1 = pcTime r.2 := by
  simp only [processes, List.forall_mem_cons]
  refine ⟨?_, ?_, ?_, ?_, ?_, ?_, ?_, ?_, fun r hr => absurd hr List.not_mem_nil⟩
  all_goals exact ⟨by repeat constructor, rfl⟩

theorem operations_program (p : Pid) (hp : p < processes.length) : Program (operations p) := by
  have hmem := processes_program _ (List.getElem_mem hp)
  rw [operations, List.getElem?_eq_getElem hp]
  exact hmem.1

end OsSim

end ProjectArchive.Scheduler
