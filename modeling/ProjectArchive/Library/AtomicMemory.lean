/-
ProjectArchive/Library/AtomicMemory.lean

A memory that carries out one operation at a time.

Every process has a program, a list of operations, each of which reads a cell
and replaces what it has read.  A state of the memory is `serial` in an order of
turns when the processes, taking their turns in that order and each its own
operations one after the other, have left it: the cells are as they left them
and every process has seen what its operations read.  A system whose processes
see the same is sequentially consistent; when the order is the one in which
its operations were completed, it is linearizable.
-/
import Mathlib.Logic.Function.Basic

namespace AtomicMemory

variable {ι κ V : Type*} [DecidableEq ι] [DecidableEq κ]

/-- An operation reads a cell and replaces what it has read. -/
structure Operation (κ V : Type*) where
  cell : κ
  write : V → V

/-- The cells, and what every process has seen so far. -/
structure State (ι κ V : Type*) where
  cells : κ → V
  seen : ι → List V

variable (program : ι → List (Operation κ V)) (cells : κ → V)

/-- Process `i` carries out its next operation, if there is one. -/
def State.turn (s : State ι κ V) (i : ι) : State ι κ V :=
  match (program i)[(s.seen i).length]? with
  | some op =>
      { cells := Function.update s.cells op.cell (op.write (s.cells op.cell))
        seen := Function.update s.seen i (s.seen i ++ [s.cells op.cell]) }
  | none => s

/-- The processes take their turns in the given order. -/
def serial (order : List ι) : State ι κ V := order.foldl (State.turn program) ⟨cells, fun _ => []⟩

variable {program cells}

theorem State.turn_eq {s : State ι κ V} {i : ι} {op : Operation κ V}
    (h : (program i)[(s.seen i).length]? = some op) : s.turn program i =
      ⟨Function.update s.cells op.cell (op.write (s.cells op.cell)),
        Function.update s.seen i (s.seen i ++ [s.cells op.cell])⟩ := by
  unfold State.turn
  rw [h]

theorem serial_concat (order : List ι) (i : ι) :
    serial program cells (order ++ [i]) = (serial program cells order).turn program i := by
  unfold serial
  rw [List.foldl_append]
  rfl

end AtomicMemory
