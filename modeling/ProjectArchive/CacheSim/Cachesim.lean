/-
ProjectArchive/CacheSim/Cachesim.lean

The set-associative cache simulator `cachesim.c`: its variables, its two LRU
functions, `cachesim_init` and `cachesim_access`.

The cache and the LRU stack are one block of memory each, with the rows of a set
next to each other.  The right end of the stack of a set is its most recently
used way.  A loop that is left by setting its counter past the end returns here.
-/
import ProjectArchive.Library.Block
import Mathlib.Algebra.Group.Nat.Defs
import Mathlib.Data.Nat.Log

namespace ProjectArchive.CacheSim

open Exec Memory

/-- `cache_row`. -/
structure CacheRow where
  valid : Bool
  tag : ℤ
  dirty : Bool
  deriving DecidableEq

/-- The variables of `cachesim.c`. -/
structure Sim where
  accesses : ℕ
  writeAccesses : ℕ
  readHits : ℕ
  writeHits : ℕ
  writebacks : ℕ
  cache : Block CacheRow
  lruStack : Block ℕ
  blockLength : ℕ
  indexLength : ℕ
  tagLength : ℤ
  waysCount : ℕ
  cacheCount : ℕ
  blockSize : ℕ

/-- `cachesim_init`.  `log(x) / log(2)`, cut off to an integer, is `Nat.log 2 x`. -/
def cachesimInit (blocksize cachesize ways : ℕ) : Sim :=
  let cacheLineCount := cachesize / blocksize / ways
  let blockLength := Nat.log 2 blocksize
  let indexLength := Nat.log 2 cacheLineCount
  { accesses := 0
    writeAccesses := 0
    readHits := 0
    writeHits := 0
    writebacks := 0
    cache := ⟨cacheLineCount * ways, fun _ => ⟨false, -1, false⟩⟩
    lruStack := ⟨cacheLineCount * ways, fun i => i % ways⟩
    blockLength := blockLength
    indexLength := indexLength
    tagLength := 32 - blockLength - indexLength
    waysCount := ways
    cacheCount := cacheLineCount
    blockSize := blocksize }

namespace Sim

/-! ### The LRU stack -/

/-- The loop of `update_cachesim_lru_access` that looks for the way, with `rounds`
rounds left at `j`. -/
def findLocation (lruStack : Block ℕ) (memLocation accessLocation : ℕ) :
    (rounds : ℕ) → (j : ℕ) → Except Fault ℤ
  | 0, _ => .ok (-1)
  | rounds + 1, j => do
      let way ← lruStack.load ((memLocation : ℤ) + j)
      if way = accessLocation then return j
      else findLocation lruStack memLocation accessLocation rounds (j + 1)

/-- `update_cachesim_lru_access`. -/
def updateCachesimLruAccess (s : Sim) (indexValue accessLocation : ℕ) : Except Fault Sim := do
  let memLocation := indexValue * s.waysCount
  let location ← findLocation s.lruStack memLocation accessLocation s.waysCount 0
  -- shift the array leftwards
  let lruStack ← shiftLeft (s.waysCount - 1 - location).toNat (memLocation + location) s.lruStack
  let lruStack ← lruStack.store ((memLocation : ℤ) + s.waysCount - 1) accessLocation
  return { s with lruStack := lruStack }

/-- `lru_stack_kickout`; the second argument of the source is not used. -/
def lruStackKickout (s : Sim) (indexValue : ℕ) : Except Fault (ℕ × Sim) := do
  let memLocation := indexValue * s.waysCount
  let returnVal ← s.lruStack.load memLocation
  let row ← s.cache.load ((memLocation : ℤ) + returnVal)
  let writebacks := if row.dirty then s.writebacks + 1 else s.writebacks
  let lruStack ← shiftLeft (s.waysCount - 1) memLocation s.lruStack
  let lruStack ← lruStack.store ((memLocation : ℤ) + s.waysCount - 1) returnVal
  return (returnVal, { s with writebacks := writebacks, lruStack := lruStack })

/-! ### An access -/

/-- `cache[memLocation] = row`. -/
def setRow (s : Sim) (memLocation : ℤ) (row : CacheRow) : Except Fault Sim := do
  let cache ← s.cache.store memLocation row
  return { s with cache := cache }

/-- A valid way has the tag. -/
def hitWay (s : Sim) (indexValue i : ℕ) (row : CacheRow) (write : Bool) : Except Fault Sim := do
  let s ←
    if write then
      setRow { s with writeHits := s.writeHits + 1 } ((indexValue * s.waysCount + i : ℕ) : ℤ)
        { row with dirty := true }
    else .ok { s with readHits := s.readHits + 1 }
  s.updateCachesimLruAccess indexValue i

/-- The way is empty. -/
def fillWay (s : Sim) (indexValue i : ℕ) (tagValue : ℤ) (write : Bool) : Except Fault Sim := do
  let s ← s.setRow ((indexValue * s.waysCount + i : ℕ) : ℤ) ⟨true, tagValue, write⟩
  s.updateCachesimLruAccess indexValue i

/-- The last way has been looked at, and the least recently used one is replaced. -/
def replaceWay (s : Sim) (indexValue i : ℕ) (tagValue : ℤ) : Except Fault Sim := do
  let memLocation : ℤ := (indexValue * s.waysCount + i : ℕ)
  let (way, s) ← s.lruStackKickout indexValue
  s.setRow (memLocation - i + way) ⟨true, tagValue, false⟩

/-- The loop of `cachesim_access`, with `rounds` rounds left at the way `i`. -/
def accessWays (indexValue : ℕ) (tagValue : ℤ) (write : Bool) :
    (rounds : ℕ) → (i : ℕ) → Sim → Except Fault Sim
  | 0, _, s => .ok s
  | rounds + 1, i, s => do
      let row ← s.cache.load ((indexValue * s.waysCount + i : ℕ) : ℤ)
      if row.tag = tagValue ∧ row.valid then s.hitWay indexValue i row write
      else if !row.valid then s.fillWay indexValue i tagValue write
      else if i = s.waysCount - 1 then
        let s ← s.replaceWay indexValue i tagValue
        accessWays indexValue tagValue write rounds (i + 1) s
      else accessWays indexValue tagValue write rounds (i + 1) s

/-- `tag_value`, as an `int`. -/
def tagValue (s : Sim) (physicalAddr : BitVec 64) : ℤ :=
  ((physicalAddr >>> (s.blockLength + s.indexLength)).setWidth 32).toInt

/-- `index_value`. -/
def indexValue (s : Sim) (physicalAddr : BitVec 64) : ℕ :=
  (physicalAddr >>> s.blockLength).toNat &&& (1 <<< s.indexLength - 1)

/-- `cachesim_access`, for a write or a read. -/
def cachesimAccess (s : Sim) (physicalAddr : BitVec 64) (write : Bool) : Except Fault Sim :=
  let tagValue := s.tagValue physicalAddr
  let indexValue := s.indexValue physicalAddr
  let s := { s with
    accesses := s.accesses + 1
    writeAccesses := if write then s.writeAccesses + 1 else s.writeAccesses }
  accessWays indexValue tagValue write s.waysCount 0 s

/-- `cachesim_access` for every line of a trace. -/
def run (s : Sim) : List (BitVec 64 × Bool) → Except Fault Sim
  | [] => .ok s
  | (physicalAddr, write) :: trace => do
      let s ← s.cachesimAccess physicalAddr write
      s.run trace

theorem run_append (s : Sim) (trace trace' : List (BitVec 64 × Bool)) :
    s.run (trace ++ trace') = s.run trace >>= fun s => s.run trace' := by
  induction trace generalizing s with
  | nil => rfl
  | cons x trace ih =>
      rw [List.cons_append, run, run]
      rcases s.cachesimAccess x.1 x.2 with fault | s'
      · rfl
      · exact ih s'

end Sim

end ProjectArchive.CacheSim
