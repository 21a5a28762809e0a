import Lockstep.Logged

/-! Blocks of ids, each handed out once and in order. -/
namespace Lockstep

/-- The name of an entity. -/
abbrev EntityId := Int32

/-- The ids from `start` up to `start + size`, of which the first `cursor` are
handed out. Every id of a block is a number that an `EntityId` can hold. -/
structure IdBlock where
  start : EntityId
  size : EntityId
  cursor : EntityId
  start_nonneg : 0 ≤ start
  fits : start.toInt + size.toInt ≤ Int32.maxValue.toInt
  cursor_nonneg : 0 ≤ cursor
  cursor_le_size : cursor ≤ size
deriving DecidableEq

namespace IdBlock

/-- Why no block can be made from a start, a size and a cursor. -/
inductive RangeError
  /-- The range is negative or leaves the id space. -/
  | invalidRange (start size : EntityId)
  | cursorOutOfRange (cursor size : EntityId)
deriving DecidableEq

def RangeError.message : RangeError → String
  | .invalidRange start size => s!"Invalid IdBlock range: start {start}, size {size}"
  | .cursorOutOfRange cursor size => s!"IdBlock cursor {cursor} out of range for size {size}"

/-- The refusal of a block with no id left. -/
structure Exhausted where
  start : EntityId
  size : EntityId
deriving DecidableEq

namespace Exhausted

def message (e : Exhausted) : String :=
  s!"IdBlock [{e.start}, {e.start} + {e.size}) is exhausted"

/-- What is said where an id was taken for granted. -/
def fatalMessage (e : Exhausted) : String :=
  "IdBlock exhausted, a new block must be requested before minting more ids: " ++
    s!"Exhausted \x7b start: {e.start}, size: {e.size} \x7d"

end Exhausted

/-- A block whose first `cursor` ids are handed out. The range is checked
before the cursor. -/
def ofParts (start size cursor : EntityId) : Except RangeError IdBlock :=
  if hr : 0 ≤ start ∧ 0 ≤ size ∧ start.toInt + size.toInt ≤ Int32.maxValue.toInt then
    if hc : 0 ≤ cursor ∧ cursor ≤ size then
      .ok ⟨start, size, cursor, hr.1, hr.2.2, hc.1, hc.2⟩
    else .error (.cursorOutOfRange cursor size)
  else .error (.invalidRange start size)

/-- A block of which no id is handed out. -/
def ofRange (start size : EntityId) : Except RangeError IdBlock := ofParts start size 0

/-- Half way into the ids, clear of the small ids of ordinary entities. -/
def globalStart : EntityId := Int32.maxValue / 2

def globalSize : EntityId := 1000000000

/-- The block that is never shared with ordinary entities. -/
def global : IdBlock where
  start := globalStart
  size := globalSize
  cursor := 0
  start_nonneg := by decide
  fits := by decide
  cursor_nonneg := by decide
  cursor_le_size := by decide

variable (b : IdBlock)

def stop : EntityId := b.start + b.size

def remaining : EntityId := b.size - b.cursor

def isExhausted : Bool := b.cursor = b.size

/-- The id is one of the block, handed out or not. -/
def contains (id : EntityId) : Bool := b.start ≤ id && id < b.stop

/-- Each range starts before the other stops. -/
def overlaps (a b : IdBlock) : Bool := a.start < b.stop && b.start < a.stop

theorem toInt_cursor_lt (h : b.cursor ≠ b.size) : b.cursor.toInt < b.size.toInt :=
  Int32.lt_iff_toInt_lt.1 (Int32.lt_of_le_of_ne b.cursor_le_size h)

theorem toInt_cursor_succ (h : b.cursor ≠ b.size) :
    (b.cursor + 1).toInt = b.cursor.toInt + 1 := by
  have hlt := b.toInt_cursor_lt h
  have hnn := Int32.le_iff_toInt_le.1 b.cursor_nonneg
  have hmax := Int32.toInt_lt b.size
  simp only [Int32.toInt_zero] at hnn
  rw [Int32.toInt_add]
  exact Int.bmod_eq_of_le (by simp; omega) (by simp; omega)

/-- The block with one more id handed out. -/
def advance (h : b.cursor ≠ b.size) : IdBlock where
  start := b.start
  size := b.size
  cursor := b.cursor + 1
  start_nonneg := b.start_nonneg
  fits := b.fits
  cursor_nonneg := by
    have hnn := Int32.le_iff_toInt_le.1 b.cursor_nonneg
    rw [Int32.le_iff_toInt_le, b.toInt_cursor_succ h]
    omega
  cursor_le_size := by
    rw [Int32.le_iff_toInt_le, b.toInt_cursor_succ h]
    exact b.toInt_cursor_lt h

/-- Hands out the next id, if one is left. -/
def draw : Logged (Except Exhausted EntityId × IdBlock) :=
  if h : b.cursor = b.size then do
    note (.blockExhausted b.start b.stop)
    return (.error ⟨b.start, b.size⟩, b)
  else
    return (.ok (b.start + b.cursor), b.advance h)

/-- Asks for `n` ids, one after the other. -/
def drawMany (n : Nat) : Logged (List (Except Exhausted EntityId) × IdBlock) :=
  Logged.feed (fun b _ => b.draw) (List.replicate n ()) b

end IdBlock

end Lockstep
