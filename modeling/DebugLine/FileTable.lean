import DebugLine.LineError

/-!
# File table

Files are numbered from one. The table shows its first entries and remembers the ones behind
them, so that a reader that goes back can later come forward again. An appended entry takes the
place of the first hidden one.
-/

namespace DebugLine

/-- A source file named by a line table. -/
structure FileEntry where
  path : String
  directoryIndex : UInt64
  modificationTime : UInt64
  length : UInt64
  deriving Repr, DecidableEq

/-- The visible entries, the hidden ones behind them, and the largest number that may be
visible. -/
structure FileTable where
  visible : Array FileEntry
  hidden : List FileEntry
  limit : Option Nat
  deriving Repr, DecidableEq

namespace FileTable

def empty (limit : Option Nat) : FileTable := ⟨#[], [], limit⟩

def count (t : FileTable) : Nat := t.visible.size

def isEmpty (t : FileTable) : Bool := t.count == 0

/-- All entries, visible and hidden. -/
def stored (t : FileTable) : List FileEntry := t.visible.toList ++ t.hidden

/-- The file with this number. -/
def get? (t : FileTable) (index : UInt64) : Option FileEntry :=
  if index = 0 then none else t.visible[index.toNat - 1]?

/-- Shows the first `n` stored entries, or all of them if there are fewer. -/
def setCount (t : FileTable) (n : Nat) : FileTable :=
  { t with visible := (t.stored.take n).toArray, hidden := t.stored.drop n }

/-- Hides the entries after the first `n`. -/
def truncate (t : FileTable) (n : Nat) : FileTable := t.setCount (min t.count n)

/-- The limit, where no further entry may become visible. -/
def reachedLimit? (t : FileTable) : Option Nat := t.limit.filter fun limit => limit ≤ t.count

/-- Makes `entry` the last visible one, in the place of the first hidden one. -/
def push (t : FileTable) (entry : FileEntry) : FileTable :=
  { t with visible := t.visible.push entry, hidden := t.hidden.tail }

@[simp] theorem stored_setCount (t : FileTable) (n : Nat) : (t.setCount n).stored = t.stored := by
  simp [stored, setCount]

@[simp] theorem visible_setCount (t : FileTable) (n : Nat) :
    (t.setCount n).visible.toList = t.stored.take n := by
  simp [setCount]

theorem count_le_length_stored (t : FileTable) : t.count ≤ t.stored.length := by
  simp [count, stored]

theorem count_setCount (t : FileTable) (n : Nat) :
    (t.setCount n).count = min n t.stored.length := by
  simp [count, setCount]

theorem count_push (t : FileTable) (entry : FileEntry) : (t.push entry).count = t.count + 1 :=
  Array.size_push entry

@[simp] theorem visible_push (t : FileTable) (entry : FileEntry) :
    (t.push entry).visible.toList = t.visible.toList ++ [entry] := by
  simp [push]

end FileTable
end DebugLine
