import DebugLine.Machine

/-!
# Saved positions

A position is the offset, the number of visible files and the registers. Going back to one hides
the files defined since, and going forward to one shows them again.
-/

namespace DebugLine

structure Position where
  offset : Nat
  fileCount : Nat
  registers : Row
  deriving Repr, DecidableEq

namespace Machine

/-- Where the machine stands. -/
def checkpoint (m : Machine) : Position := ⟨m.cursor.offset, m.files.count, m.registers⟩

/-- The machine at a position that it had before. A failure stays. -/
def restored (m : Machine) (p : Position) : Machine :=
  { m with
    cursor := m.cursor.seek p.offset m.header.endOffset
    files := m.files.setCount p.fileCount
    registers := p.registers }

end Machine
end DebugLine
