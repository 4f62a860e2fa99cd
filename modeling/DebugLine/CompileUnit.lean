import DebugLine.ByteOrder

/-!
# Compile units

The attributes of a compile unit that locate its line program and say how to read it.
-/

namespace DebugLine

structure CompileUnit where
  /-- The section offset of the line program. -/
  stmtList : Option Nat
  /-- The directory that relative directories start from. -/
  compDir : Option String
  /-- The number of bytes of an address. -/
  addressSize : UInt8
  byteOrder : ByteOrder
  deriving Repr, DecidableEq

/-- The compilation directory, empty where the unit has none. -/
def CompileUnit.directory (u : CompileUnit) : String := u.compDir.getD ""

end DebugLine
