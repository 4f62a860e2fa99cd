import DebugLine.Text.Hexadecimal

/-!
# Reasons why a line table cannot be decoded

Each reason carries the section offset at which it was noticed and the numbers that its message
shows. Any of them ends the decoding of the table.
-/

namespace DebugLine

/-- Why a line table cannot be decoded. -/
inductive LineError where
  /-- A read needs more bytes than the window holds. -/
  | unexpectedEnd (offset needed available : Nat)
  /-- A LEB128 number does not fit in 64 bits. -/
  | leb128Overflow (offset : Nat)
  /-- Addresses have 1, 2, 4 or 8 bytes. -/
  | unsupportedAddressSize (size : UInt8)
  /-- The initial length lies between the 32-bit lengths and the marker of the 64-bit format. -/
  | reservedUnitLength (offset : Nat) (value : UInt32)
  | unitExceedsSection (offset unitEnd sectionLength : Nat)
  | headerExceedsUnit (offset programOffset unitEnd : Nat)
  | unsupportedVersion (offset : Nat) (version : UInt16)
  /-- A line range of zero cannot divide a special opcode. -/
  | invalidLineRange (offset : Nat)
  /-- An instruction holds at least one operation. -/
  | invalidOperationCount (offset : Nat)
  /-- An opcode base of zero leaves no room for extended opcodes. -/
  | invalidOpcodeBase (offset : Nat)
  /-- A header declares a wrong argument count for an opcode with a fixed meaning. -/
  | opcodeLengthMismatch (offset : Nat) (opcode expected declared : UInt8)
  | directoryIndexOutOfRange (offset : Nat) (index : UInt64) (count : Nat)
  /-- A file defined by the program has no name. -/
  | malformedDefineFile (offset : Nat)
  /-- The operands of an extended opcode are longer than its declared length. -/
  | extendedOpcodeOverrun (offset : Nat) (opcode : UInt8) (length consumed : Nat)
  | fileTableFull (offset limit : Nat)
  deriving Repr, DecidableEq

namespace LineError

def message : LineError → String
  | unexpectedEnd offset needed available =>
    s!"Unexpected end of line program at 0x{hex offset}: need {needed} bytes, " ++
      s!"{available} available"
  | leb128Overflow offset => s!"LEB128 value at 0x{hex offset} overflows 64 bits"
  | unsupportedAddressSize size =>
    s!"Unsupported address size {size.toNat} (expected 1, 2, 4 or 8)"
  | reservedUnitLength offset value =>
    s!"Reserved unit length 0x{hexPadded 8 value.toNat} at 0x{hex offset}"
  | unitExceedsSection offset unitEnd sectionLength =>
    s!"Line table at 0x{hex offset} ends at 0x{hex unitEnd}, " ++
      s!"beyond section size 0x{hex sectionLength}"
  | headerExceedsUnit offset programOffset unitEnd =>
    s!"Line program at 0x{hex offset} starts at 0x{hex programOffset}, " ++
      s!"beyond unit end 0x{hex unitEnd}"
  | unsupportedVersion offset version =>
    s!"Unsupported line table version {version.toNat} at 0x{hex offset}"
  | invalidLineRange offset => s!"Invalid line range 0 in header at 0x{hex offset}"
  | invalidOperationCount offset =>
    s!"Invalid maximum operations per instruction 0 in header at 0x{hex offset}"
  | invalidOpcodeBase offset => s!"Invalid opcode base 0 in header at 0x{hex offset}"
  | opcodeLengthMismatch _ opcode expected declared =>
    s!"Opcode {opcode.toNat} expected to have {expected.toNat} arguments, " ++
      s!"header declares {declared.toNat}"
  | directoryIndexOutOfRange offset index count =>
    s!"Directory index {index.toNat} at 0x{hex offset} out of range ({count} directories)"
  | malformedDefineFile offset => s!"Malformed DW_LNE_define_file at 0x{hex offset}"
  | extendedOpcodeOverrun offset opcode length consumed =>
    s!"Extended opcode 0x{hexPadded 2 opcode.toNat} at 0x{hex offset} declares {length} bytes " ++
      s!"but uses {consumed}"
  | fileTableFull offset limit =>
    s!"File table at 0x{hex offset} exceeds the limit of {limit} entries"

end LineError
end DebugLine
