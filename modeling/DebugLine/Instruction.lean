import DebugLine.OpcodeSet
import DebugLine.Text.Hexadecimal

/-!
# Instructions of a line program

An instruction is an opcode with its operands. Opcodes without a known meaning are kept, with
what was skipped for them, so that nothing in a program goes unseen.
-/

namespace DebugLine

inductive Instruction where
  /-- The opcode byte itself, at least the opcode base. -/
  | special (opcode : UInt8)
  | copy
  | advancePc (operations : UInt64)
  | advanceLine (delta : Int64)
  | setFile (index : UInt64)
  | setColumn (column : UInt64)
  | negateStatement
  | setBasicBlock
  | constAddPc
  | fixedAddPc (delta : UInt16)
  | setPrologueEnd
  | setEpilogueBegin
  | setIsa (isa : UInt64)
  /-- A standard opcode without a known meaning, and how many operands were skipped. -/
  | unknownStandard (opcode : UInt8) (arguments : UInt8)
  | endSequence
  | setAddress (address : UInt64)
  /-- The number of the file that the instruction appended. -/
  | defineFile (index : UInt64)
  | setDiscriminator (discriminator : UInt64)
  /-- An extended opcode without a known meaning, and its length with the opcode byte. -/
  | unknownExtended (opcode : UInt8) (length : UInt64)
  deriving Repr, DecidableEq

namespace Instruction

/-- The instruction as a listing shows it. -/
def describe : Instruction → String
  | special opcode => s!"special opcode {opcode.toNat}"
  | copy => "DW_LNS_copy"
  | advancePc operations => s!"DW_LNS_advance_pc {operations.toNat}"
  | advanceLine delta => s!"DW_LNS_advance_line {delta.toInt}"
  | setFile index => s!"DW_LNS_set_file {index.toNat}"
  | setColumn column => s!"DW_LNS_set_column {column.toNat}"
  | negateStatement => "DW_LNS_negate_stmt"
  | setBasicBlock => "DW_LNS_set_basic_block"
  | constAddPc => "DW_LNS_const_add_pc"
  | fixedAddPc delta => s!"DW_LNS_fixed_advance_pc 0x{hex delta.toNat}"
  | setPrologueEnd => "DW_LNS_set_prologue_end"
  | setEpilogueBegin => "DW_LNS_set_epilogue_begin"
  | setIsa isa => s!"DW_LNS_set_isa {isa.toNat}"
  | unknownStandard opcode arguments =>
    s!"unknown standard opcode {opcode.toNat} ({arguments.toNat} args)"
  | endSequence => "DW_LNE_end_sequence"
  | setAddress address => s!"DW_LNE_set_address 0x{hex address.toNat}"
  | defineFile index => s!"DW_LNE_define_file {index.toNat}"
  | setDiscriminator discriminator => s!"DW_LNE_set_discriminator {discriminator.toNat}"
  | unknownExtended opcode length =>
    s!"unknown extended opcode 0x{hexPadded 2 opcode.toNat} ({length.toNat} bytes)"

end Instruction
end DebugLine
