import DebugLine.Header
import DebugLine.Instruction

/-!
# Decoding instructions

Special opcodes stand alone. Standard ones are followed by LEB128 operands, as many as the header
declares where the opcode is unknown. Extended ones are framed by a length, and whatever their
operands leave of it is skipped.
-/

namespace DebugLine
namespace Instruction

/-- The operands of a standard opcode with a known meaning. -/
def readKnown : StandardOpcode → Read Instruction
  | .copy => return copy
  | .advancePc => return advancePc (← Cursor.uleb128)
  | .advanceLine => return advanceLine (← Cursor.sleb128)
  | .setFile => return setFile (← Cursor.uleb128)
  | .setColumn => return setColumn (← Cursor.uleb128)
  | .negateStmt => return negateStatement
  | .setBasicBlock => return setBasicBlock
  | .constAddPc => return constAddPc
  | .fixedAdvancePc => return fixedAddPc (← Cursor.uint16)
  | .setPrologueEnd => return setPrologueEnd
  | .setEpilogueBegin => return setEpilogueBegin
  | .setIsa => return setIsa (← Cursor.uleb128)

/-- Passes `count` LEB128 operands. -/
def skipOperands (count : Nat) : Read Unit := do
  let _ ← Cursor.times Cursor.uleb128 count

/-- What follows a standard opcode. -/
def readStandard (h : Header) (opcode : UInt8) : Read Instruction :=
  match StandardOpcode.ofCode? opcode with
  | some known => readKnown known
  | none => do
    let arguments := (h.standardOpcodeLength? opcode).getD 0
    skipOperands arguments.toNat
    return unknownStandard opcode arguments

/-- The operands of an extended opcode of the given length; the instruction starts at
`offset`. -/
def readOperands (h : Header) (offset : Nat) (length : UInt64) (opcode : UInt8) :
    Decode Instruction :=
  match ExtendedOpcode.ofCode? opcode with
  | some .endSequence => return endSequence
  | some .setAddress => return setAddress (← Cursor.address)
  | some .defineFile => do
    if ← Decoder.readEntry h.includeDirectories then
      return defineFile (UInt64.ofNat (← get).files.count)
    else
      Cursor.fail (.malformedDefineFile offset)
  | some .setDiscriminator => return setDiscriminator (← Cursor.uleb128)
  | none => return unknownExtended opcode length

/-- What follows the zero byte of an extended opcode at `offset`. -/
def readExtended (h : Header) (offset : Nat) : Decode Instruction := do
  let length ← Cursor.uleb128
  let start ← Cursor.position
  let opcode ← Cursor.uint8
  let instruction ← readOperands h offset length opcode
  let consumed := (← Cursor.position) - start
  Cursor.require (consumed ≤ length.toNat)
    (.extendedOpcodeOverrun offset opcode length.toNat consumed)
  Cursor.skip (length.toNat - consumed)
  return instruction

/-- Decodes the instruction at the cursor. -/
def decode (h : Header) : Decode Instruction := do
  let offset ← Cursor.position
  let opcode ← Cursor.uint8
  if h.opcodeBase ≤ opcode then
    return special opcode
  else if opcode = 0 then
    readExtended h offset
  else
    readStandard h opcode

end Instruction

/-- Instructions decoded one after another: each with the offset behind it, the failure that
ended them, if one did, and where decoding stands. -/
structure Listing where
  instructions : List (Instruction × Nat)
  failure : Option LineError
  decoder : Decoder
  deriving Repr, DecidableEq

namespace Listing

/-- Decodes until nothing is left to read, at most `most` instructions. -/
def within (h : Header) : (most : Nat) → (d : Decoder) → Listing
  | 0, d => ⟨[], none, d⟩
  | most + 1, d =>
    if d.cursor.isEmpty then ⟨[], none, d⟩
    else
      match Instruction.decode h d with
      | .error e d => ⟨[], some e, d⟩
      | .ok instruction d =>
        let rest := within h most d
        { rest with instructions := (instruction, d.cursor.offset) :: rest.instructions }

/-- Decodes until nothing is left to read. Each instruction takes a byte at least. -/
def ofDecoder (h : Header) (d : Decoder) : Listing := within h d.cursor.remaining d

end Listing

/-- The decoder at the first instruction of the program. -/
def Decoder.atProgram (d : Decoder) (h : Header) : Decoder :=
  { d with cursor := d.cursor.seek h.programOffset h.endOffset }

end DebugLine
