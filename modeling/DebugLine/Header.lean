import DebugLine.Decoder
import DebugLine.OpcodeSet

/-!
# Line program header

A unit starts with its length, which also tells the format, the version of the table and the
length of the rest of the header. Then come the parameters of the register machine, the argument
counts of the standard opcodes, the include directories and the files. The program begins where
the header length says, whatever the tables take.
-/

namespace DebugLine

/-- The width of lengths and section offsets. -/
inductive Format where
  | dwarf32
  | dwarf64
  deriving Repr, DecidableEq

/-- The number of bytes of a length. -/
def Format.offsetSize : Format → Nat
  | dwarf32 => 4
  | dwarf64 => 8

/-- The length that announces the 64-bit format. -/
def dwarf64Marker : UInt32 := 0xFFFFFFFF

/-- The first length with a special meaning. -/
def firstReservedLength : UInt32 := 0xFFFFFFF0

/-- How the register machine of one program reads its opcodes. -/
structure LineParameters where
  minimumInstructionLength : UInt8
  /-- One where instructions hold single operations. -/
  maximumOperations : UInt8
  defaultIsStmt : Bool
  lineBase : Int8
  lineRange : UInt8
  /-- The first special opcode. -/
  opcodeBase : UInt8
  deriving Repr, DecidableEq

/-- The operation advance of the special opcode 255. -/
def LineParameters.constAddPcAdvance (p : LineParameters) : UInt64 :=
  (255 - p.opcodeBase).toUInt64 / p.lineRange.toUInt64

structure Header extends LineParameters where
  /-- Where the unit starts in its section. -/
  offset : Nat
  format : Format
  version : UInt16
  /-- The size of the unit without its length field. -/
  unitLength : Nat
  headerLength : Nat
  /-- The argument count of opcode `i + 1` at `i`. -/
  standardOpcodeLengths : List UInt8
  /-- The compilation directory comes first. -/
  includeDirectories : Array String
  programOffset : Nat
  endOffset : Nat
  initialFileCount : Nat
  deriving Repr, DecidableEq

namespace Header

/-- The declared argument count of a standard opcode. -/
def standardOpcodeLength? (h : Header) (opcode : UInt8) : Option UInt8 :=
  if opcode = 0 then none else h.standardOpcodeLengths[opcode.toNat - 1]?

/-- The end of `length` bytes from `offset`, as far as 64 bits can tell. -/
def endOf (offset length : Nat) : Nat := min (offset + length) (UInt64.size - 1)

/-- A length in the given format. -/
def readLength (format : Format) : Read Nat := Cursor.number format.offsetSize

/-- The format and the length of the unit that starts at `offset`. -/
def readInitialLength (offset : Nat) : Read (Format × Nat) := do
  let value ← Cursor.uint32
  if value = dwarf64Marker then
    return (.dwarf64, ← readLength .dwarf64)
  else
    Cursor.require (value < firstReservedLength) (.reservedUnitLength offset value)
    return (.dwarf32, value.toNat)

/-- Limits reads to the next `unitLength` bytes, the rest of the unit that starts at `offset`. -/
def enterUnit (offset unitLength : Nat) : Read Nat := do
  let c ← get
  let unitEnd := endOf c.offset unitLength
  Cursor.require (unitEnd ≤ c.bytes.size) (.unitExceedsSection offset unitEnd c.bytes.size)
  set (c.limitTo unitEnd)
  return unitEnd

def readVersion (offset : Nat) : Read UInt16 := do
  let version ← Cursor.uint16
  Cursor.require (2 ≤ version ∧ version ≤ 4) (.unsupportedVersion offset version)
  return version

/-- The header length, and where it puts the program of a unit that ends at `unitEnd`. -/
def readProgramStart (offset unitEnd : Nat) (format : Format) : Read (Nat × Nat) := do
  let headerLength ← readLength format
  let programOffset := endOf (← Cursor.position) headerLength
  Cursor.require (programOffset ≤ unitEnd) (.headerExceedsUnit offset programOffset unitEnd)
  return (headerLength, programOffset)

/-- Tables before version 4 know only single operations. -/
def readMaximumOperations (version : UInt16) : Read UInt8 :=
  if 4 ≤ version then Cursor.uint8 else return 1

def readParameters (offset : Nat) (version : UInt16) : Read LineParameters := do
  let minimumInstructionLength ← Cursor.uint8
  let maximumOperations ← readMaximumOperations version
  let defaultIsStmt := (← Cursor.uint8) != 0
  let lineBase := (← Cursor.uint8).toInt8
  let lineRange ← Cursor.uint8
  Cursor.require (maximumOperations ≠ 0) (.invalidOperationCount offset)
  Cursor.require (lineRange ≠ 0) (.invalidLineRange offset)
  let opcodeBase ← Cursor.uint8
  Cursor.require (opcodeBase ≠ 0) (.invalidOpcodeBase offset)
  return { minimumInstructionLength, maximumOperations, defaultIsStmt, lineBase, lineRange,
           opcodeBase }

/-- The first opcode from `opcode` on whose declared count is not the known one, with the known
and the declared count. -/
def mismatch? : (opcode : UInt8) → (lengths : List UInt8) → Option (UInt8 × UInt8 × UInt8)
  | _, [] => none
  | opcode, declared :: lengths =>
    match (knownArgumentCount opcode).filter (· != declared) with
    | some expected => some (opcode, expected, declared)
    | none => mismatch? (opcode + 1) lengths

/-- Fails where a declared argument count is not the known one. -/
def checkLengths (offset : Nat) (lengths : List UInt8) : Read Unit :=
  match mismatch? 1 lengths with
  | some (opcode, expected, declared) =>
    Cursor.fail (.opcodeLengthMismatch offset opcode expected declared)
  | none => return ()

/-- The declared argument counts, compared with the known ones where `check` is set. -/
def readOpcodeLengths (offset : Nat) (check : Bool) (opcodeBase : UInt8) :
    Read (List UInt8) := do
  let lengths ← Cursor.times Cursor.uint8 (opcodeBase.toNat - 1)
  if check then
    checkLengths offset lengths
  return lengths

/-- The path of an include directory. -/
def directoryPath (compDir name : String) : String :=
  if SourcePath.isAbsolute name then name else SourcePath.join compDir name

/-- The include directories up to an empty name, at most `most` of them. -/
def readDirectoriesWithin (compDir : String) : (most : Nat) → Read (List String)
  | 0 => return []
  | most + 1 => do
    let name ← Cursor.text
    if name.isEmpty then
      return []
    else
      let rest ← readDirectoriesWithin compDir most
      return directoryPath compDir name :: rest

/-- The include directories up to an empty name. Each takes a byte at least, so the unread bytes
bound their number. -/
def readDirectories (compDir : String) : Read (List String) := do
  readDirectoriesWithin compDir ((← get).remaining + 1)

/-- Reads the header of the unit that starts at `offset` and ends at `endOffset`, from behind the
initial length on, and appends its files. -/
def readInside (compDir : String) (check : Bool) (offset : Nat) (format : Format)
    (unitLength endOffset : Nat) : Decode Header := do
  let version ← readVersion offset
  let (headerLength, programOffset) ← readProgramStart offset endOffset format
  let parameters ← readParameters offset version
  let standardOpcodeLengths ← readOpcodeLengths offset check parameters.opcodeBase
  let includeDirectories := (compDir :: (← readDirectories compDir)).toArray
  Decoder.readEntries includeDirectories
  return { parameters with
           offset, format, version, unitLength, headerLength, standardOpcodeLengths,
           includeDirectories, programOffset, endOffset,
           initialFileCount := (← get).files.count }

/-- Reads the header at the cursor, appends its files and limits reads to the unit. -/
def read (compDir : String) (check : Bool) : Decode Header := do
  let offset ← Cursor.position
  let (format, unitLength) ← readInitialLength offset
  let endOffset ← enterUnit offset unitLength
  readInside compDir check offset format unitLength endOffset

end Header
end DebugLine
