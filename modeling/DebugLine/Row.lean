import DebugLine.Header
import DebugLine.Instruction

/-!
# Rows and the machine that emits them

The registers of the machine are the fields of a row, so emitting a row copies them. A row covers
the addresses from its own up to that of the next row in its sequence. Arithmetic is that of
64-bit words.
-/

namespace DebugLine

/-- A row of a line table, and the registers it is copied from. Where `endSequence` is set, only
`address` has a meaning. -/
structure Row where
  address : UInt64
  /-- The operation within an instruction that holds several. -/
  opIndex : UInt64
  /-- The number of the file, counted from one. -/
  fileIndex : UInt64
  /-- The line, counted from one; zero where there is none. -/
  line : UInt64
  /-- The column, counted from one; zero for the left edge. -/
  column : UInt64
  isStmt : Bool
  basicBlock : Bool
  prologueEnd : Bool
  epilogueBegin : Bool
  isa : UInt64
  discriminator : UInt64
  /-- The first address behind a sequence. -/
  endSequence : Bool
  deriving Repr, DecidableEq

namespace Row

/-- The registers at the start of a sequence. -/
def initial (defaultIsStmt : Bool) : Row where
  address := 0
  opIndex := 0
  fileIndex := 1
  line := 1
  column := 0
  isStmt := defaultIsStmt
  basicBlock := false
  prologueEnd := false
  epilogueBegin := false
  isa := 0
  discriminator := 0
  endSequence := false

/-- Moves on by `operations`. The operations that fill instructions move the address. -/
def advance (p : LineParameters) (operations : UInt64) (r : Row) : Row :=
  let index := r.opIndex + operations
  let perInstruction := p.maximumOperations.toUInt64
  { r with
    address := r.address + p.minimumInstructionLength.toUInt64 * (index / perInstruction)
    opIndex := index % perInstruction }

def advanceLine (delta : Int64) (r : Row) : Row := { r with line := r.line + delta.toUInt64 }

/-- The registers after a row has been copied from them. -/
def afterEmit (r : Row) : Row :=
  { r with basicBlock := false, prologueEnd := false, epilogueBegin := false, discriminator := 0 }

/-- What a special opcode packs into one number. -/
def adjusted (p : LineParameters) (opcode : UInt8) : Nat := opcode.toNat - p.opcodeBase.toNat

/-- The operations that a special opcode moves on by. -/
def specialAdvance (p : LineParameters) (opcode : UInt8) : UInt64 :=
  UInt64.ofNat (adjusted p opcode / p.lineRange.toNat)

/-- The lines that a special opcode moves on by. -/
def specialDelta (p : LineParameters) (opcode : UInt8) : Int64 :=
  Int64.ofInt (p.lineBase.toInt + (adjusted p opcode % p.lineRange.toNat : Nat))

def special (p : LineParameters) (opcode : UInt8) (r : Row) : Row :=
  (r.advance p (specialAdvance p opcode)).advanceLine (specialDelta p opcode)

/-- The registers after an instruction, and the row that it emits. -/
def execute (p : LineParameters) (instruction : Instruction) (r : Row) : Row × Option Row :=
  match instruction with
  | .special opcode =>
    let row := r.special p opcode
    (row.afterEmit, some row)
  | .copy => (r.afterEmit, some r)
  | .advancePc operations => (r.advance p operations, none)
  | .advanceLine delta => (r.advanceLine delta, none)
  | .setFile index => ({ r with fileIndex := index }, none)
  | .setColumn column => ({ r with column }, none)
  | .negateStatement => ({ r with isStmt := !r.isStmt }, none)
  | .setBasicBlock => ({ r with basicBlock := true }, none)
  | .constAddPc => (r.advance p p.constAddPcAdvance, none)
  | .fixedAddPc delta => ({ r with address := r.address + delta.toUInt64 }, none)
  | .setPrologueEnd => ({ r with prologueEnd := true }, none)
  | .setEpilogueBegin => ({ r with epilogueBegin := true }, none)
  | .setIsa isa => ({ r with isa }, none)
  | .unknownStandard _ _ => (r, none)
  | .endSequence => (initial p.defaultIsStmt, some { r with endSequence := true })
  | .setAddress address => ({ r with address }, none)
  | .defineFile _ => (r, none)
  | .setDiscriminator discriminator => ({ r with discriminator }, none)
  | .unknownExtended _ _ => (r, none)

/-- The registers after a list of instructions, and the rows that they emit in order. -/
def executeAll (p : LineParameters) : List Instruction → Row → Row × List Row
  | [], r => (r, [])
  | instruction :: rest, r =>
    let (next, row) := r.execute p instruction
    let (last, rows) := executeAll p rest next
    (last, row.toList ++ rows)

end Row
end DebugLine
