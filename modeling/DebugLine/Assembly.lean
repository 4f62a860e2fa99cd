import DebugLine.CompileUnit
import DebugLine.Header

/-!
# Assembling line tables

A unit is laid out from the parameters of its header, its directories and files, and a program
given by directives. The tables end where the program begins.
-/

namespace DebugLine

/-- What a program is assembled from. -/
inductive Directive where
  | special (opcode : UInt8)
  | copy
  | advancePc (operations : UInt64)
  | advanceLine (delta : Int64)
  | setFile (index : UInt64)
  | setColumn (column : UInt64)
  | negateStatement
  | setBasicBlock
  | constAddPc
  | fixedAdvancePc (delta : UInt16)
  | setPrologueEnd
  | setEpilogueBegin
  | setIsa (isa : UInt64)
  | endSequence
  | setAddress (address : UInt64)
  | defineFile (name : String) (directoryIndex modificationTime length : UInt64)
  | setDiscriminator (discriminator : UInt64)
  /-- An extended opcode with these operand bytes. -/
  | extended (opcode : UInt8) (operands : List UInt8)
  /-- Bytes as they are. -/
  | raw (bytes : List UInt8)
  deriving Repr, DecidableEq

/-- A text and the zero byte that ends it. -/
def zeroEnded (text : String) : List UInt8 := text.toUTF8.data.toList ++ [0]

namespace Directive

open Leb128

/-- An extended opcode behind its zero byte and its length. -/
def frame (opcode : UInt8) (operands : List UInt8) : List UInt8 :=
  0 :: encodeUnsigned (UInt64.ofNat (operands.length + 1)) ++ opcode :: operands

/-- The bytes of a directive for a machine with this byte order and address size. An address
keeps its low bytes. -/
def encode (order : ByteOrder) (addressSize : UInt8) : Directive → List UInt8
  | special opcode => [opcode]
  | copy => [StandardOpcode.copy.code]
  | advancePc operations => StandardOpcode.advancePc.code :: encodeUnsigned operations
  | advanceLine delta => StandardOpcode.advanceLine.code :: encodeSigned delta
  | setFile index => StandardOpcode.setFile.code :: encodeUnsigned index
  | setColumn column => StandardOpcode.setColumn.code :: encodeUnsigned column
  | negateStatement => [StandardOpcode.negateStmt.code]
  | setBasicBlock => [StandardOpcode.setBasicBlock.code]
  | constAddPc => [StandardOpcode.constAddPc.code]
  | fixedAdvancePc delta => StandardOpcode.fixedAdvancePc.code :: order.bytes 2 delta.toNat
  | setPrologueEnd => [StandardOpcode.setPrologueEnd.code]
  | setEpilogueBegin => [StandardOpcode.setEpilogueBegin.code]
  | setIsa isa => StandardOpcode.setIsa.code :: encodeUnsigned isa
  | endSequence => frame ExtendedOpcode.endSequence.code []
  | setAddress address =>
    frame ExtendedOpcode.setAddress.code (order.bytes addressSize.toNat address.toNat)
  | defineFile name directoryIndex modificationTime length =>
    frame ExtendedOpcode.defineFile.code
      (zeroEnded name ++ encodeUnsigned directoryIndex ++ encodeUnsigned modificationTime ++
        encodeUnsigned length)
  | setDiscriminator discriminator =>
    frame ExtendedOpcode.setDiscriminator.code (encodeUnsigned discriminator)
  | extended opcode operands => frame opcode operands
  | raw bytes => bytes

end Directive

/-- A unit to be laid out. -/
structure Assembly extends LineParameters where
  format : Format
  byteOrder : ByteOrder
  addressSize : UInt8
  version : UInt16
  /-- The declared argument counts, where they are not the usual ones. -/
  opcodeLengths : Option (List UInt8)
  directories : List String
  /-- The name and the directory index of each file. -/
  files : List (String × UInt64)
  program : List UInt8
  deriving Repr, DecidableEq

namespace Assembly

/-- The compilation directory of assembled units. -/
def compDir : String := "/work"

/-- A little-endian unit of version 4 in the 32-bit format, with usual parameters and an empty
program. -/
def empty : Assembly where
  minimumInstructionLength := 1
  maximumOperations := 1
  defaultIsStmt := true
  lineBase := -5
  lineRange := 14
  opcodeBase := 13
  format := .dwarf32
  byteOrder := .little
  addressSize := 8
  version := 4
  opcodeLengths := none
  directories := []
  files := []
  program := []

/-- Adds a directive to the program, with the byte order and the address size of this moment. -/
def emit (a : Assembly) (d : Directive) : Assembly :=
  { a with program := a.program ++ d.encode a.byteOrder a.addressSize }

/-- The argument counts of the opcodes from one to twelve. -/
def usualLengths : List UInt8 := [0, 1, 1, 1, 1, 0, 0, 0, 1, 0, 0, 1]

/-- The argument counts that the header declares. Opcodes from 13 on usually have none. -/
def declaredLengths (a : Assembly) : List UInt8 :=
  a.opcodeLengths.getD
    ((List.range (a.opcodeBase.toNat - 1)).map fun i => usualLengths[i]?.getD 0)

def directoryBytes (a : Assembly) : List UInt8 := a.directories.flatMap zeroEnded

/-- A file with unknown modification time and length. -/
def fileBytes (name : String) (directoryIndex : UInt64) : List UInt8 :=
  zeroEnded name ++ Leb128.encodeUnsigned directoryIndex ++ Leb128.encodeUnsigned 0 ++
    Leb128.encodeUnsigned 0

def tableBytes (a : Assembly) : List UInt8 :=
  a.directoryBytes ++ 0 :: a.files.flatMap (fun (name, index) => fileBytes name index) ++ [0]

/-- What the header length counts. -/
def headerBytes (a : Assembly) : List UInt8 :=
  a.minimumInstructionLength :: (if 4 ≤ a.version then [a.maximumOperations] else []) ++
    [a.defaultIsStmt.toUInt8, a.lineBase.toUInt8, a.lineRange, a.opcodeBase] ++
    a.declaredLengths ++ a.tableBytes

/-- A length in the format of the unit. -/
def lengthBytes (a : Assembly) (n : Nat) : List UInt8 := a.byteOrder.bytes a.format.offsetSize n

/-- What the unit length counts. -/
def body (a : Assembly) : List UInt8 :=
  a.byteOrder.bytes 2 a.version.toNat ++ a.lengthBytes a.headerBytes.length ++ a.headerBytes ++
    a.program

def initialLength (a : Assembly) : List UInt8 :=
  (match a.format with
    | .dwarf32 => []
    | .dwarf64 => a.byteOrder.bytes 4 dwarf64Marker.toNat) ++
    a.lengthBytes a.body.length

/-- The bytes of the unit. -/
def encode (a : Assembly) : List UInt8 := a.initialLength ++ a.body

/-- The compile unit whose line table is at `offset`. -/
def unit (a : Assembly) (offset : Nat) : CompileUnit :=
  ⟨some offset, some compDir, a.addressSize, a.byteOrder⟩

end Assembly
end DebugLine
