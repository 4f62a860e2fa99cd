/-!
# Opcodes with a fixed meaning

An opcode byte below the opcode base of a header is a standard opcode, except zero, which
introduces an extended one.
-/

namespace DebugLine

inductive StandardOpcode where
  | copy
  | advancePc
  | advanceLine
  | setFile
  | setColumn
  | negateStmt
  | setBasicBlock
  | constAddPc
  | fixedAdvancePc
  | setPrologueEnd
  | setEpilogueBegin
  | setIsa
  deriving Repr, DecidableEq

namespace StandardOpcode

def code : StandardOpcode → UInt8
  | copy => 1
  | advancePc => 2
  | advanceLine => 3
  | setFile => 4
  | setColumn => 5
  | negateStmt => 6
  | setBasicBlock => 7
  | constAddPc => 8
  | fixedAdvancePc => 9
  | setPrologueEnd => 10
  | setEpilogueBegin => 11
  | setIsa => 12

def ofCode? (code : UInt8) : Option StandardOpcode :=
  match code.toNat with
  | 1 => some copy
  | 2 => some advancePc
  | 3 => some advanceLine
  | 4 => some setFile
  | 5 => some setColumn
  | 6 => some negateStmt
  | 7 => some setBasicBlock
  | 8 => some constAddPc
  | 9 => some fixedAdvancePc
  | 10 => some setPrologueEnd
  | 11 => some setEpilogueBegin
  | 12 => some setIsa
  | _ => none

@[simp] theorem ofCode?_code (opcode : StandardOpcode) : ofCode? opcode.code = some opcode := by
  cases opcode <;> rfl

/-- The number of LEB128 operands. `fixedAdvancePc` has none for a header to declare, since its
operand is two bytes wide. -/
def argumentCount? : StandardOpcode → Option UInt8
  | copy | negateStmt | setBasicBlock | constAddPc | setPrologueEnd | setEpilogueBegin => some 0
  | advancePc | advanceLine | setFile | setColumn | setIsa => some 1
  | fixedAdvancePc => none

end StandardOpcode

/-- The number of LEB128 operands of the opcode `code`, where it is fixed. -/
def knownArgumentCount (code : UInt8) : Option UInt8 :=
  (StandardOpcode.ofCode? code).bind StandardOpcode.argumentCount?

inductive ExtendedOpcode where
  | endSequence
  | setAddress
  | defineFile
  | setDiscriminator
  deriving Repr, DecidableEq

namespace ExtendedOpcode

def code : ExtendedOpcode → UInt8
  | endSequence => 1
  | setAddress => 2
  | defineFile => 3
  | setDiscriminator => 4

def ofCode? (code : UInt8) : Option ExtendedOpcode :=
  match code.toNat with
  | 1 => some endSequence
  | 2 => some setAddress
  | 3 => some defineFile
  | 4 => some setDiscriminator
  | _ => none

@[simp] theorem ofCode?_code (opcode : ExtendedOpcode) : ofCode? opcode.code = some opcode := by
  cases opcode <;> rfl

end ExtendedOpcode
end DebugLine
