import DebugLine.CompileUnit
import DebugLine.Instruction.Decode
import DebugLine.Row
import DebugLine.Settings

/-!
# The machine that runs a line program

A machine owns the cursor, the file table and the registers of one line program. It executes one
instruction at a time, and so comes upon the rows in program order. A failure stops it for good.
-/

namespace DebugLine

structure Machine extends Decoder where
  header : Header
  registers : Row
  deriving Repr, DecidableEq

/-- A computation that drives a machine. -/
abbrev Run := EStateM LineError Machine

/-- Decoding leaves the header and the registers alone. -/
def Run.ofDecode {α : Type} (decode : Decode α) : Run α := fun m =>
  match decode m.toDecoder with
  | .ok value d => .ok value { m with toDecoder := d }
  | .error e d => .error e { m with toDecoder := d }

instance : MonadLift Decode Run where
  monadLift := Run.ofDecode

namespace Machine

/-- Whether every instruction of the program has been executed. -/
def atEnd (m : Machine) : Bool := m.cursor.isEmpty

/-- The failure that stopped the machine. -/
def failure (m : Machine) : Option LineError := m.cursor.failure

/-- The file with this number, as far as the program has come. -/
def file? (m : Machine) (index : UInt64) : Option FileEntry := m.files.get? index

/-- The file of a row, as far as the program has come. -/
def rowFile? (m : Machine) (row : Row) : Option FileEntry := m.file? row.fileIndex

/-- The machine at the start of its program: with the files of the header, whatever the program
has defined since, and with the registers of a new sequence. A failure stays. -/
def rewound (m : Machine) : Machine :=
  { m with
    cursor := m.cursor.seek m.header.programOffset m.header.endOffset
    files := m.files.truncate m.header.initialFileCount
    registers := Row.initial m.header.defaultIsStmt }

/-- The decoder at the line table that starts at `offset`. -/
def decoderAt (unit : CompileUnit) (bytes : Array UInt8) (settings : Settings) (offset : Nat) :
    Decoder :=
  ⟨Cursor.ofBytes bytes offset unit.byteOrder unit.addressSize,
    FileTable.empty settings.fileLimit⟩

/-- The machine at the start of the line program of `unit`, if the unit has one. -/
def ofUnit (unit : CompileUnit) (bytes : Array UInt8) (settings : Settings) :
    Except LineError (Option Machine) :=
  match unit.stmtList with
  | none => .ok none
  | some offset =>
    if unit.addressSize ∈ addressSizes then
      match Header.read unit.directory settings.checksOpcodeLengths
          (decoderAt unit bytes settings offset) with
      | .error e _ => .error e
      | .ok header d =>
        let registers := Row.initial header.defaultIsStmt
        .ok (some (rewound { d with header, registers }))
    else .error (.unsupportedAddressSize unit.addressSize)

/-- Executes an instruction that has been decoded and gives the row it emits. -/
def execute (instruction : Instruction) : Run (Option Row) :=
  modifyGet fun m =>
    let (registers, row) := m.registers.execute m.header.toLineParameters instruction
    (row, { m with registers })

/-- Executes one instruction and gives the row it emits. Nothing happens at the end. -/
def step : Run (Option Row) := do
  Cursor.check
  let m ← get
  if m.atEnd then
    return none
  else
    execute (← Instruction.decode m.header)

/-- Executes instructions up to the first that emits a row, at most `most` of them. -/
def nextRowWithin : (most : Nat) → Run (Option Row)
  | 0 => return none
  | most + 1 => do
    if (← get).atEnd then
      return none
    else
      match ← step with
      | some row => return some row
      | none => nextRowWithin most

/-- The next row, or none at the end. Each instruction takes a byte at least, so the unread bytes
bound their number. -/
def nextRow : Run (Option Row) := do
  Cursor.check
  nextRowWithin (← get).cursor.remaining

end Machine

/-- The rows that a machine still has to give. The stream ends at the end of the program or behind
the first failure. -/
structure RowStream where
  machine : Machine
  ended : Bool
  deriving Repr, DecidableEq

namespace RowStream

def next (s : RowStream) : Option (Except LineError Row) × RowStream :=
  if s.ended then (none, s)
  else
    match Machine.nextRow s.machine with
    | .ok (some row) machine => (some (.ok row), ⟨machine, false⟩)
    | .ok none machine => (none, ⟨machine, true⟩)
    | .error e machine => (some (.error e), ⟨machine, true⟩)

/-- The items up to the end of the stream, at most `most` of them. -/
def itemsWithin : (most : Nat) → RowStream → List (Except LineError Row) × RowStream
  | 0, s => ([], s)
  | most + 1, s =>
    match s.next with
    | (none, s) => ([], s)
    | (some item, s) =>
      let (items, s) := itemsWithin most s
      (item :: items, s)

/-- The items up to the end of the stream. Each row takes a byte at least, and at most one failure
follows. -/
def items (s : RowStream) : List (Except LineError Row) × RowStream :=
  s.itemsWithin (s.machine.cursor.remaining + 2)

end RowStream

/-- The remaining rows, and the failure behind them if there is one. -/
def Machine.rows (m : Machine) : List (Except LineError Row) × Machine :=
  let (items, s) := RowStream.items ⟨m, false⟩
  (items, s.machine)

end DebugLine
