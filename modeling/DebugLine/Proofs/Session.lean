import DebugLine.Machine.Lookup
import DebugLine.Proofs.Effects

/-!
# Sessions with one machine

A session is a machine together with the positions saved on it so far. Operations are performed one
after another and each gives an answer. A position is restored by the number under which this very
session saved it, so no position of another machine comes in.
-/

namespace DebugLine

/-- What can be done to a machine, and what it can be asked. -/
inductive Operation where
  | nextRow
  | step
  /-- Asks one stream of rows for its next item so many times. -/
  | rows (times : Nat)
  | seekPc (pc : UInt64)
  | checkpoint
  /-- Goes back, or ahead, to the saved position with this number. -/
  | restore (slot : Nat)
  | reset
  | file (index : UInt64)
  | rowFile (row : Row)
  | files
  | atEnd
  | failure
  deriving Repr, DecidableEq

inductive Answer where
  | row (found : Except LineError (Option Row))
  | items (items : List (Option (Except LineError Row)))
  | position (saved : Position)
  | file (entry : Option FileEntry)
  | files (entries : List FileEntry)
  | atEnd (ended : Bool)
  | failure (kept : Option LineError)
  | done
  deriving Repr, DecidableEq

/-- The next items of a stream, as many as asked for. -/
def RowStream.nextTimes : (times : Nat) → RowStream →
    List (Option (Except LineError Row)) × RowStream
  | 0, s => ([], s)
  | times + 1, s =>
    let (item, s) := s.next
    let (items, s) := nextTimes times s
    (item :: items, s)

structure Session where
  machine : Machine
  saved : List Position
  deriving Repr, DecidableEq

namespace Session

/-- A session in which nothing has been done yet. -/
def ofMachine (m : Machine) : Session := ⟨m, []⟩

/-- Runs the machine for a row. -/
def drive (run : Run (Option Row)) (s : Session) : Answer × Session :=
  (.row (run s.machine).answer, { s with machine := (run s.machine).state })

/-- Goes to the saved position with this number, if there is one. -/
def restore (slot : Nat) (s : Session) : Session :=
  match s.saved[slot]? with
  | some position => { s with machine := s.machine.restored position }
  | none => s

def perform (s : Session) : Operation → Answer × Session
  | .nextRow => s.drive Machine.nextRow
  | .step => s.drive Machine.step
  | .seekPc pc => s.drive (Machine.seekPc pc)
  | .rows times =>
    let (items, stream) := RowStream.nextTimes times ⟨s.machine, false⟩
    (.items items, { s with machine := stream.machine })
  | .checkpoint =>
    (.position s.machine.checkpoint, { s with saved := s.saved ++ [s.machine.checkpoint] })
  | .restore slot => (.done, s.restore slot)
  | .reset => (.done, { s with machine := s.machine.rewound })
  | .file index => (.file (s.machine.file? index), s)
  | .rowFile row => (.file (s.machine.rowFile? row), s)
  | .files => (.files s.machine.files.visible.toList, s)
  | .atEnd => (.atEnd s.machine.atEnd, s)
  | .failure => (.failure s.machine.failure, s)

/-- The answers to a list of operations, and the session behind them. -/
def run (s : Session) : List Operation → List Answer × Session
  | [] => ([], s)
  | operation :: rest =>
    let (answer, next) := s.perform operation
    let (answers, last) := run next rest
    (answer :: answers, last)

/-- The session after a list of operations. -/
def after (s : Session) (operations : List Operation) : Session := (s.run operations).2

def answers (s : Session) (operations : List Operation) : List Answer := (s.run operations).1

end Session
end DebugLine
