import DebugLine.Machine.Position

/-!
# Lookup by address

A line program can only be run forward. A lookup goes on from where the machine stands, and starts
over once if the next row already lies behind the address. It stops at the first row behind the
address, takes that row back and answers with the row before it.
-/

namespace DebugLine.Machine

/-- The next row, if it lies at `pc` or before. -/
def nextRowUpTo (pc : UInt64) : Run (Option Row) := do
  return (← nextRow).filter fun row => row.address ≤ pc

/-- Goes on from the row `held`, which lies at `pc` or before, through at most `most` rows to the
first that lies behind `pc`. The last row before that one covers `pc`, unless it ends a
sequence. -/
def scanWithin (pc : UInt64) : (most : Nat) → (held : Row) → Run (Option Row)
  | 0, _ => return none
  | most + 1, held => do
    let position := (← get).checkpoint
    match ← nextRow with
    | none => return none
    | some next =>
      if pc < next.address then
        modify fun m => m.restored position
        return if held.endSequence then none else some held
      else
        scanWithin pc most next

/-- Goes on from the row `held` to the row that covers `pc`. Each row takes a byte at least. -/
def scanFrom (pc : UInt64) (held : Row) : Run (Option Row) := do
  scanWithin pc ((← get).cursor.remaining + 1) held

/-- The row whose addresses hold `pc`. Where there is one, the machine stands behind it. -/
def seekPc (pc : UInt64) : Run (Option Row) := do
  match ← nextRowUpTo pc with
  | some held => scanFrom pc held
  | none =>
    modify rewound
    match ← nextRowUpTo pc with
    | some held => scanFrom pc held
    | none =>
      modify rewound
      return none

end DebugLine.Machine
