import DebugLine.Cursor
import DebugLine.FileTable
import DebugLine.SourcePath

/-!
# Decoding with a file table

Both the header and the program of a line table name files, so a decoder is a cursor together
with the file table that it fills. An entry enters the table only after all of it has been read.
-/

namespace DebugLine

structure Decoder where
  cursor : Cursor
  files : FileTable
  deriving Repr, DecidableEq

/-- A computation that reads bytes and may append files. -/
abbrev Decode := EStateM LineError Decoder

/-- Reading leaves the file table alone. -/
def Decode.ofRead {α : Type} (read : Read α) : Decode α := fun d =>
  match read d.cursor with
  | .ok value cursor => .ok value { d with cursor }
  | .error e cursor => .error e { d with cursor }

instance : MonadLift Read Decode where
  monadLift := Decode.ofRead

namespace Decoder

/-- The path of the file `name` in the directory with this index. An absolute name needs no
directory. -/
def resolve (directories : Array String) (index : UInt64) (name : String) : Option String :=
  if SourcePath.isAbsolute name then some name
  else directories[index.toNat]?.map fun directory => SourcePath.join directory name

/-- Appends an entry whose name ends at `offset`. -/
def append (entry : FileEntry) (offset : Nat) : Decode Unit := do
  match (← get).files.reachedLimit? with
  | some limit => Cursor.fail (.fileTableFull offset limit)
  | none => modify fun d => { d with files := d.files.push entry }

/-- Reads a file entry and appends it. An empty name ends a list of entries: nothing follows it
and nothing is appended. -/
def readEntry (directories : Array String) : Decode Bool := do
  let name ← Cursor.text
  if name.isEmpty then
    return false
  else
    let offset ← Cursor.position
    let directoryIndex ← Cursor.uleb128
    match resolve directories directoryIndex name with
    | none => Cursor.fail (.directoryIndexOutOfRange offset directoryIndex directories.size)
    | some path =>
      let modificationTime ← Cursor.uleb128
      let length ← Cursor.uleb128
      append { path, directoryIndex, modificationTime, length } offset
      return true

/-- Reads file entries up to an empty name, at most `most` of them. -/
def readEntriesWithin (directories : Array String) : (most : Nat) → Decode Unit
  | 0 => return ()
  | most + 1 => do
    if ← readEntry directories then
      readEntriesWithin directories most

/-- Reads file entries up to an empty name. Each takes a byte at least, so the unread bytes bound
their number. -/
def readEntries (directories : Array String) : Decode Unit := do
  readEntriesWithin directories ((← get).cursor.remaining + 1)

end Decoder
end DebugLine
