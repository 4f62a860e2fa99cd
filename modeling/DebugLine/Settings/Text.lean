import DebugLine.Settings
import DebugLine.Toml.Document

/-!
# Settings as text

Settings are written in TOML, one key for each option that is set. Other keys and tables may
stand beside them and mean nothing here.
-/

namespace DebugLine

/-- Why settings cannot be read or written. -/
inductive SettingsError where
  | invalid
  | unwritable
  | unreadableFile (name : String)
  | invalidFile (name : String)
  deriving Repr, DecidableEq

namespace SettingsError

def message : SettingsError → String
  | invalid => "Invalid dwarf-line configuration"
  | unwritable => "Failed to serialize dwarf-line configuration"
  | unreadableFile name => s!"Failed to read {name}"
  | invalidFile name => s!"Failed to parse {name}"

end SettingsError

namespace Settings

open Toml

def checkKey : String := "check_opcode_lengths"

def limitKey : String := "max_file_entries"

/-- The truth value of an option, if it is set; no other value will do. -/
def checkOf? : Option Node → Option (Option Bool)
  | none => some none
  | some (.boolean check) => some (some check)
  | some _ => none

/-- The number of an option, if it is set; no other value will do, nor a negative one. -/
def limitOf? : Option Node → Option (Option Nat)
  | none => some none
  | some (.integer n) => if 0 ≤ n then some (some n.toNat) else none
  | some _ => none

def ofEntries? (entries : Entries) : Option Settings := do
  let checkOpcodeLengths ← checkOf? (entries.lookup checkKey)
  let maxFileEntries ← limitOf? (entries.lookup limitKey)
  return { checkOpcodeLengths, maxFileEntries }

/-- The settings that a text gives. -/
def ofText (text : String) : Except SettingsError Settings :=
  match (Toml.parse? text).bind ofEntries? with
  | some s => .ok s
  | none => .error .invalid

/-- The settings as text. A limit that is no TOML integer cannot be written. -/
def toText (s : Settings) : Except SettingsError String :=
  let checkLine := match s.checkOpcodeLengths with
    | some check => s!"{checkKey} = {check}\n"
    | none => ""
  match s.maxFileEntries with
  | some limit =>
    if (limit : Int) ≤ maxInteger then .ok (checkLine ++ s!"{limitKey} = {limit}\n")
    else .error .unwritable
  | none => .ok checkLine

/-- A commented settings file to start from. -/
def sample : String :=
  "# dwarf-line configuration\n" ++
  "# Place this file at ~/.config/dwarf-line/config.toml or ./dwarf-line.toml\n" ++
  "\n" ++
  "# Reject line program headers whose standard opcode argument counts disagree\n" ++
  "# with the DWARF definitions (default: true)\n" ++
  "check_opcode_lengths = true\n" ++
  "\n" ++
  "# Maximum file table entries per line program (default: unlimited)\n" ++
  "# max_file_entries = 65536\n"

end Settings
end DebugLine
