import DebugLine.Settings.Text
import DebugLine.Text.Blank
import DebugLine.Text.Utf8

/-!
# Where settings come from

Settings are layered: those of the user, above them those of the project, above them the
environment. A file or a variable that cannot be used counts as absent.
-/

namespace DebugLine.Settings

/-- The settings in the file `name` with this content, or without content if there is no such
file. -/
def ofFile (name : String) (content : Option (List UInt8)) : Except SettingsError Settings :=
  match content.bind Utf8.decode? with
  | none => .error (.unreadableFile name)
  | some text =>
    match ofText text with
    | .ok s => .ok s
    | .error _ => .error (.invalidFile name)

/-- The name of the settings file of a project. -/
def projectFile : String := "dwarf-line.toml"

/-- The name of the settings file of a user. -/
def userFileName : String := "config.toml"

/-- The settings file of the user, below the configuration directory that the environment names
or else below the one in `home`. -/
def userFile (configHome : Option String) (home : String) : String :=
  let child (directory name : String) : String :=
    if directory.isEmpty || directory.endsWith "/" then directory ++ name
    else directory ++ "/" ++ name
  let directory :=
    match configHome.filter fun path => path.startsWith "/" with
    | some path => path
    | none => child home ".config"
  child (child directory "dwarf-line") userFileName

/-- The words for a truth value, in any case. -/
def truthOf? (value : String) : Option Bool :=
  let word := String.ofList ((trimBlanks value.toList).map Char.toLower)
  if word ∈ ["1", "true", "yes", "on"] then some true
  else if word ∈ ["0", "false", "no", "off"] then some false
  else none

/-- A decimal number of 64 bits, perhaps with a plus sign. -/
def countOf? (value : String) : Option Nat :=
  let digits := match trimBlanks value.toList with
    | '+' :: digits => digits
    | digits => digits
  if digits ≠ [] ∧ digits.all Char.isDigit then
    let n := Toml.numeralValue 10 digits
    if n < UInt64.size then some n else none
  else none

def checkVariable : String := "DWARF_LINE_CHECK_OPCODE_LENGTHS"

def limitVariable : String := "DWARF_LINE_MAX_FILE_ENTRIES"

/-- The settings that an environment gives, where `lookup` finds the value of a variable. -/
def ofEnvironment (lookup : String → Option (List UInt8)) : Settings :=
  let textOf (name : String) : Option String := (lookup name).bind Utf8.decode?
  { checkOpcodeLengths := (textOf checkVariable).bind truthOf?
    maxFileEntries := (textOf limitVariable).bind countOf? }

/-- The settings, or none of them where there was an error. -/
def orUnset : Except SettingsError Settings → Settings
  | .ok s => s
  | .error _ => unset

/-- The settings from the file of the user, the file of the project and the environment. -/
def load (user project : Option (List UInt8)) (lookup : String → Option (List UInt8)) :
    Settings :=
  ((orUnset (ofFile userFileName user)).overriddenBy
    (orUnset (ofFile projectFile project))).overriddenBy (ofEnvironment lookup)

end DebugLine.Settings
