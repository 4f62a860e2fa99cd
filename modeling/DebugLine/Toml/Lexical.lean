import DebugLine.Toml.Rule

/-!
# Blanks, keys and texts of TOML

Lines end with a line feed, alone or behind a carriage return. No other control character but the
tab occurs in comments and texts.
-/

namespace DebugLine.Toml

open Rule

def isSpace (c : Char) : Bool := c == ' ' || c == '\t'

/-- The characters that any line may hold. -/
def isPlain (c : Char) : Bool := c == '\t' || (' ' ≤ c && c != '\x7F')

def spaces : Rule Unit := do
  let _ ← run isSpace

def newline : Rule Unit := char '\n' <|> word ['\r', '\n']

def comment : Rule Unit := do
  char '#'
  let _ ← run isPlain

/-- What may follow on a line behind a pair or a header. -/
def endOfLine : Rule Unit := do
  spaces
  let _ ← optional comment
  newline <|> endOfText

/-- Spaces, comments and ends of lines between the items of an array. -/
def gap : Rule Unit := do
  let _ ← many (newline <|> (do comment; newline) <|> (do let _ ← satisfy isSpace))

def isHexDigit (c : Char) : Bool := c.isDigit || ('a' ≤ c && c ≤ 'f') || ('A' ≤ c && c ≤ 'F')

def digitValue (c : Char) : Nat := if c.isDigit then c.toNat - 48 else c.toUpper.toNat - 55

/-- The number that `digits` name in the given base. -/
def numeralValue (base : Nat) (digits : List Char) : Nat :=
  digits.foldl (fun value c => base * value + digitValue c) 0

/-- Exactly `count` characters that satisfy `p`. -/
def exactly (count : Nat) (p : Char → Bool) : Rule (List Char) :=
  match count with
  | 0 => return []
  | count + 1 => do
    let c ← satisfy p
    let cs ← exactly count p
    return c :: cs

/-- The character with the number in `count` hexadecimal digits. -/
def hexChar (count : Nat) : Rule Char := do
  let n := numeralValue 16 (← exactly count isHexDigit)
  guard n.isValidChar
  return Char.ofNat n

/-- A character written with a backslash. -/
def escape : Rule Char := do
  char '\\'
  match ← satisfy fun _ => true with
  | 'b' => return '\x08'
  | 't' => return '\t'
  | 'n' => return '\n'
  | 'f' => return '\x0C'
  | 'r' => return '\r'
  | '"' => return '"'
  | '\\' => return '\\'
  | 'u' => hexChar 4
  | 'U' => hexChar 8
  | _ => failure

/-- A text on one line in double quotes. -/
def basicText : Rule String := do
  char '"'
  let cs ← many (satisfy (fun c => isPlain c && c != '"' && c != '\\') <|> escape)
  char '"'
  return String.ofList cs

/-- A text on one line in single quotes, without escapes. -/
def literalText : Rule String := do
  char '\''
  let cs ← run fun c => isPlain c && c != '\''
  char '\''
  return String.ofList cs

/-- Up to two quotes within a text that three quotes end. -/
def innerQuotes (quote : Char) : Rule (List Char) := do
  let quotes ← run (· == quote)
  guard (quotes.length = 1 ∨ quotes.length = 2)
  return quotes

/-- The three quotes that end a text, and the quotes before them that belong to it. -/
def closingQuotes (quote : Char) : Rule (List Char) := do
  let quotes ← run (· == quote)
  guard (3 ≤ quotes.length ∧ quotes.length ≤ 5)
  return quotes.drop 3

/-- A text between three quotes. A line end right behind the first three is left out. -/
def longText (quote : Char) (piece : Rule (List Char)) : Rule String := do
  word [quote, quote, quote]
  let _ ← optional newline
  let pieces ← many (piece <|> (do newline; return ['\n']) <|> innerQuotes quote)
  let last ← closingQuotes quote
  return String.ofList (pieces.flatten ++ last)

/-- A backslash at the end of a line, which joins it to the next character that is not blank. -/
def continuation : Rule Unit := do
  char '\\'
  spaces
  newline
  let _ ← many (newline <|> (do let _ ← satisfy isSpace))

def longBasicText : Rule String :=
  longText '"'
    ((do return [← satisfy fun c => isPlain c && c != '"' && c != '\\']) <|>
      (do return [← escape]) <|> (do continuation; return []))

def longLiteralText : Rule String :=
  longText '\'' (do return [← satisfy fun c => isPlain c && c != '\''])

/-- A text in any of the four notations. -/
def anyText : Rule String := longBasicText <|> basicText <|> longLiteralText <|> literalText

def bareKey : Rule String := do
  let cs ← run fun c => c.isAlphanum || c == '_' || c == '-'
  guard (cs ≠ [])
  return String.ofList cs

/-- The most parts that a dotted key may have. -/
def maxKeyParts : Nat := 79

/-- The parts of a key. -/
def key : Rule (List String) := do
  let parts ← separated1 (do
    spaces
    let part ← basicText <|> literalText <|> bareKey
    spaces
    return part) (char '.')
  guard (parts.length ≤ maxKeyParts)
  return parts

end DebugLine.Toml
