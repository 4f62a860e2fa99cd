import DebugLine.Toml.Scalar

/-!
# TOML documents

A document is a list of pairs and then sections, each a header with pairs below it. The grammar
is read first, and then the sections are put together into one table, which fails where a key or
a table is defined twice.
-/

namespace DebugLine.Toml

open Rule

/-- The most arrays and inline tables that may lie within each other. -/
def maxDepth : Nat := 79

def array (item : Rule Node) : Rule Node := do
  char '['
  let items ← separated (do
    gap
    let x ← item
    gap
    return x) (char ',')
  if items.length ≠ 0 then
    let _ ← optional (char ',')
  gap
  char ']'
  return .array items

/-- A dotted key and a value of the given form. -/
def pair (value : Rule Node) : Rule (List String × Node) := do
  let path ← key
  char '='
  spaces
  let x ← value
  return (path, x)

def inlineTable (value : Rule Node) : Rule Node := do
  char '\x7b'
  spaces
  let pairs ← separated (do
    let p ← pair value
    spaces
    return p) (char ',')
  spaces
  char '\x7d'
  return .table .inline (← Rule.lift (Entries.insertAll pairs []))

/-- A value in which at most `depth` arrays and inline tables lie within each other. -/
def value : (depth : Nat) → Rule Node
  | 0 => scalar
  | depth + 1 => array (value depth) <|> inlineTable (value depth) <|> scalar

/-- A line without a header, and the pair on it if there is one. -/
def pairLine : Rule (Option (List String × Node)) := do
  spaces
  (do
    newline
    return none) <|>
  (do
    comment
    newline <|> endOfText
    return none) <|>
  (do
    let p ← pair (value maxDepth)
    endOfLine
    return some p)

/-- Lines up to the next header. -/
def pairLines : Rule (List (List String × Node)) := do
  return (← many pairLine).filterMap id

/-- What stands in brackets above a section. -/
inductive SectionHeader where
  | table (path : List String)
  | element (path : List String)
  deriving Repr, DecidableEq

def headerLine : Rule SectionHeader := do
  spaces
  let header ←
    (do
      word ['[', '[']
      let path ← key
      word [']', ']']
      return SectionHeader.element path) <|>
    (do
      char '['
      let path ← key
      char ']'
      return SectionHeader.table path)
  endOfLine
  return header

/-- Adds a section to the whole table. -/
def addSection (root : Entries) : SectionHeader × List (List String × Node) → Option Entries
  | (.table path, pairs) => root.change (Entries.openTable pairs) path
  | (.element path, pairs) => root.change (Entries.openElement pairs) path

/-- The pairs at the top and the sections. A byte order mark may precede them. -/
def document :
    Rule (List (List String × Node) × List (SectionHeader × List (List String × Node))) := do
  let _ ← optional (char '\uFEFF')
  let top ← pairLines
  let sections ← many (do
    let header ← headerLine
    return (header, ← pairLines))
  spaces
  endOfText
  return (top, sections)

/-- The table that a text describes. -/
def parse? (text : String) : Option Entries := do
  let ((top, sections), _) ← document text.toList
  let root ← Entries.insertAll top []
  sections.foldlM addSection root

end DebugLine.Toml
