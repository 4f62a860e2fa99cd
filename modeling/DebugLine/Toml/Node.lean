/-!
# TOML values and tables

A table remembers how it came about, since that decides whether a later line may add to it: a
dotted key adds to tables that dotted keys made, and a header opens a table that only longer
headers have named so far.
-/

namespace DebugLine.Toml

/-- The number in a decimal text: `digits * 10 ^ exponent`, negated where `negative` is set. -/
structure Decimal where
  negative : Bool
  digits : Nat
  exponent : Int
  deriving Repr, DecidableEq

inductive Floating where
  | finite (value : Decimal)
  | infinite (negative : Bool)
  | notANumber
  deriving Repr, DecidableEq

structure Date where
  year : Nat
  month : Nat
  day : Nat
  deriving Repr, DecidableEq

structure TimeOfDay where
  hour : Nat
  minute : Nat
  second : Nat
  /-- The digits behind the point. -/
  fraction : List Char
  deriving Repr, DecidableEq

/-- A date, a time of day, or both, and then perhaps the minutes by which local time is ahead. -/
structure Moment where
  date : Option Date
  time : Option TimeOfDay
  offset : Option Int
  deriving Repr, DecidableEq

/-- How a table came about. -/
inductive TableKind where
  /-- Written as a value. -/
  | inline
  /-- Opened by its own header. -/
  | header
  /-- Named by a longer header only. -/
  | implied
  /-- Named by a dotted key. -/
  | dotted
  deriving Repr, DecidableEq

inductive Node where
  | text (value : String)
  | integer (value : Int)
  | float (value : Floating)
  | boolean (value : Bool)
  | moment (value : Moment)
  | array (items : List Node)
  | table (kind : TableKind) (entries : List (String × Node))
  /-- An array of tables, each opened by a header of its own. -/
  | tables (elements : List (List (String × Node)))

/-- The keys of a table with their values, in the order in which they came. -/
abbrev Entries := List (String × Node)

namespace Entries

/-- Gives `key` the value `node`, in its old place where it has one. -/
def put (key : String) (node : Node) : Entries → Entries
  | [] => [(key, node)]
  | (k, n) :: rest => if k = key then (k, node) :: rest else (k, n) :: put key node rest

/-- Changes the last of a list of tables. -/
def changeLast (change : Entries → Option Entries) : List Entries → Option (List Entries)
  | [] => none
  | [last] => (change last).map ([·])
  | first :: rest => (changeLast change rest).map (first :: ·)

/-- Adds a pair with a dotted key. The last key must be new, and the table it belongs to must be
this one or one that dotted keys made. -/
def insert (value : Node) : (path : List String) → Entries → Option Entries
  | [], _ => none
  | [key], entries =>
    match entries.lookup key with
    | none => some (entries ++ [(key, value)])
    | some _ => none
  | key :: next :: rest, entries =>
    match entries.lookup key with
    | none => do
      let inner ← insert value (next :: rest) []
      return entries ++ [(key, .table .dotted inner)]
    | some (.table kind inner) => do
      guard (kind = .dotted ∨ kind = .implied ∧ rest ≠ [])
      let inner ← insert value (next :: rest) inner
      return put key (.table kind inner) entries
    | some (.tables elements) => do
      guard (rest ≠ [])
      let elements ← changeLast (insert value (next :: rest)) elements
      return put key (.tables elements) entries
    | some _ => none

/-- Adds pairs one after another. -/
def insertAll (pairs : List (List String × Node)) (entries : Entries) : Option Entries :=
  pairs.foldlM (fun entries (path, value) => insert value path entries) entries

/-- Changes what a header names. Tables on the way come about as needed, and of an array of
tables the last one is meant. -/
def change (f : Option Node → Option Node) : (path : List String) → Entries → Option Entries
  | [], _ => none
  | [key], entries => do
    let node ← f (entries.lookup key)
    return put key node entries
  | key :: next :: rest, entries =>
    match entries.lookup key with
    | none => do
      let inner ← change f (next :: rest) []
      return entries ++ [(key, .table .implied inner)]
    | some (.table kind inner) => do
      guard (kind ≠ .inline)
      let inner ← change f (next :: rest) inner
      return put key (.table kind inner) entries
    | some (.tables elements) => do
      let elements ← changeLast (change f (next :: rest)) elements
      return put key (.tables elements) entries
    | some _ => none

/-- Opens a table once, with the pairs below its header. -/
def openTable (pairs : List (List String × Node)) : Option Node → Option Node
  | none => (insertAll pairs []).map (.table .header)
  | some (.table .implied entries) => (insertAll pairs entries).map (.table .header)
  | some _ => none

/-- Opens one more table of an array, with the pairs below its header. -/
def openElement (pairs : List (List String × Node)) : Option Node → Option Node
  | none => (insertAll pairs []).map fun entries => .tables [entries]
  | some (.tables elements) =>
    (insertAll pairs []).map fun entries => .tables (elements ++ [entries])
  | some _ => none

end Entries
end DebugLine.Toml
