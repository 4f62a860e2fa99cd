/-!
# Grammar rules

A rule takes characters from the front of a text and yields a value, or does not apply. Where one
of two rules does not apply the other is tried on the same text.
-/

namespace DebugLine.Toml

abbrev Rule := StateT (List Char) Option

namespace Rule

variable {α β : Type}

/-- The value of a computation that may fail, which takes nothing. -/
def lift (value : Option α) : Rule α := fun text => value.map fun x => (x, text)

def satisfy (p : Char → Bool) : Rule Char
  | c :: rest => if p c then some (c, rest) else none
  | [] => none

def char (c : Char) : Rule Unit := do
  let _ ← satisfy (· == c)

/-- The characters of `word`, one after another. -/
def word : List Char → Rule Unit
  | [] => return ()
  | c :: cs => do
    char c
    word cs

/-- The longest start of the text whose characters all satisfy `p`. -/
def run (p : Char → Bool) : Rule (List Char) := fun text => some (text.span p)

def manyWithin (rule : Rule α) : (most : Nat) → Rule (List α)
  | 0 => return []
  | most + 1 =>
    (do
      let x ← rule
      let xs ← manyWithin rule most
      return x :: xs) <|> return []

/-- The rule as often as it applies. A rule that takes a character at least applies no more often
than there are characters. -/
def many (rule : Rule α) : Rule (List α) := do
  manyWithin rule (← get).length

/-- The rule once or more, with `separator` in between. -/
def separated1 (rule : Rule α) (separator : Rule β) : Rule (List α) := do
  let x ← rule
  let xs ← many (do
    let _ ← separator
    rule)
  return x :: xs

/-- The rule as often as it applies, with `separator` in between. -/
def separated (rule : Rule α) (separator : Rule β) : Rule (List α) :=
  separated1 rule separator <|> return []

def endOfText : Rule Unit
  | [] => some ((), [])
  | _ :: _ => none

end Rule
end DebugLine.Toml
