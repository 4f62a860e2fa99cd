/-!
# UTF-8 text

Bytes become characters one at a time. Bytes that belong to no character are reported in
maximal pieces: a piece is the longest start of some character, or a single byte that starts
none. `decodeLossy` shows each piece as one replacement character and `decode?` accepts only
text without such pieces.
-/

namespace DebugLine.Utf8

/-- A started character: the range of its next byte, the number of bytes after that one, and the
code point read so far. -/
structure Pending where
  low : UInt8
  high : UInt8
  following : Nat
  code : Nat
  deriving Repr, DecidableEq

/-- What a byte means where a character may start. -/
inductive Lead where
  | whole (c : Char)
  | start (p : Pending)
  | stray
  deriving Repr, DecidableEq

/-- The narrowed second bytes after `E0`, `ED`, `F0` and `F4` rule out overlong forms, surrogates
and numbers above `10FFFF`. -/
def lead (b : UInt8) : Lead :=
  let n := b.toNat
  if n < 0x80 then .whole (Char.ofNat n)
  else if n < 0xC2 then .stray
  else if n < 0xE0 then .start ⟨0x80, 0xBF, 0, n - 0xC0⟩
  else if n = 0xE0 then .start ⟨0xA0, 0xBF, 1, 0⟩
  else if n = 0xED then .start ⟨0x80, 0x9F, 1, 0xD⟩
  else if n < 0xF0 then .start ⟨0x80, 0xBF, 1, n - 0xE0⟩
  else if n = 0xF0 then .start ⟨0x90, 0xBF, 2, 0⟩
  else if n < 0xF4 then .start ⟨0x80, 0xBF, 2, n - 0xF0⟩
  else if n = 0xF4 then .start ⟨0x80, 0x8F, 2, 4⟩
  else .stray

namespace Pending

def accepts (p : Pending) (b : UInt8) : Bool := p.low ≤ b && b ≤ p.high

def codeWith (p : Pending) (b : UInt8) : Nat := 64 * p.code + b.toNat % 64

end Pending

/-- The characters of `bytes`, after the started character `pending`, with `none` for each piece
that is no character. -/
def decodeFrom : Option Pending → List UInt8 → List (Option Char)
  | none, [] => []
  | some _, [] => [none]
  | none, b :: bs =>
    match lead b with
    | .whole c => some c :: decodeFrom none bs
    | .start p => decodeFrom (some p) bs
    | .stray => none :: decodeFrom none bs
  | some p, b :: bs =>
    if p.accepts b then
      match p.following with
      | 0 => some (Char.ofNat (p.codeWith b)) :: decodeFrom none bs
      | n + 1 => decodeFrom (some ⟨0x80, 0xBF, n, p.codeWith b⟩) bs
    else
      match lead b with
      | .whole c => none :: some c :: decodeFrom none bs
      | .start q => none :: decodeFrom (some q) bs
      | .stray => none :: none :: decodeFrom none bs

def decode (bytes : List UInt8) : List (Option Char) := decodeFrom none bytes

def replacement : Char := '\uFFFD'

/-- The text of `bytes`, with a replacement character for each piece that is no character. -/
def decodeLossy (bytes : List UInt8) : String :=
  String.ofList ((decode bytes).map fun c => c.getD replacement)

/-- The text of `bytes`, if they are well formed. -/
def decode? (bytes : List UInt8) : Option String :=
  ((decode bytes).mapM id).map String.ofList

end DebugLine.Utf8
