/-!
# Scanning bytes ahead

A scanner looks at the bytes in front of a reader. It yields a value and the number of bytes that
the value takes, or stops at a fault after some bytes. It knows nothing of offsets, so what it
does depends only on the bytes.
-/

namespace DebugLine

/-- Why a scanner stops. -/
inductive Fault where
  /-- `needed` bytes are wanted where `available` are left. -/
  | short (needed available : Nat)
  /-- A LEB128 number has more than 64 bits. -/
  | overflow
  deriving Repr, DecidableEq

/-- The outcome of a scanner; `width` counts the bytes it passed. -/
inductive Scan (α : Type) where
  | done (value : α) (width : Nat)
  | stopped (fault : Fault) (width : Nat)
  deriving Repr, DecidableEq

namespace Scan

variable {α β : Type}

def map (f : α → β) : Scan α → Scan β
  | done value width => done (f value) width
  | stopped fault width => stopped fault width

/-- The same outcome after one byte more. -/
def shift : Scan α → Scan α
  | done value width => done value (width + 1)
  | stopped fault width => stopped fault (width + 1)

/-- All of `ahead`, if there are `n` bytes. -/
def exactly (n : Nat) (ahead : List UInt8) : Scan (List UInt8) :=
  if ahead.length < n then stopped (.short n ahead.length) 0 else done (ahead.take n) n

/-- The bytes up to a zero byte, which is passed too. Without one, the zero byte is what is
missing after all that is ahead. -/
def zeroEnded (ahead : List UInt8) : Scan (List UInt8) :=
  let text := ahead.takeWhile (· != 0)
  if text.length < ahead.length then done text (text.length + 1)
  else stopped (.short (ahead.length + 1) ahead.length) 0

end Scan
end DebugLine
