import DebugLine.ByteOrder
import DebugLine.LineError
import DebugLine.Leb128
import DebugLine.Text.Utf8

/-!
# Cursor over a section

A cursor stands at an offset of a section and sees a window, the bytes from there up to a limit.
Every read is a scanner run on the start of the window. The first failure is kept: from then on
each read gives that failure and moves nothing.
-/

namespace DebugLine

/-- A place in a section, the end of what may be read there, and how numbers are laid out. -/
structure Cursor where
  bytes : Array UInt8
  offset : Nat
  limit : Nat
  byteOrder : ByteOrder
  addressSize : UInt8
  failure : Option LineError
  deriving Repr, DecidableEq

/-- A computation that reads from a cursor. -/
abbrev Read := EStateM LineError Cursor

/-- The address sizes in use. -/
def addressSizes : List UInt8 := [1, 2, 4, 8]

/-- What a fault means to a reader that started at `offset` and passed `width` bytes. -/
def Fault.toError (offset width : Nat) : Fault → LineError
  | .short needed available => .unexpectedEnd (offset + width) needed available
  | .overflow => .leb128Overflow offset

namespace Cursor

variable {α : Type}

/-- A cursor that sees `bytes` from `offset` on, or nothing where `offset` is past the end. -/
def ofBytes (bytes : Array UInt8) (offset : Nat) (byteOrder : ByteOrder) (addressSize : UInt8) :
    Cursor :=
  { bytes, offset := min offset bytes.size, limit := bytes.size, byteOrder, addressSize,
    failure := none }

def remaining (c : Cursor) : Nat := c.limit - c.offset

def isEmpty (c : Cursor) : Bool := c.remaining == 0

/-- The bytes that may be read, in order. -/
def window (c : Cursor) : List UInt8 := (c.bytes.extract c.offset c.limit).toList

/-- The first `reach` bytes of the window. -/
def ahead (c : Cursor) (reach : Nat) : List UInt8 :=
  (c.bytes.extract c.offset (min c.limit (c.offset + reach))).toList

theorem ahead_eq_take_window (c : Cursor) (reach : Nat) :
    c.ahead reach = c.window.take reach := by
  simp only [ahead, window, Array.toList_extract, List.extract_eq_take_drop, List.take_take]
  congr 1
  omega

/-- Moves to `offset` and limits reads to `limit`, neither past the section. -/
def seek (c : Cursor) (offset limit : Nat) : Cursor :=
  let limit := min limit c.bytes.size
  { c with offset := min offset limit, limit }

/-- Limits reads to `limit` without moving, even where that is behind the cursor. -/
def limitTo (c : Cursor) (limit : Nat) : Cursor :=
  { c with limit := min limit c.bytes.size }

/-- Gives the kept failure, if there is one. -/
def check : Read Unit := fun c =>
  match c.failure with
  | some e => .error e c
  | none => .ok () c

/-- Fails with the kept failure, or else with `e`, which is then kept. -/
def fail (e : LineError) : Read α := fun c =>
  match c.failure with
  | some first => .error first c
  | none => .error e { c with failure := some e }

/-- Fails with `e` unless `p` holds. -/
def require (p : Prop) [Decidable p] (e : LineError) : Read Unit :=
  if p then return () else fail e

def position : Read Nat := do return (← get).offset

/-- Runs a scanner on the next `reach` bytes of the window and passes what it took. -/
def scan (reach : Nat) (scanner : List UInt8 → Scan α) : Read α := fun c =>
  match c.failure with
  | some e => .error e c
  | none =>
    match scanner (c.ahead reach) with
    | .done value width => .ok value { c with offset := c.offset + width }
    | .stopped fault width =>
      let e := fault.toError c.offset width
      .error e { c with offset := c.offset + width, failure := some e }

/-- The next `n` bytes. -/
def take (n : Nat) : Read (List UInt8) := scan n (Scan.exactly n)

def skip (n : Nat) : Read Unit := do
  let _ ← take n

/-- The number in the next `width` bytes. -/
def number (width : Nat) : Read Nat := do
  let bytes ← take width
  return (← get).byteOrder.value bytes

def uint8 : Read UInt8 := do return UInt8.ofNat (← number 1)

def uint16 : Read UInt16 := do return UInt16.ofNat (← number 2)

def uint32 : Read UInt32 := do return UInt32.ofNat (← number 4)

def uint64 : Read UInt64 := do return UInt64.ofNat (← number 8)

def uleb128 : Read UInt64 := scan Leb128.maxGroups Leb128.scanUnsigned

def sleb128 : Read Int64 := scan Leb128.maxGroups Leb128.scanSigned

/-- The text up to a zero byte, which is passed too. -/
def text : Read String := do
  let bytes ← scan (← get).remaining Scan.zeroEnded
  return Utf8.decodeLossy bytes

/-- An address of the target machine. -/
def address : Read UInt64 := do
  let size := (← get).addressSize
  if size ∈ addressSizes then return UInt64.ofNat (← number size.toNat)
  else fail (.unsupportedAddressSize size)

/-- Runs `item` `n` times. -/
def times (item : Read α) : (n : Nat) → Read (List α)
  | 0 => return []
  | n + 1 => do
    let x ← item
    let xs ← times item n
    return x :: xs

end Cursor
end DebugLine
