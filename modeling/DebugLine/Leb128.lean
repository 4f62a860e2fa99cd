import DebugLine.Scan

/-!
# LEB128 numbers

A number is a run of groups of seven bits, lowest first. Every byte but the last has its high bit
set. At most ten groups are read: nine of them hold 63 bits, so the tenth may only add bit 63 of
an unsigned number, or the sign of a signed one.
-/

namespace DebugLine.Leb128

/-- The seven bits that a byte adds to a number. -/
def payload (b : UInt8) : Nat := b.toNat % 128

def continues (b : UInt8) : Bool := 128 ≤ b.toNat

/-- The number of groups that 64 bits take. -/
def maxGroups : Nat := 10

/-- The tenth groups allowed to an unsigned number. -/
def unsignedTop (b : UInt8) : Bool := b == 0x00 || b == 0x01

/-- The tenth groups allowed to a signed number. -/
def signedTop (b : UInt8) : Bool := b == 0x00 || b == 0x7F

/-- The groups of one number, of which there may be `room`; the last of that many satisfies
`top`. -/
def groups (top : UInt8 → Bool) : (room : Nat) → (ahead : List UInt8) → Scan (List UInt8)
  | _, [] => .stopped (.short 1 0) 0
  | room, b :: bs =>
    if room = 1 && !top b then .stopped .overflow 1
    else if continues b then ((groups top (room - 1) bs).map (b :: ·)).shift
    else .done [b] 1

/-- The sum of the payloads, each worth 128 times the one before it. -/
def unsignedValue : List UInt8 → Nat
  | [] => 0
  | b :: bs => payload b + 128 * unsignedValue bs

/-- The last group counts its bit 6 as a sign. -/
def isNegative (bytes : List UInt8) : Bool :=
  match bytes.getLast? with
  | some b => 64 ≤ payload b
  | none => false

/-- The number in two's complement of as many bits as the payloads have. -/
def signedValue (bytes : List UInt8) : Int :=
  if isNegative bytes then (unsignedValue bytes : Int) - Int.pow 128 bytes.length
  else unsignedValue bytes

def scanUnsigned (ahead : List UInt8) : Scan UInt64 :=
  (groups unsignedTop maxGroups ahead).map fun bytes => UInt64.ofNat (unsignedValue bytes)

def scanSigned (ahead : List UInt8) : Scan Int64 :=
  (groups signedTop maxGroups ahead).map fun bytes => Int64.ofInt (signedValue bytes)

/-- The fewest groups that hold `n`, up to `room`. -/
def unsignedGroups : (room n : Nat) → List UInt8
  | 0, _ => []
  | room + 1, n =>
    if n < 128 then [UInt8.ofNat n]
    else UInt8.ofNat (n % 128 + 128) :: unsignedGroups room (n / 128)

/-- The fewest groups that hold `n` with its sign, up to `room`. -/
def signedGroups : (room : Nat) → (n : Int) → List UInt8
  | 0, _ => []
  | room + 1, n =>
    let low := (n % 128).toNat
    if -64 ≤ n ∧ n < 64 then [UInt8.ofNat low]
    else UInt8.ofNat (low + 128) :: signedGroups room (n / 128)

def encodeUnsigned (n : UInt64) : List UInt8 := unsignedGroups maxGroups n.toNat

def encodeSigned (n : Int64) : List UInt8 := signedGroups maxGroups n.toInt

end DebugLine.Leb128
