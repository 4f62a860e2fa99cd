import DebugLine.Toml.Lexical
import DebugLine.Toml.Node

/-!
# Numbers, truth values and moments of TOML

Integers have 64 bits. A number with a fraction or an exponent must not be so large that the
nearest double is infinite, unless it is negative.
-/

namespace DebugLine.Toml

open Rule

/-- Digits, with single underscores between some of them. -/
def digitGroups (isDigit : Char → Bool) : Rule (List Char) := do
  let first ← satisfy isDigit
  let rest ← many (satisfy isDigit <|> (do char '_'; satisfy isDigit))
  return first :: rest

/-- Whether a minus sign precedes; a plus sign may. -/
def sign : Rule Bool := (do char '-'; return true) <|> (do char '+'; return false) <|> return false

/-- Decimal digits without a leading zero. -/
def wholeDigits : Rule (List Char) := (do char '0'; return ['0']) <|> digitGroups Char.isDigit

def minInteger : Int := Int64.minValue.toInt

def maxInteger : Int := Int64.maxValue.toInt

/-- An integer in the base that the letter behind the zero tells. -/
def basedInteger (letter : Char) (base : Nat) (isDigit : Char → Bool) : Rule Int := do
  word ['0', letter]
  return numeralValue base (← digitGroups isDigit)

def decimalInteger : Rule Int := do
  let negative ← sign
  let n := numeralValue 10 (← wholeDigits)
  return if negative then -n else n

def integer : Rule Int := do
  let n ← basedInteger 'x' 16 isHexDigit <|>
    basedInteger 'o' 8 (fun c => '0' ≤ c && c ≤ '7') <|>
    basedInteger 'b' 2 (fun c => c == '0' || c == '1') <|> decimalInteger
  guard (minInteger ≤ n ∧ n ≤ maxInteger)
  return n

/-- The least number whose nearest double is infinite: it lies halfway between the largest double
and the power of two above that. -/
def overflowBound : Nat := ((1 <<< 54) - 1) <<< 970

/-- Whether the absolute value reaches `overflowBound`. Only where the position of the leading
digit leaves that open are the powers of ten computed. -/
def Decimal.overflows (d : Decimal) : Bool :=
  let leading := (Nat.toDigits 10 d.digits).length + d.exponent
  if d.digits = 0 ∨ leading < 309 then false
  else if 310 ≤ leading then true
  else if 0 ≤ d.exponent then overflowBound ≤ d.digits * Nat.pow 10 d.exponent.toNat
  else overflowBound * Nat.pow 10 (-d.exponent).toNat ≤ d.digits

def fraction : Rule (List Char) := do
  char '.'
  digitGroups Char.isDigit

def exponent : Rule Int := do
  let _ ← satisfy fun c => c == 'e' || c == 'E'
  let negative ← sign
  let n := numeralValue 10 (← digitGroups Char.isDigit)
  return if negative then -n else n

def decimal : Rule Decimal := do
  let negative ← sign
  let whole ← wholeDigits
  let behindPoint ← optional fraction
  let power ← optional exponent
  guard (behindPoint.isSome ∨ power.isSome)
  let digits := behindPoint.getD []
  return ⟨negative, numeralValue 10 (whole ++ digits), power.getD 0 - digits.length⟩

def floating : Rule Floating :=
  (do
    let d ← decimal
    guard (d.negative ∨ ¬d.overflows)
    return .finite d) <|>
  (do
    let negative ← sign
    word ['i', 'n', 'f']
    return .infinite negative) <|>
  (do
    let _ ← sign
    word ['n', 'a', 'n']
    return .notANumber)

def boolean : Rule Bool :=
  (do word ['t', 'r', 'u', 'e']; return true) <|> (do word ['f', 'a', 'l', 's', 'e']; return false)

/-- A number of `count` decimal digits. -/
def fixedNumber (count : Nat) : Rule Nat := do
  return numeralValue 10 (← exactly count Char.isDigit)

/-- A number of two digits in the given range. -/
def twoDigits (least most : Nat) : Rule Nat := do
  let n ← fixedNumber 2
  guard (least ≤ n ∧ n ≤ most)
  return n

def isLeapYear (year : Nat) : Bool := year % 4 == 0 && (year % 100 != 0 || year % 400 == 0)

def daysInMonth (year month : Nat) : Nat :=
  if month = 2 then if isLeapYear year then 29 else 28
  else if month = 4 ∨ month = 6 ∨ month = 9 ∨ month = 11 then 30
  else 31

def date : Rule Date := do
  let year ← fixedNumber 4
  char '-'
  let month ← twoDigits 1 12
  char '-'
  let day ← twoDigits 1 (daysInMonth year month)
  return ⟨year, month, day⟩

/-- A time of day. The sixtieth second is a leap second. -/
def timeOfDay : Rule TimeOfDay := do
  let hour ← twoDigits 0 23
  char ':'
  let minute ← twoDigits 0 59
  char ':'
  let second ← twoDigits 0 60
  let fraction ← optional (do
    char '.'
    let digits ← run Char.isDigit
    guard (digits ≠ [])
    return digits)
  return ⟨hour, minute, second, fraction.getD []⟩

/-- The minutes by which local time is ahead. -/
def timeOffset : Rule Int :=
  (do
    let _ ← satisfy fun c => c == 'Z' || c == 'z'
    return 0) <|>
  (do
    let c ← satisfy fun c => c == '+' || c == '-'
    let hours ← twoDigits 0 23
    char ':'
    let minutes ← twoDigits 0 59
    let n : Int := 60 * hours + minutes
    return if c == '-' then -n else n)

def moment : Rule Moment :=
  (do
    let day ← date
    let time ← optional (do
      let _ ← satisfy fun c => c == 'T' || c == 't' || c == ' '
      let time ← timeOfDay
      return (time, ← optional timeOffset))
    return ⟨some day, time.map (·.1), time.bind (·.2)⟩) <|>
  (do return ⟨none, some (← timeOfDay), none⟩)

/-- A value without parts. What starts like several kinds is of the first kind that applies. -/
def scalar : Rule Node :=
  (do return .text (← anyText)) <|>
  (do return .boolean (← boolean)) <|>
  (do return .moment (← moment)) <|>
  (do return .float (← floating)) <|>
  (do return .integer (← integer))

end DebugLine.Toml
