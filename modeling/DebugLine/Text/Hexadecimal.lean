/-!
# Hexadecimal numerals

Numbers are shown in base sixteen with capital digits, as offsets in a section usually are.
-/

namespace DebugLine

/-- The capital hexadecimal numeral of `n`, without leading zeros. -/
def hex (n : Nat) : String :=
  String.ofList ((Nat.toDigits 16 n).map Char.toUpper)

/-- The capital hexadecimal numeral of `n`, filled with zeros up to `width` digits. -/
def hexPadded (width n : Nat) : String :=
  let digits := (Nat.toDigits 16 n).map Char.toUpper
  String.ofList (List.replicate (width - digits.length) '0' ++ digits)

end DebugLine
