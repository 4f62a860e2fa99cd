/-!
# Byte order

Numbers of a fixed width as bytes, least significant byte first or last.
-/

namespace DebugLine

inductive ByteOrder where
  | little
  | big
  deriving Repr, DecidableEq

namespace ByteOrder

/-- The number whose bytes, least significant first, are `bytes`. -/
def littleValue : List UInt8 → Nat
  | [] => 0
  | b :: bs => b.toNat + 256 * littleValue bs

/-- The low `width` bytes of `n`, least significant first. -/
def littleBytes : (width n : Nat) → List UInt8
  | 0, _ => []
  | width + 1, n => UInt8.ofNat n :: littleBytes width (n / 256)

def value : ByteOrder → List UInt8 → Nat
  | little, bytes => littleValue bytes
  | big, bytes => littleValue bytes.reverse

/-- The low `width` bytes of `n` in this order. -/
def bytes (order : ByteOrder) (width n : Nat) : List UInt8 :=
  match order with
  | little => littleBytes width n
  | big => (littleBytes width n).reverse

@[simp] theorem length_littleBytes (width n : Nat) : (littleBytes width n).length = width := by
  induction width generalizing n with
  | zero => rfl
  | succ width ih => simp [littleBytes, ih]

@[simp] theorem length_bytes (order : ByteOrder) (width n : Nat) :
    (order.bytes width n).length = width := by
  cases order <;> simp [bytes]

theorem littleValue_littleBytes (width n : Nat) :
    littleValue (littleBytes width n) = n % Nat.pow 256 width := by
  induction width generalizing n with
  | zero => simp [littleBytes, littleValue, Nat.mod_one]
  | succ width ih =>
    rw [littleBytes, littleValue, ih, UInt8.toNat_ofNat',
      show Nat.pow 256 (width + 1) = 256 * Nat.pow 256 width from Nat.pow_succ', Nat.mod_mul]

/-- Writing a number and reading it back keeps its low bytes. -/
@[simp] theorem value_bytes (order : ByteOrder) (width n : Nat) :
    order.value (order.bytes width n) = n % Nat.pow 256 width := by
  cases order <;> simp [value, bytes, littleValue_littleBytes]

end ByteOrder
end DebugLine
