import EcmaLua.Number.Decimal
import EcmaLua.Text.Digits

/-!
# Numerals in other bases

A numeral whose base is a power of two is read digit by digit in binary64: the value so far is
rounded after every digit. Numerals of at most fifty-three bits are exact.
-/

namespace EcmaLua

/-- The natural number rounded to fifty-three significant bits, a half going to the even one. -/
def roundSignificand (n : Nat) : Nat :=
  let excess := n.log2 - 52
  (Ratio.mk n (Nat.pow 2 excess)).roundEven * Nat.pow 2 excess

/-- The number of a numeral, rounded after every digit. -/
def Double.ofNumeral (base : Nat) (digits : List Char) : Double :=
  .ofNat (digits.foldl
    (fun n c => roundSignificand (n * base + (Text.hexValue? c).getD 0)) 0)

end EcmaLua
