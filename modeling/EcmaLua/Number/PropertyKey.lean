import EcmaLua.Number.Decimal
import EcmaLua.Text.Digits

/-!
# Numbers as property keys

A numeric property key is looked up under its JavaScript string form: the shortest digits,
written positionally while the decimal point stands within twenty-one places after the first
digit or six before it, and in scientific notation with a signed exponent otherwise.
-/

namespace EcmaLua

namespace Decimal

/-- The string form of a positive number with the given shortest digits. -/
def keyText (d : Decimal) : List Char :=
  let digits := d.digits
  let count : Int := digits.length
  let point := d.leading + 1
  if count ≤ point ∧ point ≤ 21 then digits ++ Text.zeros (point - count).toNat
  else if 0 < point ∧ point ≤ 21 then
    digits.take point.toNat ++ '.' :: digits.drop point.toNat
  else if -6 < point ∧ point ≤ 0 then '0' :: '.' :: (Text.zeros (-point).toNat ++ digits)
  else
    let power := point - 1
    let sign := if power < 0 then '-' else '+'
    let fraction := if digits.length ≤ 1 then [] else '.' :: digits.drop 1
    digits.take 1 ++ fraction ++ 'e' :: sign :: Nat.toDigits 10 power.natAbs

end Decimal

/-- The property name that a number denotes as a key. -/
def Double.propertyKey (x : Double) : String :=
  if x.isNaN then "NaN"
  else if x.isZero then "0"
  else
    let sign := if x.negative then ['-'] else []
    let body := if x.isInfinite then "Infinity".toList else x.shortest.keyText
    String.ofList (sign ++ body)

end EcmaLua
