import EcmaLua.Number.Radix
import EcmaLua.Surface.Reader.Place
import EcmaLua.Text.Identifier

/-!
# Numerals

The numbers of a script: decimal ones with fraction and exponent, those in a base with a mark,
octal ones that start with a zero, and integers of any size with a trailing `n`.
-/

namespace EcmaLua.Surface.Reader

inductive Numeral where
  | number (value : Double)
  | bigint (value : Nat)
deriving DecidableEq, Repr

/-- A number is not followed by a name. -/
def endNumber (value : Double) (place : Place) : Scan (Numeral × Place) :=
  match place.rest with
  | c :: _ =>
    if Text.isIdentifierStart c then throw ⟨.badNumber, place.offset⟩
    else pure (.number value, place)
  | [] => pure (.number value, place)

/-- A number in a base other than ten, from behind its mark. -/
def radixNumber (base : Nat) (place : Place) : Scan (Numeral × Place) :=
  let (digits, after) := digitRun base place.offset [] place.rest
  if digits.isEmpty then throw ⟨.badNumber, place.offset⟩
  else
    match after.rest with
    | 'n' :: rest => pure (.bigint (Text.ofDigits base digits), ⟨after.offset + 1, rest⟩)
    | _ => endNumber (.ofNumeral base digits) after

/-- The fraction at a place: its digits, if there is a point. -/
def fractionPart (place : Place) : List Char × Place :=
  match place.rest with
  | '.' :: rest => digitRun 10 (place.offset + 1) [] rest
  | _ => ([], place)

/-- The exponent at a place, zero if there is none. -/
def exponentPart (place : Place) : Scan (Int × Place) :=
  let digitsFrom (negative : Bool) (offset : Nat) (rest : List Char) : Scan (Int × Place) :=
    let (digits, after) := digitRun 10 offset [] rest
    let value : Int := Text.ofDigits 10 digits
    if digits.isEmpty then throw ⟨.badNumber, offset⟩
    else pure (if negative then -value else value, after)
  match place.rest with
  | 'e' :: '-' :: rest | 'E' :: '-' :: rest => digitsFrom true (place.offset + 2) rest
  | 'e' :: '+' :: rest | 'E' :: '+' :: rest => digitsFrom false (place.offset + 2) rest
  | 'e' :: rest | 'E' :: rest => digitsFrom false (place.offset + 1) rest
  | _ => pure (0, place)

/-- Whether whole digits are octal: they start with a zero, and are more and octal only. -/
def isOctal (whole : List Char) : Bool :=
  whole.head? == some '0' && 1 < whole.length && whole.all (isDigitIn 8)

/-- A number that starts with a digit or a point. -/
def decimalNumber (place : Place) : Scan (Numeral × Place) := do
  let (whole, afterWhole) := digitRun 10 place.offset [] place.rest
  match whole, afterWhole.rest with
  | _ :: _, 'n' :: rest =>
    pure (.bigint (Text.ofDigits 10 whole), ⟨afterWhole.offset + 1, rest⟩)
  | _, _ =>
    if isOctal whole then endNumber (.ofNumeral 8 whole) afterWhole
    else do
      let (fraction, afterFraction) := fractionPart afterWhole
      let (exponent, after) ← exponentPart afterFraction
      if whole.isEmpty && fraction.isEmpty then throw ⟨.badNumber, place.offset⟩
      else
        let coefficient := Text.ofDigits 10 (whole ++ fraction)
        endNumber (.ofDecimal false ⟨coefficient, exponent - fraction.length⟩) after

def scanNumeral (place : Place) : Scan (Numeral × Place) :=
  match place.rest with
  | '0' :: 'x' :: rest | '0' :: 'X' :: rest => radixNumber 16 ⟨place.offset + 2, rest⟩
  | '0' :: 'o' :: rest | '0' :: 'O' :: rest => radixNumber 8 ⟨place.offset + 2, rest⟩
  | '0' :: 'b' :: rest | '0' :: 'B' :: rest => radixNumber 2 ⟨place.offset + 2, rest⟩
  | _ => decimalNumber place

end EcmaLua.Surface.Reader
