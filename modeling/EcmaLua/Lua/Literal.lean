import EcmaLua.Lua.Name
import EcmaLua.Number.Decimal

/-!
# Lua literals

Strings are written between double quotes with the escapes of Lua 5.2; bytes outside ASCII are
written as hexadecimal escapes when the string is given by its bytes and as themselves when it
is given as text. Numerals use the shortest digits that read back.
-/

namespace EcmaLua.Lua

/-- How a character or byte below 128 is written inside a quoted string. -/
def escapeAscii (n : Nat) : List Char :=
  if n = 0x5C then ['\\', '\\']
  else if n = 0x22 then ['\\', '"']
  else if n = 0x0A then ['\\', 'n']
  else if n = 0x0D then ['\\', 'r']
  else if n = 0x09 then ['\\', 't']
  else if n < 0x20 ∨ n = 0x7F then '\\' :: Text.padZeros 3 (Nat.toDigits 10 n)
  else [Char.ofNat n]

def escapeChar (c : Char) : List Char :=
  if c.toNat < 128 then escapeAscii c.toNat else [c]

def escapeByte (b : UInt8) : List Char :=
  if b.toNat < 128 then escapeAscii b.toNat
  else '\\' :: 'x' :: Text.padZeros 2 (Text.hexUpper b.toNat)

/-- The string literal of a text. -/
def quote (text : String) : String :=
  String.ofList ('"' :: (text.toList.flatMap escapeChar ++ ['"']))

/-- The string literal of a byte sequence. -/
def quoteBytes (bytes : List UInt8) : String :=
  String.ofList ('"' :: (bytes.flatMap escapeByte ++ ['"']))

/-- The suffix that reads the field `name`: a dot where the grammar allows it, else an index. -/
def fieldSuffix (name : String) : String :=
  if isName name then "." ++ name else "[" ++ quote name ++ "]"

/-- The numeral of a positive number with the given shortest digits: integers below `10 ^ 15`
have no fraction, the rest is positional from `10 ^ -4` up to `10 ^ 15` and scientific outside. -/
def numeralDigits (d : Decimal) : List Char :=
  let digits := d.digits
  let count : Int := digits.length
  let power := d.leading
  if power ≥ 15 ∨ power < -4 then
    let fraction := if digits.length ≤ 1 then [] else '.' :: digits.drop 1
    let sign := if power < 0 then ['-'] else []
    digits.take 1 ++ fraction ++ 'e' :: (sign ++ Nat.toDigits 10 power.natAbs)
  else if count ≤ power + 1 then digits ++ Text.zeros (power + 1 - count).toNat
  else if 0 ≤ power then
    digits.take (power + 1).toNat ++ '.' :: digits.drop (power + 1).toNat
  else '0' :: '.' :: (Text.zeros (-power - 1).toNat ++ digits)

/-- The Lua expression for a number. Both zeros are written `0`. -/
def numeral (x : Double) : String :=
  if x.isNaN then "(0/0)"
  else if x.isInfinite then if x.negative then "(-math.huge)" else "math.huge"
  else if x.isZero then "0"
  else String.ofList ((if x.negative then ['-'] else []) ++ numeralDigits x.shortest)

end EcmaLua.Lua
