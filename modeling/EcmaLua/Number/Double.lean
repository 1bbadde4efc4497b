/-!
# Binary64 numbers

A number is its sixty-four bits. A finite number is `± m · 2 ^ q` with a natural significand
`m`, and reading and writing numbers is exact arithmetic on `m` and `q`.
-/

namespace EcmaLua

/-- A binary64 number, given by its bits. -/
structure Double where
  bits : UInt64
deriving DecidableEq, Repr, Inhabited

namespace Double

/-- The sign bit. -/
def negative (x : Double) : Bool := x.bits.toNat / Nat.pow 2 63 == 1

/-- The exponent field, `2047` for the infinities and for NaN. -/
def biased (x : Double) : Nat := x.bits.toNat / Nat.pow 2 52 % Nat.pow 2 11

/-- The fraction field. -/
def fraction (x : Double) : Nat := x.bits.toNat % Nat.pow 2 52

def isNaN (x : Double) : Bool := x.biased == 2047 && x.fraction != 0

def isInfinite (x : Double) : Bool := x.biased == 2047 && x.fraction == 0

/-- Both zeros. -/
def isZero (x : Double) : Bool := x.biased == 0 && x.fraction == 0

/-- The `m` of `± m · 2 ^ q`. -/
def significand (x : Double) : Nat :=
  if x.biased = 0 then x.fraction else Nat.pow 2 52 + x.fraction

/-- The `q` of `± m · 2 ^ q`. -/
def scale (x : Double) : Int :=
  if x.biased = 0 then -1074 else (x.biased : Int) - 1075

/-- The number with the given sign bit and fields. -/
def ofFields (negative : Bool) (biased fraction : Nat) : Double :=
  ⟨UInt64.ofNat ((if negative then Nat.pow 2 63 else 0) + biased * Nat.pow 2 52 + fraction)⟩

def zero (negative : Bool) : Double := ofFields negative 0 0

def infinity (negative : Bool) : Double := ofFields negative 2047 0

/-- The NaN that stands for all of them. -/
def nan : Double := ofFields false 2047 (Nat.pow 2 51)

end Double

end EcmaLua
