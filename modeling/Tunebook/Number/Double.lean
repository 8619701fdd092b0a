import Tunebook.Number.Word

/-! Binary numbers of 53 significant bits, rounded from exact quotients of natural numbers. -/
namespace Tunebook

/-- A quotient that is not negative. Its denominator is positive. -/
structure Quotient where
  num : Nat
  den : Nat

namespace Quotient

/-- The quotient times a power of a base. -/
def scale (q : Quotient) (base : Nat) (exponent : Int) : Quotient :=
  if 0 ≤ exponent then ⟨q.num * Nat.pow base exponent.toNat, q.den⟩
  else ⟨q.num, q.den * Nat.pow base (-exponent).toNat⟩

def floor (q : Quotient) : Nat :=
  q.num / q.den

/-- The nearest whole number, the even one of two. -/
def roundEven (q : Quotient) : Nat :=
  let twice := 2 * (q.num % q.den)
  if twice < q.den then q.floor
  else if q.den < twice then q.floor + 1
  else q.floor + q.floor % 2

/-- The nearest whole number, the larger one of two. -/
def roundUp (q : Quotient) : Nat :=
  (2 * q.num + q.den) / (2 * q.den)

def lt (a b : Quotient) : Bool :=
  a.num * b.den < b.num * a.den

def gap (a b : Quotient) : Quotient :=
  ⟨(a.num * b.den - b.num * a.den) + (b.num * a.den - a.num * b.den), a.den * b.den⟩

/-- A power of two near the quotient, at most one step above it. -/
def size (q : Quotient) : Int :=
  (Nat.log2 q.num : Int) - (Nat.log2 q.den : Int)

end Quotient

/-- `mantissa * 2 ^ exponent`, with a sign that zero has too, or a value beyond all of those. -/
inductive Double where
  | finite (negative : Bool) (mantissa : Nat) (exponent : Int)
  | infinite (negative : Bool)
  | nan
  deriving DecidableEq, Repr

namespace Double

def minExponent : Int := -1074

def maxExponent : Int := 971

def mantissas : Nat := 0x20000000000000

def zero (negative : Bool) : Double :=
  finite negative 0 minExponent

/-- The number nearest to a quotient, the one of even mantissa of two. -/
def ofQuotient (negative : Bool) (q : Quotient) : Double :=
  if q.num = 0 then zero negative
  else
    let low := max minExponent (q.size - 53)
    let unit := if (q.scale 2 (-low)).floor < mantissas then low else low + 1
    let mantissa := (q.scale 2 (-unit)).roundEven
    let (mantissa, unit) :=
      if mantissa = mantissas then (mantissas / 2, unit + 1) else (mantissa, unit)
    if maxExponent < unit then infinite negative else finite negative mantissa unit

/-- The number nearest to `digits * 10 ^ exponent`. Far out the exponent alone decides. -/
def ofDecimal (negative : Bool) (digits : Nat) (exponent : Int) : Double :=
  if digits = 0 || exponent + Nat.log2 digits < -400 then zero negative
  else if 400 < exponent then infinite negative
  else ofQuotient negative ((Quotient.mk digits 1).scale 10 exponent)

def ofInt (n : Int) : Double :=
  ofDecimal (n < 0) n.natAbs 0

/-- The product with a power of ten, or the quotient by one. The power is rounded first. -/
def timesTen (x : Double) (exponent : Int) : Double :=
  match x, ofDecimal false 1 exponent.natAbs with
  | finite negative a e, finite _ b f =>
    if 0 ≤ exponent then ofQuotient negative ((Quotient.mk (a * b) 1).scale 2 (e + f))
    else ofQuotient negative ((Quotient.mk a b).scale 2 (e - f))
  | x, _ => x

def isZero : Double → Bool
  | finite _ mantissa _ => mantissa = 0
  | _ => false

end Double
end Tunebook
