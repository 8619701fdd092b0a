import Tunebook.Number.Double

/-! The fewest digits that determine a binary number, and the number written with them by places. -/
namespace Tunebook

/-- Which of two equally near decimals is taken. -/
inductive Tie where
  | up | even
  deriving DecidableEq, Repr

def Tie.choose : Tie → Nat → Nat
  | up, c => c + 1
  | even, c => c + c % 2

/-- The magnitude of a finite number other than zero. -/
structure Magnitude where
  mantissa : Nat
  exponent : Int

namespace Magnitude

def quotient (x : Magnitude) : Quotient :=
  (Quotient.mk x.mantissa 1).scale 2 x.exponent

/-- The decimal `c * 10 ^ k` is nearer to this number than to any other. -/
def isNearest (x : Magnitude) (c : Nat) (k : Int) : Bool :=
  let candidate := (Quotient.mk c 1).scale 10 k
  let quarter (n : Nat) : Quotient := (Quotient.mk n 1).scale 2 (x.exponent - 2)
  let atPower := x.mantissa = Double.mantissas / 2 && Double.minExponent < x.exponent
  let below := quarter (4 * x.mantissa - if atPower then 1 else 2)
  let above := quarter (4 * x.mantissa + 2)
  if x.mantissa % 2 = 0 then !candidate.lt below && !above.lt candidate
  else below.lt candidate && candidate.lt above

/-- The nearer one of `c * 10 ^ k` and the next decimal. -/
def nearer (x : Magnitude) (tie : Tie) (c : Nat) (k : Int) : Nat :=
  let distance (n : Nat) : Quotient := x.quotient.gap ((Quotient.mk n 1).scale 10 k)
  if (distance c).lt (distance (c + 1)) then c
  else if (distance (c + 1)).lt (distance c) then c + 1
  else tie.choose c

/-- Tries the two neighbours of the number on each decimal grid, from `10 ^ k` down. -/
def shortestFrom (x : Magnitude) (tie : Tie) : Nat → Int → Nat × Int
  | 0, k => ((x.quotient.scale 10 (-k)).floor, k)
  | grids + 1, k =>
    let c := (x.quotient.scale 10 (-k)).floor
    match x.isNearest c k, x.isNearest (c + 1) k with
    | true, true => (x.nearer tie c k, k)
    | true, false => (c, k)
    | false, true => (c + 1, k)
    | false, false => shortestFrom x tie grids (k - 1)

def shortest (x : Magnitude) (tie : Tie) : Text × Int :=
  let (digits, k) := shortestFrom x tie 24 ((x.quotient.size + 1) * 30103 / 100000 + 2)
  (Nat.toDigits 10 digits, k)

end Magnitude

namespace Double

/-- Digits in positional notation, without a point where the number is whole. -/
def positional (digits : Text) (k : Int) : Text :=
  if 0 ≤ k then digits ++ List.replicate k.toNat '0'
  else
    let places := (-k).toNat
    if places < digits.length then
      digits.take (digits.length - places) ++ '.' :: digits.drop (digits.length - places)
    else '0' :: '.' :: List.replicate (places - digits.length) '0' ++ digits

def signed (negative : Bool) (t : Text) : Text :=
  if negative then '-' :: t else t

/-- The number as it is shown: never with an exponent, and rounded up between two decimals. -/
def display : Double → String
  | finite negative 0 _ => String.ofList (signed negative ['0'])
  | finite negative mantissa exponent =>
    let (digits, k) := (Magnitude.mk mantissa exponent).shortest .up
    String.ofList (signed negative (positional digits k))
  | infinite negative => if negative then "-inf" else "inf"
  | nan => "NaN"

end Double
end Tunebook
