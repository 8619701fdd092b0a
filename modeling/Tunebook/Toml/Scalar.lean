import Tunebook.Json

/-! The numbers and words of TOML. Whole numbers have 64 bits, and a float may be negative infinity
when it is too small, but not positive infinity when it is too large. -/
namespace Tunebook.Toml.Scalar

/-- Digits of a base with single underscores between them, the underscores dropped. -/
def digitRun (isDigit : Char → Bool) : Text → Option Text
  | [] => none
  | [c] => if isDigit c then some [c] else none
  | c :: '_' :: cs => if isDigit c then (digitRun isDigit cs).map (c :: ·) else none
  | c :: cs => if isDigit c then (digitRun isDigit cs).map (c :: ·) else none

def inBase (base : Nat) (digits : Text) : Option Json := do
  let run ← digitRun (fun c => (Number.digit? base c).isSome) digits
  let n := run.foldl (fun n c => base * n + (Number.digit? base c).getD 0) 0
  if Number.isSigned Number.word64 n then some (.integer n) else none

/-- Digits with no needless zero in front. -/
def whole (digits : Text) : Option Text :=
  match digitRun Char.isDigit digits with
  | some ('0' :: _ :: _) => none
  | run => run

def integer (negative : Bool) (digits : Text) : Option Json := do
  let n := Number.ofDigits (← whole digits)
  let n : Int := if negative then -n else n
  if Number.isSigned Number.word64 n then some (.integer n) else none

def isExponentMark (c : Char) : Bool :=
  c = 'e' || c = 'E'

def sign : Text → Bool × Text
  | '-' :: cs => (true, cs)
  | '+' :: cs => (false, cs)
  | cs => (false, cs)

def exponent (cs : Text) : Option Int := do
  let (negative, digits) := sign cs
  let n : Int := Number.ofDigits (← digitRun Char.isDigit digits)
  return if negative then -n else n

/-- A number with a point, an exponent, or both. -/
def float (negative : Bool) (t : Text) : Option Json := do
  let front := t.takeWhile (!isExponentMark ·)
  let power ← match t.dropWhile (!isExponentMark ·) with
    | [] => some 0
    | _ :: cs => exponent cs
  let digits ← whole (front.takeWhile (· ≠ '.'))
  let places ← match front.dropWhile (· ≠ '.') with
    | [] => some []
    | _ :: cs => digitRun Char.isDigit cs
  match Double.ofDecimal negative (Number.ofDigits (digits ++ places)) (power - places.length) with
  | .infinite false => none
  | x => some (.float x)

def number (t : Text) : Option Json :=
  let (negative, cs) := sign t
  match t with
  | '0' :: 'x' :: cs => inBase 16 cs
  | '0' :: 'o' :: cs => inBase 8 cs
  | '0' :: 'b' :: cs => inBase 2 cs
  | _ =>
    if cs = "inf".toList then some (.float (.infinite negative))
    else if cs = "nan".toList then some (.float .nan)
    else if cs.any fun c => c = '.' || isExponentMark c then float negative cs
    else integer negative cs

/-- What a word without quotes stands for. -/
def word (t : Text) : Option Json :=
  if t = "true".toList then some (.bool true)
  else if t = "false".toList then some (.bool false)
  else number t

def isWordChar (c : Char) : Bool :=
  c.isAlphanum || c = '_' || c = '+' || c = '-' || c = '.'

def read? (cs : Text) : Option (Json × Text) :=
  (word (cs.takeWhile isWordChar)).map fun v => (v, cs.dropWhile isWordChar)

end Tunebook.Toml.Scalar
