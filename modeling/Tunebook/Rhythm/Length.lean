import Tunebook.Number.Word
import Tunebook.Tree.Note

/-! Lengths of notes: reading a written one, doubling and halving it, and writing it back. -/
namespace Tunebook

inductive Operator where
  | multiply
  | divide
  deriving DecidableEq, Repr

namespace Operator

def label : Operator → String
  | multiply => "multiply"
  | divide => "divide"

def ofName? : String → Option Operator
  | "multiply" | "mul" | "*" => some multiply
  | "divide" | "div" | "/" => some divide
  | _ => none

def unknownMessage (name : String) : String :=
  "unknown rhythm operator '" ++ name ++ "' (expected multiply or divide)"

end Operator

/-- The largest numerator and denominator that are written. -/
structure Limits where
  numerator : Nat
  denominator : Nat
  deriving DecidableEq, Repr

/-- A length as a multiple of the unit note length. -/
structure Length where
  numerator : Nat
  denominator : Nat
  deriving DecidableEq, Repr

namespace Length

/-- The greatest common divisor, by remainders. -/
def euclid (a b : Nat) : Nat :=
  if b = 0 then a else euclid b (a % b)
termination_by b
decreasing_by exact Nat.mod_lt a (Nat.pos_of_ne_zero ‹_›)

def reduce (n : Length) : Length :=
  let d := euclid n.numerator n.denominator
  ⟨n.numerator / d, n.denominator / d⟩

def readNumerator? (r : Rhythm) : Option Nat :=
  match r.numerator with
  | some t => Number.readBelow? Number.word32 t.lexeme
  | none => some 1

/-- Slashes without a number halve the length once each. -/
def readDenominator? (r : Rhythm) : Option Nat :=
  match r.separator, r.denominator with
  | none, _ => some 1
  | some _, some t => Number.readBelow? Number.word32 t.lexeme
  | some slashes, none =>
    if slashes.lexeme.bytes < 32 then some (Nat.pow 2 slashes.lexeme.bytes) else none

/-- The length that a rhythm writes, in lowest terms. There is none if it is zero or if a number in
it takes more than 32 bits. -/
def read? (r : Rhythm) : Option Length := do
  let numerator ← readNumerator? r
  let denominator ← readDenominator? r
  if numerator = 0 || denominator = 0 then none else some (reduce ⟨numerator, denominator⟩)

/-- Twice or half the length, in lowest terms if the length is. -/
def scaled (operator : Operator) (n : Length) : Length :=
  match operator with
  | .multiply =>
    if n.denominator % 2 = 0 then ⟨n.numerator, n.denominator / 2⟩
    else ⟨n.numerator * 2, n.denominator⟩
  | .divide =>
    if n.numerator % 2 = 0 then ⟨n.numerator / 2, n.denominator⟩
    else ⟨n.numerator, n.denominator * 2⟩

/-- Both parts fit in 32 bits and in the limits. -/
def isWithin (limits : Limits) (n : Length) : Bool :=
  n.numerator < Number.word32 && n.denominator < Number.word32 &&
    n.numerator ≤ limits.numerator && n.denominator ≤ limits.denominator

def scale? (operator : Operator) (limits : Limits) (n : Length) : Option Length :=
  if (n.scaled operator).isWithin limits then some (n.scaled operator) else none

/-- A numerator of 1 is not written, nor is a denominator of 1; one of 2 is a slash. -/
def render (n : Length) : Text :=
  (if n.numerator = 1 then [] else Nat.toDigits 10 n.numerator) ++
    match n.denominator with
    | 1 => []
    | 2 => ['/']
    | d => '/' :: Nat.toDigits 10 d

end Length
end Tunebook
