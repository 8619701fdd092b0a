import Tunebook.Text.Basic

/-! Whole numbers in decimal digits, and the words that hold them. -/
namespace Tunebook.Number

def digitValue (c : Char) : Nat :=
  c.toNat - '0'.toNat

/-- The value of a digit of a base up to 36. Letters of either case follow the decimal digits. -/
def digit? (base : Nat) (c : Char) : Option Nat :=
  let n :=
    if c.isDigit then digitValue c
    else if c.isAlpha then c.toLower.toNat - 'a'.toNat + 10
    else base
  if n < base then some n else none

def ofDigits (digits : Text) : Nat :=
  digits.foldl (fun n c => 10 * n + digitValue c) 0

/-- Reads digits, which may follow one plus sign. -/
def readNat? : Text → Option Nat
  | [] => none
  | '+' :: cs => if !cs.isEmpty && cs.all Char.isDigit then some (ofDigits cs) else none
  | cs => if cs.all Char.isDigit then some (ofDigits cs) else none

def word32 : Nat := 0x100000000

def word64 : Nat := 0x10000000000000000

/-- What a word of 32 bits keeps of a number. -/
def low32 (n : Nat) : Nat :=
  n % word32

/-- A whole number with its sign that words of `bound` values hold. -/
def isSigned (bound : Nat) (n : Int) : Bool :=
  -(bound : Int) ≤ 2 * n && 2 * n < bound

def readBelow? (bound : Nat) (t : Text) : Option Nat :=
  (readNat? t).filter (· < bound)

end Tunebook.Number
