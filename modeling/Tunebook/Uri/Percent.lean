import Tunebook.Number.Word

/-! Percent-encoding: a byte as a percent sign and two hexadecimal digits. What each part of a URI
keeps as it is, is said by the characters that it escapes besides controls and all beyond ASCII. -/
namespace Tunebook.Uri

namespace Percent

def hexDigit (n : Nat) : Char :=
  (Nat.digitChar n).toUpper

def byte (b : UInt8) : Text :=
  ['%', hexDigit (b.toNat / 16), hexDigit (b.toNat % 16)]

/-- Escapes these characters, controls, and all beyond ASCII. -/
def encode (escaped : List Char) (t : Text) : Text :=
  t.flatMap fun c =>
    if ' ' ≤ c && c ≤ '~' && !escaped.contains c then [c]
    else (String.utf8EncodeChar c).flatMap byte

/-- The bytes of a text in which escapes stand for bytes. -/
def decode : Text → List UInt8
  | '%' :: a :: b :: cs =>
    match Number.digit? 16 a, Number.digit? 16 b with
    | some m, some n => (16 * m + n).toUInt8 :: decode cs
    | _, _ => '%'.toNat.toUInt8 :: decode (a :: b :: cs)
  | c :: cs => String.utf8EncodeChar c ++ decode cs
  | [] => []

end Percent

/-! What is escaped in each part. -/

def fragmentEscapes : List Char :=
  [' ', '"', '<', '>', '\x60']

def queryEscapes (special : Bool) : List Char :=
  [' ', '"', '#', '<', '>'] ++ if special then ['\x27'] else []

def pathEscapes : List Char :=
  fragmentEscapes ++ ['#', '?', '\x7b', '\x7d']

def userEscapes : List Char :=
  pathEscapes ++ ['/', ':', ';', '=', '@', '[', '\\', ']', '^', '|']

end Tunebook.Uri
