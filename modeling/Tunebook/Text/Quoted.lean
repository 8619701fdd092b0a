import Tunebook.Text.Basic
import Tunebook.Text.Printable

/-! Text between double quotes, as messages show it: what is not printable is written as its code
point in lower-case hexadecimal. -/
namespace Tunebook.Text

def escapeChar (c : Char) : Text :=
  match c with
  | '"' => ['\\', '"']
  | '\\' => ['\\', '\\']
  | '\n' => ['\\', 'n']
  | '\r' => ['\\', 'r']
  | '\t' => ['\\', 't']
  | '\x00' => ['\\', '0']
  | c =>
    if isPrintable c then [c]
    else ['\\', 'u', '\x7b'] ++ Nat.toDigits 16 c.toNat ++ ['\x7d']

def quoted (t : Text) : Text :=
  '"' :: t.flatMap escapeChar ++ ['"']

end Tunebook.Text
