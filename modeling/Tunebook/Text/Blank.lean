import Tunebook.Text.Basic

/-! Blank characters, by the property White_Space, and trimming them from both ends. -/
namespace Tunebook.Text

/-- The characters of the property White_Space. -/
def isBlank (c : Char) : Bool :=
  ('\t' ≤ c && c ≤ '\r') || c = ' ' || c.toNat = 0x85 || c.toNat = 0xa0 || c.toNat = 0x1680 ||
    (0x2000 ≤ c.toNat && c.toNat ≤ 0x200a) || c.toNat = 0x2028 || c.toNat = 0x2029 ||
    c.toNat = 0x202f || c.toNat = 0x205f || c.toNat = 0x3000

def trim (t : Text) : Text :=
  dropTrailing isBlank (t.dropWhile isBlank)

end Tunebook.Text
