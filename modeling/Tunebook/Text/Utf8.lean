import Tunebook.Text.Basic

/-! Text from bytes in UTF-8. Bytes that encode nothing are cut into the longest parts that could
begin a character, and each part stands for one character that is not known. -/
namespace Tunebook.Text.Utf8

/-- The ranges of the bytes that follow a first byte, if a character can start with it. -/
def followers? (first : UInt8) : Option (List (UInt8 × UInt8)) :=
  let any : UInt8 × UInt8 := (0x80, 0xbf)
  if first < 0x80 then some []
  else if first < 0xc2 then none
  else if first < 0xe0 then some [any]
  else if first = 0xe0 then some [(0xa0, 0xbf), any]
  else if first = 0xed then some [(0x80, 0x9f), any]
  else if first < 0xf0 then some [any, any]
  else if first = 0xf0 then some [(0x90, 0xbf), any, any]
  else if first < 0xf4 then some [any, any, any]
  else if first = 0xf4 then some [(0x80, 0x8f), any, any]
  else none

def follow : List (UInt8 × UInt8) → List UInt8 → List UInt8
  | (low, high) :: ranges, b :: bytes =>
    if low ≤ b && b ≤ high then b :: follow ranges bytes else []
  | _, _ => []

def assemble (first : UInt8) (tail : List UInt8) : Char :=
  let lead := if tail.isEmpty then first.toNat else first.toNat % (0x40 >>> tail.length)
  Char.ofNat (tail.foldl (fun n b => n * 0x40 + b.toNat % 0x40) lead)

/-- The characters that bytes encode, and `none` for each part that encodes nothing. -/
def decode : List UInt8 → List (Option Char)
  | [] => []
  | first :: rest =>
    match followers? first with
    | none => none :: decode rest
    | some ranges =>
      let tail := follow ranges rest
      (if tail.length = ranges.length then some (assemble first tail) else none) ::
        decode (rest.drop tail.length)
termination_by bytes => bytes.length
decreasing_by
  · exact Nat.lt_succ_self _
  · rw [List.length_drop, List.length_cons]
    omega

end Utf8

def ofUtf8? (bytes : List UInt8) : Option Text :=
  (Utf8.decode bytes).mapM id

/-- The text that bytes encode, with a replacement character for each part that is none. -/
def ofUtf8Lossy (bytes : List UInt8) : Text :=
  (Utf8.decode bytes).map (·.getD '\ufffd')

end Tunebook.Text
