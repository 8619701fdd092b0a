import Tunebook.Json
import Tunebook.Number.Shortest

/-! Writing JSON, on one line or indented by two spaces a level. Nothing beyond ASCII is escaped. -/
namespace Tunebook.Json

def hexPair (n : Nat) : Text :=
  [Nat.digitChar (n / 16), Nat.digitChar (n % 16)]

def escapeChar (c : Char) : Text :=
  match c with
  | '"' => ['\\', '"']
  | '\\' => ['\\', '\\']
  | '\n' => ['\\', 'n']
  | '\r' => ['\\', 'r']
  | '\t' => ['\\', 't']
  | '\x08' => ['\\', 'b']
  | '\x0c' => ['\\', 'f']
  | c => if c < ' ' then ['\\', 'u', '0', '0'] ++ hexPair c.toNat else [c]

def quote (s : String) : String :=
  String.ofList ('"' :: s.toList.flatMap escapeChar ++ ['"'])

/-- Digits of a float with a point, or with an exponent where there would be many zeros. -/
def placed (digits : Text) (k : Int) : Text :=
  let size := digits.length + k
  if 0 ≤ k && size ≤ 16 then Double.positional digits k ++ ['.', '0']
  else if -5 < size && size ≤ 16 then Double.positional digits k
  else digits.take 1 ++ (if digits.length = 1 then [] else '.' :: digits.drop 1) ++
    'e' :: (toString (size - 1)).toList

/-- A float, the even one of two decimals. Only finite ones can be written. -/
def writeFloat : Double → String
  | .finite negative 0 _ => String.ofList (Double.signed negative ['0', '.', '0'])
  | .finite negative mantissa exponent =>
    let (digits, k) := (Magnitude.mk mantissa exponent).shortest .even
    String.ofList (Double.signed negative (placed digits k))
  | _ => "null"

/-- How the parts of a container are set off at a depth. -/
structure Layout where
  lineBreak : Nat → String
  afterColon : String

def Layout.compact : Layout :=
  ⟨fun _ => "", ""⟩

def Layout.indented : Layout :=
  ⟨fun depth => "\n" ++ String.ofList (List.replicate (2 * depth) ' '), " "⟩

def enclose (layout : Layout) (depth : Nat) (opening closing : String) : List String → String
  | [] => opening ++ closing
  | parts =>
    opening ++ layout.lineBreak (depth + 1) ++
      ("," ++ layout.lineBreak (depth + 1)).intercalate parts ++ layout.lineBreak depth ++ closing

mutual

def write (layout : Layout) (depth : Nat) : Json → String
  | null => "null"
  | bool b => if b then "true" else "false"
  | integer n => toString n
  | float x => writeFloat x
  | string s => quote s
  | array items => enclose layout depth "[" "]" (writeItems layout (depth + 1) items)
  | object fields => enclose layout depth "\x7b" "\x7d" (writeFields layout (depth + 1) fields)

def writeItems (layout : Layout) (depth : Nat) : List Json → List String
  | [] => []
  | item :: items => write layout depth item :: writeItems layout depth items

def writeFields (layout : Layout) (depth : Nat) : List (String × Json) → List String
  | [] => []
  | (key, value) :: fields =>
    (quote key ++ ":" ++ layout.afterColon ++ write layout depth value) ::
      writeFields layout depth fields

end

def compact (j : Json) : String :=
  write .compact 0 j

def indented (j : Json) : String :=
  write .indented 0 j

end Tunebook.Json
