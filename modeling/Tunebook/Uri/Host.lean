import Tunebook.Number.Word
import Tunebook.Text.Utf8
import Tunebook.Uri.Percent

/-! The hosts of URIs: names, and addresses of 32 and of 128 bits. An address has one written form,
whatever form it was given in. -/
namespace Tunebook.Uri

inductive Host where
  | name (t : Text)
  | word (n : Nat)
  /-- Eight pieces of 16 bits. -/
  | pieces (ns : List Nat)

namespace Host

def split (separator : Char) : Text → List Text
  | [] => [[]]
  | c :: cs =>
    if c = separator then [] :: split separator cs
    else match split separator cs with
      | [] => [[c]]
      | part :: parts => (c :: part) :: parts

def ofDigits? (base : Nat) (t : Text) : Option Nat :=
  (t.mapM (Number.digit? base)).map (·.foldl (fun n d => base * n + d) 0)

/-- One number of an address: hexadecimal behind `0x`, octal behind `0`, or else decimal. -/
def number? : Text → Option Nat
  | [] => none
  | '0' :: 'x' :: t | '0' :: 'X' :: t => ofDigits? 16 t
  | '0' :: c :: t => ofDigits? 8 (c :: t)
  | t => ofDigits? 10 t

def withoutLastDot (parts : List Text) : List Text :=
  if parts.length ≠ 1 && parts.getLast? = some [] then parts.dropLast else parts

def isAddress (t : Text) : Bool :=
  match (withoutLastDot (split '.' t)).getLast? with
  | some last => (!last.isEmpty && last.all Char.isDigit) || (number? last).isSome
  | none => false

/-- Up to four numbers. The last one fills the bytes that are left. -/
def address? (t : Text) : Option Host := do
  let numbers ← (withoutLastDot (split '.' t)).mapM number?
  let last ← numbers.getLast?
  let front := numbers.dropLast
  if 3 < front.length || front.any (255 < ·) then none
  else if Nat.pow 256 (4 - front.length) ≤ last then none
  else
    let high := front.foldl (fun n b => 256 * n + b) 0
    some (.word (high * Nat.pow 256 (4 - front.length) + last))

def piece? (t : Text) : Option Nat :=
  if t.isEmpty || 4 < t.length then none else ofDigits? 16 t

/-- A byte in decimal digits without a needless zero. -/
def byte? (t : Text) : Option Nat :=
  if t.isEmpty || 3 < t.length || (1 < t.length && t.head? = some '0') then none
  else (ofDigits? 10 t).filter (· < 256)

def lastPieces? (t : Text) : Option (List Nat) := do
  let [a, b, c, d] ← (split '.' t).mapM byte? | none
  some [256 * a + b, 256 * c + d]

/-- Pieces with colons between them, the last two of which may be four bytes. -/
def run? (t : Text) : Option (List Nat) :=
  if t.isEmpty then some []
  else
    let parts := split ':' t
    match parts.getLast? with
    | some last =>
      if last.contains '.' then do
        some ((← parts.dropLast.mapM piece?) ++ (← lastPieces? last))
      else parts.mapM piece?
    | none => none

def splitGap : Text → Option (Text × Text)
  | ':' :: ':' :: cs => some ([], cs)
  | c :: cs => (splitGap cs).map fun (before, after) => (c :: before, after)
  | [] => none

/-- Eight pieces, or fewer with two colons where zeros are left out. -/
def pieces? (t : Text) : Option Host :=
  match splitGap t with
  | none => ((run? t).filter (·.length = 8)).map .pieces
  | some (before, after) => do
    if before.contains '.' then none
    else
      let front ← run? before
      let back ← run? after
      if front.length + back.length < 8 then
        some (.pieces (front ++ List.replicate (8 - front.length - back.length) 0 ++ back))
      else none

def bracketed? (t : Text) : Option Host :=
  if t.getLast? = some ']' then pieces? t.dropLast else none

/-- Characters that no name holds. -/
def isForbidden (c : Char) : Bool :=
  [Char.ofNat 0, '\t', '\n', '\r', ' ', '#', '/', ':', '<', '>', '?', '@', '[', '\\', ']', '^',
    '|'].contains c

/-- The host of a scheme that has names of machines. Names beyond ASCII are not known. -/
def ofText? (t : Text) : Option Host :=
  match t with
  | '[' :: t => bracketed? t
  | t => do
    let name := (← Text.ofUtf8? (Percent.decode t)).map Char.toLower
    if name.isEmpty || name.any fun c => isForbidden c || c ≤ ' ' || c = '%' || '~' < c then none
    else if isAddress name then address? name
    else some (.name name)

/-- The host of any other scheme. -/
def verbatim? (t : Text) : Option Host :=
  match t with
  | '[' :: t => bracketed? t
  | t => if t.any isForbidden then none else some (.name (Percent.encode [] t))

/-- The first of the longest runs of zeros, where it starts and how long it is. -/
def longestZeros (ns : List Nat) : Nat × Nat :=
  (List.range ns.length).foldl (fun best start =>
    let size := ((ns.drop start).takeWhile (· = 0)).length
    if best.2 < size then (start, size) else best) (0, 0)

def hexPieces (ns : List Nat) : String :=
  ":".intercalate (ns.map fun n => String.ofList (Nat.toDigits 16 n))

/-- Two colons stand for the longest run of two zeros or more. -/
def display : Host → String
  | name t => String.ofList t
  | word n =>
    ".".intercalate ([0x1000000, 0x10000, 0x100, 1].map fun unit => toString (n / unit % 256))
  | pieces ns =>
    let (start, size) := longestZeros ns
    if size < 2 then "[" ++ hexPieces ns ++ "]"
    else "[" ++ hexPieces (ns.take start) ++ "::" ++ hexPieces (ns.drop (start + size)) ++ "]"

end Host
end Tunebook.Uri
