import Tunebook.Number.Word

/-! The strings of TOML: basic ones with escapes and literal ones without, on one line between
single marks or over several lines between three of them. -/
namespace Tunebook.Toml

def isSpace (c : Char) : Bool :=
  c = ' ' || c = '\t'

def skip (cs : Text) : Text :=
  cs.dropWhile isSpace

/-- Characters that neither text nor comments can hold. -/
def isControl (c : Char) : Bool :=
  (c < ' ' && c ≠ '\t') || c = '\x7f'

def newline? : Text → Option Text
  | '\n' :: cs => some cs
  | '\r' :: '\n' :: cs => some cs
  | _ => none

namespace Quoted

def hexDigits : Nat → Nat → Text → Option (Nat × Text)
  | 0, n, cs => some (n, cs)
  | count + 1, n, c :: cs => do hexDigits count (16 * n + (← Number.digit? 16 c)) cs
  | _ + 1, _, [] => none

def scalar? (n : Nat) : Option Char :=
  if n < 0xd800 || (0xdfff < n && n < 0x110000) then some (Char.ofNat n) else none

def escape : Text → Option (Char × Text)
  | 'b' :: cs => some ('\x08', cs)
  | 't' :: cs => some ('\t', cs)
  | 'n' :: cs => some ('\n', cs)
  | 'f' :: cs => some ('\x0c', cs)
  | 'r' :: cs => some ('\r', cs)
  | '"' :: cs => some ('"', cs)
  | '\\' :: cs => some ('\\', cs)
  | 'u' :: cs => do
    let (n, cs) ← hexDigits 4 0 cs
    some (← scalar? n, cs)
  | 'U' :: cs => do
    let (n, cs) ← hexDigits 8 0 cs
    some (← scalar? n, cs)
  | _ => none

/-- A basic string on one line, up to its closing mark. `fuel` bounds its length. -/
def basic : Nat → Text → Option (Text × Text)
  | 0, _ => none
  | fuel + 1, cs =>
    match cs with
    | '"' :: cs => some ([], cs)
    | '\\' :: cs => do
      let (c, cs) ← escape cs
      let (t, cs) ← basic fuel cs
      some (c :: t, cs)
    | c :: cs =>
      if isControl c then none
      else do
        let (t, cs) ← basic fuel cs
        some (c :: t, cs)
    | [] => none

def literal : Text → Option (Text × Text)
  | [] => none
  | c :: cs =>
    if c = '\x27' then some ([], cs)
    else if isControl c then none
    else do
      let (t, cs) ← literal cs
      some (c :: t, cs)

/-- Drops the line ends and blanks that a backslash at the end of a line takes away. -/
def skipLineEnds : Text → Text
  | '\r' :: '\n' :: cs => skipLineEnds cs
  | c :: cs => if isSpace c || c = '\n' then skipLineEnds cs else c :: cs
  | [] => []

/-- Three marks close a long string. Up to two more ahead of them belong to it. -/
def close? (mark : Char) (cs : Text) : Option (Text × Text) :=
  let marks := (cs.takeWhile (· = mark)).length
  if marks < 3 then none
  else
    let kept := min (marks - 3) 2
    some (List.replicate kept mark, cs.drop (kept + 3))

/-- A string over several lines, up to its closing marks. `fuel` bounds its length. -/
def long (mark : Char) (escapes : Bool) : Nat → Text → Option (Text × Text)
  | 0, _ => none
  | fuel + 1, cs =>
    let go (c : Char) (cs : Text) : Option (Text × Text) := do
      let (t, cs) ← long mark escapes fuel cs
      some (c :: t, cs)
    match close? mark cs, newline? cs, cs with
    | some closed, _, _ => some closed
    | none, some cs, _ => go '\n' cs
    | none, none, [] => none
    | none, none, c :: cs =>
      if escapes && c = '\\' then
        match newline? (skip cs) with
        | some cs => long mark escapes fuel (skipLineEnds cs)
        | none => do
          let (c, cs) ← escape cs
          go c cs
      else if isControl c then none
      else go c cs

/-- A line end right after the opening marks does not count. -/
def long? (mark : Char) (escapes : Bool) (cs : Text) : Option (Text × Text) :=
  long mark escapes (cs.length + 1) ((newline? cs).getD cs)

end Quoted
end Tunebook.Toml
