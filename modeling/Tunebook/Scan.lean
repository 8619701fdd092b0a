import Tunebook.Problem
import Tunebook.Scan.Rules

/-! Scanning cuts a text into tokens, line by line. A line that starts with a letter (or `+`) and a
colon is an information line, whose value is prose; any other is music, cut by the longest match
over the rules. What no rule matches is one invalid character. Nothing of the text is lost. -/
namespace Tunebook

/-- A piece of text with its kind, not yet placed. -/
structure Piece where
  kind : Kind
  text : Text
  deriving DecidableEq, Repr

/-- What a recogniser says about the front of a text: it found a token of some length, or it gave
up, having read `width` characters. -/
inductive Recognition where
  | token (kind : Kind) (length : Nat)
  | failure (width : Nat)

def Rule.recognise (rules : List Rule) (cs : Text) : Recognition :=
  match Rule.longest rules cs with
  | some (kind, length) => .token kind length
  | none => .failure 1

namespace Scan

/-- Cuts music into pieces. After a failure the scan goes on one character later, however far the
recogniser had read. -/
def music (recognise : Text → Recognition) : Text → List Piece
  | [] => []
  | c :: cs =>
    match recognise (c :: cs) with
    | .token kind (n + 1) => ⟨kind, c :: cs.take n⟩ :: music recognise (cs.drop n)
    | .token _ 0 | .failure _ => ⟨.invalid, [c]⟩ :: music recognise cs
termination_by cs => cs.length
decreasing_by
  · simp only [List.length_drop, List.length_cons]; omega
  · simp

def musicLine (line : Text) : List Piece :=
  music (Rule.recognise Rule.music) line

def isGap (c : Char) : Bool :=
  c = ' ' || c = '\t'

/-- Runs of blanks and runs of other characters, in turn. -/
def proseRuns (value : Text) : List Piece :=
  (value.splitBy fun a b => isGap a == isGap b).map fun run =>
    ⟨if run.head?.any isGap then .whitespace else .freeText, run⟩

/-- Splits a value at the first `%` with no backslash before it. -/
def splitComment (escaped : Bool) : Text → Text × Text
  | [] => ([], [])
  | c :: cs =>
    if c = '%' && !escaped then ([], c :: cs)
    else
      let (value, comment) := splitComment (c = '\\') cs
      (c :: value, comment)

def commentPiece : Text → List Piece
  | [] => []
  | '%' :: '%' :: cs => [⟨.stylesheetDirective, '%' :: '%' :: cs⟩]
  | cs => [⟨.comment, cs⟩]

/-- An information line: its key, its value, its comment and its end. -/
def infoLine (key rest : Text) : List Piece :=
  let content := Text.lineContent rest
  let (value, comment) := splitComment false content
  ⟨.infoKey, key⟩ :: proseRuns value ++ commentPiece comment ++
    musicLine (rest.drop content.length)

def startsField (c : Char) : Bool :=
  c.isAlpha || c = '+'

def line : Text → List Piece
  | c :: ':' :: rest =>
    if startsField c then infoLine [c, ':'] rest else musicLine (c :: ':' :: rest)
  | cs => musicLine cs

def pieces (text : Text) : List Piece :=
  text.lines.flatMap line

/-- Gives each piece its place. The end of the text has a token of its own. -/
def place (start : Position) (offset : Nat) : List Piece → List Token
  | [] => [⟨.eof, [], start, ⟨offset, offset⟩⟩]
  | p :: ps =>
    let stop := offset + p.text.bytes
    ⟨p.kind, p.text, start, ⟨offset, stop⟩⟩ :: place (start.after p.text) stop ps

end Scan

namespace Token

/-- Annotations and symbols end with the character that opens them. -/
def isClosed (close : Char) (t : Token) : Bool :=
  2 ≤ t.lexeme.length && t.lexeme.getLast? = some close

/-- The fault that a token shows by itself. -/
def lexicalFault? (t : Token) : Option Fault :=
  match t.kind with
  | .invalid => some .unexpectedCharacter
  | .quotedText => if t.isClosed '"' then none else some .unterminatedQuotedText
  | .symbol => if t.isClosed '!' then none else some .unterminatedSymbol
  | _ => none

end Token

def scan (text : Text) : List Token :=
  Scan.place ⟨0, 0⟩ 0 (Scan.pieces text)

def lexicalProblems (tokens : List Token) : List Problem :=
  tokens.filterMap fun t => t.lexicalFault?.map (⟨·, t⟩)

end Tunebook
