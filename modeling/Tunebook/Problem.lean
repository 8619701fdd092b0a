import Tunebook.Token

/-! What can be wrong with a text: a fault, and the token it is found at. -/
namespace Tunebook

inductive Severity where
  | error
  | warning
  deriving DecidableEq, Repr

def Severity.label : Severity → String
  | error => "error"
  | warning => "warning"

inductive Fault where
  | unexpectedCharacter
  | unterminatedQuotedText
  | unterminatedSymbol
  | missingKey
  | unknownLetter
  | unknownLetterInChord
  | danglingAccidental
  | detachedRhythm
  | detachedRhythmInChord
  | detachedTie
  | unmatchedBracket
  | unterminatedChord
  | emptyChord
  | unterminatedGraceGroup
  | unexpectedInGraceGroup
  | chordInGraceGroup
  | unterminatedInlineField
  deriving DecidableEq, Repr

namespace Fault

def severity : Fault → Severity
  | missingKey | detachedTie | emptyChord | chordInGraceGroup => .warning
  | _ => .error

def code : Fault → String
  | unexpectedCharacter => "unexpected-character"
  | unterminatedQuotedText => "unterminated-annotation"
  | unterminatedSymbol => "unterminated-symbol"
  | missingKey => "missing-key"
  | unknownLetter | unknownLetterInChord => "unknown-letter"
  | danglingAccidental => "dangling-accidental"
  | detachedRhythm | detachedRhythmInChord => "detached-rhythm"
  | detachedTie => "detached-tie"
  | unmatchedBracket => "unmatched-bracket"
  | unterminatedChord => "unterminated-chord"
  | emptyChord => "empty-chord"
  | unterminatedGraceGroup => "unterminated-grace-group"
  | unexpectedInGraceGroup => "unexpected-in-grace-group"
  | chordInGraceGroup => "chord-in-grace-group"
  | unterminatedInlineField => "unterminated-inline-field"

/-- The wording, for a fault found at a token with this text. -/
def message (lexeme : Text) : Fault → String
  | unexpectedCharacter => "unexpected character " ++ String.ofList lexeme.quoted
  | unterminatedQuotedText => "annotation is missing its closing '\"'"
  | unterminatedSymbol => "decoration is missing its closing '!'"
  | missingKey => "tune header has no K: field"
  | unknownLetter => "'" ++ String.ofList lexeme ++ "' is not a note, rest or decoration"
  | unknownLetterInChord => "'" ++ String.ofList lexeme ++ "' is not a note or rest"
  | danglingAccidental => "accidental must be followed by a note letter"
  | detachedRhythm => String.ofList lexeme.quoted ++ " must directly follow a note, rest or chord"
  | detachedRhythmInChord => String.ofList lexeme.quoted ++ " inside a chord must follow a note"
  | detachedTie => "tie does not follow a note"
  | unmatchedBracket => String.ofList lexeme.quoted ++ " closes nothing"
  | unterminatedChord => "chord is missing its closing ']'"
  | emptyChord => "chord has no notes"
  | unterminatedGraceGroup => "grace group is missing its closing '\x7d'"
  | unexpectedInGraceGroup => String.ofList lexeme.quoted ++ " is not allowed in a grace group"
  | chordInGraceGroup => "grace groups take single notes, not chords"
  | unterminatedInlineField => "inline field is missing its closing ']'"

end Fault

structure Problem where
  fault : Fault
  token : Token
  deriving DecidableEq, Repr

namespace Problem

def severity (p : Problem) : Severity :=
  p.fault.severity

def code (p : Problem) : String :=
  p.fault.code

def message (p : Problem) : String :=
  p.fault.message p.token.lexeme

def isError (p : Problem) : Bool :=
  p.severity = .error

end Problem
end Tunebook
