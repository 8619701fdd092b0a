import Tunebook.Scan.Pattern
import Tunebook.Text.Blank
import Tunebook.Token.Kind

/-! The tokens of a music line, one pattern for each kind. -/
namespace Tunebook

structure Rule where
  kind : Kind
  pattern : Pattern

namespace Rule
open Pattern

/-- `%` and all that follows it on its line. -/
def restOfLine : Pattern :=
  star (char fun c => !Text.isLineBreak c)

def lineFeed : Pattern :=
  seq (opt (just '\r')) (just '\n')

/-- Where two rules match the same text, the earlier one has it. -/
def music : List Rule :=
  [⟨.whitespace, plus (oneOf " \t")⟩,
   ⟨.eol, lineFeed⟩,
   ⟨.antislashEol, seq (just '\\') lineFeed⟩,
   ⟨.escapedChar, seq (just '\\') (char fun c => !Text.isLineBreak c)⟩,
   ⟨.stylesheetDirective, seq (text "%%") restOfLine⟩,
   ⟨.comment, seq (just '%') restOfLine⟩,
   ⟨.barline, text "|"⟩,
   ⟨.barDbl, text "||"⟩,
   ⟨.barRightBracket, text "|]"⟩,
   ⟨.leftBracketBar, text "[|"⟩,
   ⟨.barColon, seq (just '|') (seq (opt (just '|')) (plus (just ':')))⟩,
   ⟨.colonBar, seq (plus (just ':')) (plus (just '|'))⟩,
   ⟨.colonDbl, seq (plus (just ':')) (seq (star (just '|')) (plus (just ':')))⟩,
   ⟨.barDigit, seq (just '|') digit⟩,
   ⟨.colonBarDigit, seq (plus (just ':')) (seq (plus (just '|')) digit)⟩,
   ⟨.nthRepeat, seq (just '[') (seq (plus digit) (star (seq (oneOf ",-") (plus digit))))⟩,
   ⟨.sharp, text "^"⟩,
   ⟨.sharpDbl, text "^^"⟩,
   ⟨.flat, text "_"⟩,
   ⟨.flatDbl, text "__"⟩,
   ⟨.natural, text "="⟩,
   ⟨.noteLetter, oneOf "ABCDEFGabcdefg"⟩,
   ⟨.restLetter, oneOf "xz"⟩,
   ⟨.multiMeasureRest, oneOf "XZ"⟩,
   ⟨.spacerLetter, text "y"⟩,
   ⟨.letter, oneOf "HIJKLMNOPQRSTUVWYhijklmnopqrstuvw"⟩,
   ⟨.apostrophe, plus (just '\x27')⟩,
   ⟨.comma, plus (just ',')⟩,
   ⟨.number, plus digit⟩,
   ⟨.slash, plus (just '/')⟩,
   ⟨.greater, plus (just '>')⟩,
   ⟨.less, plus (just '<')⟩,
   ⟨.tuplet, seq (just '(') (seq (plus digit) (star (seq (just ':') (star digit))))⟩,
   ⟨.leftParen, text "("⟩,
   ⟨.rightParen, text ")"⟩,
   ⟨.leftBracket, text "["⟩,
   ⟨.rightBracket, text "]"⟩,
   ⟨.leftBrace, text "\x7b"⟩,
   ⟨.rightBrace, text "\x7d"⟩,
   ⟨.colon, text ":"⟩,
   ⟨.minus, text "-"⟩,
   ⟨.dot, text "."⟩,
   ⟨.tilde, text "~"⟩,
   ⟨.dollar, text "$"⟩,
   ⟨.ampersand, text "&"⟩,
   ⟨.plus, text "+"⟩,
   ⟨.backtick, text "`"⟩,
   ⟨.quotedText, seq (just '"')
      (seq (star (char fun c => c ≠ '"' && !Text.isLineBreak c)) (opt (just '"')))⟩,
   ⟨.symbol, seq (just '!')
      (seq (star (char fun c => c ≠ '!' && !Text.isBlank c)) (opt (just '!')))⟩,
   ⟨.reservedChar, oneOf "#*;?@"⟩]

/-- The rule that matches most at the front of a text, and how much it matches. -/
def longest : List Rule → Text → Option (Kind × Nat)
  | [], _ => none
  | rule :: rules, cs =>
    match rule.pattern.longest cs, longest rules cs with
    | some n, some (kind, m) => if m ≤ n then some (rule.kind, n) else some (kind, m)
    | some n, none => some (rule.kind, n)
    | none, other => other

end Rule
end Tunebook
