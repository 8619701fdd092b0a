/-! The kinds of token, in the order in which they are listed, and the classes that the grammar
asks about. -/
namespace Tunebook

inductive Kind where
  | infoKey | freeText | whitespace | eol | eof | antislashEol | comment | stylesheetDirective
  | barline | barDbl | barRightBracket | leftBracketBar | barColon | colonBar | colonDbl
  | barDigit | colonBarDigit | nthRepeat
  | sharp | sharpDbl | flat | flatDbl | natural
  | noteLetter | restLetter | multiMeasureRest | spacerLetter | letter
  | apostrophe | comma | number | slash | greater | less
  | tuplet | leftParen | rightParen | leftBracket | rightBracket | leftBrace | rightBrace
  | colon | minus | dot | tilde | dollar | ampersand | plus | backtick
  | quotedText | symbol | escapedChar | reservedChar | invalid
  deriving DecidableEq, Repr

namespace Kind

def all : List Kind :=
  [infoKey, freeText, whitespace, eol, eof, antislashEol, comment, stylesheetDirective,
   barline, barDbl, barRightBracket, leftBracketBar, barColon, colonBar, colonDbl,
   barDigit, colonBarDigit, nthRepeat,
   sharp, sharpDbl, flat, flatDbl, natural,
   noteLetter, restLetter, multiMeasureRest, spacerLetter, letter,
   apostrophe, comma, number, slash, greater, less,
   tuplet, leftParen, rightParen, leftBracket, rightBracket, leftBrace, rightBrace,
   colon, minus, dot, tilde, dollar, ampersand, plus, backtick,
   quotedText, symbol, escapedChar, reservedChar, invalid]

theorem mem_all (k : Kind) : k ∈ all := by
  cases k <;> decide

def name : Kind → String
  | infoKey => "InfoKey"
  | freeText => "FreeText"
  | whitespace => "Whitespace"
  | eol => "Eol"
  | eof => "Eof"
  | antislashEol => "AntislashEol"
  | comment => "Comment"
  | stylesheetDirective => "StylesheetDirective"
  | barline => "Barline"
  | barDbl => "BarDbl"
  | barRightBracket => "BarRightBracket"
  | leftBracketBar => "LeftBracketBar"
  | barColon => "BarColon"
  | colonBar => "ColonBar"
  | colonDbl => "ColonDbl"
  | barDigit => "BarDigit"
  | colonBarDigit => "ColonBarDigit"
  | nthRepeat => "NthRepeat"
  | sharp => "Sharp"
  | sharpDbl => "SharpDbl"
  | flat => "Flat"
  | flatDbl => "FlatDbl"
  | natural => "Natural"
  | noteLetter => "NoteLetter"
  | restLetter => "RestLetter"
  | multiMeasureRest => "MultiMeasureRest"
  | spacerLetter => "SpacerLetter"
  | letter => "Letter"
  | apostrophe => "Apostrophe"
  | comma => "Comma"
  | number => "Number"
  | slash => "Slash"
  | greater => "Greater"
  | less => "Less"
  | tuplet => "Tuplet"
  | leftParen => "LeftParen"
  | rightParen => "RightParen"
  | leftBracket => "LeftBracket"
  | rightBracket => "RightBracket"
  | leftBrace => "LeftBrace"
  | rightBrace => "RightBrace"
  | colon => "Colon"
  | minus => "Minus"
  | dot => "Dot"
  | tilde => "Tilde"
  | dollar => "Dollar"
  | ampersand => "Ampersand"
  | plus => "Plus"
  | backtick => "Backtick"
  | quotedText => "Annotation"
  | symbol => "Symbol"
  | escapedChar => "EscapedChar"
  | reservedChar => "ReservedChar"
  | invalid => "Invalid"

/-- The name in lower case, with an underscore between its words. -/
def label (k : Kind) : String :=
  String.ofList (separated k.name.toList).tail
where
  separated (cs : List Char) : List Char :=
    cs.flatMap fun c => if c.isUpper then ['_', c.toLower] else [c]

def ofLabel? (label : String) : Option Kind :=
  all.find? (·.label == label)

def isWhitespace (k : Kind) : Bool :=
  k matches whitespace | eol | eof | antislashEol

def isLineEnd (k : Kind) : Bool :=
  k matches eol | eof

def isBarline (k : Kind) : Bool :=
  k matches barline | barDbl | barRightBracket | leftBracketBar | barColon | colonBar | colonDbl
    | barDigit | colonBarDigit

def isAccidental (k : Kind) : Bool :=
  k matches sharp | sharpDbl | flat | flatDbl | natural

def isComment (k : Kind) : Bool :=
  k matches comment | stylesheetDirective

def startsNote (k : Kind) : Bool :=
  k.isAccidental || k matches noteLetter | restLetter

/-- The parts of a rhythm. -/
def isRhythm (k : Kind) : Bool :=
  k matches number | slash | greater | less

end Kind
end Tunebook
