import Tunebook.Tree

/-! Highlighting: the tokens an editor should colour, and the category of each. Parts that read as
one are merged; space is left out. -/
namespace Tunebook

inductive Category where
  | string | number | comment | keyword | decorator | identifier | regexp | plain
  deriving DecidableEq, Repr

namespace Category

def label : Category → String
  | string => "string"
  | number => "number"
  | comment => "comment"
  | keyword => "keyword"
  | decorator => "decorator"
  | identifier => "variable"
  | regexp => "regexp"
  | plain => "none"

/-- The categories that editors learn about, in the order of their numbers. -/
def legend : List Category :=
  [string, number, comment, keyword, decorator, identifier, regexp]

def legendIndex? (c : Category) : Option Nat :=
  legend.findIdx? (· = c)

end Category

def Kind.category : Kind → Category
  | .infoKey => .keyword
  | .freeText => .string
  | .whitespace | .eol | .eof => .plain
  | .antislashEol => .keyword
  | .comment | .stylesheetDirective => .comment
  | .barline | .barDbl | .barRightBracket | .leftBracketBar | .barColon | .colonBar | .colonDbl
  | .barDigit | .colonBarDigit | .nthRepeat => .string
  | .sharp | .sharpDbl | .flat | .flatDbl | .natural => .decorator
  | .noteLetter | .restLetter | .multiMeasureRest => .identifier
  | .spacerLetter => .decorator
  | .letter => .string
  | .apostrophe | .comma => .string
  | .number | .slash | .greater | .less | .tuplet => .number
  | .leftParen | .rightParen | .leftBracket | .rightBracket | .leftBrace | .rightBrace => .string
  | .colon => .string
  | .minus | .dot => .decorator
  | .tilde | .dollar | .plus => .string
  | .ampersand | .escapedChar => .keyword
  | .backtick => .plain
  | .quotedText => .string
  | .symbol => .regexp
  | .reservedChar => .string
  | .invalid => .plain

namespace Highlight

/-- Tokens of their own colour; spaces and line ends have none. -/
def visible (ts : List Token) : List Token :=
  ts.filter fun t => !(t.kind matches .whitespace | .eol | .eof)

/-- One token for all. -/
def merged (ts : List Token) : List Token :=
  (Token.merge ts).toList

def mergedAs (kind : Kind) (ts : List Token) : List Token :=
  (merged ts).map (·.retag kind)

/-- A run of text without the space around it. -/
def prose (ts : List Token) : List Token :=
  let isBlank (t : Token) : Bool := t.kind.isWhitespace
  mergedAs .freeText (dropTrailing isBlank (ts.dropWhile isBlank))

def ofRhythm (r : Rhythm) : List Token :=
  merged r.tokens

def ofNote (n : Note) : List Token :=
  visible n.head.tokens ++ ofRhythm n.rhythm ++ visible n.tie.toList

def ofChordPart : ChordPart → List Token
  | .note n => ofNote n
  | .quotedText t | .token t => visible [t]

def ofChord (c : Chord) : List Token :=
  visible [c.left] ++ c.parts.flatMap ofChordPart ++ visible [c.right] ++ ofRhythm c.rhythm ++
    visible c.tie.toList

def ofGracePart : GracePart → List Token
  | .note n => ofNote n
  | .chord c => ofChord c
  | .token t => visible [t]

def ofGraceGroup (g : GraceGroup) : List Token :=
  visible (g.left :: g.slash.toList) ++ g.parts.flatMap ofGracePart ++ visible [g.right]

def ofInlineField (f : InlineField) : List Token :=
  visible [f.left] ++ mergedAs .infoKey [f.field, f.colon] ++ prose f.text ++
    visible f.right.toList

mutual

def ofItem : Item → List Token
  | .token t | .barline t | .quotedText t | .decoration t | .symbol t | .nthRepeat t => visible [t]
  | .note n => ofNote n
  | .chord c => ofChord c
  | .grace g => ofGraceGroup g
  | .slur left contents right => visible [left] ++ ofItems contents ++ visible right.toList
  | .multiMeasureRest letter length => merged (letter :: length.toList)
  | .inlineField f => ofInlineField f
  | .spacer letter width => merged (letter :: width.toList)

def ofItems : List Item → List Token
  | [] => []
  | item :: items => ofItem item ++ ofItems items

end

def ofInfoLine (l : InfoLine) : List Token :=
  visible [l.key] ++ prose l.value ++ visible l.comment.toList

def ofCommentLine (l : CommentLine) : List Token :=
  visible [l.comment]

def ofHeaderLine : HeaderLine → List Token
  | .info l => ofInfoLine l
  | .comment l => ofCommentLine l

def ofBodyLine : BodyLine → List Token
  | .music l => ofItems l.items ++ visible l.eol.toList
  | .info l => ofInfoLine l
  | .comment l => ofCommentLine l

def ofTune (t : Tune) : List Token :=
  t.header.flatMap ofHeaderLine ++ t.body.flatMap ofBodyLine ++ visible t.trailing

end Highlight

/-- The highlighted tokens of a tree, in reading order. -/
def Tree.highlights (t : Tree) : List Token :=
  (Highlight.visible t.header ++ t.tunes.flatMap Highlight.ofTune).mergeSort fun a b =>
    a.start ≤ b.start

end Tunebook
