import Tunebook.Number.Word
import Tunebook.Tree.Item

/-! The tree of a text: what stands before the first tune, and the tunes. A tune has a header of
information and comment lines, a body of lines, and whatever follows up to the next tune. -/
namespace Tunebook

structure InfoLine where
  key : Token
  value : List Token
  comment : Option Token
  eol : Option Token
  deriving DecidableEq, Repr

namespace InfoLine

def tokens (l : InfoLine) : List Token :=
  l.key :: l.value ++ l.comment.toList ++ l.eol.toList

def last (l : InfoLine) : Token :=
  ((l.eol.or l.comment).or l.value.getLast?).getD l.key

def range (l : InfoLine) : Option Range :=
  some (Token.between l.key l.last)

def code (l : InfoLine) : Char :=
  l.key.fieldCode

def text (l : InfoLine) : Text :=
  (Token.join l.value).trim

end InfoLine

structure CommentLine where
  comment : Token
  eol : Option Token
  deriving DecidableEq, Repr

namespace CommentLine

def tokens (l : CommentLine) : List Token :=
  l.comment :: l.eol.toList

def last (l : CommentLine) : Token :=
  l.eol.getD l.comment

def range (l : CommentLine) : Option Range :=
  some (Token.between l.comment l.last)

end CommentLine

structure MusicLine where
  items : List Item
  eol : Option Token
  deriving Repr

namespace MusicLine

def tokens (l : MusicLine) : List Token :=
  Item.tokensOf l.items ++ l.eol.toList

/-- The items, and the end of the line as one more. -/
def contents (l : MusicLine) : List Item :=
  l.items ++ l.eol.toList.map Item.token

def first? (l : MusicLine) : Option Token :=
  l.contents.head?.map Item.first

def last? (l : MusicLine) : Option Token :=
  Item.lastOf? l.contents

/-- An empty line lies nowhere. -/
def range (l : MusicLine) : Option Range := do
  return Token.between (← l.first?) (← l.last?)

end MusicLine

inductive HeaderLine where
  | info (l : InfoLine)
  | comment (l : CommentLine)
  deriving DecidableEq, Repr

namespace HeaderLine

def tokens : HeaderLine → List Token
  | info l => l.tokens
  | comment l => l.tokens

def info? : HeaderLine → Option InfoLine
  | info l => some l
  | comment _ => none

end HeaderLine

inductive BodyLine where
  | music (l : MusicLine)
  | info (l : InfoLine)
  | comment (l : CommentLine)
  deriving Repr

namespace BodyLine

def tokens : BodyLine → List Token
  | music l => l.tokens
  | info l => l.tokens
  | comment l => l.tokens

def music? : BodyLine → Option MusicLine
  | music l => some l
  | _ => none

/-- The line feed of the line, if it has one. -/
def eol : BodyLine → Option Token
  | music l => l.eol
  | info l => l.eol
  | comment l => l.eol

def first? : BodyLine → Option Token
  | music l => l.first?
  | info l => some l.key
  | comment l => some l.comment

def last? : BodyLine → Option Token
  | music l => l.last?
  | info l => some l.last
  | comment l => some l.last

def range (l : BodyLine) : Option Range := do
  return Token.between (← l.first?) (← l.last?)

end BodyLine

/-- A tune without body lines has no body. -/
structure Tune where
  header : List HeaderLine
  body : List BodyLine
  trailing : List Token
  deriving Repr

namespace Tune

def headerTokens (t : Tune) : List Token :=
  t.header.flatMap HeaderLine.tokens

def bodyTokens (t : Tune) : List Token :=
  t.body.flatMap BodyLine.tokens

def tokens (t : Tune) : List Token :=
  t.headerTokens ++ t.bodyTokens ++ t.trailing

def bodyRange (t : Tune) : Option Range := do
  let first ← t.body.findSome? BodyLine.first?
  let last ← t.body.reverse.findSome? BodyLine.last?
  return Token.between first last

def musicLines (t : Tune) : List MusicLine :=
  t.body.filterMap BodyLine.music?

/-- The first information line of the header with this code. -/
def field? (t : Tune) (code : Char) : Option InfoLine :=
  (t.header.filterMap HeaderLine.info?).find? (·.code = code)

/-- The number of the tune, below `2 ^ 32`. -/
def referenceNumber? (t : Tune) : Option Nat := do
  Number.readBelow? Number.word32 (← t.field? 'X').text

def title? (t : Tune) : Option Text :=
  (t.field? 'T').map InfoLine.text

end Tune

/-- A tree. `header` holds the tokens before the first tune. -/
structure Tree where
  header : List Token
  tunes : List Tune
  deriving Repr

namespace Tree

def headerRange (t : Tree) : Option Range :=
  Token.cover t.header

def tokens (t : Tree) : List Token :=
  t.header ++ t.tunes.flatMap Tune.tokens

/-- The text that the tree was read from. -/
def text (t : Tree) : Text :=
  Token.join t.tokens

end Tree
end Tunebook
