import Tunebook.Tree.Note
import Tunebook.Text.Blank

/-! The items of a music line. -/
namespace Tunebook

namespace Token

/-- What a field key stands for, its first character. -/
def fieldCode (key : Token) : Char :=
  key.lexeme.head?.getD '\x00'

end Token

/-- A field inside a music line, between brackets. -/
structure InlineField where
  left : Token
  padding : List Token
  field : Token
  colon : Token
  text : List Token
  right : Option Token
  deriving DecidableEq, Repr

namespace InlineField

def tokens (f : InlineField) : List Token :=
  f.left :: f.padding ++ f.field :: f.colon :: f.text ++ f.right.toList

def last (f : InlineField) : Token :=
  (f.right.or f.text.getLast?).getD f.colon

def code (f : InlineField) : Char :=
  f.field.fieldCode

def value (f : InlineField) : Text :=
  (Token.join f.text).trim

end InlineField

inductive Item where
  | token (t : Token)
  | barline (t : Token)
  | quotedText (t : Token)
  | decoration (t : Token)
  | symbol (t : Token)
  | nthRepeat (t : Token)
  | note (n : Note)
  | chord (c : Chord)
  | grace (g : GraceGroup)
  | slur (left : Token) (contents : List Item) (right : Option Token)
  | multiMeasureRest (letter : Token) (length : Option Token)
  | inlineField (f : InlineField)
  | spacer (letter : Token) (width : Option Token)
  deriving Repr

namespace Item

mutual

def tokens : Item → List Token
  | token t | barline t | quotedText t | decoration t | symbol t | nthRepeat t => [t]
  | note n => n.tokens
  | chord c => c.tokens
  | grace g => g.tokens
  | slur left contents right => left :: tokensOf contents ++ right.toList
  | multiMeasureRest letter length => letter :: length.toList
  | inlineField f => f.tokens
  | spacer letter width => letter :: width.toList

def tokensOf : List Item → List Token
  | [] => []
  | item :: items => item.tokens ++ tokensOf items

end

theorem tokensOf_eq_flatMap (items : List Item) : tokensOf items = items.flatMap tokens := by
  induction items with
  | nil => simp [tokensOf]
  | cons item items ih => simp [tokensOf, ih]

def first : Item → Token
  | token t | barline t | quotedText t | decoration t | symbol t | nthRepeat t => t
  | note n => n.first
  | chord c => c.left
  | grace g => g.left
  | slur left _ _ => left
  | multiMeasureRest letter _ | spacer letter _ => letter
  | inlineField f => f.left

mutual

def last : Item → Token
  | token t | barline t | quotedText t | decoration t | symbol t | nthRepeat t => t
  | note n => n.last
  | chord c => c.last
  | grace g => g.right
  | slur left contents right => (right.or (lastOf? contents)).getD left
  | multiMeasureRest letter length => length.getD letter
  | inlineField f => f.last
  | spacer letter width => width.getD letter

def lastOf? : List Item → Option Token
  | [] => none
  | item :: items => (lastOf? items).or (some item.last)

end

def range (item : Item) : Option Range :=
  some (Token.between item.first item.last)

/-- The item is nothing but space. -/
def isWhitespace : Item → Bool
  | token t => t.kind.isWhitespace
  | _ => false

end Item
end Tunebook
