import Tunebook.Text.Location
import Tunebook.Text.Quoted
import Tunebook.Token.Kind

/-! Tokens: pieces of a text with their kind and place. -/
namespace Tunebook

structure Token where
  kind : Kind
  lexeme : Text
  start : Position
  span : Span
  deriving DecidableEq, Repr

namespace Token

/-- Just past the lexeme: the column starts again after each line feed in it. -/
def stop (t : Token) : Position :=
  t.start.after t.lexeme

def range (t : Token) : Range :=
  ⟨t.span, t.start, t.stop⟩

def units (t : Token) : Nat :=
  t.lexeme.units

def retag (t : Token) (kind : Kind) : Token :=
  { t with kind }

def display (t : Token) : String :=
  s!"{t.kind.name}({String.ofList t.lexeme.quoted}) at {t.start.display}"

/-- The key of an information line that opens a tune. -/
def opensTune (t : Token) : Bool :=
  t.kind = .infoKey && t.lexeme.head? = some 'X'

/-- The texts of the tokens, one after the other. -/
def join (ts : List Token) : Text :=
  ts.flatMap (·.lexeme)

@[simp] theorem join_nil : join [] = [] := rfl

@[simp] theorem join_cons (t : Token) (ts : List Token) :
    join (t :: ts) = t.lexeme ++ join ts := rfl

@[simp] theorem join_append (s t : List Token) : join (s ++ t) = join s ++ join t :=
  List.flatMap_append

/-- One token in place of several: kind and place of the first, the texts joined, the span up to
the end of the last. -/
def merge : List Token → Option Token
  | [] => none
  | t :: ts =>
    some { t with
      lexeme := join (t :: ts)
      span := ⟨t.span.start, ((t :: ts).getLast (by simp)).span.stop⟩ }

/-- From the start of one token to the end of another. -/
def between (first last : Token) : Range :=
  ⟨⟨first.span.start, last.span.stop⟩, first.start, last.stop⟩

/-- From the start of the first token to the end of the last. -/
def cover (ts : List Token) : Option Range :=
  match ts.head?, ts.getLast? with
  | some first, some last =>
    some ⟨⟨first.span.start, last.span.stop⟩, first.start, last.stop⟩
  | _, _ => none

end Token
end Tunebook
