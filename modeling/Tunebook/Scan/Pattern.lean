import Tunebook.Text.Basic

/-! Regular patterns over characters. `Pattern.Matches` says what a pattern accepts, and
`Pattern.longest` finds the longest accepted text at the front of another by taking derivatives. -/
namespace Tunebook

inductive Pattern where
  | fail
  | empty
  | char (accepts : Char → Bool)
  | alt (a b : Pattern)
  | seq (a b : Pattern)
  | star (a : Pattern)

namespace Pattern

inductive Matches : Pattern → Text → Prop where
  | empty : Matches .empty []
  | char : accepts c = true → Matches (.char accepts) [c]
  | left : Matches a s → Matches (.alt a b) s
  | right : Matches b s → Matches (.alt a b) s
  | seq : Matches a s → Matches b t → Matches (.seq a b) (s ++ t)
  | done : Matches (.star a) []
  | more : Matches a s → Matches (.star a) t → Matches (.star a) (s ++ t)

def plus (a : Pattern) : Pattern :=
  seq a (star a)

def opt (a : Pattern) : Pattern :=
  alt a empty

def just (c : Char) : Pattern :=
  char (· = c)

def text (s : String) : Pattern :=
  s.toList.foldr (fun c rest => seq (just c) rest) empty

def oneOf (s : String) : Pattern :=
  char s.toList.contains

def digit : Pattern :=
  char Char.isDigit

def nullable : Pattern → Bool
  | fail => false
  | empty => true
  | char _ => false
  | alt a b => a.nullable || b.nullable
  | seq a b => a.nullable && b.nullable
  | star _ => true

/-- `alt` without its dead branches. -/
def orElse : Pattern → Pattern → Pattern
  | fail, b => b
  | a, fail => a
  | a, b => alt a b

/-- `seq`, dead when its first part is. -/
def andThen : Pattern → Pattern → Pattern
  | fail, _ => fail
  | empty, b => b
  | a, b => seq a b

/-- What is left to match once `c` was read. -/
def step (c : Char) : Pattern → Pattern
  | fail => fail
  | empty => fail
  | char accepts => if accepts c then empty else fail
  | alt a b => (a.step c).orElse (b.step c)
  | seq a b =>
    if a.nullable then ((a.step c).andThen b).orElse (b.step c) else (a.step c).andThen b
  | star a => (a.step c).andThen (star a)

/-- Length of the longest text at the front that the pattern matches. -/
def longest : Pattern → Text → Option Nat
  | fail, _ => none
  | p, [] => if p.nullable then some 0 else none
  | p, c :: cs =>
    match longest (p.step c) cs with
    | some n => some (n + 1)
    | none => if p.nullable then some 0 else none

end Pattern
end Tunebook
