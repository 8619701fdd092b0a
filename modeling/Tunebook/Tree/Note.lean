import Tunebook.Token

/-! Notes, chords and grace groups. Every node lists the tokens it owns, in the order of the text.
Where it lies is told by its first token and its last, which are found among its parts. -/
namespace Tunebook

/-- The parts of a length and the mark of a broken rhythm, as far as they are written. -/
structure Rhythm where
  numerator : Option Token
  separator : Option Token
  denominator : Option Token
  broken : Option Token
  deriving DecidableEq, Repr

namespace Rhythm

def lengthTokens (r : Rhythm) : List Token :=
  r.numerator.toList ++ r.separator.toList ++ r.denominator.toList

def tokens (r : Rhythm) : List Token :=
  r.lengthTokens ++ r.broken.toList

end Rhythm

/-- What sounds: a letter with its accidental and octave marks, or a rest. -/
inductive NoteHead where
  | pitch (alteration : Option Token) (letter : Token) (octave : Option Token)
  | rest (letter : Token)
  deriving DecidableEq, Repr

def NoteHead.tokens : NoteHead → List Token
  | pitch alteration letter octave => alteration.toList ++ letter :: octave.toList
  | rest letter => [letter]

def NoteHead.first : NoteHead → Token
  | pitch alteration letter _ => alteration.getD letter
  | rest letter => letter

def NoteHead.last : NoteHead → Token
  | pitch _ letter octave => octave.getD letter
  | rest letter => letter

structure Note where
  head : NoteHead
  rhythm : Rhythm
  tie : Option Token
  deriving DecidableEq, Repr

namespace Note

def tokens (n : Note) : List Token :=
  n.head.tokens ++ n.rhythm.tokens ++ n.tie.toList

def first (n : Note) : Token :=
  n.head.first

def last (n : Note) : Token :=
  (n.tie.or n.rhythm.tokens.getLast?).getD n.head.last

def range (n : Note) : Option Range :=
  some (Token.between n.first n.last)

end Note

inductive ChordPart where
  | note (n : Note)
  | quotedText (t : Token)
  | token (t : Token)
  deriving DecidableEq, Repr

namespace ChordPart

def tokens : ChordPart → List Token
  | note n => n.tokens
  | quotedText t | token t => [t]

def note? : ChordPart → Option Note
  | note n => some n
  | _ => none

end ChordPart

/-- Notes between brackets that sound together, with the rhythm they share. -/
structure Chord where
  left : Token
  parts : List ChordPart
  right : Token
  rhythm : Rhythm
  tie : Option Token
  deriving DecidableEq, Repr

namespace Chord

def tokens (c : Chord) : List Token :=
  c.left :: c.parts.flatMap ChordPart.tokens ++ c.right :: c.rhythm.tokens ++ c.tie.toList

def last (c : Chord) : Token :=
  (c.tie.or c.rhythm.tokens.getLast?).getD c.right

def range (c : Chord) : Option Range :=
  some (Token.between c.left c.last)

def notes (c : Chord) : List Note :=
  c.parts.filterMap ChordPart.note?

end Chord

inductive GracePart where
  | note (n : Note)
  | chord (c : Chord)
  | token (t : Token)
  deriving DecidableEq, Repr

namespace GracePart

def tokens : GracePart → List Token
  | note n => n.tokens
  | chord c => c.tokens
  | token t => [t]

def note? : GracePart → Option Note
  | note n => some n
  | _ => none

end GracePart

/-- Ornamental notes between braces; a slash makes them crushed. -/
structure GraceGroup where
  left : Token
  slash : Option Token
  parts : List GracePart
  right : Token
  deriving DecidableEq, Repr

namespace GraceGroup

def tokens (g : GraceGroup) : List Token :=
  g.left :: g.slash.toList ++ g.parts.flatMap GracePart.tokens ++ [g.right]

def range (g : GraceGroup) : Option Range :=
  some (Token.between g.left g.right)

def notes (g : GraceGroup) : List Note :=
  g.parts.filterMap GracePart.note?

end GraceGroup
end Tunebook
