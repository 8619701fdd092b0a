import Tunebook.Rhythm.Length
import Tunebook.Tree

/-! Doubling or halving the lengths of all notes and chords that a selection meets. -/
namespace Tunebook

structure Edit where
  span : Span
  text : Text
  deriving DecidableEq, Repr

/-- New text for a range of a document. -/
structure Replacement where
  range : Range
  text : Text
  deriving DecidableEq, Repr

/-- The text with the replaced span cut out and the new text put in. -/
def Replacement.apply (r : Replacement) (text : Text) : Text :=
  text.slice ⟨0, r.range.span.start⟩ ++ r.text ++ text.slice ⟨r.range.span.stop, text.bytes⟩

/-- Two positions in order. An empty selection is a cursor. -/
structure Selection where
  start : Position
  stop : Position
  deriving DecidableEq, Repr

/-- How a selection meets a range. Only a cursor touches. -/
inductive Reach where
  | contains
  | touches
  deriving DecidableEq, Repr

namespace Selection

def between (a b : Position) : Selection :=
  if b < a then ⟨b, a⟩ else ⟨a, b⟩

def isCursor (s : Selection) : Bool :=
  s.start = s.stop

def reach? (s : Selection) (r : Range) : Option Reach :=
  if s.isCursor then
    if r.start ≤ s.start ∧ s.start < r.stop then some .contains
    else if r.stop = s.start then some .touches
    else none
  else if r.start < s.stop ∧ s.start < r.stop then some .contains
  else none

end Selection

/-- What is scaled as one. -/
inductive Sound where
  | note (n : Note)
  | chord (c : Chord)

mutual

/-- The notes and chords of an item, those in slurs among them and those in grace groups not. -/
def Item.sounds : Item → List Sound
  | .note n => [.note n]
  | .chord c => [.chord c]
  | .slur _ contents _ => Item.soundsOf contents
  | _ => []

def Item.soundsOf : List Item → List Sound
  | [] => []
  | item :: items => item.sounds ++ Item.soundsOf items

end

def Tree.sounds (t : Tree) : List Sound :=
  t.tunes.flatMap fun tune => tune.musicLines.flatMap fun line => Item.soundsOf line.items

/-- What to do to the lengths that are met. -/
structure Scaling where
  operator : Operator
  limits : Limits
  deriving DecidableEq, Repr

namespace Scaling

/-- The new length in place of the written one or, where none is written, after `insertion`. None
if the length cannot be read or the new one is past the limits. -/
def ofRhythm (k : Scaling) (rhythm : Rhythm) (insertion : Option Token) : Option Edit := do
  let length ← Length.read? rhythm
  let scaled ← length.scale? k.operator k.limits
  let span ←
    match rhythm.lengthTokens.head?, rhythm.lengthTokens.getLast? with
    | some first, some last => some ⟨first.span.start, last.span.stop⟩
    | _, _ => insertion.map fun t => ⟨t.span.stop, t.span.stop⟩
  some ⟨span, scaled.render⟩

def ofNote (k : Scaling) (n : Note) : Option Edit :=
  k.ofRhythm n.rhythm n.head.tokens.getLast?

/-- The notes of a chord are scaled one by one if it has no length of its own and they do. -/
def editsNotes (c : Chord) : Bool :=
  c.rhythm.lengthTokens.isEmpty && c.notes.any (!·.rhythm.lengthTokens.isEmpty)

def ofSound (k : Scaling) : Sound → List Edit
  | .note n => (k.ofNote n).toList
  | .chord c =>
    if editsNotes c then c.notes.filterMap k.ofNote
    else (k.ofRhythm c.rhythm (some c.right)).toList

end Scaling

def Sound.range : Sound → Option Range
  | .note n => n.range
  | .chord c => c.range

namespace Scaling

def editsAt (k : Scaling) (tree : Tree) (selection : Selection) (reach : Reach) : List Edit :=
  tree.sounds.flatMap fun s =>
    if s.range.bind selection.reach? = some reach then k.ofSound s else []

/-- The edits inside a selection. A cursor that is inside nothing to edit takes what it touches. -/
def edits (k : Scaling) (tree : Tree) (selection : Selection) : List Edit :=
  let inside := k.editsAt tree selection .contains
  let found :=
    if selection.isCursor && inside.isEmpty then k.editsAt tree selection .touches else inside
  found.mergeSort fun a b => a.span.start ≤ b.span.start

/-- The text from `start` to `stop`, with the edits made. -/
def splice (text : Text) (start stop : Nat) : List Edit → Text
  | [] => text.slice ⟨start, stop⟩
  | e :: es => text.slice ⟨start, e.span.start⟩ ++ e.text ++ splice text e.span.stop stop es

/-- The selected text with its lengths scaled. The selection is widened where an edit reaches
past it. -/
def apply (k : Scaling) (tree : Tree) (a b : Position) : Replacement :=
  let selection := Selection.between a b
  let text := tree.text
  let edits := k.edits tree selection
  let first := text.byteAt selection.start
  let last := max first (text.byteAt selection.stop)
  let start := edits.foldl (fun n e => min n e.span.start) first
  let stop := edits.foldl (fun n e => max n e.span.stop) last
  ⟨text.rangeOfSpan ⟨start, stop⟩, splice text start stop edits⟩

end Scaling
end Tunebook
