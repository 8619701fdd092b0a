import Tunebook.Tree

/-! Beams join notes and chords written without a break between them. A beam is a maximal run of
two or more in one sequence of items; the contents of a slur are a sequence of their own. -/
namespace Tunebook

/-- The first and the last item of a beam, by their places in the sequence. -/
structure Beam where
  first : Nat
  last : Nat
  deriving DecidableEq, Repr

namespace Beam

def width (b : Beam) : Nat :=
  b.last - b.first + 1

inductive Role where
  | beamed
  | neutral
  | breaker
  deriving DecidableEq, Repr

def role : Item → Role
  | .note _ | .chord _ => .beamed
  | .quotedText _ | .decoration _ | .symbol _ | .grace _ | .spacer _ _ => .neutral
  | .token t => if t.kind.isWhitespace || t.kind.isComment then .breaker else .neutral
  | .barline _ | .inlineField _ | .nthRepeat _ | .multiMeasureRest _ _ | .slur _ _ _ => .breaker

/-- Notes and chords with no breaker between them, so far. -/
structure Run where
  first : Nat
  last : Nat
  count : Nat

def Run.extend (index : Nat) : Option Run → Run
  | some run => ⟨run.first, index, run.count + 1⟩
  | none => ⟨index, index, 1⟩

def Run.close : Option Run → List Beam
  | some run => if 2 ≤ run.count then [⟨run.first, run.last⟩] else []
  | none => []

/-- The beams of the items from `index` on, where `run` is open. -/
def collect (index : Nat) (run : Option Run) : List Item → List Beam
  | [] => Run.close run
  | item :: items =>
    match role item with
    | .beamed => collect (index + 1) (some (Run.extend index run)) items
    | .neutral => collect (index + 1) run items
    | .breaker => Run.close run ++ collect (index + 1) none items

def ofItems (items : List Item) : List Beam :=
  collect 0 none items

end Beam

/-- A sequence of items, with the places that lead to it. -/
structure Sequence where
  path : List Nat
  items : List Item

namespace Item

mutual

/-- The sequences inside an item whose path is `path`. -/
def sequences (path : List Nat) : Item → List Sequence
  | slur _ contents _ => ⟨path, contents⟩ :: sequencesFrom path 0 contents
  | _ => []

def sequencesFrom (path : List Nat) (index : Nat) : List Item → List Sequence
  | [] => []
  | item :: items => item.sequences (path ++ [index]) ++ sequencesFrom path (index + 1) items

end

end Item

/-- All sequences of items: music lines, and in each the slurs from left to right. A path starts
with the place of the tune and that of the line among the tune's music lines. -/
def Tree.sequences (t : Tree) : List Sequence :=
  t.tunes.zipIdx.flatMap fun (tune, i) =>
    tune.musicLines.zipIdx.flatMap fun (line, j) =>
      ⟨[i, j], line.contents⟩ :: Item.sequencesFrom [i, j] 0 line.contents

end Tunebook
