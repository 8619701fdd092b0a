import Tunebook.Number.Word
import Tunebook.Text.Blank
import Tunebook.Text.Location

/-! Places as people write them, `LINE:COL` counted from one, with columns in characters. -/
namespace Tunebook

namespace Text

/-- A line without the line feed at its end, and without one carriage return before that. -/
def dropLineEnd : Text → Text
  | [] | ['\n'] | ['\r', '\n'] => []
  | c :: cs => c :: dropLineEnd cs

/-- Cuts at the first of a character, which belongs to neither part. -/
def splitAt? (c : Char) : Text → Option (Text × Text)
  | [] => none
  | d :: cs =>
    if d = c then some ([], cs)
    else (splitAt? c cs).map fun (before, after) => (d :: before, after)

theorem splitAt?_append (c : Char) {before : Text} (h : c ∉ before) (after : Text) :
    splitAt? c (before ++ c :: after) = some (before, after) := by
  induction before with
  | nil => simp [splitAt?]
  | cons d before ih =>
    have differs : d ≠ c := fun same => h (same ▸ List.mem_cons_self)
    have absent : c ∉ before := fun member => h (List.mem_cons_of_mem d member)
    simp [splitAt?, differs, ih absent]

end Text

/-- A line and a number of characters in it, both from zero. -/
structure Place where
  line : Nat
  characters : Nat
  deriving DecidableEq, Repr

namespace Place

/-- Reading order. -/
instance : LT Place where
  lt a b := a.line < b.line ∨ a.line = b.line ∧ a.characters < b.characters

instance (a b : Place) : Decidable (a < b) :=
  inferInstanceAs (Decidable (_ ∨ _))

/-- A number of 64 bits, counted from one. -/
def readOrdinal? (t : Text) : Option Nat :=
  match Number.readBelow? Number.word64 t with
  | some (n + 1) => some n
  | _ => none

def read? (t : Text) : Option Place := do
  let (line, column) ← t.trim.splitAt? ':'
  some ⟨← readOrdinal? line, ← readOrdinal? column⟩

/-- Two places with a dash between them, the second not before the first. -/
def readTwo? (t : Text) : Option (Place × Place) := do
  let (start, stop) ← t.splitAt? '-'
  let start ← read? start
  let stop ← read? stop
  if stop < start then none else some (start, stop)

/-- The position in a text. A place past the end of its line is at the end, and a line that the text
lacks is empty. -/
def position (p : Place) (t : Text) : Position :=
  let line := (t.lines.drop p.line).headD []
  ⟨p.line, Text.units (line.dropLineEnd.take p.characters)⟩

end Place
end Tunebook
