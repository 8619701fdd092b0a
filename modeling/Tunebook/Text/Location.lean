import Tunebook.Text.Basic

/-! Places in a text. A position counts lines and UTF-16 columns from zero, a span counts bytes,
and a range carries both. `Text.positionAt` and `Text.byteAt` map between the two. -/
namespace Tunebook

structure Position where
  line : Nat
  column : Nat
  deriving DecidableEq, Repr

namespace Position

/-- Reading order. -/
instance : LT Position where
  lt a b := a.line < b.line ∨ a.line = b.line ∧ a.column < b.column

instance : LE Position where
  le a b := a.line < b.line ∨ a.line = b.line ∧ a.column ≤ b.column

instance (a b : Position) : Decidable (a < b) :=
  inferInstanceAs (Decidable (_ ∨ _))

instance (a b : Position) : Decidable (a ≤ b) :=
  inferInstanceAs (Decidable (_ ∨ _))

/-- Where reading one character leads. -/
def next (p : Position) (c : Char) : Position :=
  if c = '\n' then ⟨p.line + 1, 0⟩ else ⟨p.line, p.column + Text.charUnits c⟩

/-- Where reading a text leads. -/
def after (p : Position) (t : Text) : Position :=
  t.foldl next p

@[simp] theorem after_nil (p : Position) : p.after [] = p := rfl

@[simp] theorem after_cons (p : Position) (c : Char) (cs : Text) :
    p.after (c :: cs) = (p.next c).after cs := rfl

@[simp] theorem after_append (p : Position) (s t : Text) :
    p.after (s ++ t) = (p.after s).after t :=
  List.foldl_append

def display (p : Position) : String :=
  s!"{p.line}:{p.column}"

end Position

/-- The bytes from `start` up to `stop`. -/
structure Span where
  start : Nat
  stop : Nat
  deriving DecidableEq, Repr

structure Range where
  span : Span
  start : Position
  stop : Position
  deriving DecidableEq, Repr

namespace Range

def isEmpty (r : Range) : Bool :=
  r.start = r.stop

def display (r : Range) : String :=
  r.start.display ++ ".." ++ r.stop.display

end Range

namespace Text

/-- Walks `remaining` bytes on from `p`. Inside a character the column is 0, and past the end of
the text the walk stays there. -/
def walk : Position → Text → Nat → Position
  | p, [], _ => p
  | p, c :: cs, remaining =>
    if remaining = 0 then p
    else if remaining < c.utf8Size then ⟨p.line, 0⟩
    else walk (p.next c) cs (remaining - c.utf8Size)

/-- Position of a byte offset. -/
def positionAt (t : Text) (offset : Nat) : Position :=
  walk ⟨0, 0⟩ t offset

/-- Bytes before the first character that starts at or after `column`. -/
def bytesToColumn : Text → Nat → Nat
  | [], _ => 0
  | c :: cs, column =>
    if column = 0 then 0 else c.utf8Size + bytesToColumn cs (column - charUnits c)

/-- Byte offset of a position. A column past the content of its line is the end of the content,
and a line past the text is the end of the text. -/
def byteAt (t : Text) (p : Position) : Nat :=
  match t.lines.drop p.line with
  | [] => t.bytes
  | line :: _ =>
    bytes (t.lines.take p.line).flatten + bytesToColumn (lineContent line) p.column

def rangeOfSpan (t : Text) (span : Span) : Range :=
  ⟨span, t.positionAt span.start, t.positionAt span.stop⟩

/-- The text between two byte offsets that fall between characters. -/
def slice (t : Text) (span : Span) : Text :=
  go t 0
where
  go : Text → Nat → Text
    | [], _ => []
    | c :: cs, offset =>
      if offset < span.start then go cs (offset + c.utf8Size)
      else if offset < span.stop then c :: go cs (offset + c.utf8Size)
      else []

end Text
end Tunebook
