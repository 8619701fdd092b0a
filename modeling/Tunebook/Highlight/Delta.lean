import Tunebook.Highlight
import Tunebook.Number.Word

/-! Highlights as editors take them: each is placed relative to the one before it, on one line.
Coordinates are words of 32 bits. -/
namespace Tunebook.Highlight

open Number (low32)

/-- A stretch of one line in one colour. -/
structure Mark where
  line : Nat
  column : Nat
  length : Nat
  category : Nat
  deriving DecidableEq, Repr

/-- A mark placed relative to the one before it. Columns are relative within a line only. -/
structure Delta where
  line : Nat
  column : Nat
  length : Nat
  category : Nat
  deriving DecidableEq, Repr

/-- A text cut at its line feeds, which are dropped. -/
def splitLines : Text → List Text
  | [] => [[]]
  | c :: cs =>
    if c = '\n' then [] :: splitLines cs
    else match splitLines cs with
      | [] => [[c]]
      | line :: rest => (c :: line) :: rest

def stripReturn (line : Text) : Text :=
  if line.getLast? = some '\r' then line.dropLast else line

def marks (t : Token) : List Mark :=
  match t.kind.category.legendIndex? with
  | none => []
  | some category =>
    (splitLines t.lexeme).zipIdx.filterMap fun (line, i) =>
      let length := low32 (stripReturn line).units
      if length = 0 then none
      else
        let column := if i = 0 then low32 t.start.column else 0
        some ⟨low32 (t.start.line + i), column, length, category⟩

/-- Each mark relative to the one before it, the first to the start of the text. -/
def deltas (line column : Nat) : List Mark → List Delta
  | [] => []
  | m :: ms =>
    let down := m.line - line
    ⟨down, if down = 0 then m.column - column else m.column, m.length, m.category⟩ ::
      deltas m.line m.column ms

def encode (ts : List Token) : List Delta :=
  deltas 0 0 (ts.flatMap marks)

end Tunebook.Highlight
