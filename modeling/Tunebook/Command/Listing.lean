import Tunebook.Beam
import Tunebook.Document
import Tunebook.Json.Writer

/-! What the command line prints of a document: its problems, its tokens and its beams. Lines and
columns count from one where people read them and from zero in JSON. -/
namespace Tunebook

/-- The items of a beam, with the text that they cover. -/
structure BeamText where
  start : Position
  stop : Position
  text : Text
  deriving DecidableEq, Repr

namespace Document

def beamText? (d : Document) (items : List Item) (b : Beam) : Option BeamText := do
  let first ← items[b.first]? >>= Item.range
  let last ← items[b.last]? >>= Item.range
  some ⟨first.start, last.stop, d.text.slice ⟨first.span.start, last.span.stop⟩⟩

/-- The beams of the music lines, line by line. -/
def beamTexts (d : Document) : List BeamText :=
  (d.tree.tunes.flatMap Tune.musicLines).flatMap fun line =>
    (Beam.ofItems line.contents).filterMap (d.beamText? line.contents)

end Document

namespace Command

def problemLine (path : String) (d : Diagnostic) : String :=
  s!"{path}:{d.range.start.line + 1}:{d.range.start.column + 1}: {d.severity.label}[{d.code}]: " ++
    d.message ++ "\n"

def problemLines (path : String) (d : Document) : String :=
  String.join (d.diagnostics.map (problemLine path))

def ofToken (t : Token) : Json :=
  .object [("kind", .string t.kind.label), ("category", .string t.kind.category.label),
    ("lexeme", .ofText t.lexeme), ("line", .ofNat t.start.line), ("column", .ofNat t.start.column),
    ("length", .ofNat t.units)]

def ofPosition (p : Position) : Json :=
  .object [("line", .ofNat p.line), ("column", .ofNat p.column)]

def ofBeamText (b : BeamText) : Json :=
  .object [("start", ofPosition b.start), ("end", ofPosition b.stop), ("text", .ofText b.text)]

def tokenListing (d : Document) : Json :=
  .ofList ofToken d.highlights

def beamListing (d : Document) : Json :=
  .ofList ofBeamText d.beamTexts

end Command
end Tunebook
