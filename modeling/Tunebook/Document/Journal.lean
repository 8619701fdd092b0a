import Tunebook.Document

/-! What is noted down while a document is analysed, formatted and scaled. -/
namespace Tunebook.Journal

inductive Level where
  | trace | debug | info | warn | error
  deriving DecidableEq, Repr

def Level.label : Level → String
  | trace => "trace"
  | debug => "debug"
  | info => "info"
  | warn => "warn"
  | error => "error"

structure Entry where
  level : Level
  message : String
  deriving DecidableEq, Repr

def ofProblem (p : Problem) : Entry :=
  ⟨.trace, s!"{p.severity.label} {p.code} at {p.token.start.display}: {p.message}"⟩

/-- The notes on an analysis. -/
def ofAnalysis (d : Document) : List Entry :=
  d.lexical.map ofProblem ++
    [⟨.debug, s!"scanned {d.tokens.length} tokens"⟩] ++
    d.grammatical.map ofProblem ++
    [⟨.debug, s!"parsed {d.tree.tunes.length} tunes"⟩,
     ⟨.debug, s!"analyzed {d.text.bytes} bytes: {d.tree.tunes.length} tunes, " ++
       s!"{d.problems.length} diagnostics, {d.highlights.length} classified tokens"⟩]

/-- Formatting is only noted where it is refused. -/
def ofFormatting (d : Document) : List Entry :=
  if d.hasErrors then [⟨.warn, "refusing to format a document with errors"⟩] else []

def ofScaling (d : Document) (k : Scaling) (a b : Position) : List Entry :=
  let selection := Selection.between a b
  if d.hasErrors then
    [⟨.warn, s!"refusing to {k.operator.label} rhythms in a document with errors"⟩]
  else
    [⟨.debug, s!"{k.operator.label} rewrote {(k.edits d.tree selection).length} rhythms in " ++
      s!"{selection.start.display}..{selection.stop.display}"⟩]

end Tunebook.Journal
