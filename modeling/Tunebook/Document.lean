import Tunebook.Grammar
import Tunebook.Highlight
import Tunebook.Rhythm.Scaling
import Tunebook.Scan

/-! A document: a text with all that is known of it. It is formatted, and its lengths are scaled,
only where the text has no errors; warnings do not stand in the way. -/
namespace Tunebook

/-- A problem as it is shown to people. -/
structure Diagnostic where
  range : Range
  severity : Severity
  message : String
  code : String
  source : String
  deriving DecidableEq, Repr

namespace Diagnostic

def ofProblem (source : String) (p : Problem) : Diagnostic :=
  ⟨p.token.range, p.severity, p.message, p.code, source⟩

def display (d : Diagnostic) : String :=
  s!"{d.severity.label} [{d.source}]: {d.message} at {d.range.start.display}"

end Diagnostic

/-- An analysed text. `source` names who found the problems. -/
structure Document where
  text : Text
  source : String
  tokens : List Token
  tree : Tree
  lexical : List Problem
  grammatical : List Problem

namespace Document

def analyze (source : String) (text : Text) : Document :=
  let tokens := scan text
  let tree := Tree.ofTokens tokens
  ⟨text, source, tokens, tree.1, lexicalProblems tokens, tree.2⟩

/-- What single tokens show comes first, what the grammar finds after it. -/
def problems (d : Document) : List Problem :=
  d.lexical ++ d.grammatical

def hasErrors (d : Document) : Bool :=
  d.problems.any Problem.isError

def diagnostics (d : Document) : List Diagnostic :=
  d.problems.map (Diagnostic.ofProblem d.source)

def highlights (d : Document) : List Token :=
  d.tree.highlights

/-- The text, written from the tree. -/
def formatted? (d : Document) : Option Text :=
  if d.hasErrors then none else some d.tree.text

def scale? (d : Document) (k : Scaling) (a b : Position) : Option Replacement :=
  if d.hasErrors then none else some (k.apply d.tree a b)

end Document
end Tunebook
