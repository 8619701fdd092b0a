import Tunebook.Cache
import Tunebook.Config
import Tunebook.Document.Completion
import Tunebook.Highlight.Delta

/-! A workspace: the cache of open documents beside the configuration in force. What each operation
does to the open documents is said by one equation on `get?`. -/
namespace Tunebook

/-- Why a document gets no edit. -/
inductive Refusal where
  | unknownDocument (uri : String)
  | hasErrors (uri : String)
  deriving DecidableEq, Repr

namespace Refusal

def label : Refusal → String
  | unknownDocument _ => "UnknownDocument"
  | hasErrors _ => "HasErrors"

def message : Refusal → String
  | unknownDocument uri => uri ++ " is not open"
  | hasErrors uri => uri ++ " has errors; fix them before rewriting it"

end Refusal

/-- The position in words of 32 bits, as editors count. -/
def Position.low32 (p : Position) : Position :=
  ⟨Number.low32 p.line, Number.low32 p.column⟩

/-- New text for what lies between two positions. -/
structure TextEdit where
  start : Position
  stop : Position
  text : Text
  deriving DecidableEq, Repr

namespace TextEdit

def ofReplacement (r : Replacement) : TextEdit :=
  ⟨r.range.start.low32, r.range.stop.low32, r.text⟩

/-- Replaces a whole text. -/
def whole (old new : Text) : TextEdit :=
  ⟨⟨0, 0⟩, (old.positionAt old.bytes).low32, new⟩

/-- The text with the edit made. -/
def apply (e : TextEdit) (text : Text) : Text :=
  text.slice ⟨0, text.byteAt e.start⟩ ++ e.text ++ text.slice ⟨text.byteAt e.stop, text.bytes⟩

end TextEdit

structure Workspace where
  cache : Cache
  config : Config

namespace Workspace

def empty (config : Config) : Workspace :=
  ⟨.empty config.source, config⟩

def get? (w : Workspace) (uri : String) : Option Document :=
  w.cache.get? uri

/-- Takes a text in place of whatever was open under this name. -/
def analyze (w : Workspace) (uri : String) (text : Text) : Workspace :=
  { w with cache := w.cache.update uri text }

def close (w : Workspace) (uri : String) : Workspace :=
  { w with cache := (w.cache.remove uri).2 }

/-- Puts another configuration in force, and its source in the cache. -/
def setConfig (w : Workspace) (config : Config) : Workspace :=
  ⟨w.cache.setSource config.source, config⟩

def document (w : Workspace) (uri : String) : Except Refusal Document :=
  match w.get? uri with
  | some d => .ok d
  | none => .error (.unknownDocument uri)

def diagnostics (w : Workspace) (uri : String) : List Diagnostic :=
  ((w.get? uri).map Document.diagnostics).getD []

/-- The highlights of a document, none if it is not open. -/
def highlights (w : Workspace) (uri : String) : List Token :=
  ((w.get? uri).map Document.highlights).getD []

/-- The whole text of a document, written from its tree. -/
def formatted (w : Workspace) (uri : String) : Except Refusal Text := do
  let d ← w.document uri
  match d.formatted? with
  | some text => return text
  | none => throw (.hasErrors uri)

/-- Formatting as one edit. -/
def format (w : Workspace) (uri : String) : Except Refusal TextEdit := do
  let d ← w.document uri
  return .whole d.text (← w.formatted uri)

def scale (w : Workspace) (uri : String) (operator : Operator) (a b : Position) :
    Except Refusal Replacement := do
  let d ← w.document uri
  match d.scale? ⟨operator, w.config.limits⟩ a b with
  | some r => return r
  | none => throw (.hasErrors uri)

@[simp] theorem get?_empty (config : Config) (uri : String) : (empty config).get? uri = none :=
  rfl

theorem get?_analyze (w : Workspace) (uri other : String) (text : Text) :
    (w.analyze uri text).get? other =
      if other = uri then some (.analyze w.cache.source text) else w.get? other :=
  w.cache.get?_update uri other text

theorem get?_close (w : Workspace) (uri other : String) :
    (w.close uri).get? other = if other = uri then none else w.get? other :=
  w.cache.get?_remove uri other

theorem get?_setConfig (w : Workspace) (config : Config) (uri : String) :
    (w.setConfig config).get? uri =
      (w.get? uri).map fun d => .analyze config.source d.text :=
  w.cache.get?_setSource config.source uri

end Workspace
end Tunebook
