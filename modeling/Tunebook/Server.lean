import Tunebook.Json.Writer
import Tunebook.Server.Request
import Tunebook.Workspace

/-! The language server: how it answers each request, what it sends to the editor on the way, and
what becomes of the workspace. -/
namespace Tunebook.Server

/-- A diagnostic as editors take it. -/
structure Report where
  start : Position
  stop : Position
  severity : Severity
  code : String
  source : String
  message : String
  deriving DecidableEq, Repr

def Report.ofDiagnostic (d : Diagnostic) : Report :=
  ⟨d.range.start.low32, d.range.stop.low32, d.severity, d.code, d.source, d.message⟩

inductive Message where
  | publish (uri : String) (reports : List Report) (version : Option Int)
  | warning (text : String)
  | info (text : String)
  deriving DecidableEq, Repr

inductive Reply where
  | nothing
  | capabilities
  | highlights (deltas : List Highlight.Delta)
  | edits (edits : List TextEdit)
  | completions (decorations : List Decoration)
  deriving DecidableEq, Repr

/-- One step of the server. -/
structure Outcome where
  reply : Reply
  sent : List Message
  workspace : Workspace

/-- Options are written out and layered over the built-in configuration. Ones that do not load are
ignored. -/
def configure (w : Workspace) : Option Json → Workspace
  | none => w
  | some options =>
    match Config.load [.json options.compact.toList] with
    | .ok config => w.setConfig config
    | .error _ => w

def readyMessage (source : String) : String :=
  "abc-lsp ready, diagnostics tagged \"" ++ source ++ "\""

/-- Installs a text and publishes its diagnostics. -/
def install (w : Workspace) (uri : String) (version : Int) (text : Text) : Outcome :=
  let w := w.analyze uri text
  ⟨.nothing, [.publish uri ((w.diagnostics uri).map .ofDiagnostic) (some version)], w⟩

/-- One edit, or none and a warning. -/
def offer (w : Workspace) : Except Refusal TextEdit → Outcome
  | .ok edit => ⟨.edits [edit], [], w⟩
  | .error refusal => ⟨.edits [], [.warning refusal.message], w⟩

def handle (w : Workspace) : Request → Outcome
  | .start options => ⟨.capabilities, [], configure w options⟩
  | .started => ⟨.nothing, [.info (readyMessage w.config.source)], w⟩
  | .shutdown => ⟨.nothing, [], w⟩
  | .opened uri version text => install w uri version text
  | .changed uri version texts =>
    match texts.getLast? with
    | some text => install w uri version text
    | none => ⟨.nothing, [], w⟩
  | .closed uri => ⟨.nothing, [.publish uri [] none], w.close uri⟩
  | .highlights uri =>
    match w.get? uri with
    | some d => ⟨.highlights (Highlight.encode d.highlights), [], w⟩
    | none => ⟨.nothing, [], w⟩
  | .formatting uri =>
    match w.get? uri with
    | some _ => offer w (w.format uri)
    | none => ⟨.nothing, [], w⟩
  | .completion uri position =>
    match w.get? uri with
    | some d =>
      if w.config.decorations then ⟨.completions (d.completions position), [], w⟩
      else ⟨.nothing, [], w⟩
    | none => ⟨.nothing, [], w⟩
  | .rhythm operator uri a b => offer w (TextEdit.ofReplacement <$> w.scale uri operator a b)

end Tunebook.Server
