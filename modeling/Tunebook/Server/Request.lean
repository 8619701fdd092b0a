import Tunebook.Rhythm.Length
import Tunebook.Server.Capabilities
import Tunebook.Text.Location

/-! What an editor asks, read from the name of a method and its parameters. -/
namespace Tunebook.Server

inductive Request where
  /-- The editor starts the session, with options of its own. -/
  | start (options : Option Json)
  | started
  | shutdown
  | opened (uri : String) (version : Int) (text : Text)
  /-- Each change is a whole new text. -/
  | changed (uri : String) (version : Int) (texts : List Text)
  | closed (uri : String)
  | highlights (uri : String)
  | formatting (uri : String)
  | completion (uri : String) (position : Position)
  | rhythm (operator : Operator) (uri : String) (a b : Position)

/-- A request that cannot be read. -/
inductive Malformed where
  | method
  | params

/-! The shapes of parameters. -/

namespace Shape

def position : Shape :=
  record [("line", word), ("character", word)]

def range : Shape :=
  record [("start", position), ("end", position)]

def document : Shape :=
  record [("uri", uri)]

/-- Work may be tagged with a number or a string. -/
def tag : Shape :=
  optional (either integer text)

def start : Shape :=
  record
    [("processId", optional word),
     ("rootPath", optional text),
     ("rootUri", optional uri),
     ("initializationOptions", optional any),
     ("capabilities", Capabilities.shape),
     ("trace", optional (choice ["off", "messages", "verbose"])),
     ("workspaceFolders", optional (list (record [("uri", uri), ("name", text)]))),
     ("clientInfo", optional (record [("name", text), ("version", optional text)])),
     ("locale", optional text)]

def opened : Shape :=
  record [("textDocument",
    record [("uri", uri), ("languageId", text), ("version", integer), ("text", text)])]

def changed : Shape :=
  record
    [("textDocument", record [("uri", uri), ("version", integer)]),
     ("contentChanges", list (record
       [("range", optional range), ("rangeLength", optional word), ("text", text)]))]

def closed : Shape :=
  record [("textDocument", document)]

def highlights : Shape :=
  fields [("workDoneToken", tag), ("partialResultToken", tag), ("textDocument", document)] any

/-- The settings of formatting are flags, numbers and strings. -/
def formattingOptions : Shape :=
  fields
    [("tabSize", word), ("insertSpaces", flag), ("trimTrailingWhitespace", optional flag),
     ("insertFinalNewline", optional flag), ("trimFinalNewlines", optional flag)]
    (either flag (either integer text))

def formatting : Shape :=
  fields
    [("textDocument", document), ("options", formattingOptions), ("workDoneToken", tag)] any

def completion : Shape :=
  fields
    [("textDocument", document), ("position", position), ("workDoneToken", tag),
     ("partialResultToken", tag),
     ("context", optional (record
       [("triggerKind", integer), ("triggerCharacter", optional text)]))]
    any

def rhythm : Shape :=
  record [("uri", uri), ("selection", range)]

end Shape

/-! What parameters of the right shape say. -/

def uriOf? (j : Json) : Option String :=
  j.get? "uri" >>= Json.toString?

def textOf? (j : Json) : Option Text := do
  return (← j.get? "text" >>= Json.toString?).toList

def versionOf? (j : Json) : Option Int := do
  let .integer n ← j.get? "version" | none
  return n

def positionOf? (j : Json) : Option Position := do
  return ⟨← j.get? "line" >>= Json.toNat?, ← j.get? "character" >>= Json.toNat?⟩

/-- The document that parameters name. -/
def documentUri? (params : Json) : Option String :=
  params.get? "textDocument" >>= uriOf?

def readOpened (params : Json) : Option Request := do
  let document ← params.get? "textDocument"
  return .opened (← uriOf? document) (← versionOf? document) (← textOf? document)

def readChanged (params : Json) : Option Request := do
  let document ← params.get? "textDocument"
  let changes ← params.get? "contentChanges" >>= Json.toList?
  return .changed (← uriOf? document) (← versionOf? document) (← changes.mapM textOf?)

def readCompletion (params : Json) : Option Request := do
  return .completion (← documentUri? params) (← params.get? "position" >>= positionOf?)

def readRhythm (operator : Operator) (params : Json) : Option Request := do
  let selection ← params.get? "selection"
  let start ← selection.get? "start" >>= positionOf?
  let stop ← selection.get? "end" >>= positionOf?
  return .rhythm operator (← uriOf? params) start stop

/-- The shape of the parameters of a method and what they ask, for the methods that there are. -/
def method? : String → Option (Shape × (Json → Option Request))
  | "initialize" => some (.start, fun params => some (.start (params.get? "initializationOptions")))
  | "initialized" => some (.record [], fun _ => some .started)
  | "shutdown" => some (.any, fun _ => some .shutdown)
  | "textDocument/didOpen" => some (.opened, readOpened)
  | "textDocument/didChange" => some (.changed, readChanged)
  | "textDocument/didClose" => some (.closed, fun params => .closed <$> documentUri? params)
  | "textDocument/semanticTokens/full" =>
    some (.highlights, fun params => .highlights <$> documentUri? params)
  | "textDocument/formatting" =>
    some (.formatting, fun params => .formatting <$> documentUri? params)
  | "textDocument/completion" => some (.completion, readCompletion)
  | "abc/multiplyRhythm" => some (.rhythm, readRhythm .multiply)
  | "abc/divideRhythm" => some (.rhythm, readRhythm .divide)
  | _ => none

def Request.read (method : String) (params : Json) : Except Malformed Request :=
  match method? method with
  | none => .error .method
  | some (shape, read) => (shape.read? params >>= read).elim (.error .params) .ok

end Tunebook.Server
