import Tunebook.Server

/-! Replies and messages of the server as the editor's protocol writes them. -/
namespace Tunebook.Server

def ofPosition (p : Position) : Json :=
  .object [("line", .ofNat p.line), ("character", .ofNat p.column)]

def ofRange (start stop : Position) : Json :=
  .object [("start", ofPosition start), ("end", ofPosition stop)]

def severityNumber : Severity → Nat
  | .error => 1
  | .warning => 2

def ofReport (r : Report) : Json :=
  .object [("range", ofRange r.start r.stop),
    ("severity", .ofNat (severityNumber r.severity)), ("code", .string r.code),
    ("source", .string r.source), ("message", .string r.message)]

def ofTextEdit (e : TextEdit) : Json :=
  .object [("range", ofRange e.start e.stop), ("newText", .ofText e.text)]

def ofDecoration (d : Decoration) : Json :=
  .object [("label", .string d.label),
    ("labelDetails", .object [("description", .string "decoration")]), ("kind", .ofNat 1),
    ("documentation", .string d.meaning), ("filterText", .string d.name),
    ("insertText", .string d.rest)]

def capabilities : Json :=
  .object
    [("textDocumentSync", .ofNat 1),
     ("completionProvider", .object [("triggerCharacters", .array [.string "!"])]),
     ("documentFormattingProvider", .bool true),
     ("semanticTokensProvider", .object
       [("legend", .object
          [("tokenTypes", .ofList (.string ∘ Category.label) Category.legend),
           ("tokenModifiers", .array [])]),
        ("full", .bool true)])]

def serverInfo : Json :=
  .object [("name", .string "abc-lsp"), ("version", .string "0.1.0")]

def Reply.toJson : Reply → Json
  | nothing => .null
  | capabilities =>
    .object [("capabilities", Server.capabilities), ("serverInfo", Server.serverInfo)]
  | highlights deltas =>
    .object [("data", .ofList .ofNat
      (deltas.flatMap fun d => [d.line, d.column, d.length, d.category, 0]))]
  | edits list => .ofList ofTextEdit list
  | completions list => .ofList ofDecoration list

def Message.toJson : Message → Json
  | publish uri reports version =>
    .object [("publish", .object [("uri", .string uri),
      ("diagnostics", .ofList ofReport reports),
      ("version", .ofOption .integer version)])]
  | warning text => .object [("log", .object [("type", .ofNat 2), ("message", .string text)])]
  | info text => .object [("log", .object [("type", .ofNat 3), ("message", .string text)])]

end Tunebook.Server
