import Tunebook.Server.Shape

/-! What editors say of themselves when they start a session. All of it is optional, but what is
there has its shape. -/
namespace Tunebook.Server.Capabilities

open Shape

/-- An optional record of optional members. -/
def group (members : List (String × Shape)) : Shape :=
  optional (record (members.map fun (name, shape) => (name, optional shape)))

def flags (names : List String) : List (String × Shape) :=
  names.map (·, flag)

/-- The option to register late, and other options. -/
def late (names : List String) : List (String × Shape) :=
  flags ("dynamicRegistration" :: names)

def refresh : Shape :=
  group (flags ["refreshSupport"])

def numbered : Shape :=
  record [("valueSet", optional (list integer))]

/-- Tags are numbers of a list, or known or not known altogether. -/
def tags : Shape :=
  either flag (record [("valueSet", list integer)])

def resolving : Shape :=
  record [("properties", list text)]

def markup : Shape :=
  list (choice ["plaintext", "markdown"])

def changes : Shape :=
  group (flags ["documentChanges"] ++
    [("resourceOperations", list (choice ["create", "rename", "delete"])),
     ("failureHandling", choice ["abort", "transactional", "textOnlyTransactional", "undo"])] ++
    flags ["normalizesLineEndings"] ++
    [("changeAnnotationSupport", record [("groupsOnLabel", optional flag)])])

def workspace : Shape :=
  group
    [("applyEdit", flag),
     ("workspaceEdit", changes),
     ("didChangeConfiguration", group (late [])),
     ("didChangeWatchedFiles", group (late ["relativePatternSupport"])),
     ("symbol", group (late [] ++
       [("symbolKind", numbered), ("tagSupport", tags), ("resolveSupport", resolving)])),
     ("executeCommand", group (late [])),
     ("workspaceFolders", flag),
     ("configuration", flag),
     ("semanticTokens", refresh),
     ("codeLens", refresh),
     ("fileOperations", group (late
       ["didCreate", "willCreate", "didRename", "willRename", "didDelete", "willDelete"])),
     ("inlineValue", refresh),
     ("inlayHint", refresh),
     ("diagnostic", refresh)]

def completionItem : Shape :=
  group (flags ["snippetSupport", "commitCharactersSupport"] ++
    [("documentationFormat", markup)] ++
    flags ["deprecatedSupport", "preselectSupport"] ++
    [("tagSupport", tags), ("insertReplaceSupport", flag), ("resolveSupport", resolving),
     ("insertTextModeSupport", record [("valueSet", list integer)]),
     ("labelDetailsSupport", flag)])

def completion : Shape :=
  group (late [] ++
    [("completionItem", completionItem), ("completionItemKind", numbered),
     ("contextSupport", flag), ("insertTextMode", integer),
     ("completionList", group [("itemDefaults", list text)])])

def signature : Shape :=
  group (late [] ++
    [("signatureInformation", group
       [("documentationFormat", markup),
        ("parameterInformation", group (flags ["labelOffsetSupport"])),
        ("activeParameterSupport", flag)]),
     ("contextSupport", flag)])

def codeAction : Shape :=
  group (late [] ++
    [("codeActionLiteralSupport", record [("codeActionKind", record [("valueSet", list text)])])] ++
    flags ["isPreferredSupport", "disabledSupport", "dataSupport"] ++
    [("resolveSupport", resolving), ("honorsChangeAnnotations", flag)])

def folding : Shape :=
  group (late [] ++
    [("rangeLimit", word), ("lineFoldingOnly", flag),
     ("foldingRangeKind", group [("valueSet", list (choice ["comment", "imports", "region"]))]),
     ("foldingRange", group (flags ["collapsedText"]))])

/-- Highlighting names what it requests, and its types, modifiers and formats. -/
def highlighting : Shape :=
  optional (record
    ([("dynamicRegistration", optional flag),
      ("requests", record
        [("range", optional flag),
         ("full", optional (either flag (fields [("delta", optional flag)] any)))]),
      ("tokenTypes", list text),
      ("tokenModifiers", list text),
      ("formats", list (choice ["relative"]))] ++
     (flags ["overlappingTokenSupport", "multilineTokenSupport", "serverCancelSupport",
       "augmentsSyntaxTokens"]).map fun (name, shape) => (name, optional shape)))

def link : Shape :=
  group (late ["linkSupport"])

def document : Shape :=
  group
    [("synchronization", group (late ["willSave", "willSaveWaitUntil", "didSave"])),
     ("completion", completion),
     ("hover", group (late [] ++ [("contentFormat", markup)])),
     ("signatureHelp", signature),
     ("references", group (late [])),
     ("documentHighlight", group (late [])),
     ("documentSymbol", group (late [] ++
       [("symbolKind", numbered), ("hierarchicalDocumentSymbolSupport", flag),
        ("tagSupport", tags)])),
     ("formatting", group (late [])),
     ("rangeFormatting", group (late [])),
     ("onTypeFormatting", group (late [])),
     ("declaration", link),
     ("definition", link),
     ("typeDefinition", link),
     ("implementation", link),
     ("codeAction", codeAction),
     ("codeLens", group (late [])),
     ("documentLink", group (late ["tooltipSupport"])),
     ("colorProvider", group (late [])),
     ("rename", group (late ["prepareSupport"] ++
       [("prepareSupportDefaultBehavior", integer), ("honorsChangeAnnotations", flag)])),
     ("publishDiagnostics", group (flags ["relatedInformation"] ++ [("tagSupport", tags)] ++
       flags ["versionSupport", "codeDescriptionSupport", "dataSupport"])),
     ("foldingRange", folding),
     ("selectionRange", group (late [])),
     ("linkedEditingRange", group (late [])),
     ("callHierarchy", group (late [])),
     ("semanticTokens", highlighting),
     ("moniker", group (late [])),
     ("typeHierarchy", group (late [])),
     ("inlineValue", group (late [])),
     ("inlayHint", group (late [] ++ [("resolveSupport", resolving)])),
     ("diagnostic", group (late ["relatedDocumentSupport"]))]

def notebook : Shape :=
  optional (record [("synchronization",
    record ((late ["executionSummarySupport"]).map fun (name, shape) => (name, optional shape)))])

def window : Shape :=
  group
    [("workDoneProgress", flag),
     ("showMessage", group
       [("messageActionItem", group (flags ["additionalPropertiesSupport"]))]),
     ("showDocument", record [("support", flag)])]

def general : Shape :=
  group
    [("regularExpressions", record [("engine", text), ("version", optional text)]),
     ("markdown", record
       [("parser", text), ("version", optional text), ("allowedTags", optional (list text))]),
     ("staleRequestSupport", record
       [("cancel", flag), ("retryOnContentModified", list text)]),
     ("positionEncodings", list text)]

def shape : Shape :=
  record
    [("workspace", workspace), ("textDocument", document), ("notebookDocument", notebook),
     ("window", window), ("general", general), ("experimental", optional any)]

end Tunebook.Server.Capabilities
