import TypedNotation.Json.Form

/-!
# What an editor can do

An editor opens with a list of what it can do. The server needs nothing of it, but a list that is
not in its form is no greeting. Features that an editor may register later have at least a field for
that.
-/

namespace TypedNotation.Capabilities

open Json Json.Form

/-- A field that may be absent. -/
def may (name : String) (form : Form) : String × Presence × Form :=
  (name, .optional, form)

/-- A field that must be given. -/
def must (name : String) (form : Form) : String × Presence × Form :=
  (name, .required, form)

/-- A feature that may be registered later. -/
def registered : Form :=
  flags ["dynamicRegistration"]

/-- The field of features that may be registered later. -/
def register : String × Presence × Form :=
  may "dynamicRegistration" flag

/-- A feature whose results the server may call outdated. -/
def refreshed : Form :=
  flags ["refreshSupport"]

/-- Kinds of things that the editor knows by number. -/
def numbers : Form :=
  record [may "valueSet" (list signed32)]

/-- The properties of a thing that may be asked for later. -/
def properties : Form :=
  record [must "properties" (list text)]

/-- The field for tags. Instead of the tags there may be a truth value. -/
def tags : String × Presence × Form :=
  ("tagSupport", .omissible, either flag (record [must "valueSet" (list signed32)]))

/-- Formats of texts. -/
def formats : Form :=
  list (word ["plaintext", "markdown"])

/-- Edits of several files. -/
def workspaceEdit : Form :=
  record
    [may "documentChanges" flag,
     may "resourceOperations" (list (word ["create", "rename", "delete"])),
     may "failureHandling" (word ["abort", "transactional", "textOnlyTransactional", "undo"]),
     may "normalizesLineEndings" flag, may "changeAnnotationSupport" (flags ["groupsOnLabel"])]

/-- Features of a whole workspace. -/
def workspace : Form :=
  record
    [may "applyEdit" flag, may "workspaceEdit" workspaceEdit,
     may "didChangeConfiguration" registered,
     may "didChangeWatchedFiles" (flags ["dynamicRegistration", "relativePatternSupport"]),
     may "symbol"
      (record [register, may "symbolKind" numbers, tags, may "resolveSupport" properties]),
     may "executeCommand" registered, may "workspaceFolders" flag, may "configuration" flag,
     may "semanticTokens" refreshed, may "codeLens" refreshed,
     may "fileOperations"
      (flags ["dynamicRegistration", "didCreate", "willCreate", "didRename", "willRename",
        "didDelete", "willDelete"]),
     may "inlineValue" refreshed, may "inlayHint" refreshed, may "diagnostic" refreshed]

/-- Items of a completion. -/
def completionItem : Form :=
  record
    [may "snippetSupport" flag, may "commitCharactersSupport" flag,
     may "documentationFormat" formats, may "deprecatedSupport" flag, may "preselectSupport" flag,
     tags, may "insertReplaceSupport" flag, may "resolveSupport" properties,
     may "insertTextModeSupport" (record [must "valueSet" (list signed32)]),
     may "labelDetailsSupport" flag]

/-- Completion. -/
def completion : Form :=
  record
    [register, may "completionItem" completionItem, may "completionItemKind" numbers,
     may "contextSupport" flag, may "insertTextMode" signed32,
     may "completionList" (record [may "itemDefaults" (list text)])]

/-- Help on signatures. -/
def signatureHelp : Form :=
  record
    [register,
     may "signatureInformation"
      (record
        [may "documentationFormat" formats,
         may "parameterInformation" (flags ["labelOffsetSupport"]),
         may "activeParameterSupport" flag]),
     may "contextSupport" flag]

/-- Actions on a document. -/
def codeAction : Form :=
  record
    [register,
     may "codeActionLiteralSupport"
      (record [must "codeActionKind" (record [must "valueSet" (list text)])]),
     may "isPreferredSupport" flag, may "disabledSupport" flag, may "dataSupport" flag,
     may "resolveSupport" properties, may "honorsChangeAnnotations" flag]

/-- Findings that are shown. -/
def publishDiagnostics : Form :=
  record
    [may "relatedInformation" flag, tags, may "versionSupport" flag,
     may "codeDescriptionSupport" flag, may "dataSupport" flag]

/-- Folding. -/
def foldingRange : Form :=
  record
    [register, may "rangeLimit" unsigned32, may "lineFoldingOnly" flag,
     may "foldingRangeKind"
      (record [may "valueSet" (list (word ["comment", "imports", "region"]))]),
     may "foldingRange" (flags ["collapsedText"])]

/-- Colouring by meaning. -/
def semanticTokens : Form :=
  record
    [register,
     must "requests"
      (record [may "range" flag, may "full" (either flag (object [may "delta" flag]))]),
     must "tokenTypes" (list text), must "tokenModifiers" (list text), must "formats" (list text),
     may "overlappingTokenSupport" flag, may "multilineTokenSupport" flag,
     may "serverCancelSupport" flag, may "augmentsSyntaxTokens" flag]

/-- Going to where something is declared. -/
def goto : Form :=
  flags ["dynamicRegistration", "linkSupport"]

/-- Features of single documents. -/
def textDocument : Form :=
  record
    [may "synchronization"
      (flags ["dynamicRegistration", "willSave", "willSaveWaitUntil", "didSave"]),
     may "completion" completion, may "hover" (record [register, may "contentFormat" formats]),
     may "signatureHelp" signatureHelp, may "references" registered,
     may "documentHighlight" registered,
     may "documentSymbol"
      (record
        [register, may "symbolKind" numbers, may "hierarchicalDocumentSymbolSupport" flag, tags]),
     may "formatting" registered, may "rangeFormatting" registered,
     may "onTypeFormatting" registered, may "declaration" goto, may "definition" goto,
     may "typeDefinition" goto, may "implementation" goto, may "codeAction" codeAction,
     may "codeLens" registered,
     may "documentLink" (flags ["dynamicRegistration", "tooltipSupport"]),
     may "colorProvider" registered,
     may "rename"
      (record
        [register, may "prepareSupport" flag, may "prepareSupportDefaultBehavior" signed32,
         may "honorsChangeAnnotations" flag]),
     may "publishDiagnostics" publishDiagnostics, may "foldingRange" foldingRange,
     may "selectionRange" registered, may "linkedEditingRange" registered,
     may "callHierarchy" registered, may "semanticTokens" semanticTokens, may "moniker" registered,
     may "typeHierarchy" registered, may "inlineValue" registered,
     may "inlayHint" (record [register, may "resolveSupport" properties]),
     may "diagnostic" (flags ["dynamicRegistration", "relatedDocumentSupport"])]

/-- Features of notebooks. -/
def notebookDocument : Form :=
  record [must "synchronization" (flags ["dynamicRegistration", "executionSummaryReport"])]

/-- Features of the window. -/
def window : Form :=
  record
    [may "workDoneProgress" flag,
     may "showMessage"
      (record [may "messageActionItem" (flags ["additionalPropertiesSupport"])]),
     may "showDocument" (record [must "support" flag])]

/-- Features of the exchange itself. -/
def general : Form :=
  record
    [may "regularExpressions" (record [must "engine" text, may "version" text]),
     may "markdown"
      (record [must "parser" text, may "version" text, may "allowedTags" (list text)]),
     may "staleRequestSupport"
      (record [must "cancel" flag, must "retryOnContentModified" (list text)]),
     may "positionEncodings" (list text)]

/-- All that an editor can do. -/
def form : Form :=
  record
    [may "workspace" workspace, may "textDocument" textDocument,
     may "notebookDocument" notebookDocument, may "window" window, may "general" general,
     may "experimental" any]

end TypedNotation.Capabilities
