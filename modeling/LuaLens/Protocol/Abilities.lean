import LuaLens.Protocol.Types

/-!
The shapes of what the two ends of a conversation say they can do, and what the ends of this library
say.
-/

namespace LuaLens.Shape

/-! ### Servers -/

def workDoneOption : Field := opt "workDoneProgress" bool

/-- Switched on or off, or described by options of its own. -/
def switch (options : Shape) : Shape := oneOf [bool, options]

/-- Switched on or off, without options of its own. -/
def plainSwitch : Shape := switch (object [workDoneOption])

def documentFilter : Shape := record [opt "language" text, opt "scheme" text, opt "pattern" text]

def selector : Field :=
  { name := "documentSelector", shape := listOf documentFilter, presence := .nullable }

def registration : Shape := record [selector, opt "id" text]

def completionOptions : Shape :=
  object [opt "resolveProvider" bool, opt "triggerCharacters" (listOf text),
    opt "allCommitCharacters" (listOf text), workDoneOption,
    opt "completionItem" (record [opt "labelDetailsSupport" bool])]

def signatureOptions : Shape :=
  object [opt "triggerCharacters" (listOf text), opt "retriggerCharacters" (listOf text),
    workDoneOption]

def synchronization : Shape :=
  oneOf [int, record [opt "openClose" bool, opt "change" int, opt "willSave" bool,
    opt "willSaveWaitUntil" bool, opt "save" (switch (record [opt "includeText" bool]))]]

def fileOperation : Shape :=
  record [req "filters" (listOf (record [opt "scheme" text,
    req "pattern" (record [req "glob" text, opt "matches" (word ["file", "folder"]),
      opt "options" (record [opt "ignoreCase" bool])])]))]

def workspaceOptions : Shape :=
  record [opt "workspaceFolders"
      (record [opt "supported" bool, opt "changeNotifications" (oneOf [bool, text])]),
    opt "fileOperations" (record [opt "didCreate" fileOperation, opt "willCreate" fileOperation,
      opt "didRename" fileOperation, opt "willRename" fileOperation,
      opt "didDelete" fileOperation, opt "willDelete" fileOperation])]

def semanticTokens : Shape :=
  object [workDoneOption,
    req "legend" (record [req "tokenTypes" (listOf text), req "tokenModifiers" (listOf text)]),
    opt "range" bool, opt "full" (switch (record [opt "delta" bool]))]

def serverAbilities : Shape :=
  record [opt "positionEncoding" text, opt "textDocumentSync" synchronization,
    opt "selectionRangeProvider" plainSwitch, opt "hoverProvider" plainSwitch,
    opt "completionProvider" completionOptions, opt "signatureHelpProvider" signatureOptions,
    opt "definitionProvider" plainSwitch, opt "typeDefinitionProvider" (switch registration),
    opt "implementationProvider" (switch registration), opt "referencesProvider" plainSwitch,
    opt "documentHighlightProvider" plainSwitch, opt "documentSymbolProvider"
      (switch (object [opt "label" text, workDoneOption])),
    opt "workspaceSymbolProvider" (switch (object [workDoneOption, opt "resolveProvider" bool])),
    opt "codeActionProvider" (switch (object [opt "codeActionKinds" (listOf text), workDoneOption,
      opt "resolveProvider" bool])),
    opt "codeLensProvider" (record [opt "resolveProvider" bool]),
    opt "documentFormattingProvider" plainSwitch, opt "documentRangeFormattingProvider" plainSwitch,
    opt "documentOnTypeFormattingProvider"
      (record [req "firstTriggerCharacter" text, opt "moreTriggerCharacter" (listOf text)]),
    opt "renameProvider" (switch (object [opt "prepareProvider" bool, workDoneOption])),
    opt "documentLinkProvider" (object [opt "resolveProvider" bool, workDoneOption]),
    opt "colorProvider" (switch (record [])), opt "foldingRangeProvider" (switch (record [])),
    opt "declarationProvider" (switch (object [workDoneOption, selector, opt "id" text])),
    opt "executeCommandProvider" (object [req "commands" (listOf text), workDoneOption]),
    opt "workspace" workspaceOptions, opt "callHierarchyProvider" plainSwitch,
    opt "semanticTokensProvider" semanticTokens, opt "monikerProvider" plainSwitch,
    opt "linkedEditingRangeProvider" plainSwitch, opt "inlineValueProvider" plainSwitch,
    opt "inlayHintProvider" (switch (object [workDoneOption, opt "resolveProvider" bool])),
    opt "diagnosticProvider" (object [opt "identifier" text, req "interFileDependencies" bool,
      req "workspaceDiagnostics" bool, workDoneOption]),
    opt "experimental" any]

def initializeResult : Shape :=
  record [req "capabilities" serverAbilities,
    opt "serverInfo" (record [req "name" text, opt "version" text])]

/-! ### Clients -/

def dynamicOption : Field := opt "dynamicRegistration" bool

def dynamicOnly : Shape := record [dynamicOption]

def valueSet (value : Shape) : Shape := record [opt "valueSet" (listOf value)]

/-- Which tags are known; a plain answer counts as well. -/
def tagSupport : Shape := oneOf [bool, record [req "valueSet" (listOf int)]]

def properties : Shape := record [req "properties" (listOf text)]

def linkSupport : Shape := record [dynamicOption, opt "linkSupport" bool]

def refreshOnly : Shape := record [opt "refreshSupport" bool]

def completionAbilities : Shape :=
  record [dynamicOption,
    opt "completionItem" (record [opt "snippetSupport" bool, opt "commitCharactersSupport" bool,
      opt "documentationFormat" (listOf markupKind), opt "deprecatedSupport" bool,
      opt "preselectSupport" bool, opt "tagSupport" tagSupport, opt "insertReplaceSupport" bool,
      opt "resolveSupport" properties,
      opt "insertTextModeSupport" (record [req "valueSet" (listOf int)]),
      opt "labelDetailsSupport" bool]),
    opt "completionItemKind" (valueSet int), opt "contextSupport" bool, opt "insertTextMode" int,
    opt "completionList" (record [opt "itemDefaults" (listOf text)])]

def signatureAbilities : Shape :=
  record [dynamicOption,
    opt "signatureInformation" (record [opt "documentationFormat" (listOf markupKind),
      opt "parameterInformation" (record [opt "labelOffsetSupport" bool]),
      opt "activeParameterSupport" bool]),
    opt "contextSupport" bool]

def codeActionAbilities : Shape :=
  record [dynamicOption,
    opt "codeActionLiteralSupport"
      (record [req "codeActionKind" (record [req "valueSet" (listOf text)])]),
    opt "isPreferredSupport" bool, opt "disabledSupport" bool, opt "dataSupport" bool,
    opt "resolveSupport" properties, opt "honorsChangeAnnotations" bool]

def semanticAbilities : Shape :=
  record [dynamicOption,
    req "requests" (record [opt "range" bool, opt "full" (switch (record [opt "delta" bool]))]),
    req "tokenTypes" (listOf text), req "tokenModifiers" (listOf text),
    req "formats" (listOf (word ["relative"])), opt "overlappingTokenSupport" bool,
    opt "multilineTokenSupport" bool, opt "serverCancelSupport" bool,
    opt "augmentsSyntaxTokens" bool]

def documentAbilities : Shape :=
  record [opt "synchronization" (record [dynamicOption, opt "willSave" bool,
      opt "willSaveWaitUntil" bool, opt "didSave" bool]),
    opt "completion" completionAbilities,
    opt "hover" (record [dynamicOption, opt "contentFormat" (listOf markupKind)]),
    opt "signatureHelp" signatureAbilities, opt "references" dynamicOnly,
    opt "documentHighlight" dynamicOnly,
    opt "documentSymbol" (record [dynamicOption, opt "symbolKind" (valueSet int),
      opt "hierarchicalDocumentSymbolSupport" bool, opt "tagSupport" tagSupport]),
    opt "formatting" dynamicOnly, opt "rangeFormatting" dynamicOnly,
    opt "onTypeFormatting" dynamicOnly, opt "declaration" linkSupport,
    opt "definition" linkSupport, opt "typeDefinition" linkSupport,
    opt "implementation" linkSupport, opt "codeAction" codeActionAbilities,
    opt "codeLens" dynamicOnly,
    opt "documentLink" (record [dynamicOption, opt "tooltipSupport" bool]),
    opt "colorProvider" dynamicOnly,
    opt "rename" (record [dynamicOption, opt "prepareSupport" bool,
      opt "prepareSupportDefaultBehavior" int, opt "honorsChangeAnnotations" bool]),
    opt "publishDiagnostics" (record [opt "relatedInformation" bool, opt "tagSupport" tagSupport,
      opt "versionSupport" bool, opt "codeDescriptionSupport" bool, opt "dataSupport" bool]),
    opt "foldingRange" (record [dynamicOption, opt "rangeLimit" nat, opt "lineFoldingOnly" bool,
      opt "foldingRangeKind" (valueSet text),
      opt "foldingRange" (record [opt "collapsedText" bool])]),
    opt "selectionRange" dynamicOnly, opt "linkedEditingRange" dynamicOnly,
    opt "callHierarchy" dynamicOnly, opt "semanticTokens" semanticAbilities,
    opt "moniker" dynamicOnly, opt "typeHierarchy" dynamicOnly, opt "inlineValue" dynamicOnly,
    opt "inlayHint" (record [dynamicOption, opt "resolveSupport" properties]),
    opt "diagnostic" (record [dynamicOption, opt "relatedDocumentSupport" bool])]

def workspaceAbilities : Shape :=
  record [opt "applyEdit" bool,
    opt "workspaceEdit" (record [opt "documentChanges" bool,
      opt "resourceOperations" (listOf (word ["create", "rename", "delete"])),
      opt "failureHandling" (word ["abort", "transactional", "textOnlyTransactional", "undo"]),
      opt "normalizesLineEndings" bool,
      opt "changeAnnotationSupport" (record [opt "groupsOnLabel" bool])]),
    opt "didChangeConfiguration" dynamicOnly,
    opt "didChangeWatchedFiles" (record [dynamicOption, opt "relativePatternSupport" bool]),
    opt "symbol" (record [dynamicOption, opt "symbolKind" (valueSet int),
      opt "tagSupport" tagSupport, opt "resolveSupport" properties]),
    opt "executeCommand" dynamicOnly, opt "workspaceFolders" bool, opt "configuration" bool,
    opt "semanticTokens" refreshOnly, opt "codeLens" refreshOnly,
    opt "fileOperations" (record [dynamicOption, opt "didCreate" bool, opt "willCreate" bool,
      opt "didRename" bool, opt "willRename" bool, opt "didDelete" bool, opt "willDelete" bool]),
    opt "inlineValue" refreshOnly, opt "inlayHint" refreshOnly, opt "diagnostic" refreshOnly]

def clientAbilities : Shape :=
  record [opt "workspace" workspaceAbilities, opt "textDocument" documentAbilities,
    opt "notebookDocument" (record [req "synchronization"
      (record [dynamicOption, opt "executionSummarySupport" bool])]),
    opt "window" (record [opt "workDoneProgress" bool,
      opt "showMessage" (record [opt "messageActionItem"
        (object [opt "additionalPropertiesSupport" bool])]),
      opt "showDocument" (record [req "support" bool])]),
    opt "general" (record [
      opt "regularExpressions" (record [req "engine" text, opt "version" text]),
      opt "markdown" (record [req "parser" text, opt "version" text,
        opt "allowedTags" (listOf text)]),
      opt "staleRequestSupport" (record [req "cancel" bool,
        req "retryOnContentModified" (listOf text)]),
      opt "positionEncodings" (listOf text)]),
    opt "offsetEncoding" (listOf text), opt "experimental" any]

end LuaLens.Shape

namespace LuaLens

/-! ### This library -/

/-- What the server of this library can do. -/
def serverAbilities : Json :=
  .obj [
    ("textDocumentSync", .obj [("openClose", .bool true), ("change", .nat 1),
      ("save", .obj [("includeText", .bool false)])]),
    ("selectionRangeProvider", .bool true),
    ("hoverProvider", .bool true),
    ("completionProvider", .obj [("resolveProvider", .bool false),
      ("triggerCharacters", .strings [".", ":"])]),
    ("signatureHelpProvider", .obj [("triggerCharacters", .strings ["(", "\x7b", ","])]),
    ("definitionProvider", .bool true),
    ("documentSymbolProvider", .bool true),
    ("workspaceSymbolProvider", .bool true),
    ("declarationProvider", .bool true)]

/-- What the client of this library can do; all else is left out, so that servers do not send it. -/
def clientAbilities : Json :=
  .obj [
    ("workspace", .obj [("symbol", .obj []), ("configuration", .bool true)]),
    ("textDocument", .obj [
      ("synchronization", .obj [("didSave", .bool true)]),
      ("completion", .obj [("completionItem", .obj [("snippetSupport", .bool true),
        ("documentationFormat", .strings ["plaintext", "markdown"])])]),
      ("hover", .obj [("contentFormat", .strings ["plaintext"])]),
      ("signatureHelp", .obj [("signatureInformation", .obj [
        ("documentationFormat", .strings ["plaintext"]),
        ("parameterInformation", .obj [("labelOffsetSupport", .bool true)]),
        ("activeParameterSupport", .bool true)])]),
      ("documentSymbol", .obj []),
      ("publishDiagnostics", .obj []),
      ("selectionRange", .obj []),
      ("linkedEditingRange", .obj [])])]

/-- What a server has said it can do. -/
structure Abilities where
  document : Json := .obj []

namespace Abilities

/-- The texts of a list that a provider may name. -/
def texts (a : Abilities) (provider name : String) : List String :=
  (((a.document.get? provider).bind (·.get? name)).bind Json.items?).getD [] |>.filterMap Json.str?

/-- The characters after which completions are asked for. Blanks are left out: they would ask after
every word. -/
def completionTriggers (a : Abilities) : List String :=
  (a.texts "completionProvider" "triggerCharacters").filter (· != " ")

/-- The characters that accept a completion and are typed after it. -/
def commitCharacters (a : Abilities) : List String :=
  a.texts "completionProvider" "allCommitCharacters"

def signatureTriggers (a : Abilities) : List String :=
  a.texts "signatureHelpProvider" "triggerCharacters"

def signatureRetriggers (a : Abilities) : List String :=
  a.texts "signatureHelpProvider" "retriggerCharacters"

def asksCompletion (a : Abilities) (c : Char) : Bool := a.completionTriggers.contains c.toString

def asksSignature (a : Abilities) (c : Char) : Bool :=
  a.signatureTriggers.contains c.toString || a.signatureRetriggers.contains c.toString

def completes (a : Abilities) : Bool := (a.document.get? "completionProvider").isSome

def signs (a : Abilities) : Bool := (a.document.get? "signatureHelpProvider").isSome

end Abilities

end LuaLens
