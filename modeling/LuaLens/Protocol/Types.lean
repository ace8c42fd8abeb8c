import LuaLens.Protocol.Shape

/-!
The shapes of the values that messages are made of: places, documents, symbols, completions,
diagnostics.
-/

namespace LuaLens.Shape

/-! ### Places -/

def position : Shape := record [req "line" nat, req "character" nat]

def range : Shape := record [req "start" position, req "end" position]

def location : Shape := record [req "uri" uri, req "range" range]

/-- A link from one place to another. -/
def locationLink : Shape :=
  record [opt "originSelectionRange" range, req "targetUri" uri, req "targetRange" range,
    req "targetSelectionRange" range]

/-- Where a definition is: a place, places or links. -/
def locations : Shape := oneOf [location, listOf location, listOf locationLink]

/-- A range inside another, which may be inside a third, and so on. -/
def selectionRangeTo : Nat → Shape
  | 0 => fun _ => none
  | n + 1 => record [req "range" range, opt "parent" (selectionRangeTo n)]

/-- Documents nest no deeper than this. -/
def depth : Nat := 128

def selectionRange : Shape := selectionRangeTo depth

def linkedRanges : Shape := record [req "ranges" (listOf range), opt "wordPattern" text]

/-! ### Documents -/

def documentId : Shape := record [req "uri" uri]

def documentItem : Shape :=
  record [req "uri" uri, req "languageId" text, req "version" int, req "text" text]

def versionedDocument : Shape := record [req "uri" uri, req "version" int]

/-- A change of a range of a document, or of all of it. -/
def contentChange : Shape :=
  record [opt "range" range, opt "rangeLength" nat, req "text" text]

/-! ### Text with markup -/

def markupKind : Shape := word ["plaintext", "markdown"]

def markup : Shape := record [req "kind" markupKind, req "value" text]

def documentation : Shape := oneOf [text, markup]

def markedText : Shape := oneOf [text, record [req "language" text, req "value" text]]

def hover : Shape :=
  record [req "contents" (oneOf [markedText, listOf markedText, markup]), opt "range" range]

/-! ### Symbols -/

def symbolInformation : Shape :=
  record [req "name" text, req "kind" int, opt "tags" (listOf int), opt "deprecated" bool,
    req "location" location, opt "containerName" text]

def documentSymbolTo : Nat → Shape
  | 0 => fun _ => none
  | n + 1 =>
    record [req "name" text, opt "detail" text, req "kind" int, opt "tags" (listOf int),
      opt "deprecated" bool, req "range" range, req "selectionRange" range,
      opt "children" (listOf (documentSymbolTo n))]

/-- A symbol with those inside it. -/
def documentSymbol : Shape := documentSymbolTo depth

def documentSymbols : Shape := oneOf [listOf symbolInformation, listOf documentSymbol]

/-- A symbol whose place may be a whole document. -/
def workspaceSymbol : Shape :=
  record [req "name" text, req "kind" int, opt "tags" (listOf int), opt "containerName" text,
    req "location" (oneOf [location, documentId]), opt "data" any]

def workspaceSymbols : Shape := oneOf [listOf symbolInformation, listOf workspaceSymbol]

/-! ### Completions and signatures -/

def textEdit : Shape := record [req "range" range, req "newText" text]

def insertReplaceEdit : Shape :=
  record [req "newText" text, req "insert" range, req "replace" range]

def command : Shape :=
  record [req "title" text, req "command" text, opt "arguments" (listOf any)]

def completionItem : Shape :=
  record [req "label" text,
    opt "labelDetails" (record [opt "detail" text, opt "description" text]),
    opt "kind" int, opt "detail" text, opt "documentation" documentation, opt "deprecated" bool,
    opt "preselect" bool, opt "sortText" text, opt "filterText" text, opt "insertText" text,
    opt "insertTextFormat" int, opt "insertTextMode" int,
    opt "textEdit" (oneOf [textEdit, insertReplaceEdit]),
    opt "additionalTextEdits" (listOf textEdit), opt "command" command,
    opt "commitCharacters" (listOf text), opt "data" any, opt "tags" (listOf int)]

def completions : Shape :=
  oneOf [listOf completionItem,
    record [req "isIncomplete" bool, req "items" (listOf completionItem)]]

/-- The columns of a parameter in the label of its signature. -/
def offsets : Shape
  | .arr [a, b] => do pure (.arr [← nat a, ← nat b])
  | _ => none

def signatureHelp : Shape :=
  record [req "signatures" (listOf (record [req "label" text, opt "documentation" documentation,
      opt "parameters" (listOf (record [req "label" (oneOf [text, offsets]),
        opt "documentation" documentation])),
      opt "activeParameter" nat])),
    opt "activeSignature" nat, opt "activeParameter" nat]

/-! ### Diagnostics, messages, progress -/

/-- A name that is a number or a text. -/
def token : Shape := oneOf [int, text]

def diagnostic : Shape :=
  record [req "range" range, opt "severity" int, opt "code" token,
    opt "codeDescription" (record [req "href" uri]), opt "source" text, req "message" text,
    opt "relatedInformation" (listOf (record [req "location" location, req "message" text])),
    opt "tags" (listOf int), opt "data" any]

def publishDiagnostics : Shape :=
  record [req "uri" uri, req "diagnostics" (listOf diagnostic), opt "version" int]

def showMessage : Shape := record [req "type" int, req "message" text]

def workDone : Shape :=
  variants "kind"
    [("begin", [req "title" text, opt "cancellable" bool, opt "message" text,
        opt "percentage" nat]),
      ("report", [opt "cancellable" bool, opt "message" text, opt "percentage" nat]),
      ("end", [opt "message" text])]

def progress : Shape := record [req "token" token, req "value" workDone]

def configurationRequest : Shape :=
  record [req "items" (listOf (record [opt "scopeUri" uri, opt "section" text]))]

end LuaLens.Shape
