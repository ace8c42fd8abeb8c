import LuaLens.Protocol.Abilities

/-!
The shapes of the parameters of requests and notifications that clients send.
-/

namespace LuaLens.Shape

def workDoneToken : Field := opt "workDoneToken" token
def partialToken : Field := opt "partialResultToken" token

/-- The fields of a place in a document. -/
def placeFields : List Field := [req "textDocument" documentId, req "position" position]

def hoverParams : Shape := object (placeFields ++ [workDoneToken])

def definitionParams : Shape := object (placeFields ++ [workDoneToken, partialToken])

/-- Why completions are asked for. -/
def completionContext : Shape := record [req "triggerKind" int, opt "triggerCharacter" text]

def completionParams : Shape :=
  object (placeFields ++ [workDoneToken, partialToken, opt "context" completionContext])

def signatureParams : Shape :=
  object ([opt "context" (record [req "triggerKind" int, opt "triggerCharacter" text,
    req "isRetrigger" bool, opt "activeSignatureHelp" signatureHelp])] ++
    placeFields ++ [workDoneToken])

def documentSymbolParams : Shape :=
  object [req "textDocument" documentId, workDoneToken, partialToken]

def workspaceSymbolParams : Shape := object [partialToken, workDoneToken, req "query" text]

def selectionRangeParams : Shape :=
  object [req "textDocument" documentId, req "positions" (listOf position), workDoneToken,
    partialToken]

def workspaceFolder : Shape := record [req "uri" uri, req "name" text]

def initializeParams : Shape :=
  object [{ name := "processId", shape := nat, presence := .nullable }, opt "rootPath" text,
    { name := "rootUri", shape := uri, presence := .nullable }, opt "initializationOptions" any,
    req "capabilities" clientAbilities, opt "trace" (word ["off", "messages", "verbose"]),
    opt "workspaceFolders" (listOf workspaceFolder),
    opt "clientInfo" (record [req "name" text, opt "version" text]), opt "locale" text,
    workDoneToken]

def didOpenParams : Shape := record [req "textDocument" documentItem]

def didChangeParams : Shape :=
  record [req "textDocument" versionedDocument, req "contentChanges" (listOf contentChange)]

def didSaveParams : Shape := record [req "textDocument" documentId, opt "text" text]

def didCloseParams : Shape := record [req "textDocument" documentId]

end LuaLens.Shape
