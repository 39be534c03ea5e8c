/-
# `Unmask.Service.Description` — what the service says about itself

The machine-readable description of the service: its two documented paths, the
shapes of their requests and answers, and the groups they belong to.
-/
import Unmask.Document

namespace Unmask.Description

open Document

def described (s : String) : String × Document := ("description", .text s)

/-- The shape with a name of its own. -/
def refTo (shape : String) : Document :=
  .record [("$ref", .text ("#/components/schemas/" ++ shape))]

def ofType (type : String) : Document := .record [("type", .text type)]

/-- An object all of whose values are texts. -/
def textMapping : Document :=
  .record [("type", .text "object"), ("additionalProperties", ofType "string")]

/-- An object with the fields given, all of them required. -/
def objectOf (fields : List (String × Document)) : List (String × Document) :=
  [("type", .text "object"), ("required", .list (fields.map fun f => .text f.1)),
   ("properties", .record fields)]

def content (shape : String) : String × Document :=
  ("content", .record [("application/json", .record [("schema", refTo shape)])])

def answer (status text shape : String) : String × Document :=
  (status, .record [described text, content shape])

/-- Asking for a script to be unmasked. -/
def submitting : Document :=
  .record [
    ("tags", .list [.text "deobfuscate"]),
    ("summary", .text "Deobfuscate a JavaScript snippet"),
    described ("Renames obfuscated identifiers and numeric literals and lists any inline\n" ++
      "PowerShell invocations. A transform that times out or fails still answers\n" ++
      "200 with `success: false`."),
    ("operationId", .text "deobfuscate_endpoint"),
    ("requestBody", .record [content "DeobfuscateRequest", ("required", .flag true)]),
    ("responses", .record [
      answer "200" "Transform finished or failed" "DeobfuscateResponse",
      answer "400" "No valid code provided" "ErrorResponse",
      answer "413" "Request body too large" "ErrorResponse"])]

/-- Asking whether the service is up. -/
def checking : Document :=
  .record [
    ("tags", .list [.text "monitoring"]),
    ("operationId", .text "health"),
    ("responses", .record [answer "200" "Service is up" "HealthResponse"])]

def shapes : Document :=
  .record [
    ("DeobfuscateRequest", .record [
      ("type", .text "object"),
      ("properties", .record [
        ("code", .record [("type", .text "string"),
          described "JavaScript source to transform", ("nullable", .flag true)])])]),
    ("DeobfuscateResponse", .record (
      described ("Body of a finished transform. Timeouts and engine failures use\n" ++
        "[`ErrorResponse`] with status 200.") ::
      objectOf [
        ("success", ofType "boolean"),
        ("deobfuscated", ofType "string"),
        ("mappings", textMapping),
        ("numericMappings", textMapping),
        ("powershellCommands", .record [("type", .text "array"), ("items", ofType "string")])])),
    ("ErrorResponse", .record (objectOf [
      ("success", ofType "boolean"), ("error", ofType "string")])),
    ("HealthResponse", .record (objectOf [
      ("status", ofType "string"), ("message", ofType "string")]))]

def document : Document :=
  .record [
    ("openapi", .text "3.0.3"),
    ("info", .record [
      ("title", .text "JavaScript Deobfuscator API"),
      described "Renames obfuscated JavaScript identifiers and numbers",
      ("license", .record [("name", .text "MIT"),
        ("url", .text "https://opensource.org/licenses/MIT")]),
      ("version", .text "0.1.0")]),
    ("paths", .record [
      ("/deobfuscate", .record [("post", submitting)]),
      ("/health", .record [("get", checking)])]),
    ("components", .record [("schemas", shapes)]),
    ("tags", .list [
      .record [("name", .text "deobfuscate"), described "JavaScript deobfuscation"],
      .record [("name", .text "monitoring"), described "Liveness and metrics"]])]

end Unmask.Description
