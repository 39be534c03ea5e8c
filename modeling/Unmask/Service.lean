/-
# `Unmask.Service` — unmasking over HTTP

A service holds its settings and a tally, and answers one request after the
other.  Only a submission that passes all checks reaches the unmasking, and
only then is something counted:

* the media type has to name JSON;
* the body, and the length it is announced with, must keep to the limit;
* the body has to be a submission with a script that is not blank.

Scripts from other origins may call the service without restriction: every
answer allows the origin of its request, and a question about what is allowed
gets its answer on any path.
-/
import Unmask.Document.JsonText
import Unmask.Service.Description
import Unmask.Service.MediaType
import Unmask.Service.Submission
import Unmask.Settings
import Unmask.Tally

namespace Unmask

structure Request where
  method : String := "GET"
  target : String
  headers : List (String × String) := []
  body : ByteArray := .empty

/-- The value of a header; the case of its name does not matter, and of equal names
the first counts. -/
def Request.header? (r : Request) (name : String) : Option String :=
  (r.headers.find? fun h => lowerAscii h.1 == name).map Prod.snd

/-- The characters of a path with escapes undone, but for those of a percent sign, a
slash and a plus. -/
def decodedPath : List Char → List Char
  | '%' :: a :: b :: cs =>
      match Json.hexValue? a, Json.hexValue? b with
      | some h, some l =>
          let c := Char.ofNat (h * 16 + l)
          if h < 8 && c != '%' && c != '/' && c != '+' then c :: decodedPath cs
          else '%' :: decodedPath (a :: b :: cs)
      | _, _ => '%' :: decodedPath (a :: b :: cs)
  | c :: cs => c :: decodedPath cs
  | [] => []

/-- The path a request asks for, without what follows it in the target. -/
def Request.path (r : Request) : String :=
  String.ofList (decodedPath (r.target.toList.takeWhile fun c => c != '?' && c != '#'))

inductive Content where
  | nothing
  | plain (mediaType : String) (text : String)
  | document (d : Document)
deriving Repr, Inhabited

def Content.mediaType? : Content → Option String
  | .nothing => none
  | .plain t _ => some t
  | .document _ => some "application/json"

def Content.text : Content → String
  | .nothing => ""
  | .plain _ s => s
  | .document d => d.compactJson

structure Reply where
  status : Nat
  content : Content := .nothing
  permissions : List (String × String) := []
deriving Repr, Inhabited

def Reply.headers (r : Reply) : List (String × String) :=
  (r.content.mediaType?.map fun t => ("content-type", t)).toList ++ r.permissions

/-- Why a submission is turned down. -/
inductive Refusal where
  | noValidCode
  | tooLarge
deriving Repr, DecidableEq, Inhabited

def Refusal.status : Refusal → Nat
  | .noValidCode => 400
  | .tooLarge => 413

def Refusal.message : Refusal → String
  | .noValidCode => "No valid code provided"
  | .tooLarge => "Request body too large"

def Refusal.reply (r : Refusal) : Reply where
  status := r.status
  content := .document (.ofMessage r.message)

namespace Request

/-- The request announces or brings more than the limit. -/
def exceeds (r : Request) (limit : Nat) : Bool :=
  (((r.header? "content-length").bind readUInt64?).any fun n => limit < n) || limit < r.body.size

/-- The script of a submission, or why there is none. -/
def script (r : Request) (limit : Nat) : Except Refusal String :=
  if !(r.header? "content-type").any MediaType.namesJson then .error .noValidCode
  else if r.exceeds limit then .error .tooLarge
  else
    match Submission.read? r.body with
    | some s => .ok s
    | none => .error .noValidCode

/-- Asks what is allowed: names a method that is to be used later. -/
def asksPermission (r : Request) : Bool :=
  r.method == "OPTIONS" && (r.header? "access-control-request-method").any MediaType.isToken

/-- The origin of the request is allowed, and credentials are. -/
def permissions (r : Request) : List (String × String) :=
  ((r.header? "origin").map fun o => ("access-control-allow-origin", o)).toList ++
    [("access-control-allow-credentials", "true")]

def laterPermissions (r : Request) : List (String × String) :=
  [("access-control-allow-methods",
      "CONNECT, DELETE, GET, HEAD, OPTIONS, PATCH, POST, PUT, TRACE"),
   ("access-control-max-age", "3600")] ++
  ((r.header? "access-control-request-headers").map fun h =>
    ("access-control-allow-headers", h)).toList

end Request

/-- A service: its settings and what it has counted. -/
structure Service where
  settings : Settings := {}
  tally : Tally := {}
deriving Repr, Inhabited

namespace Service

/-- What `/` says. -/
def banner : Content :=
  .plain "text/plain; charset=utf-8" "🛡️ JavaScript Deobfuscator API is running"

def health : Content :=
  .document (.record [("status", .text "ok"),
    ("message", .text "Enhanced JavaScript Deobfuscator is running")])

/-- The answer to a submission, and the service after it.  The run races against the
clock and takes `millis` milliseconds. -/
def submit (s : Service) (r : Request) (clock : Clock) (millis : Nat) : Reply × Service :=
  match r.script s.settings.bodyLimit with
  | .error refusal => (refusal.reply, s)
  | .ok script =>
      let outcome := unmaskAgainst clock s.settings.timeLimit s.settings.options script
      ({ status := 200, content := .document (.ofOutcome outcome) },
        { s with tally := s.tally.record outcome millis })

/-- The answer by method and path, and the service after it. -/
def route (s : Service) (r : Request) (clock : Clock) (millis : Nat) : Reply × Service :=
  match r.method, r.path with
  | "POST", "/deobfuscate" => s.submit r clock millis
  | "GET", "/" => ({ status := 200, content := banner }, s)
  | "GET", "/health" => ({ status := 200, content := health }, s)
  | "GET", "/metrics" =>
      ({ status := 200, content := .plain "text/plain; version=0.0.4" s.tally.exposition }, s)
  | "GET", "/api-docs/openapi.json" =>
      ({ status := 200, content := .document Description.document }, s)
  | _, _ => ({ status := 404 }, s)

def serveAgainst (s : Service) (r : Request) (clock : Clock) (millis : Nat) : Reply × Service :=
  if r.asksPermission then
    ({ status := 200, permissions := r.permissions ++ r.laterPermissions }, s)
  else
    let (reply, s) := s.route r clock millis
    ({ reply with permissions := r.permissions }, s)

/-- The answer to a request by the steady clock, and the service after it. -/
def serve (s : Service) (r : Request) (millis : Nat) : Reply × Service :=
  s.serveAgainst r .steady millis

/-- A request, the clock that its run races against, and the milliseconds that the run
takes. -/
structure Visit where
  request : Request
  clock : Clock := .steady
  millis : Nat := 0

def visit (s : Service) (v : Visit) : Reply × Service :=
  s.serveAgainst v.request v.clock v.millis

/-- The answers to visits in order, and the service after them. -/
def serveAll (s : Service) : List Visit → List Reply × Service
  | [] => ([], s)
  | v :: rest =>
      let (reply, s) := s.visit v
      let (replies, s) := s.serveAll rest
      (reply :: replies, s)

end Service

end Unmask
