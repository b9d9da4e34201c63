import EventUpload.Backend.Batch
import EventUpload.Backend.Url
import EventUpload.Backend.Status
import EventUpload.Text.Utf8

/-!
# Backends on the web

A batch is posted to the place `events` of its invocation, and the place `ack` is asked how far the
backend has got. An exchange with the web is a request and what came of it; here it is judged, not
carried out.
-/

set_option autoImplicit false

namespace EventUpload

structure WebClient where
  /-- The address of the backend, without slashes at its end. -/
  endpoint : String
deriving BEq, DecidableEq, Repr

structure WebRequest where
  method : String
  url : Url
  body : Option Json
deriving Repr

/-- What came of a request. -/
inductive Exchange where
  /-- There is no way to the host. -/
  | unreachable
  /-- The host ended the connection without a reply. -/
  | hungUp
  | reply (status : Nat) (body : String)
deriving BEq, DecidableEq, Repr

/-- The web: what comes of a request. -/
abbrev Web := WebRequest → Exchange

def Web.none : Web := fun _ => .unreachable

namespace WebClient

def new (endpoint : String) : WebClient :=
  ⟨String.ofList ((endpoint.toList.reverse.dropWhile (· = '/')).reverse)⟩

def address (c : WebClient) (invocation leaf : String) : String :=
  c.endpoint ++ "/v1/invocations/" ++ invocation ++ "/" ++ leaf

/-- A chain of causes, the outermost first. -/
abbrev Causes := List String

/-- The request to a place of an invocation, or why there can be none. -/
def request (c : WebClient) (method invocation leaf : String) (body : Option Json) :
    Except Causes WebRequest :=
  match Url.ofText (c.address invocation leaf) with
  | .ok url => .ok ⟨method, url, body⟩
  | .error f => .error ["builder error: " ++ f.message, f.message]

/-- The causes of a request that could not be sent: each cause repeats the ones behind it. -/
def notSent (r : WebRequest) (causes : List String) : Causes :=
  let sending := "error sending request for url (" ++ r.url.toText ++ ")"
  let rec nest : List String → List String
    | [] => []
    | cause :: rest => String.intercalate ": " (cause :: rest) :: nest rest
  nest (sending :: causes)

/-- The status and the body of a reply, if there was one. -/
def replyOf (r : WebRequest) (e : Exchange) : Except Causes (Nat × String) :=
  if r.url.scheme ≠ "http" then
    .error (notSent r ["error trying to connect", "invalid URL, scheme is not http"])
  else match e with
    | .unreachable => .error (notSent r ["error trying to connect", "tcp connect error",
        "Network is unreachable (os error 101)"])
    | .hungUp => .error (notSent r ["connection closed before message completed"])
    | .reply status body => .ok (status, body)

def publish (c : WebClient) (web : Web) (b : Batch) : Except Causes Unit := do
  let r ← c.request "POST" b.invocationId "events" (some b.toJson)
  let (status, body) ← replyOf r (web r)
  if isSuccess status then return ()
  else .error ["backend rejected events (" ++ statusText status ++ "): " ++ body]

/-- The sequence number in an acknowledgement, `none` as long as it has not been read. -/
def ackFields : List (Json.Field (Option Nat)) := [
  ⟨"acknowledged_sequence", true, Option.isSome, fun _ cs => do
    let (n, rest) ← Json.readWord64 cs
    return (some n, rest)⟩]

def readAck (body : String) : Except Causes Nat :=
  match Json.readWhole (Json.readRecord "AckStatus" ackFields none) body with
  | .ok n => .ok (n.getD 0)
  | .error f =>
    let cause := f.message body
    .error ["error decoding response body: " ++ cause, cause]

/-- Asks how far the backend has got with an invocation. -/
def acknowledged (c : WebClient) (web : Web) (invocation : String) : Except Causes Nat := do
  let r ← c.request "GET" invocation "ack" none
  let (status, body) ← replyOf r (web r)
  if isSuccess status then readAck body
  else .error ["backend ack query failed (" ++ statusText status ++ ")"]

end WebClient

end EventUpload
