import MockDB.HttpServer.Json
import MockDB.KvStore.KvStore
import Mathlib.Algebra.Group.Int.Defs

/-!
# The HTTP server

`http_server.h`, with string keys and JSON values as `start_server.cpp` instantiates it.
Handlers run in threads of their own. A GET handler meets the others only at the store's
critical sections; a POST handler holds `mtx` from its first line to its reply, so at most
one is under way, but GET handlers run between the store calls it makes. Each step below
takes one handler to its next critical section or to its reply.

A handler that throws is abandoned without a reply, and `mtx` is released.
-/

namespace MockDB

/-- What the handlers look at in a `web::http::http_request`. -/
structure HttpRequest where
  /-- `headers().find`. -/
  header : String → Option String
  /-- `relative_uri().path()`. -/
  path : String
  /-- `extract_json().get()`, which throws unless the body is JSON. -/
  json : Option Json

/-- `web::http::http_response`. -/
structure HttpResponse where
  status : Nat
  /-- The `Etag` header. -/
  etag : Option Nat
  body : Option Json

/-- `web::http::uri`, whose code is not in this repository. -/
structure Uri where
  decode : String → String
  splitPath : String → List String

/-- `std::stol` on 64-bit longs, which throws without digits and out of range. -/
def stol (s : String) : Option Int :=
  let digitsOf (cs : List Char) : Option Nat :=
    match cs.takeWhile Char.isDigit with
    | [] => none
    | ds => some (ds.foldl (fun n c => 10 * n + (c.toNat - '0'.toNat)) 0)
  let number : Option Int :=
    match s.toList.dropWhile (fun c => c = ' ' ∨ '\t' ≤ c ∧ c ≤ '\r') with
    | '-' :: cs => (digitsOf cs).map fun n => -(n : Int)
    | '+' :: cs => (digitsOf cs).map fun n => (n : Int)
    | cs => (digitsOf cs).map fun n => (n : Int)
  number.filter fun n => -2 ^ 63 ≤ n ∧ n < 2 ^ 63

/-- `get_session_id`. -/
def getSessionId (header : String → Option String) : Option Int :=
  match header "session-id" with
  | some s => stol s
  | none => some defaultSession

/-- What `handle_post` reads off its message before it turns to the store. -/
structure PostRequest where
  sessionId : Int
  key : String
  value : Json
  etag : Option String

/-- The reads at the top of `handle_post`, and that of the etag. -/
def readPost (message : HttpRequest) : Option PostRequest := do
  let sessionId ← getSessionId message.header
  let payload ← message.json
  let key ← (← payload.at? "key").asString
  let value ← payload.at? "value"
  if payload.hasField "etag" then
    let etag ← (← payload.at? "etag").asString
    return ⟨sessionId, key, value, some etag⟩
  else
    return ⟨sessionId, key, value, none⟩

/-- Where the POST handler that holds `mtx` is. -/
inductive Posting where
  /-- It compares its etag with the version that transaction `txId` will read. -/
  | checking (request : PostRequest) (etag : String) (txId : Nat)
  /-- It puts its value with transaction `txId`. -/
  | putting (request : PostRequest) (txId : Nat)

structure HttpServer where
  world : World String Json
  /-- The transactions of GET handlers that have not entered the store. -/
  getting : List Nat
  /-- The holder of `mtx`. -/
  posting : Option Posting
  getReplies : List HttpResponse
  /-- POST requests answered, in the order they held `mtx`. -/
  postReplies : List (PostRequest × HttpResponse)

namespace HttpServer

/-- The constructor, which picks the causal selector. -/
def new : HttpServer where
  world := World.init .causal
  getting := []
  posting := none
  getReplies := []
  postReplies := []

/-! ## Replies -/

def badRequest : HttpResponse := ⟨400, none, some (.object [("error", .string "Bad request")])⟩

/-- How `handle_get` answers what `get_with_version` returned or threw. -/
def getReply : Except (StoreException String) (Json × Nat) → HttpResponse
  | .ok (value, version) => ⟨200, some version, some value⟩
  | .error (.keyNotFound _) => ⟨404, none, none⟩
  | .error (.consistency _ _ _) =>
      ⟨200, none, some (.object [("error", .string "No consistent response possible")])⟩

def etagMismatch : HttpResponse :=
  ⟨400, none,
    some (.object [("success", .string "false"), ("description", .string "ETag mismatch")])⟩

def postSuccess : HttpResponse := ⟨200, none, some (.object [("success", .string "true")])⟩

/-! ## Handlers -/

/-- `handle_get`, up to the store's lock. -/
def handleGet (uri : Uri) (s : HttpServer) (message : HttpRequest) : HttpServer :=
  match getSessionId message.header with
  | none => s
  | some sessionId =>
      match uri.splitPath (uri.decode message.path) with
      | [_, _, _, key] =>
          { s with
            world := s.world.act (.create (.get key) sessionId)
            getting := s.getting ++ [s.world.txCount + 1] }
      | _ => { s with getReplies := s.getReplies ++ [badRequest] }

/-- `handle_get` from the store's lock on. -/
def handleGetEnter (s : HttpServer) (txId : Nat) (draws : Draws) : HttpServer :=
  match s.world.enterGetWithVersion txId draws with
  | none => s
  | some result =>
      { s with
        world := s.world.act (.enter txId draws)
        getting := s.getting.filter (fun id => id ≠ txId)
        getReplies := s.getReplies ++ [getReply result] }

/-- `store->put(key, value, session_id)`, up to the store's lock. -/
def beginPut (s : HttpServer) (request : PostRequest) : HttpServer :=
  { s with
    world := s.world.act (.create (.put request.key request.value) request.sessionId)
    posting := some (.putting request (s.world.txCount + 1)) }

/-- `handle_post`, from taking `mtx` to its first use of the store. -/
def handlePost (s : HttpServer) (message : HttpRequest) : HttpServer :=
  match readPost message with
  | none => s
  | some request =>
      match request.etag with
      | none => s.beginPut request
      | some etag =>
          { s with
            world := s.world.act (.create (.get request.key) request.sessionId)
            posting := some (.checking request etag (s.world.txCount + 1)) }

/-- `version` after `handle_post`'s `try`: whatever `get_with_version` throws leaves it `0`. -/
def versionRead : Except (StoreException String) (Json × Nat) → Nat
  | .ok (_, version) => version
  | .error _ => 0

/-- `handle_post`'s check of the etag. -/
def handlePostCheck (s : HttpServer) (request : PostRequest) (etag : String) (txId : Nat)
    (draws : Draws) : HttpServer :=
  match s.world.enterGetWithVersion txId draws with
  | none => s
  | some result =>
      let s := { s with world := s.world.act (.enter txId draws) }
      if toString (versionRead result) ≠ etag then
        { s with posting := none, postReplies := s.postReplies ++ [(request, etagMismatch)] }
      else
        s.beginPut request

/-- The end of `handle_post`. -/
def handlePostPut (s : HttpServer) (request : PostRequest) (txId : Nat) (draws : Draws) :
    HttpServer :=
  { s with
    world := s.world.act (.enter txId draws)
    posting := none
    postReplies := s.postReplies ++ [(request, postSuccess)] }

/-- One handler moves. -/
inductive Step where
  | getRequest (message : HttpRequest)
  | getEnter (txId : Nat) (draws : Draws)
  | postRequest (message : HttpRequest)
  | postEnter (draws : Draws)

/-- A step of the server. A POST that finds `mtx` taken, and an entry nobody waits for,
change nothing. -/
def act (uri : Uri) (s : HttpServer) : Step → HttpServer
  | .getRequest message => s.handleGet uri message
  | .getEnter txId draws => if txId ∈ s.getting then s.handleGetEnter txId draws else s
  | .postRequest message =>
      match s.posting with
      | some _ => s
      | none => s.handlePost message
  | .postEnter draws =>
      match s.posting with
      | none => s
      | some (.checking request etag txId) => s.handlePostCheck request etag txId draws
      | some (.putting request txId) => s.handlePostPut request txId draws

def run (uri : Uri) (s : HttpServer) (steps : List Step) : HttpServer := steps.foldl (act uri) s

end HttpServer

end MockDB
