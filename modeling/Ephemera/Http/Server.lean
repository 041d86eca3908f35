import Ephemera.Config.Settings
import Ephemera.Http.Body
import Ephemera.Http.MediaType
import Ephemera.Http.Message
import Ephemera.Http.Query
import Ephemera.Session

/-! # The HTTP surface

A server fronts the first node of a cluster. It serves four resources: the entry of a key, which may
be written, read and removed; the lifetime of a key; the statistics; and its own health. A request
is checked from the outside in: its path, its method, the key in the path, then the form of its body
or query, and only then what it asks for.
-/

namespace Ephemera

namespace Http

/-- What a path leads to. Keys are as they stand in the path. -/
inductive Resource where
  | entry (key : List Char)
  | ttl (key : List Char)
  | stats
  | health
  deriving DecidableEq, Repr

namespace Resource

/-- The resource at a path. An entry needs a key that is not empty; a lifetime is asked for even
under the empty key, which is then refused as such. -/
def ofPath? (path : List Char) : Option Resource :=
  match path with
  | '/' :: rest =>
    match (splitAt '/' rest).map String.ofList with
    | ["stats"] => some .stats
    | ["health"] => some .health
    | ["cache", key] => if key.isEmpty then none else some (.entry key.toList)
    | ["cache", key, "ttl"] => some (.ttl key.toList)
    | _ => none
  | _ => none

end Resource

/-- The largest body in bytes that the server reads. -/
def maxBodySize : Nat := 2097152

/-- The answer to a request that failed. -/
def failure (kind : ErrorKind) (message : String) : Response where
  status := kind.status
  body := some (Body.error message)

/-- The answer to a request that is refused. -/
def refusal (e : CacheError) : Response :=
  failure e.kind e.message

/-- The answer to a request that succeeded. -/
def success (body : Json.Document) : Response where
  status := 200
  body := some body

/-- The answer when the front of the server turns a request down. It has no JSON body. -/
def turnDown (status : Nat) : Response where
  status

/-- The request to store a value that a body makes, or the status that it is turned down with. -/
def readPut (r : Request) : Except Nat PutRequest :=
  if !r.contentType.any fun header => (MediaType.parse? header).any (·.isJson) then .error 415
  else if maxBodySize < r.body.utf8ByteSize then .error 413
  else
    match (PutRequest.schema.decodeFront r.body).bind PutRequest.ofDraft with
    | .ok put => .ok put
    | .error .malformed => .error 400
    | .error .mismatch => .error 422

variable (c : Cluster String String) (now : Millis)

/-- How the server calls the cache: through its first node. -/
def call (scope : Option Policy) : Call where
  node := 0
  policy := .effective c.config.policy scope
  now

/-- Store a value. The answer tells whether it is there afterwards. -/
def put (key : String) (request : PutRequest) : Cluster String String × Response :=
  match request.error? key with
  | some e => (c, refusal e)
  | none =>
    match request.policy with
    | .error e => (c, refusal e)
    | .ok scope =>
      let call := call c now scope
      let c := c.put call key request.value
      (c, success (Body.put key (c.ttl call key).isSome))

/-- Read a value. -/
def get (key : String) (query : ExpiryQuery) : Cluster String String × Response :=
  match keyError? key with
  | some e => (c, refusal e)
  | none =>
    match query.policy with
    | .error e => (c, refusal e)
    | .ok scope =>
      match c.get (call c now scope) key with
      | (c, some value) => (c, success (Body.get key value))
      | (c, none) => (c, refusal (.notFound key))

/-- Remove a key. -/
def delete (key : String) : Cluster String String × Response :=
  match keyError? key with
  | some e => (c, refusal e)
  | none =>
    match c.remove (call c now none) key with
    | (c, true) => (c, success (Body.delete key))
    | (c, false) => (c, refusal (.notFound key))

/-- Tell the lifetime of a key. -/
def ttl (key : String) : Response :=
  match keyError? key with
  | some e => refusal e
  | none =>
    match c.ttl (call c now none) key with
    | some ttl => success (Body.ttl key ttl now)
    | none => refusal (.notFound key)

/-- Answer a request for the entry of a key, which has been decoded. A body is looked at only to
store a value, and a query only to read one. -/
def serveEntry (r : Request) (method key : String) : Cluster String String × Response :=
  match method with
  | "PUT" =>
    match readPut r with
    | .error status => (c, turnDown status)
    | .ok request => put c now key request
  | "GET" =>
    match expiryQuery? r.query with
    | none => (c, turnDown 400)
    | some query => get c now key query
  | _ => delete c now key

/-- The methods of a resource. -/
def methods : Resource → List String
  | .entry _ => ["PUT", "GET", "DELETE"]
  | .ttl _ | .stats | .health => ["GET"]

/-- Answer a request by a method that reads or writes. -/
def serve (r : Request) (method : String) : Cluster String String × Response :=
  match Resource.ofPath? r.path with
  | none => (c, turnDown 404)
  | some resource =>
    if method ∉ methods resource then (c, turnDown 405)
    else
      match resource with
      | .stats => (c, success (Body.stats c.stats c.nodes.length))
      | .health => (c, success (Body.health now))
      | .entry key =>
        match Text.percentDecode? (String.ofList key) with
        | none => (c, turnDown 400)
        | some key => serveEntry c now r method key
      | .ttl key =>
        match Text.percentDecode? (String.ofList key) with
        | none => (c, turnDown 400)
        | some key => (c, ttl c now key)

/-- Answer a request. Whether a method is allowed may be asked of any path; a request for the head
of a response is answered without its body. -/
def respond (r : Request) : Cluster String String × Response :=
  match r.method with
  | "OPTIONS" => (c, { status := 200 })
  | "HEAD" =>
    let (c, response) := serve c now r "GET"
    (c, { response with body := none })
  | method => serve c now r method

end Http

namespace Settings

/-- A session on the cluster of a server. The keys are spread over partitions by their bytes. -/
def start (s : Settings) (now : Millis) : Except CacheError (Session String String) :=
  match s.cache with
  | .error e => .error e
  | .ok config =>
    let affinity := (Partitioning.new s.partitions s.nodes s.backups).affinity fun key =>
      partitionHash (hashBytes key)
    Session.start config s.nodes affinity now false

end Settings

namespace Session

/-- Let the server answer a request, and deliver what it has shipped. -/
def respond (s : Session String String) (r : Http.Request) :
    Session String String × Http.Response :=
  let (cluster, response) := Http.respond s.cluster s.clock r
  ((s.withCluster cluster).settle, response)

end Session

end Ephemera
