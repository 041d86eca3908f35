import Ephemera.Json.Document

/-! # Requests and responses of HTTP

A request as the server receives it, and the part of a response that matters: its status, and its
body if that is JSON.
-/

namespace Ephemera.Http

/-- A request. -/
structure Request where
  method : String
  /-- The target: a path, and a query after a question mark. A scheme and an authority may stand
  before them. -/
  target : String
  body : String := ""
  /-- The media type of the body, if a header gives one. -/
  contentType : Option String := none
  deriving DecidableEq, Repr

namespace Request

/-- The characters of schemes. -/
def isScheme (c : Char) : Bool :=
  c.isAlphanum || "+-.~".contains c

/-- A target from its path on. An authority follows a scheme, a colon and two slashes, and lasts up
to the path, the query or the fragment. -/
def afterAuthority (target : List Char) : List Char :=
  match target.dropWhile isScheme with
  | ':' :: '/' :: '/' :: rest => rest.dropWhile fun c => !"/?#".contains c
  | _ => target

/-- The path and the query of the target. A server takes no notice of the authority before them and
the fragment after them. -/
def reference (r : Request) : List Char :=
  (afterAuthority r.target.toList).takeWhile (· ≠ '#')

/-- The path of the target. -/
def path (r : Request) : List Char :=
  r.reference.takeWhile (· ≠ '?')

/-- The query of the target, empty if there is none. -/
def query (r : Request) : List Char :=
  (r.reference.dropWhile (· ≠ '?')).drop 1

end Request

/-- A response. -/
structure Response where
  status : Nat
  /-- The body, if there is one and it is JSON. -/
  body : Option Json.Document := none

end Ephemera.Http
