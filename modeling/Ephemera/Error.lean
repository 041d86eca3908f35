import Ephemera.Text.Quoted

/-! # Refusals

The causes for which the cache, its configuration or its HTTP surface refuses a request. Each cause
belongs to one of five kinds; the kind decides the opening words of the message and the HTTP
status, the cause decides the rest. Deciding a lifetime never fails, so nothing here concerns the
clock.
-/

namespace Ephemera

/-- The five kinds of refusal. -/
inductive ErrorKind where
  | notFound
  | invalidPolicy
  | invalidConfig
  | invalidRequest
  | transactionConflict
  deriving DecidableEq, Repr

namespace ErrorKind

/-- The opening words of a message of this kind. -/
def heading : ErrorKind → String
  | notFound => "Key not found"
  | invalidPolicy => "Invalid expiry policy"
  | invalidConfig => "Invalid configuration"
  | invalidRequest => "Invalid request"
  | transactionConflict => "Transaction conflict"

/-- The message of this kind with the given detail. -/
def message (kind : ErrorKind) (detail : String) : String :=
  kind.heading ++ ": " ++ detail

/-- The HTTP status that answers a refusal of this kind. -/
def status : ErrorKind → Nat
  | notFound => 404
  | invalidPolicy | invalidConfig | invalidRequest => 400
  | transactionConflict => 409

end ErrorKind

/-- The longest key in bytes. -/
def maxKeyLength : Nat := 256

/-- The largest value in bytes that the HTTP surface stores. -/
def maxValueSize : Nat := 1048576

/-- Why a request was refused. -/
inductive CacheError where
  /-- No live copy of the key. -/
  | notFound (key : String)
  /-- A policy was given a negative duration. -/
  | negativeDuration (ms : Int)
  /-- No atomicity mode is spelled so. -/
  | unknownAtomicity (text : String)
  /-- Eager reclamation without a sweep interval. -/
  | noSweepInterval
  /-- A cluster without nodes. -/
  | noNodes
  /-- The affinity is laid out over another number of nodes than the cluster has. -/
  | affinityMismatch (covered nodes : Nat)
  /-- The cluster has no such node. -/
  | unknownNode (node : Nat)
  /-- A transaction was begun on an atomic cache. -/
  | notTransactional
  /-- The empty key. -/
  | emptyKey
  /-- A key longer than `maxKeyLength`. -/
  | longKey
  /-- A value larger than `maxValueSize`. -/
  | largeValue
  /-- The key changed on its primary after the transaction first read it. -/
  | conflict (key : String)
  deriving DecidableEq, Repr

namespace CacheError

/-- The kind a cause belongs to. -/
def kind : CacheError → ErrorKind
  | notFound _ => .notFound
  | negativeDuration _ => .invalidPolicy
  | unknownAtomicity _ | noSweepInterval | noNodes | affinityMismatch _ _ => .invalidConfig
  | unknownNode _ | notTransactional | emptyKey | longKey | largeValue => .invalidRequest
  | conflict _ => .transactionConflict

/-- The part of the message that the cause decides. -/
def detail : CacheError → String
  | notFound key => key
  | negativeDuration ms => "negative duration: " ++ toString ms ++ "ms"
  | unknownAtomicity text => "unknown atomicity mode '" ++ text ++ "'"
  | noSweepInterval => "sweep interval must be positive when eager TTL is enabled"
  | noNodes => "cluster needs at least one node"
  | affinityMismatch covered nodes =>
      "affinity covers " ++ toString covered ++ " nodes, cluster has " ++ toString nodes
  | unknownNode node => "node " ++ toString node ++ " is not part of the cluster"
  | notTransactional => "transactions require a transactional cache"
  | emptyKey => "Key cannot be empty"
  | longKey => "Key exceeds maximum length of " ++ toString maxKeyLength ++ " characters"
  | largeValue => "Value exceeds maximum size of " ++ toString maxValueSize ++ " bytes"
  | conflict key => "key " ++ Text.quote key ++ " changed since it was first read"

/-- The whole message. -/
def message (e : CacheError) : String :=
  e.kind.message e.detail

end CacheError

end Ephemera
