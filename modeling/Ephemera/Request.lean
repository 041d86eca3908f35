import Ephemera.Expiry.Policy
import Ephemera.Json.Decoder

/-! # Requests

The bodies and queries that the HTTP surface accepts, and what makes one invalid.
-/

namespace Ephemera

/-- Why a key is not accepted. -/
def keyError? (key : String) : Option CacheError :=
  if key.isEmpty then some .emptyKey
  else if maxKeyLength < key.utf8ByteSize then some .longKey
  else none

/-- The policy that a request asks for. -/
structure ExpiryRequest where
  create : Option Int := none
  update : Option Int := none
  access : Option Int := none
  /-- Whether the entry is eternal whatever the durations are. -/
  eternal : Bool := false
  deriving DecidableEq, Repr

namespace ExpiryRequest

/-- How it is written. -/
def schema : Json.Schema ExpiryRequest where
  start := {}
  fields :=
    [{ name := "create_ms", optional := true
       read := fun r es => do
        let (create, es) ← Json.Decoder.integer.optional es
        return ({ r with create }, es) },
     { name := "update_ms", optional := true
       read := fun r es => do
        let (update, es) ← Json.Decoder.integer.optional es
        return ({ r with update }, es) },
     { name := "access_ms", optional := true
       read := fun r es => do
        let (access, es) ← Json.Decoder.integer.optional es
        return ({ r with access }, es) },
     { name := "eternal", optional := true
       read := fun r es => do
        let (eternal, es) ← Json.Decoder.flag es
        return ({ r with eternal }, es) }]
  complete _ := true

/-- The policy asked for. -/
def policy (r : ExpiryRequest) : Except CacheError Policy :=
  if r.eternal then .ok (.custom .eternal)
  else (Durations.ofInts r.create r.update r.access).map .custom

end ExpiryRequest

/-- A value to store. -/
structure PutRequest where
  value : String
  /-- The policy of this call. -/
  expiry : Option ExpiryRequest := none
  deriving DecidableEq, Repr

namespace PutRequest

/-- A request of which only some fields have been read. -/
structure Draft where
  value : Option String := none
  expiry : Option ExpiryRequest := none
  deriving DecidableEq, Repr

/-- How it is written. -/
def schema : Json.Schema Draft where
  start := {}
  fields :=
    [{ name := "value", optional := false
       read := fun d es => do
        let (value, es) ← Json.Decoder.text es
        return ({ d with value := some value }, es) },
     { name := "expiry", optional := true
       read := fun d es => do
        let (expiry, es) ← Json.Decoder.optional ExpiryRequest.schema.decode es
        return ({ d with expiry }, es) }]
  complete d := d.value.isSome

/-- The request, if its value has been read. -/
def ofDraft (d : Draft) : Except Json.Problem PutRequest :=
  match d.value with
  | some value => .ok { value, expiry := d.expiry }
  | none => .error .mismatch

/-- Why the request is not accepted under a key: because of the key, or because of its value. -/
def error? (r : PutRequest) (key : String) : Option CacheError :=
  match keyError? key with
  | some e => some e
  | none => if maxValueSize < r.value.utf8ByteSize then some .largeValue else none

/-- The policy asked for, if there is one. -/
def policy (r : PutRequest) : Except CacheError (Option Policy) :=
  r.expiry.mapM (·.policy)

end PutRequest

/-- The policy that a query asks for. -/
structure ExpiryQuery where
  create : Option Int := none
  update : Option Int := none
  access : Option Int := none
  deriving DecidableEq, Repr

namespace ExpiryQuery

/-- How it is written as JSON. -/
def schema : Json.Schema ExpiryQuery where
  start := {}
  fields :=
    [{ name := "create", optional := false
       read := fun r es => do
        let (create, es) ← Json.Decoder.integer.optional es
        return ({ r with create }, es) },
     { name := "update", optional := false
       read := fun r es => do
        let (update, es) ← Json.Decoder.integer.optional es
        return ({ r with update }, es) },
     { name := "access", optional := false
       read := fun r es => do
        let (access, es) ← Json.Decoder.integer.optional es
        return ({ r with access }, es) }]
  complete _ := true

/-- The policy asked for, if there is any duration. -/
def policy (q : ExpiryQuery) : Except CacheError (Option Policy) :=
  match q.create, q.update, q.access with
  | none, none, none => .ok none
  | create, update, access => (Durations.ofInts create update access).map fun d => some (.custom d)

end ExpiryQuery

end Ephemera
