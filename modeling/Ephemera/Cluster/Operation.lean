import Ephemera.Cluster.Basic

/-! # Operations

The operations of the cache as a client sees them. A client calls through one node, under one
policy and at one reading of the clock; a call on several keys uses the same policy and reading for
all of them.

Only reads are ever answered by the node itself: when the policy gives no duration for an access, a
read changes no lifetime, so a live copy of a backup or near reader will do. All else is run on the
primary of the key.
-/

namespace Ephemera

open Std

universe u v w

/-- How an operation is called. -/
structure Call where
  /-- The node that the client calls through. -/
  node : Nat
  /-- The policy in effect. -/
  policy : Policy
  /-- The reading of the clock. -/
  now : Millis
  deriving DecidableEq, Repr

namespace Cluster

variable {κ : Type u} {V : Type v} {ρ : Type w} [Ord κ] [TransOrd κ] [Hashable κ]

omit [TransOrd κ] [Hashable κ] in
/-- A call through a node of the cluster, under the given policy or that of the cache. -/
def call (c : Cluster κ V) (node : Nat) (scope : Option Policy) (now : Millis) :
    Except CacheError Call :=
  if node < c.nodes.length then .ok { node, policy := .effective c.config.policy scope, now }
  else .error (.unknownNode node)

/-- Run one operation on the primary of its key. -/
def run (c : Cluster κ V) (call : Call) (key : κ) (decide : Decision V ρ) : Cluster κ V × ρ :=
  c.execute key call.policy (c.nearReader call.node key) call.now decide

/-- Run an operation on the primary of each key, in turn, with a near reader for each key. -/
def executeAll (policy : Policy) (reader : κ → Option Nat) (now : Millis) :
    List (κ × Decision V ρ) → Cluster κ V → Cluster κ V × List ρ
  | [], c => (c, [])
  | (key, decide) :: rest, c =>
    let (c, result) := c.execute key policy (reader key) now decide
    let (c, results) := executeAll policy reader now rest c
    (c, result :: results)

/-- Run an operation on the primary of each key, in turn. -/
def runAll (c : Cluster κ V) (call : Call) (decisions : List (κ × Decision V ρ)) :
    Cluster κ V × List ρ :=
  executeAll call.policy (c.nearReader call.node) call.now decisions c

/-- Read a copy in one store of a node. -/
def readStore (c : Cluster κ V) (node : Nat) (target : Target) (key : κ) (now : Millis) :
    Cluster κ V × Option (Entry V) :=
  match c.nodes[node]? with
  | none => (c, none)
  | some n =>
    let (s, found) := (n.store target).read key now
    (c.modifyNode node (·.withStore target s), found)

/-- Read the copy that a node holds as a backup or near reader. -/
def readLocal (c : Cluster κ V) (node : Nat) (key : κ) (now : Millis) :
    Cluster κ V × Option (Entry V) :=
  match c.affinity.role node key with
  | .primary => (c, none)
  | .backup => c.readStore node .owned key now
  | .none => if c.config.near then c.readStore node .near key now else (c, none)

/-- Store a value. -/
def put (c : Cluster κ V) (call : Call) (key : κ) (value : V) : Cluster κ V :=
  (c.run call key (.put value)).1

/-- Store several values. -/
def putAll (c : Cluster κ V) (call : Call) (entries : List (κ × V)) : Cluster κ V :=
  (c.runAll call (entries.map fun (key, value) => (key, .put value))).1

/-- Store a value unless the key has one, and tell whether it was stored. -/
def putIfAbsent (c : Cluster κ V) (call : Call) (key : κ) (value : V) : Cluster κ V × Bool :=
  c.run call key (.putIfAbsent value)

/-- Read the value of a key. -/
def get (c : Cluster κ V) (call : Call) (key : κ) : Cluster κ V × Option V :=
  if (call.policy.on .access).isNone then
    match c.readLocal call.node key call.now with
    | (c, some entry) => (c, some entry.value)
    | (c, none) => c.run call key .get
  else c.run call key .get

/-- Read the value of each key, in turn. -/
def getEach (call : Call) : List κ → Cluster κ V → Cluster κ V × List (Option V)
  | [], c => (c, [])
  | key :: rest, c =>
    let (c, value) := c.get call key
    let (c, values) := getEach call rest c
    (c, value :: values)

omit [Ord κ] [TransOrd κ] [Hashable κ] in
/-- The keys for which a value was found, with the values. -/
def found (keys : List κ) (values : List (Option V)) : List (κ × V) :=
  (keys.zip values).filterMap fun (key, value) => value.map (key, ·)

/-- Read the values of several keys. Keys without a value are left out; of a key that is read
twice, the value found last stands. -/
def getAll (c : Cluster κ V) (call : Call) (keys : List κ) : Cluster κ V × ExtTreeMap κ V :=
  let (c, values) := getEach call keys c
  (c, .ofList (found keys values))

/-- Remove a key, and tell whether it had a value. -/
def remove (c : Cluster κ V) (call : Call) (key : κ) : Cluster κ V × Bool :=
  c.run call key .remove

/-- Remove several keys, and tell how many of them had a value. -/
def removeAll (c : Cluster κ V) (call : Call) (keys : List κ) : Cluster κ V × Nat :=
  let (c, removed) := c.runAll call (keys.map fun key => (key, .remove))
  (c, removed.countP id)

/-- Remove a key if it has the value `expected`, and tell whether it had. -/
def removeIfEquals [DecidableEq V] (c : Cluster κ V) (call : Call) (key : κ) (expected : V) :
    Cluster κ V × Bool :=
  c.run call key (.removeIfEquals expected)

/-- Replace the value of a key, and tell whether it had one. -/
def replace (c : Cluster κ V) (call : Call) (key : κ) (value : V) : Cluster κ V × Bool :=
  c.run call key (.replace value)

/-- Replace the value of a key if it is `expected`, and tell whether it was. -/
def replaceIfEquals [DecidableEq V] (c : Cluster κ V) (call : Call) (key : κ)
    (expected value : V) : Cluster κ V × Bool :=
  c.run call key (.replaceIfEquals expected value)

/-- Run an entry processor on a key. -/
def invoke [Append V] [Inhabited V] (c : Cluster κ V) (call : Call) (key : κ)
    (script : List (Command V)) : Cluster κ V × List (Reply V) :=
  c.run call key (.invoke script)

omit [Hashable κ] in
/-- All keys with a copy on their primary, expired or not, in order. -/
def keys (c : Cluster κ V) : List κ :=
  (ExtTreeSet.ofList (c.nodes.zipIdx.flatMap fun (n, node) =>
    n.owned.keys.filter fun key => c.affinity.primary key = node)).toList

/-- All entries of the cache, in the order of their keys; each of them is accessed. No near reader
is registered. -/
def entries (c : Cluster κ V) (call : Call) : Cluster κ V × List (κ × V) :=
  let keys := c.keys
  let (c, values) :=
    executeAll call.policy (fun _ => none) call.now (keys.map fun key => (key, .get)) c
  (c, found keys values)

omit [Hashable κ] in
/-- The live value in the copy that the called node holds. -/
def localPeek (c : Cluster κ V) (call : Call) (key : κ) : Option V :=
  ((c.local? call.node key).filter (!·.expiredAt call.now)).map (·.value)

omit [Hashable κ] in
/-- The lifetime of the copy that the called node holds, expired or not. -/
def peekTtl (c : Cluster κ V) (call : Call) (key : κ) : Option Ttl :=
  (c.local? call.node key).map (·.ttl)

omit [Hashable κ] in
/-- The lifetime of the live copy on the primary. -/
def ttl (c : Cluster κ V) (call : Call) (key : κ) : Option Ttl :=
  (c.live? key call.now).map (·.ttl)

end Cluster

/-- The operations of the cache. -/
inductive Operation (κ : Type u) (V : Type v) where
  | put (key : κ) (value : V)
  | putAll (entries : List (κ × V))
  | putIfAbsent (key : κ) (value : V)
  | get (key : κ)
  | getAll (keys : List κ)
  | remove (key : κ)
  | removeAll (keys : List κ)
  | removeIfEquals (key : κ) (expected : V)
  | replace (key : κ) (value : V)
  | replaceIfEquals (key : κ) (expected value : V)
  | invoke (key : κ) (script : List (Command V))
  | entries
  | localPeek (key : κ)
  | peekTtl (key : κ)
  | ttl (key : κ)
  deriving DecidableEq, Repr

/-- The results of operations. -/
inductive Answer (κ : Type u) (V : Type v) [Ord κ] where
  | done
  | flag (holds : Bool)
  | count (n : Nat)
  | value (value : Option V)
  | values (found : ExtTreeMap κ V)
  | entries (found : List (κ × V))
  | replies (replies : List (Reply V))
  | ttl (ttl : Option Ttl)

namespace Cluster

variable {κ : Type u} {V : Type v} [Ord κ] [TransOrd κ] [Hashable κ]
variable [DecidableEq V] [Append V] [Inhabited V]

/-- Perform an operation. -/
def perform (c : Cluster κ V) (call : Call) : Operation κ V → Cluster κ V × Answer κ V
  | .put key value => (c.put call key value, .done)
  | .putAll entries => (c.putAll call entries, .done)
  | .putIfAbsent key value => (c.putIfAbsent call key value).map id .flag
  | .get key => (c.get call key).map id .value
  | .getAll keys => (c.getAll call keys).map id .values
  | .remove key => (c.remove call key).map id .flag
  | .removeAll keys => (c.removeAll call keys).map id .count
  | .removeIfEquals key expected => (c.removeIfEquals call key expected).map id .flag
  | .replace key value => (c.replace call key value).map id .flag
  | .replaceIfEquals key expected value =>
    (c.replaceIfEquals call key expected value).map id .flag
  | .invoke key script => (c.invoke call key script).map id .replies
  | .entries => (c.entries call).map id .entries
  | .localPeek key => (c, .value (c.localPeek call key))
  | .peekTtl key => (c, .ttl (c.peekTtl call key))
  | .ttl key => (c, .ttl (c.ttl call key))

end Cluster

end Ephemera
