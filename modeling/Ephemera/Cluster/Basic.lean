import Ephemera.Affinity
import Ephemera.Cluster.Decision
import Ephemera.Config.Cache
import Ephemera.Network

/-! # Clusters

A cluster is the set of nodes that serve one cache. Whatever is decided about a key is decided on
its primary: what the key holds, under which version, and when it expires. The decision is shipped
as a value to the backups of the key and to the nodes that read a near copy of it, and is stored
there when the message is delivered.

`execute` runs one operation on the primary of a key. It turns the plan of the operation into one
of five effects, and `apply` carries an effect out.
-/

namespace Ephemera

open Std

universe u v w

/-- The nodes of a cache with its settings. -/
structure Cluster (κ : Type u) (V : Type v) [Ord κ] where
  config : CacheConfig
  affinity : Affinity κ
  nodes : Network κ V
  /-- The version drawn last. A value stored on a primary draws the next one, a removal none. -/
  version : UInt64 := 0
  /-- Whether the inboxes and sweepers of the nodes are running. -/
  running : Bool := true

/-- What an operation does to the copies of its key. -/
inductive Effect (V : Type v) where
  /-- A value with its lifetime is stored under a new version. -/
  | write (value : V) (ttl : Ttl)
  /-- A copy that was found expired is dropped, here and everywhere. -/
  | drop (version : UInt64)
  /-- The live copy is removed, here and everywhere. -/
  | remove (version : UInt64)
  /-- The live copy stays, and the reader may take a near copy of it. -/
  | share (entry : Entry V)
  /-- There is nothing to do. -/
  | nothing
  deriving DecidableEq, Repr

namespace Effect

variable {V : Type v}

/-- The effect of a plan, given the copy stored on the primary and the live copy. -/
def ofPlan (stored live : Option (Entry V)) : Plan V → Effect V
  | .put value ttl _ => .write value ttl
  | .remove =>
    match live, stored with
    | some entry, _ => .remove entry.version
    | none, some entry => .drop entry.version
    | none, none => .nothing
  | .unchanged =>
    match live, stored with
    | some entry, _ => .share entry
    | none, some entry => .drop entry.version
    | none, none => .nothing

end Effect

namespace Cluster

variable {κ : Type u} {V : Type v} {ρ : Type w} [Ord κ] [TransOrd κ] [Hashable κ]

omit [TransOrd κ] [Hashable κ] in
/-- A cluster without entries. The settings must be valid, there must be a node, and the affinity
must be laid out over the nodes there are. -/
def start (config : CacheConfig) (nodes : Nat) (affinity : Affinity κ) :
    Except CacheError (Cluster κ V) :=
  match config.validate with
  | .error e => .error e
  | .ok () =>
    if nodes = 0 then .error .noNodes
    else if affinity.nodes ≠ nodes then .error (.affinityMismatch affinity.nodes nodes)
    else .ok { config, affinity, nodes := .empty nodes config.eager }

omit [TransOrd κ] [Hashable κ] in
/-- Change one node. -/
def modifyNode (c : Cluster κ V) (node : Nat) (change : Node κ V → Node κ V) : Cluster κ V :=
  { c with nodes := c.nodes.modify node change }

omit [TransOrd κ] [Hashable κ] in
/-- Change the primary of a key. -/
def modifyPrimary (c : Cluster κ V) (key : κ) (change : Node κ V → Node κ V) : Cluster κ V :=
  c.modifyNode (c.affinity.primary key) change

/-- The statistics of all nodes together. -/
def stats (c : Cluster κ V) : Stats :=
  c.nodes.stats

/-! ## Reading without effect -/

omit [Hashable κ] in
/-- The copy on the primary of a key, expired or not. -/
def stored? (c : Cluster κ V) (key : κ) : Option (Entry V) :=
  c.nodes[c.affinity.primary key]?.bind (·.owned.get? key)

omit [Hashable κ] in
/-- The copy on the primary of a key, unless it has expired. -/
def live? (c : Cluster κ V) (key : κ) (now : Millis) : Option (Entry V) :=
  (c.stored? key).filter (!·.expiredAt now)

omit [Hashable κ] in
/-- The copy that a node holds of a key, as an owner or as a near reader, expired or not. -/
def local? (c : Cluster κ V) (node : Nat) (key : κ) : Option (Entry V) :=
  c.nodes[node]?.bind fun n =>
    if c.affinity.isOwner node key then n.owned.get? key else n.near.get? key

omit [TransOrd κ] [Hashable κ] in
/-- The node itself, if it keeps near copies and does not own the key. -/
def nearReader (c : Cluster κ V) (node : Nat) (key : κ) : Option Nat :=
  if c.config.near && !c.affinity.isOwner node key then some node else none

/-! ## Shipping -/

omit [TransOrd κ] [Hashable κ] in
/-- Queue a change at a node. -/
def ship (c : Cluster κ V) (node : Nat) (m : Message κ V) : Cluster κ V :=
  { c with nodes := c.nodes.ship node m }

omit [TransOrd κ] [Hashable κ] in
/-- Queue a change at several nodes, in turn. -/
def shipAll (c : Cluster κ V) (nodes : List Nat) (m : Message κ V) : Cluster κ V :=
  nodes.foldl (fun c node => c.ship node m) c

omit [Hashable κ] in
/-- The registered near readers of a key that do not own it. -/
def readersOf (c : Cluster κ V) (key : κ) : List Nat :=
  ((c.nodes[c.affinity.primary key]?.map (·.readersOf key)).getD []).filter fun reader =>
    reader ≠ c.affinity.primary key && reader ∉ c.affinity.backups key

omit [Hashable κ] in
/-- Ship a decision about its key to the backups and the near readers. A removal also ends the
registration of the readers. -/
def fanOut (c : Cluster κ V) (update : Update κ V) (awaited : Bool) : Cluster κ V :=
  let readers := c.readersOf update.key
  let c := c.shipAll (c.affinity.backups update.key) { target := .owned, update, awaited }
  let c := if update.isRemove then c.modifyPrimary update.key (·.forgetReaders update.key) else c
  c.shipAll readers { target := .near, update, awaited }

/-! ## Changing the primary copy -/

/-- Write to the copy on the primary of a key. -/
def writePrimary (c : Cluster κ V) (key : κ) (change : Write V) : Cluster κ V :=
  c.modifyPrimary key fun n => { n with owned := n.owned.write key change }

omit [TransOrd κ] [Hashable κ] in
/-- Count an event on the primary of a key. -/
def recordPrimary (c : Cluster κ V) (key : κ) (event : StoreEvent) : Cluster κ V :=
  c.modifyPrimary key fun n => { n with owned := n.owned.record event }

omit [Hashable κ] in
/-- Register a near reader of a key with the primary of the key. -/
def register (c : Cluster κ V) (key : κ) (reader : Nat) : Cluster κ V :=
  c.modifyPrimary key (·.addReader key reader)

/-- Store a value with its lifetime under the next version, and ship it. -/
def putPrimary (c : Cluster κ V) (key : κ) (value : V) (ttl : Ttl) : Cluster κ V :=
  let entry : Entry V := { value, version := c.version + 1, ttl }
  ({ c with version := entry.version }.fanOut (.put key entry) c.config.synchronous).writePrimary
    key (.put entry)

/-- Remove the copy of that version, count why, and ship the removal. -/
def removePrimary (c : Cluster κ V) (key : κ) (version : UInt64) (event : StoreEvent)
    (awaited : Bool) : Cluster κ V :=
  ((c.recordPrimary key event).fanOut (.remove key version) awaited).writePrimary key .remove

/-- Carry out an effect. The reader, if there is one, becomes a near reader of a key that stays
visible. -/
def apply (c : Cluster κ V) (key : κ) (reader : Option Nat) : Effect V → Cluster κ V
  | .write value ttl => (reader.elim c (c.register key)).putPrimary key value ttl
  | .drop version => c.removePrimary key version .expired c.config.synchronous
  | .remove version => c.removePrimary key version .removal c.config.synchronous
  | .share entry =>
    match reader with
    | none => c
    | some reader =>
      (c.register key reader).ship reader
        { target := .near, update := .put key entry, awaited := c.config.synchronous }
  | .nothing => c

/-- Run one operation on the primary of its key. An expired copy counts as absent. A read is
counted as a hit or a miss. -/
def execute (c : Cluster κ V) (key : κ) (policy : Policy) (reader : Option Nat) (now : Millis)
    (decide : Decision V ρ) : Cluster κ V × ρ :=
  let stored := c.stored? key
  let live := c.live? key now
  let (intent, result) := decide (live.map (·.value))
  let counted :=
    match intent with
    | .read => c.recordPrimary key (if live.isSome then .hit else .miss)
    | _ => c
  let change := plan (live.map (·.content)) intent policy now
  (counted.apply key reader (.ofPlan stored live change), result)

/-! ## Delivery -/

/-- Deliver the oldest message at a node. -/
def deliver (c : Cluster κ V) (node : Nat) : Cluster κ V :=
  { c with nodes := c.nodes.deliver node }

/-- Deliver all messages. -/
def settle (c : Cluster κ V) : Cluster κ V :=
  { c with nodes := c.nodes.settle }

omit [TransOrd κ] [Hashable κ] in
/-- Stop the inboxes and the sweepers. What is queued, and whatever is shipped later, is lost;
primaries go on working. -/
def shutdown (c : Cluster κ V) : Cluster κ V :=
  { c with nodes := c.nodes.shutdown, running := false }

end Cluster

end Ephemera
