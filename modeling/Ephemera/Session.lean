import Ephemera.System

/-! # Sessions

A session drives a system step by step on one thread. While a step runs nothing is delivered; when
it is over every message is delivered, unless the session settles by hand. Nodes are swept when the
session says so, or all together at a tick.

Beside the moves of the system a session has steps that look at it without effect, and steps that
reach into single nodes past the cache.
-/

namespace Ephemera

open Std

universe u v

/-- A system under the control of one thread. -/
structure Session (κ : Type u) (V : Type v) [Ord κ] extends System κ V where
  /-- Whether messages are delivered only when asked for. -/
  manual : Bool := false

/-- One step of a session. -/
inductive Step (κ : Type u) (V : Type v) where
  /-- Perform an operation through a node. -/
  | call (node : Nat) (scope : Option PolicySpec) (operation : Operation κ V)
  /-- The policy that a call through the node would be under. -/
  | view (node : Nat) (scope : Option PolicySpec)
  /-- Let time pass. -/
  | advance (span : Millis)
  /-- Set the clock. -/
  | setClock (now : Millis)
  /-- Sweep one node. -/
  | sweep (node : Nat)
  /-- Deliver everything, sweep all nodes, and deliver everything again. -/
  | tick
  /-- Deliver everything. -/
  | settle
  /-- Stop inboxes and sweepers. -/
  | shutdown
  /-- The statistics of the cluster. -/
  | stats
  /-- The live primary copy of a key, by the clock or at the given reading. -/
  | readPrimary (key : κ) (now : Option Millis)
  /-- All nodes. -/
  | dump
  /-- Register a near reader at a node. -/
  | addReader (node : Nat) (key : κ) (reader : Nat)
  /-- Install a copy in one store of a node. -/
  | install (node : Nat) (target : Target) (key : κ) (entry : Entry V)
  /-- Remove the copy in one store of a node. -/
  | removeNow (node : Nat) (target : Target) (key : κ)
  /-- Open a transaction. -/
  | begin (tx node : Nat) (scope : Option PolicySpec)
  /-- Stage an operation. -/
  | stage (tx : Nat) (scope : Option PolicySpec) (operation : Transaction.Operation κ V)
  /-- The lifetime staged for a key. -/
  | stagedTtl (tx : Nat) (key : κ)
  /-- Whether the transaction is open. -/
  | isOpen (tx : Nat)
  /-- Commit a transaction. -/
  | commit (tx : Nat)
  /-- End a transaction without effect. -/
  | rollback (tx : Nat)
  deriving DecidableEq, Repr

/-- What a step results in. -/
inductive Report (κ : Type u) (V : Type v) [Ord κ] where
  | outcome (outcome : Outcome κ V)
  | view (call : Call)
  | clock (now : Millis)
  | stats (stats : Stats)
  | entry (entry : Option (Entry V))
  | ttl (ttl : Option Ttl)
  | flag (holds : Bool)
  | nodes (nodes : Network κ V)
  /-- The cluster has no such node. -/
  | noNode

namespace Session

variable {κ : Type u} {V : Type v} [Ord κ] [TransOrd κ] [Hashable κ]
variable [DecidableEq V] [Append V] [Inhabited V]

omit [TransOrd κ] [Hashable κ] [DecidableEq V] [Append V] [Inhabited V] in
/-- A session on a new cluster. -/
def start (config : CacheConfig) (nodes : Nat) (affinity : Affinity κ) (now : Millis)
    (manual : Bool) : Except CacheError (Session κ V) :=
  match Cluster.start config nodes affinity with
  | .error e => .error e
  | .ok cluster => .ok { cluster, clock := now, manual }

omit [TransOrd κ] [Hashable κ] [DecidableEq V] [Append V] [Inhabited V] in
/-- The session with another cluster. -/
def withCluster (s : Session κ V) (cluster : Cluster κ V) : Session κ V :=
  { s with cluster }

omit [DecidableEq V] [Append V] [Inhabited V] in
/-- Deliver everything. -/
def settle (s : Session κ V) : Session κ V :=
  s.withCluster s.cluster.settle

/-- Make a move of the system. -/
def move (s : Session κ V) (m : Move κ V) : Session κ V × Report κ V :=
  let (system, outcome) := s.toSystem.step m
  ({ s with toSystem := system }, .outcome outcome)

/-- The policy of a step, if it brings one. -/
def scopePolicy (scope : Option PolicySpec) : Except CacheError (Option Policy) :=
  scope.mapM PolicySpec.policy

omit [DecidableEq V] [Append V] [Inhabited V] in
/-- All nodes sweep once before any of their messages is delivered. -/
def tick (s : Session κ V) : Session κ V :=
  let s := s.settle
  let s :=
    if s.cluster.config.eager && s.cluster.running then
      s.withCluster (s.cluster.sweepAll s.clock)
    else s
  s.settle

/-- Make a move through a node under the policy of the step. An unknown node is reported before a
policy that is refused. -/
def moveThrough (s : Session κ V) (node : Nat) (scope : Option PolicySpec)
    (m : Option Policy → Move κ V) : Session κ V × Report κ V :=
  match s.cluster.call node none s.clock, scopePolicy scope with
  | .error e, _ | .ok _, .error e => (s, .outcome (.refused e))
  | .ok _, .ok scope => s.move (m scope)

omit [DecidableEq V] [Append V] [Inhabited V] in
/-- Change one node of the cluster. -/
def touchNode (s : Session κ V) (node : Nat) (change : Node κ V → Node κ V × Report κ V) :
    Session κ V × Report κ V :=
  match s.cluster.nodes[node]? with
  | none => (s, .noNode)
  | some n =>
    let (n, report) := change n
    (s.withCluster (s.cluster.modifyNode node fun _ => n), report)

/-- Carry out a step, before messages are delivered. -/
def perform (s : Session κ V) : Step κ V → Session κ V × Report κ V
  | .call node scope operation => s.moveThrough node scope fun scope => .call node scope operation
  | .view node scope =>
    match s.cluster.call node none s.clock, scopePolicy scope with
    | .error e, _ | .ok _, .error e => (s, .outcome (.refused e))
    | .ok call, .ok scope => (s, .view { call with policy := .effective call.policy scope })
  | .advance span =>
    let now := Millis.after s.clock span
    ((s.move (.setClock now)).1, .clock now)
  | .setClock now => ((s.move (.setClock now)).1, .clock now)
  | .sweep node => s.move (.sweep node)
  | .tick => (s.tick, .outcome .done)
  | .settle => (s.settle, .outcome .done)
  | .shutdown => (s.withCluster s.cluster.shutdown, .outcome .done)
  | .stats => (s, .stats s.cluster.stats)
  | .readPrimary key now => (s, .entry (s.cluster.live? key (now.getD s.clock)))
  | .dump => (s, .nodes s.cluster.nodes)
  | .addReader node key reader =>
    s.touchNode node fun n => (n.addReader key reader, .outcome .done)
  | .install node target key entry =>
    s.touchNode node fun n =>
      let (store, accepted) := (n.store target).install key entry
      (n.withStore target store, .flag accepted)
  | .removeNow node target key =>
    s.touchNode node fun n =>
      let (store, removed) := (n.store target).remove key
      (n.withStore target store, .entry removed)
  | .begin tx node scope => s.moveThrough node scope fun scope => .begin tx node scope
  | .stage tx scope operation =>
    match scopePolicy scope with
    | .error e => (s, .outcome (.refused e))
    | .ok scope => s.move (.stage tx scope operation)
  | .stagedTtl tx key =>
    match s.transactions[tx]? with
    | none => (s, .outcome .noTransaction)
    | some opened => (s, .ttl (opened.stagedTtl key))
  | .isOpen tx =>
    (s, if tx ∈ s.transactions then .outcome .done else .outcome .noTransaction)
  | .commit tx => s.move (.commit tx)
  | .rollback tx => s.move (.rollback tx)

/-- Carry out a step, and deliver what it has shipped unless the session settles by hand. -/
def step (s : Session κ V) (step : Step κ V) : Session κ V × Report κ V :=
  let (s, report) := s.perform step
  (if s.manual then s else s.settle, report)

end Session

end Ephemera
