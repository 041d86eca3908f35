import Ephemera.Node

/-! # The network of nodes

Nodes are numbered from zero. A primary ships a decided change to a node by queueing it there; it
never waits while it does so. The messages at one node are delivered in the order in which they
were queued, those at different nodes in any order.

An `Exchange` is a network seen from one sender that asks for acknowledgements and now and then
waits for all of them. While it waits, inboxes are served, told to stop and closed as at any other
time.
-/

namespace Ephemera

open Std

universe u v

/-- The nodes of a cache, in the order of their numbers. -/
abbrev Network (κ : Type u) (V : Type v) [Ord κ] := List (Node κ V)

namespace Network

variable {κ : Type u} {V : Type v} [Ord κ] [TransOrd κ] [Hashable κ]

omit [TransOrd κ] [Hashable κ] in
/-- Nodes without copies. -/
def empty (nodes : Nat) (eager : Bool) : Network κ V :=
  List.replicate nodes (.empty eager)

omit [TransOrd κ] [Hashable κ] in
/-- Whether a message to the node will be queued. -/
def accepts (net : Network κ V) (node : Nat) : Bool :=
  net[node]?.any (·.inbox.accepts)

omit [TransOrd κ] [Hashable κ] in
/-- Queue a message at a node; one to an unknown node is dropped. -/
def ship (net : Network κ V) (node : Nat) (m : Message κ V) : Network κ V :=
  net.modify node (·.push m)

omit [TransOrd κ] [Hashable κ] in
/-- A message changes the node it is shipped to and no other. -/
theorem getElem?_ship (net : Network κ V) (node other : Nat) (m : Message κ V) :
    (net.ship node m)[other]? = net[other]?.map fun n => if node = other then n.push m else n :=
  List.getElem?_modify ..

/-- Deliver the oldest message at a node. -/
def deliver (net : Network κ V) (node : Nat) : Network κ V :=
  net.modify node (·.deliver.1)

/-- Deliver all messages at all nodes. -/
def settle (net : Network κ V) : Network κ V :=
  net.map (·.settle.1)

/-- How many acknowledgements are sent when everything is delivered. -/
def acknowledgements (net : Network κ V) : Nat :=
  net.foldr (fun n sent => n.settle.2 + sent) 0

omit [TransOrd κ] [Hashable κ] in
/-- Tell the service of one inbox to stop. -/
def stop (net : Network κ V) (node : Nat) : Network κ V :=
  net.modify node fun n => { n with inbox := n.inbox.stop }

omit [TransOrd κ] [Hashable κ] in
/-- Let one inbox notice that it has been told to stop. -/
def close (net : Network κ V) (node : Nat) : Network κ V :=
  net.modify node fun n => { n with inbox := n.inbox.close }

omit [TransOrd κ] [Hashable κ] in
/-- Whether an awaited message is still queued: it has been neither acknowledged nor lost. -/
def awaits (net : Network κ V) : Bool :=
  net.any fun n => n.inbox.queue.any (·.awaited)

/-- Stop all inboxes for good. What is queued is lost. -/
def shutdown (net : Network κ V) : Network κ V :=
  net.map fun n => { n with inbox := { service := .stopped } }

/-- The sum of the statistics of all nodes. -/
def stats (net : Network κ V) : Stats :=
  Stats.total (net.map (·.stats))

end Network

/-- A network together with the acknowledgements that a sender waits for. -/
structure Exchange (κ : Type u) (V : Type v) [Ord κ] where
  net : Network κ V
  /-- How many messages were queued since the last wait whose acknowledgement is awaited. -/
  pending : Nat := 0
  /-- How many of them have been acknowledged. -/
  acknowledged : Nat := 0

namespace Exchange

variable {κ : Type u} {V : Type v} [Ord κ] [TransOrd κ] [Hashable κ]

omit [TransOrd κ] [Hashable κ] in
/-- Ship a message. An acknowledgement is awaited only if the message was queued. -/
def ship (e : Exchange κ V) (node : Nat) (m : Message κ V) : Exchange κ V :=
  { e with
    net := e.net.ship node m
    pending := if m.awaited && e.net.accepts node then e.pending + 1 else e.pending }

/-- Let every message be delivered. -/
def settle (e : Exchange κ V) : Exchange κ V :=
  { e with
    net := e.net.settle
    acknowledged := e.acknowledged + e.net.acknowledgements }

/-- Deliver the oldest message at a node. -/
def deliver (e : Exchange κ V) (node : Nat) : Exchange κ V :=
  { e with
    net := e.net.deliver node
    acknowledged := e.acknowledged + ((e.net[node]?.map fun n => n.deliver.2.toNat).getD 0) }

omit [TransOrd κ] [Hashable κ] in
/-- Wait for the acknowledgements. A wait delivers nothing itself: it goes on while an awaited message is
queued anywhere, as the inboxes are served or notice a stop, and returns once there is none, so at once if
none was shipped. It tells how many acknowledgements have arrived since the last wait. A lost message is
never acknowledged, and one that is not awaited may still be queued. -/
def wait? (e : Exchange κ V) : Option (Exchange κ V × Nat) :=
  if e.net.awaits then none else some ({ net := e.net }, e.acknowledged)

/-- What a wait comes to, and leaves, if all inboxes are served meanwhile until nothing is queued any
more. -/
def wait (e : Exchange κ V) : Exchange κ V × Nat :=
  ({ net := e.settle.net }, e.settle.acknowledged)

omit [TransOrd κ] [Hashable κ] in
/-- Tell the service of one inbox to stop. -/
def stop (e : Exchange κ V) (node : Nat) : Exchange κ V :=
  { e with net := e.net.stop node }

omit [TransOrd κ] [Hashable κ] in
/-- Let one inbox notice that it has been told to stop. -/
def close (e : Exchange κ V) (node : Nat) : Exchange κ V :=
  { e with net := e.net.close node }

end Exchange

end Ephemera
