import Ephemera.Store.Basic

/-! # Nodes

A node holds the copies it owns, as a primary or a backup, the near copies of keys owned elsewhere,
and for every key it is primary of the nodes that read a near copy. Decisions of other primaries
reach it through an inbox, first in, first out. Value and lifetime travel in one message and are
stored as they were decided; a receiving node never computes an expire time.
-/

namespace Ephemera

open Std

universe u v

/-- Which store of a node a message is for. -/
inductive Target where
  /-- The copies of keys that the node owns. -/
  | owned
  /-- The near copies of keys that it does not own. -/
  | near
  deriving DecidableEq, Repr

/-- A decided change of one key. -/
inductive Update (κ : Type u) (V : Type v) where
  /-- Hold this copy. -/
  | put (key : κ) (entry : Entry V)
  /-- Drop the copy if it is not newer than `version`. -/
  | remove (key : κ) (version : UInt64)
  deriving DecidableEq, Repr

namespace Update

variable {κ : Type u} {V : Type v}

/-- The key that changes. -/
def key : Update κ V → κ
  | put key _ => key
  | remove key _ => key

/-- The version that the change carries. -/
def version : Update κ V → UInt64
  | put _ entry => entry.version
  | remove _ version => version

/-- Whether the change removes the key. -/
def isRemove : Update κ V → Bool
  | put .. => false
  | remove .. => true

end Update

/-- A change on its way to a node. -/
structure Message (κ : Type u) (V : Type v) where
  target : Target
  update : Update κ V
  /-- Whether the sender waits for an acknowledgement. -/
  awaited : Bool
  deriving DecidableEq, Repr

/-- What becomes of the messages in an inbox. -/
inductive Service where
  /-- They are delivered one after the other. -/
  | running
  /-- They are accepted, but will be lost: the service has been told to stop. -/
  | stopping
  /-- None is accepted. -/
  | stopped
  deriving DecidableEq, Repr

/-- The messages that wait at a node, the oldest first. -/
structure Inbox (κ : Type u) (V : Type v) where
  queue : List (Message κ V) := []
  service : Service := .running
  deriving DecidableEq, Repr

namespace Inbox

variable {κ : Type u} {V : Type v}

/-- Whether a message may be queued. -/
def accepts (i : Inbox κ V) : Bool :=
  i.service != .stopped

/-- Queue a message; a stopped inbox drops it. -/
def push (i : Inbox κ V) (m : Message κ V) : Inbox κ V :=
  if i.accepts then { i with queue := i.queue ++ [m] } else i

/-- Tell the service to stop. What is queued will not be delivered. -/
def stop (i : Inbox κ V) : Inbox κ V :=
  match i.service with
  | .running => { i with service := .stopping }
  | _ => i

/-- Notice that the service has been told to stop. What is queued is lost, and no more is accepted. -/
def close (i : Inbox κ V) : Inbox κ V :=
  match i.service with
  | .running => i
  | _ => { service := .stopped }

end Inbox

/-- One node of the cache. -/
structure Node (κ : Type u) (V : Type v) [Ord κ] where
  owned : Store κ V
  near : Store κ V
  /-- The nodes that hold near copies of the keys that this node is primary of. -/
  readers : ExtTreeMap κ (ExtTreeSet Nat) := ∅
  inbox : Inbox κ V := {}

namespace Node

variable {κ : Type u} {V : Type v} [Ord κ] [TransOrd κ] [Hashable κ]

omit [TransOrd κ] [Hashable κ] in
/-- The node without copies. -/
def empty (eager : Bool) : Node κ V where
  owned := .empty eager
  near := .empty eager

omit [TransOrd κ] [Hashable κ] in
/-- One of the two stores. -/
def store (n : Node κ V) : Target → Store κ V
  | .owned => n.owned
  | .near => n.near

omit [TransOrd κ] [Hashable κ] in
/-- The node with one of its stores replaced. -/
def withStore (n : Node κ V) (target : Target) (s : Store κ V) : Node κ V :=
  match target with
  | .owned => { n with owned := s }
  | .near => { n with near := s }

omit [TransOrd κ] [Hashable κ] in
@[simp]
theorem store_withStore (n : Node κ V) (target other : Target) (s : Store κ V) :
    (n.withStore target s).store other = if target = other then s else n.store other := by
  cases target <;> cases other <;> rfl

omit [TransOrd κ] [Hashable κ] in
@[simp]
theorem inbox_withStore (n : Node κ V) (target : Target) (s : Store κ V) :
    (n.withStore target s).inbox = n.inbox := by
  cases target <;> rfl

/-- Apply a decided change to a store. Returns whether it was applied or is out of date. -/
def apply (n : Node κ V) (target : Target) (update : Update κ V) : Node κ V × Bool :=
  let (s, applied) :=
    match update with
    | .put key entry => (n.store target).install key entry
    | .remove key version => (n.store target).removeVersion key version
  (n.withStore target s, applied)

omit [Hashable κ] in
/-- The nodes registered for near copies of a key, in order. -/
def readersOf (n : Node κ V) (key : κ) : List Nat :=
  (n.readers.getD key ∅).toList

omit [Hashable κ] in
/-- Register a node for a near copy of a key. -/
def addReader (n : Node κ V) (key : κ) (reader : Nat) : Node κ V :=
  { n with readers := n.readers.insert key ((n.readers.getD key ∅).insert reader) }

omit [Hashable κ] in
/-- Forget the readers of a key, which has been removed. -/
def forgetReaders (n : Node κ V) (key : κ) : Node κ V :=
  { n with readers := n.readers.erase key }

omit [TransOrd κ] [Hashable κ] in
/-- Queue a message. -/
def push (n : Node κ V) (m : Message κ V) : Node κ V :=
  { n with inbox := n.inbox.push m }

omit [TransOrd κ] [Hashable κ] in
@[simp]
theorem store_push (n : Node κ V) (m : Message κ V) (target : Target) :
    (n.push m).store target = n.store target := by
  cases target <;> rfl

/-- Deliver the oldest message, if the service runs. Returns whether an acknowledgement was sent,
which happens after the change has been applied. -/
def deliver (n : Node κ V) : Node κ V × Bool :=
  match n.inbox.service, n.inbox.queue with
  | .running, m :: rest =>
    (({ n with inbox := { n.inbox with queue := rest } }.apply m.target m.update).1, m.awaited)
  | _, _ => (n, false)

/-- Deliver every message, or lose all of them if the service was told to stop. Returns how many
acknowledgements were sent. -/
def settle (n : Node κ V) : Node κ V × Nat :=
  match n.inbox.service with
  | .running =>
    (n.inbox.queue.foldl (fun n m => (n.apply m.target m.update).1) { n with inbox := {} },
      n.inbox.queue.countP (·.awaited))
  | _ => ({ n with inbox := { service := .stopped } }, 0)

omit [TransOrd κ] [Hashable κ] in
/-- Owned and near copies together. -/
def stats (n : Node κ V) : Stats :=
  n.owned.stats.add n.near.stats

end Node

end Ephemera
