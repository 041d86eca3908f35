import Ephemera.Cluster.Basic

/-! # Sweeps

A sweep of a node reclaims every copy on it that has expired. It follows the expiration indexes,
first that of the owned copies and then that of the near copies, and each removal changes the index
that the sweep is following. A copy on its primary is removed everywhere; a backup or near copy is
removed from the swept node only, since its primary sees to the others.

A sweep looks at the stored copy once more before it removes it, and awaits no acknowledgement.
-/

namespace Ephemera

open Std

universe u v

namespace Cluster

variable {κ : Type u} {V : Type v} [Ord κ] [TransOrd κ] [Hashable κ]

/-- Remove a copy from one store of a node, if it has expired at the time it was listed at. -/
def reclaimLocal (c : Cluster κ V) (node : Nat) (target : Target) (d : Deadline κ)
    (now : Millis) : Cluster κ V × Bool :=
  match c.nodes[node]? with
  | none => (c, false)
  | some n =>
    match (n.store target).reclaim d.key d.time now with
    | (_, false) => (c, false)
    | (s, true) => (c.modifyNode node (·.withStore target (s.record .swept)), true)

/-- Remove the primary copy of a key, if it has expired at the time it was listed at, and ship the
removal. -/
def reclaimPrimary (c : Cluster κ V) (d : Deadline κ) (now : Millis) : Cluster κ V × Bool :=
  match c.stored? d.key with
  | none => (c, false)
  | some entry =>
    if entry.ttl.expireTime = d.time && entry.expiredAt now then
      (c.removePrimary d.key entry.version .swept false, true)
    else (c, false)

/-- Remove what a sweep of a node has found in one of its indexes. -/
def reclaim (c : Cluster κ V) (node : Nat) (target : Target) (d : Deadline κ) (now : Millis) :
    Cluster κ V × Bool :=
  if target = .owned ∧ c.affinity.primary d.key = node then c.reclaimPrimary d now
  else c.reclaimLocal node target d now

omit [TransOrd κ] [Hashable κ] in
/-- The expiration index of one store of a node. -/
def index? (c : Cluster κ V) (node : Nat) (target : Target) : Option (Index κ) :=
  c.nodes[node]?.bind fun n => (n.store target).index

/-- Reclaim what a scan of one index still lists, in at most `fuel` steps. Returns how many copies
were removed. -/
def sweepFrom (node : Nat) (target : Target) (now : Millis) :
    Nat → Scan κ → Cluster κ V → Cluster κ V × Nat
  | 0, _, c => (c, 0)
  | fuel + 1, scan, c =>
    match (c.index? node target).map scan.next with
    | none | some (none, _) => (c, 0)
    | some (some d, scan) =>
      let (c, removed) := c.reclaim node target d now
      let (c, count) := sweepFrom node target now fuel scan c
      (c, removed.toNat + count)

/-- Reclaim what has expired in one store of a node. A scan has no more steps than its index has
keys. -/
def sweepStore (c : Cluster κ V) (node : Nat) (target : Target) (now : Millis) :
    Cluster κ V × Nat :=
  sweepFrom node target now (((c.index? node target).map Index.size).getD 0) { now } c

/-- Reclaim every expired copy on a node, and return their number. An unknown node has none. -/
def sweep (c : Cluster κ V) (node : Nat) (now : Millis) : Cluster κ V × Nat :=
  let (c, owned) := c.sweepStore node .owned now
  let (c, near) := c.sweepStore node .near now
  (c, owned + near)

/-- Sweep all nodes, one after the other. -/
def sweepAll (c : Cluster κ V) (now : Millis) : Cluster κ V :=
  (List.range c.nodes.length).foldl (fun c node => (c.sweep node now).1) c

end Cluster

end Ephemera
