import Ephemera.Cluster.Operation
import Ephemera.Transaction.Binding

/-! # Transactions

A transaction stages the changes of any number of keys and applies all of them at its commit, or
none. Every operation decides its lifetime when it is staged, by the plan that a direct call would
follow; the commit turns it into an expire time. Until then the cluster does not change.

Transactions are optimistic: a commit fails if a key that the transaction changed no longer has the
live copy that it had at the first touch.
-/

namespace Ephemera

open Std

universe u v w

/-- A transaction that has not ended. -/
structure Transaction (κ : Type u) (V : Type v) [Ord κ] where
  /-- The policy of operations that bring none. -/
  policy : Policy
  bindings : Bindings κ V := ∅

namespace Transaction

variable {κ : Type u} {V : Type v} {ρ : Type w} [Ord κ] [TransOrd κ]

/-- A transaction on a cluster, which has to be transactional. -/
def begin (c : Cluster κ V) (policy : Policy) : Except CacheError (Transaction κ V) :=
  if c.config.atomicity = .transactional then .ok { policy } else .error .notTransactional

/-- Stage one operation on a key. The first touch of a key looks at its live copy. -/
def stage (tx : Transaction κ V) (c : Cluster κ V) (policy : Policy) (now : Millis) (key : κ)
    (decide : Decision V ρ) : Transaction κ V × ρ :=
  let binding := tx.bindings.touch key (c.live? key now)
  let live := binding.live now
  let (intent, result) := decide (live.map (·.1))
  let binding := binding.stage (plan live intent policy now) policy
  ({ tx with bindings := tx.bindings.insert key binding }, result)

/-- Stage an operation on each key, in turn. -/
def stageAll (c : Cluster κ V) (policy : Policy) (now : Millis) :
    List (κ × Decision V ρ) → Transaction κ V → Transaction κ V × List ρ
  | [], tx => (tx, [])
  | (key, decide) :: rest, tx =>
    let (tx, result) := tx.stage c policy now key decide
    let (tx, results) := stageAll c policy now rest tx
    (tx, result :: results)

/-- The lifetime that a touched key will have, with the expire time as of the last touch. -/
def stagedTtl (tx : Transaction κ V) (key : κ) : Option Ttl :=
  tx.bindings[key]?.bind (·.stagedTtl)

/-- The operations of a transaction. -/
inductive Operation (κ : Type u) (V : Type v) where
  | get (key : κ)
  | put (key : κ) (value : V)
  | remove (key : κ)
  | invoke (key : κ) (script : List (Command V))
  | getAll (keys : List κ)
  | putAll (entries : List (κ × V))
  | removeAll (keys : List κ)
  deriving DecidableEq, Repr

variable [Append V] [Inhabited V]

/-- Stage an operation under the given policy or that of the transaction. -/
def perform (tx : Transaction κ V) (c : Cluster κ V) (scope : Option Policy) (now : Millis)
    (operation : Operation κ V) : Transaction κ V × Answer κ V :=
  let policy := Policy.effective tx.policy scope
  match operation with
  | .get key => (tx.stage c policy now key .get).map id .value
  | .put key value => (tx.stage c policy now key (.put value)).map id fun _ => .done
  | .remove key => (tx.stage c policy now key .remove).map id .flag
  | .invoke key script => (tx.stage c policy now key (.invoke script)).map id .replies
  | .getAll keys =>
    (stageAll c policy now (keys.map fun key => (key, .get)) tx).map id fun values =>
      .values (.ofList (Cluster.found keys values))
  | .putAll entries =>
    (stageAll c policy now (entries.map fun (key, value) => (key, .put value)) tx).map id
      fun _ => .done
  | .removeAll keys =>
    (stageAll c policy now (keys.map fun key => (key, .remove)) tx).map id fun removed =>
      .count (removed.countP id)

end Transaction

namespace Cluster

variable {κ : Type u} {V : Type v} [Ord κ] [TransOrd κ] [Hashable κ]

/-- Put what a transaction staged for a key in place of the primary copy, and ship it. The expire
time is computed now. -/
def applyStaged (c : Cluster κ V) (key : κ) (staged : Option (V × CommitTtl)) (now : Millis) :
    Cluster κ V :=
  match staged with
  | some (value, commitTtl) =>
    c.putPrimary key value (commitTtl.resolve ((c.stored? key).map (·.ttl)) now)
  | none =>
    match c.stored? key with
    | some entry => c.removePrimary key entry.version .removal c.config.synchronous
    | none => c

omit [Hashable κ] in
/-- The least changed key whose live copy is not the one the transaction found. -/
def conflict? (c : Cluster κ V) (tx : Transaction κ V) (now : Millis) : Option κ :=
  (tx.bindings.dirty.find? fun (key, binding) =>
    (c.live? key now).map (·.version) ≠ binding.base).map (·.1)

/-- Commit a transaction: apply all that it staged, or name the key that changed. -/
def commit (c : Cluster κ V) (tx : Transaction κ V) (now : Millis) :
    Except κ (Cluster κ V) :=
  match c.conflict? tx now with
  | some key => .error key
  | none =>
    .ok (tx.bindings.dirty.foldl (fun c (key, binding) => c.applyStaged key binding.outcome now) c)

end Cluster

end Ephemera
