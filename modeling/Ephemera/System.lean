import Ephemera.Cluster.Sweep
import Ephemera.Transaction.Basic

/-! # The running system

A running system is a cluster with a clock and the transactions that are open on it. It changes by
moves: a client performs an operation or works on a transaction, a node is swept, the oldest message
at a node is delivered, the clock shows another reading. Moves come in any order, and the clock may
go back. What is said of every run of the system is therefore said of every way in which clients,
sweepers and deliveries can interleave.
-/

namespace Ephemera

open Std

universe u v

/-- A cluster with a clock and open transactions. -/
structure System (κ : Type u) (V : Type v) [Ord κ] where
  cluster : Cluster κ V
  clock : Millis := 0
  /-- The open transactions by number. -/
  transactions : ExtTreeMap Nat (Transaction κ V) := ∅

/-- One move of a system. -/
inductive Move (κ : Type u) (V : Type v) where
  /-- Perform an operation through a node, under the given policy or that of the cache. -/
  | call (node : Nat) (scope : Option Policy) (operation : Operation κ V)
  /-- Open a transaction through a node; one that is open under the number is dropped. -/
  | begin (tx node : Nat) (scope : Option Policy)
  /-- Stage an operation, under the given policy or that of the transaction. -/
  | stage (tx : Nat) (scope : Option Policy) (operation : Transaction.Operation κ V)
  /-- Commit a transaction. It ends, whether the commit succeeds or not. -/
  | commit (tx : Nat)
  /-- End a transaction without effect. -/
  | rollback (tx : Nat)
  /-- Sweep a node. -/
  | sweep (node : Nat)
  /-- Deliver the oldest message at a node. -/
  | deliver (node : Nat)
  /-- Set the clock. -/
  | setClock (now : Millis)
  deriving DecidableEq, Repr

/-- What a move results in. -/
inductive Outcome (κ : Type u) (V : Type v) [Ord κ] where
  /-- It was made, and there is nothing to tell. -/
  | done
  /-- The result of an operation. -/
  | answer (answer : Answer κ V)
  /-- How many copies a sweep removed. -/
  | swept (count : Nat)
  /-- The request was refused. -/
  | refused (error : CacheError)
  /-- The commit failed because this key changed. -/
  | conflict (key : κ)
  /-- No transaction is open under the number. -/
  | noTransaction

namespace System

variable {κ : Type u} {V : Type v} [Ord κ] [TransOrd κ] [Hashable κ]
variable [DecidableEq V] [Append V] [Inhabited V]

/-- Make a move. One that is refused changes nothing. -/
def step (s : System κ V) : Move κ V → System κ V × Outcome κ V
  | .call node scope operation =>
    match s.cluster.call node scope s.clock with
    | .error e => (s, .refused e)
    | .ok call =>
      let (cluster, answer) := s.cluster.perform call operation
      ({ s with cluster }, .answer answer)
  | .begin tx node scope =>
    match s.cluster.call node scope s.clock with
    | .error e => (s, .refused e)
    | .ok call =>
      match Transaction.begin s.cluster call.policy with
      | .error e => (s, .refused e)
      | .ok opened => ({ s with transactions := s.transactions.insert tx opened }, .done)
  | .stage tx scope operation =>
    match s.transactions[tx]? with
    | none => (s, .noTransaction)
    | some opened =>
      let (staged, answer) := opened.perform s.cluster scope s.clock operation
      ({ s with transactions := s.transactions.insert tx staged }, .answer answer)
  | .commit tx =>
    match s.transactions[tx]? with
    | none => (s, .noTransaction)
    | some opened =>
      let s := { s with transactions := s.transactions.erase tx }
      match s.cluster.commit opened s.clock with
      | .error key => (s, .conflict key)
      | .ok cluster => ({ s with cluster }, .done)
  | .rollback tx =>
    match s.transactions[tx]? with
    | none => (s, .noTransaction)
    | some _ => ({ s with transactions := s.transactions.erase tx }, .done)
  | .sweep node =>
    let (cluster, count) := s.cluster.sweep node s.clock
    ({ s with cluster }, .swept count)
  | .deliver node => ({ s with cluster := s.cluster.deliver node }, .done)
  | .setClock now => ({ s with clock := now }, .done)

/-- Make several moves, in turn. -/
def run : List (Move κ V) → System κ V → System κ V × List (Outcome κ V)
  | [], s => (s, [])
  | move :: rest, s =>
    let (s, outcome) := s.step move
    let (s, outcomes) := run rest s
    (s, outcome :: outcomes)

/-- A run in two parts is one run: the second part starts where the first has ended. -/
theorem run_append (a b : List (Move κ V)) (s : System κ V) :
    (run (a ++ b) s).1 = (run b (run a s).1).1 := by
  induction a generalizing s with
  | nil => rfl
  | cons move rest ih => exact ih (s.step move).1

end System

end Ephemera
