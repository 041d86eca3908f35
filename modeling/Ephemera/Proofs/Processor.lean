import Ephemera.Proofs.Atomicity
import Ephemera.Proofs.Quiescence
import Ephemera.Proofs.Script

/-! # What an entry processor comes to

An entry processor may read and change its entry any number of times, but only one thing is done to
the key in the end. The last change decides what: a value that was given last is put, whatever came
before it, and taking the value away last is a removal. A script that changes nothing is a read of
the key if it reads the value, and otherwise leaves the key alone. The replies are those of the
same script on a plain optional value.

This is said once, for whatever is made of the intent of the script, and then holds for the cluster
and for a transaction alike. What it is for a transaction to leave a key alone is said with it: the
key is bound at the first touch, but no commit goes another way.
-/

namespace Ephemera

open Std

universe u v w

/-! ## Touches that a commit does not see -/

namespace Bindings

variable {κ : Type u} {V : Type v} [Ord κ] [TransOrd κ] [LawfulEqOrd κ]

/-- Which bindings are dirty decides how they are listed. -/
theorem dirty_congr {bindings others : Bindings κ V}
    (h : ∀ (key : κ) (b : Binding V), b.dirty = true →
      (bindings[key]? = some b ↔ others[key]? = some b)) :
    bindings.dirty = others.dirty := by
  have hnodup : ∀ bs : Bindings κ V, bs.dirty.Nodup := fun bs =>
    bs.distinct_dirty.imp fun {p q} hne heq => hne (by rw [heq]; exact ReflCmp.compare_self)
  have hmem : ∀ p, p ∈ bindings.dirty ↔ p ∈ others.dirty := fun p => by
    rw [mem_dirty_iff, mem_dirty_iff]
    exact and_congr_left (h p.1 p.2)
  refine List.Perm.eq_of_pairwise ?_ bindings.ordered_dirty others.ordered_dirty
    ((List.perm_ext_iff_of_nodup (hnodup _) (hnodup _)).2 hmem)
  intro p q _ _ hpq hqp
  rw [OrientedOrd.eq_swap, hpq] at hqp
  cases hqp

end Bindings

namespace Transaction

variable {κ : Type u} {V : Type v} [Ord κ] [TransOrd κ]

/-- Leaving a key alone binds it as it is. -/
theorem stage_ignore (tx : Transaction κ V) (c : Cluster κ V) (policy : Policy) (now : Millis)
    (key : κ) :
    (tx.stage c policy now key .ignore).1 =
      { tx with bindings := tx.bindings.insert key (tx.bindings.touch key (c.live? key now)) } := by
  have hplan : ∀ live : Option (V × Ttl), plan live .ignore policy now = .unchanged := by
    rintro (_ | ⟨value, ttl⟩) <;> rfl
  simp only [stage, Decision.ignore, hplan]
  rfl

variable [LawfulEqOrd κ]

theorem dirty_ignore (tx : Transaction κ V) (c : Cluster κ V) (policy : Policy) (now : Millis)
    (key : κ) : (tx.stage c policy now key .ignore).1.bindings.dirty = tx.bindings.dirty := by
  refine Bindings.dirty_congr fun other b hdirty => ?_
  rw [stage_ignore, ExtTreeMap.getElem?_insert]
  split
  next hkey =>
    obtain rfl : key = other := by simpa using hkey
    cases hbound : tx.bindings[key]? with
    | some bound => simp [Bindings.touch, hbound]
    | none =>
        -- The new binding is clean, so it is not the dirty one.
        simp only [Bindings.touch, hbound, Option.getD_none, reduceCtorEq, iff_false]
        rintro ⟨⟩
        cases hdirty
  next => rfl

/-- Leaving a key alone makes no difference to any commit. -/
theorem commit_ignore [Hashable κ] (tx : Transaction κ V) (c d : Cluster κ V) (policy : Policy)
    (now later : Millis) (key : κ) :
    d.commit (tx.stage c policy now key .ignore).1 later = d.commit tx later := by
  simp only [Cluster.commit, Cluster.conflict?, dirty_ignore]

end Transaction

/-! ## The cluster and transactions -/

namespace Cluster

variable {κ : Type u} {V : Type v} [Ord κ] [TransOrd κ] [Hashable κ]
variable [Append V] [Inhabited V]

/-- An entry processor does to the cluster, and to a transaction, what the one operation does that
its script comes to. It replies as the script does on the live value, or in a transaction on the
value that the transaction sees, which is the one that its own reads give. -/
theorem invoke_comesTo (c : Cluster κ V) (call : Call) (key : κ) (script : List (Command V)) :
    let live := (c.live? key call.now).map (·.value)
    (Command.ComesTo script live (c.invoke call key script).1 (fun final => c.put call key final)
        (c.remove call key).1 (c.run call key .get).1 (c.run call key .ignore).1 ∧
      (c.invoke call key script).2 = (Command.evaluate script live).2) ∧
    ∀ (tx : Transaction κ V) (scope : Option Policy) (now : Millis), ∃ seen : Option V,
      (tx.perform c scope now (.get key)).2 = .value seen ∧
      Command.ComesTo script seen (tx.perform c scope now (.invoke key script)).1
        (fun final => (tx.perform c scope now (.put key final)).1)
        (tx.perform c scope now (.remove key)).1 (tx.perform c scope now (.get key)).1
        (tx.stage c (.effective tx.policy scope) now key .ignore).1 ∧
      (tx.perform c scope now (.invoke key script)).2 =
        .replies (Command.evaluate script seen).2 := by
  refine ⟨⟨?_, Decision.replies_invoke script _⟩, fun tx scope now => ?_⟩
  · exact (Decision.intent_invoke script _).map fun intent =>
      (c.run call key fun _ => (intent, ())).1
  · let policy := Policy.effective tx.policy scope
    refine ⟨((tx.bindings.touch key (c.live? key now)).live now).map (·.1), rfl, ?_, ?_⟩
    · exact (Decision.intent_invoke script _).map fun intent =>
        (tx.stage c policy now key fun _ => (intent, ())).1
    · exact congrArg Answer.replies (Decision.replies_invoke script _)

/-- Read the value, replace it twice, and look whether there is one. -/
def replaceTwice : List (Command (List Nat)) :=
  [.value, .set [1], .append [2], .probe, .value]

/-- On a key with a near reader the script is a put of what it ends with; in a transaction on a key
without a value, a script that takes away what it gave is a removal. -/
theorem invoke_comesTo_replaceTwice :
    ∃ c₀ : Cluster Nat (List Nat),
      Cluster.start { atomicity := .transactional, near := true } 3 System.trio = .ok c₀ ∧
      let c := (System.run [.call 2 none (.put 0 [7])] { cluster := c₀ }).1.cluster
      let call : Call := { node := 2, policy := c.config.policy, now := 5 }
      let tx : Transaction Nat (List Nat) := { policy := c.config.policy }
      (c.invoke call 0 replaceTwice).1 = c.put call 0 [1, 2] ∧
      (c.invoke call 0 replaceTwice).2 =
        [.value (some [7]), .done, .value (some [1]), .flag true, .value (some [1, 2])] ∧
      (tx.perform c none 5 (.invoke 1 [.set [3], .remove])).1 =
        (tx.perform c none 5 (.remove 1)).1 := by
  refine ⟨_, rfl, ?_⟩
  intro c call tx
  obtain ⟨⟨heffect, hreplies⟩, -⟩ := invoke_comesTo c call 0 replaceTwice
  obtain ⟨-, htransaction⟩ := invoke_comesTo c call 1 [.set [3], .remove]
  have hlive : (c.live? 0 5).map (·.value) = some [7] := by decide +kernel
  rw [hlive] at heffect hreplies
  obtain ⟨final, ⟨⟩, hput⟩ := heffect
  obtain ⟨seen, -, hremoved, -⟩ := htransaction tx none 5
  exact ⟨hput, hreplies, hremoved⟩

end Cluster

end Ephemera
