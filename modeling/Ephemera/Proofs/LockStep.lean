import Ephemera.Proofs.Deadlines
import Ephemera.Proofs.Quiescence

/-! # Stores in step with their indexes

Whatever is done to a store is done by writing and counting, and every write moves the position of the
key in the index to the expire time of the copy that is left there. So the index lists the copies that
will expire, and a store without an index is the same store to its callers.

Clusters change their stores in the same two ways, and no others.
-/

namespace Ephemera

open Std

universe u v w

namespace Store

variable {κ : Type u} {V : Type v} {ρ : Type w} [Ord κ] [TransOrd κ] [Hashable κ]

/-! ## Calls of a store -/

/-- A call of one store. -/
inductive Call (κ : Type u) (V : Type v) (ρ : Type w) where
  | install (key : κ) (entry : Entry V)
  | removeVersion (key : κ) (version : UInt64)
  | remove (key : κ)
  | reclaim (key : κ) (expireTime now : Millis)
  | read (key : κ) (now : Millis)
  /-- Change the copy as decided by the caller, who sees the one there is. -/
  | update (key : κ) (decide : Option (Entry V) → Write V × ρ)

/-- The result of a call. -/
inductive Result (V : Type v) (ρ : Type w) where
  | flag (holds : Bool)
  | copy (copy : Option (Entry V))
  | decided (result : ρ)

/-- Make a call. -/
def call (s : Store κ V) : Call κ V ρ → Store κ V × Result V ρ
  | .install key entry => (s.install key entry).map id .flag
  | .removeVersion key version => (s.removeVersion key version).map id .flag
  | .remove key => (s.remove key).map id .copy
  | .reclaim key expireTime now => (s.reclaim key expireTime now).map id .flag
  | .read key now => (s.read key now).map id .copy
  | .update key decide => (s.update key decide).map id .decided

/-- Make several calls, in turn. -/
def callAll : List (Call κ V ρ) → Store κ V → Store κ V × List (Result V ρ)
  | [], s => (s, [])
  | x :: rest, s =>
    let (s, result) := s.call x
    let (s, results) := callAll rest s
    (s, result :: results)

/-- A property of stores that holds whatever is written and counted. -/
structure Stable (holds : Store κ V → Prop) : Prop where
  write : ∀ {s} (key : κ) (change : Write V), holds s → holds (s.write key change)
  record : ∀ {s} (event : StoreEvent), holds s → holds (s.record event)

namespace Stable

variable {holds : Store κ V → Prop}

theorem recordIf (h : Stable holds) {s : Store κ V} (hs : holds s) (p : Prop) [Decidable p]
    (event : StoreEvent) : holds (if p then s.record event else s) := by
  split
  · exact h.record event hs
  · exact hs

/-- Stores change by writes and counts alone. -/
theorem call (h : Stable holds) {s : Store κ V} (hs : holds s) (x : Call κ V ρ) :
    holds (s.call x).1 := by
  cases x with
  | install key entry => exact h.write key _ hs
  | removeVersion key version => exact h.recordIf (h.write key _ hs) _ _
  | remove key => exact h.recordIf (h.write key _ hs) _ _
  | reclaim key expireTime now => exact h.write key _ hs
  | read key now =>
      simp only [Store.call, Store.read, Prod.map_fst, id]
      split
      · exact h.record _ hs
      · split
        · exact h.record _ (h.recordIf (h.write key _ hs) _ _)
        · exact h.record _ hs
  | update key decide => exact h.write key _ hs

theorem callAll (h : Stable holds) (calls : List (Call κ V ρ)) {s : Store κ V} (hs : holds s) :
    holds (callAll calls s).1 := by
  induction calls generalizing s with
  | nil => exact hs
  | cons x rest ih => exact ih (h.call hs x)

theorem accept (h : Stable holds) {s : Store κ V} (hs : holds s) (update : Update κ V) :
    holds (s.accept update) := by
  cases update with
  | put key entry => exact h.write key _ hs
  | remove key version => exact h.recordIf (h.write key _ hs) _ _

end Stable

/-! ## Copies and positions -/

/-- The time at which a key belongs into the index: that at which its copy expires, if it does. -/
def expires? (s : Store κ V) (key : κ) : Option Millis :=
  ((s.get? key).map (·.ttl.expireTime)).filter (· ≠ 0)

/-- A store has an index if it reclaims eagerly, and the index has every copy at its expire time. -/
structure LockStep (eager : Bool) (s : Store κ V) : Prop where
  indexed : s.index.isSome = eager
  agrees : ∀ index, s.index = some index → index.Agrees
  position : ∀ index, s.index = some index → ∀ key, index.expireTime? key = s.expires? key

theorem lockStep_empty (eager : Bool) : (empty eager : Store κ V).LockStep eager := by
  cases eager with
  | false => exact ⟨rfl, nofun, nofun⟩
  | true =>
      refine ⟨rfl, ?_, ?_⟩
      · rintro index ⟨⟩
        exact Index.Agrees.empty _
      · rintro index ⟨⟩ key
        rw [Index.expireTime?_empty, expires?, get?_empty]
        rfl

/-- The deadlines are those of the copies that will expire. -/
theorem LockStep.mem_deadlines_iff [LawfulEqOrd κ] {eager : Bool} {s : Store κ V}
    (h : s.LockStep eager) {index : Index κ} (hindex : s.index = some index) (d : Deadline κ) :
    d ∈ index.deadlines ↔
      d.time ≠ 0 ∧ ∃ entry, s.get? d.key = some entry ∧ entry.ttl.expireTime = d.time := by
  rw [(h.agrees index hindex).mem_deadlines_iff, h.position index hindex, expires?,
    Option.filter_eq_some_iff, Option.map_eq_some_iff, and_comm]
  simp

/-- Where a write leaves a key in the index, and all other keys. -/
theorem expires?_write [LawfulEqOrd κ] (s : Store κ V) (key other : κ) (change : Write V) :
    (s.write key change).expires? other =
      if compare key other = .eq then
        (s.reindexed key change).elim (s.expires? key) fun time =>
          if time = 0 then none else some time
      else s.expires? other := by
  unfold expires?
  rw [get?_write]
  by_cases hkey : compare key other = .eq
  · obtain rfl : key = other := by simpa using hkey
    simp only [ReflCmp.compare_self, if_true]
    cases change with
    | keep => rfl
    | put entry =>
        simp only [reindexed, Option.map_some, Option.elim_some, Option.filter_some]
        by_cases htime : entry.ttl.expireTime = 0 <;> simp [htime]
    | remove =>
        cases hget : s.get? key <;> simp [reindexed, hget]
  · simp only [hkey, if_false]

theorem stable_lockStep [LawfulEqOrd κ] (eager : Bool) :
    Stable (LockStep eager : Store κ V → Prop) where
  write {s} key change h := by
    have hindex := s.index_write key change
    cases hchange : s.reindexed key change with
    | none =>
        rw [hchange, Index.moved_none] at hindex
        refine ⟨by rw [hindex]; exact h.indexed, fun index hi => h.agrees index (hindex ▸ hi), ?_⟩
        intro index hi other
        rw [h.position index (hindex ▸ hi), expires?_write, hchange]
        split
        next hkey =>
          obtain rfl : key = other := by simpa using hkey
          rfl
        next => rfl
    | some time =>
        rw [hchange, Index.moved_some] at hindex
        refine ⟨by rw [hindex, Option.isSome_map]; exact h.indexed, ?_, ?_⟩
        · intro index hi
          obtain ⟨before, hbefore, rfl⟩ := Option.map_eq_some_iff.1 (hindex.symm.trans hi)
          exact (h.agrees before hbefore).upsert key time
        · intro index hi other
          obtain ⟨before, hbefore, rfl⟩ := Option.map_eq_some_iff.1 (hindex.symm.trans hi)
          rw [Index.expireTime?_upsert _ _ _ _ (h.agrees before hbefore).nonempty, expires?_write,
            hchange, h.position before hbefore]
          rfl
  record _ h := ⟨h.indexed, h.agrees, h.position⟩

/-! ## Without an index -/

/-- The store without its index. -/
def unindexed (s : Store κ V) : Store κ V :=
  { s with index := none }

/-- A store without an index does as one that has an index does. -/
theorem unindexed_write (s : Store κ V) (key : κ) (change : Write V) :
    s.unindexed.write key change = (s.write key change).unindexed := by
  cases change with
  | keep => rfl
  | put entry => rfl
  | remove =>
      by_cases hkey : key ∈ s.copies <;> simp [write, unindexed, hkey]

theorem unindexed_update (s : Store κ V) (key : κ) (decide : Option (Entry V) → Write V × ρ) :
    s.unindexed.update key decide = ((s.update key decide).1.unindexed, (s.update key decide).2) := by
  have hget : s.unindexed.get? key = s.get? key := rfl
  simp only [update, hget, unindexed_write]

theorem unindexed_call (s : Store κ V) (x : Call κ V ρ) :
    s.unindexed.call x = ((s.call x).1.unindexed, (s.call x).2) := by
  have hrecordIf : ∀ (t : Store κ V) (p : Prop) [Decidable p] (event : StoreEvent),
      (if p then t.unindexed.record event else t.unindexed) =
        (if p then t.record event else t).unindexed := by
    intro t p _ event
    split <;> rfl
  cases x with
  | install key entry => simp only [call, install, unindexed_update]; rfl
  | removeVersion key version =>
      simp only [call, removeVersion, unindexed_update, hrecordIf]
      rfl
  | remove key =>
      simp only [call, remove, unindexed_update, hrecordIf]
      rfl
  | reclaim key expireTime now => simp only [call, reclaim, unindexed_update]; rfl
  | read key now =>
      have hunindexed : s.unindexed.get? key = s.get? key := rfl
      cases hget : s.get? key with
      | none =>
          simp only [call, read, hunindexed, hget]
          rfl
      | some entry =>
          by_cases hexpired : entry.expiredAt now
          · simp only [call, read_of_expired hget hexpired,
              read_of_expired (hunindexed.trans hget) hexpired, unindexed_write]
            rfl
          · simp only [call, read, hunindexed, hget, hexpired]
            rfl
  | update key decide => simp only [call, unindexed_update]; rfl

theorem unindexed_callAll (calls : List (Call κ V ρ)) (s : Store κ V) :
    callAll calls s.unindexed = ((callAll calls s).1.unindexed, (callAll calls s).2) := by
  induction calls generalizing s with
  | nil => rfl
  | cons x rest ih => simp only [callAll, unindexed_call, ih]

/-- Store and index in step. Whatever calls are made of a store that reclaims eagerly, its index holds
the deadlines of the copies that will expire, each key once and on both sides, and nothing else. The
same calls of a store without an index have the same results, and leave the same copies and
statistics. -/
theorem index_in_lock_step [LawfulEqOrd κ] (calls : List (Call κ V ρ)) :
    let eager := callAll calls (.empty true)
    let plain := callAll calls (.empty false)
    (∃ index, eager.1.index = some index ∧
      (index.deadlines.map (·.key)).Nodup ∧
      (∀ d, d ∈ index.deadlines ↔
        d.time ≠ 0 ∧ ∃ entry, eager.1.get? d.key = some entry ∧ entry.ttl.expireTime = d.time) ∧
      (∀ key, index.expireTime? key =
        ((eager.1.get? key).map (·.ttl.expireTime)).filter (· ≠ 0)) ∧
      index.size = index.deadlines.length) ∧
    plain.2 = eager.2 ∧ plain.1.copies = eager.1.copies ∧ plain.1.stats = eager.1.stats ∧
    plain.1.index = none := by
  intro eager plain
  have hplain : plain = (eager.1.unindexed, eager.2) := unindexed_callAll calls (.empty true)
  refine ⟨?_, by rw [hplain], by rw [hplain]; rfl, by rw [hplain]; rfl, by rw [hplain]; rfl⟩
  have hlock : eager.1.LockStep true := (stable_lockStep true).callAll calls (lockStep_empty true)
  obtain ⟨index, hindex⟩ := Option.isSome_iff_exists.1 hlock.indexed
  have hagrees := hlock.agrees index hindex
  exact ⟨index, hindex, hagrees.nodup_keys, hlock.mem_deadlines_iff hindex,
    hlock.position index hindex, hagrees.size_eq_length⟩

/-- A key is installed to expire at 5, an older copy of it is turned down, another key is installed that
never expires, and the first is made to expire at 9. -/
def installs : List (Call Nat (List Nat) Unit) :=
  [.install 1 { value := [1], version := 2, ttl := .lasting 5 0 },
    .install 1 { value := [2], version := 1, ttl := .lasting 7 0 },
    .install 2 { value := [3], version := 3, ttl := .eternal },
    .update 1 fun _ => (.put { value := [4], version := 4, ttl := .lasting 9 0 }, ())]

theorem index_in_lock_step_installs :
    ∃ index, (callAll installs (.empty true)).1.index = some index ∧ ⟨9, 1⟩ ∈ index.deadlines ∧
      ⟨5, 1⟩ ∉ index.deadlines ∧ index.size = index.deadlines.length ∧
      (callAll installs (.empty false)).2 = (callAll installs (.empty true)).2 := by
  have hget : ((callAll installs (.empty true)).1.get? 1).map (·.ttl.expireTime) = some 9 := by
    decide +kernel
  obtain ⟨⟨index, hindex, -, hmem, -, hsize⟩, hresults, -⟩ := index_in_lock_step installs
  obtain ⟨entry, hentry, htime⟩ := Option.map_eq_some_iff.1 hget
  refine ⟨index, hindex, (hmem ⟨9, 1⟩).2 ⟨by decide, entry, hentry, htime⟩, ?_, hsize, hresults⟩
  intro hold
  obtain ⟨-, other, hother, hfive⟩ := (hmem ⟨5, 1⟩).1 hold
  rw [Option.some.inj (hother.symm.trans hentry), htime] at hfive
  exact absurd hfive (by decide)

end Store

namespace Cluster

variable {κ : Type u} {V : Type v} [Ord κ]

/-- A property of stores holds of every store of a cluster. -/
def AllStores (holds : Store κ V → Prop) (c : Cluster κ V) : Prop :=
  ∀ (node : Nat) (n : Node κ V), c.nodes[node]? = some n → ∀ target, holds (n.store target)

namespace AllStores

variable {holds : Store κ V → Prop} {c : Cluster κ V}

theorem modifyNode (h : c.AllStores holds) (node : Nat) {f : Node κ V → Node κ V}
    (hf : ∀ n, (∀ target, holds (n.store target)) → ∀ target, holds ((f n).store target)) :
    (c.modifyNode node f).AllStores holds := by
  intro other n hn
  rw [getElem?_modifyNode, Option.map_eq_some_iff] at hn
  obtain ⟨m, hm, rfl⟩ := hn
  split
  · exact hf m (h other m hm)
  · exact h other m hm

/-- A step of a node that leaves its stores alone. -/
theorem modifyNode_of_eq (h : c.AllStores holds) (node : Nat) {f : Node κ V → Node κ V}
    (hf : ∀ n target, (f n).store target = n.store target) : (c.modifyNode node f).AllStores holds :=
  h.modifyNode node fun n hn target => hf n target ▸ hn target

theorem ship (h : c.AllStores holds) (node : Nat) (m : Message κ V) :
    (c.ship node m).AllStores holds :=
  h.modifyNode_of_eq node fun n target => n.store_push m target

theorem shipAll (h : c.AllStores holds) (nodes : List Nat) (m : Message κ V) :
    (c.shipAll nodes m).AllStores holds := by
  induction nodes generalizing c with
  | nil => exact h
  | cons node rest ih => exact ih (h.ship node m)

theorem modifyStore (h : c.AllStores holds) (node : Nat) (target : Target)
    {f : Store κ V → Store κ V} (hf : ∀ s, holds s → holds (f s)) :
    (c.modifyNode node fun n => n.withStore target (f (n.store target))).AllStores holds := by
  refine h.modifyNode node fun n hn other => ?_
  rw [Node.store_withStore]
  split
  · exact hf _ (hn target)
  · exact hn other

variable [TransOrd κ]

theorem fanOut (h : c.AllStores holds) (update : Update κ V) (awaited : Bool) :
    (c.fanOut update awaited).AllStores holds := by
  rw [fanOut_eq]
  apply shipAll
  unfold dismiss
  split
  · exact (h.shipAll _ _).modifyNode_of_eq _ fun n target => by cases target <;> rfl
  · exact h.shipAll _ _

theorem register (h : c.AllStores holds) (key : κ) (reader : Nat) :
    (c.register key reader).AllStores holds :=
  h.modifyNode_of_eq _ fun n target => by cases target <;> rfl

variable [Hashable κ] (hholds : Store.Stable holds)
include hholds

theorem recordPrimary (h : c.AllStores holds) (key : κ) (event : StoreEvent) :
    (c.recordPrimary key event).AllStores holds :=
  h.modifyStore _ .owned fun _ => hholds.record event

theorem putPrimary (h : c.AllStores holds) (key : κ) (value : V) (ttl : Ttl) :
    (c.putPrimary key value ttl).AllStores holds :=
  (fanOut (c := { c with version := c.version + 1 }) h _ _).modifyStore _ .owned fun _ =>
    hholds.write key _

theorem removePrimary (h : c.AllStores holds) (key : κ) (version : UInt64) (event : StoreEvent)
    (awaited : Bool) : (c.removePrimary key version event awaited).AllStores holds :=
  ((h.recordPrimary hholds key event).fanOut _ _).modifyStore _ .owned fun _ =>
    hholds.write key _

/-- Clusters change their stores by writing and counting. -/
theorem change (h : c.AllStores holds) (x : Change κ V) : (c.change x).AllStores holds := by
  cases x with
  | count key event => exact h.recordPrimary hholds key event
  | write key via value ttl =>
      simp only [Cluster.change]
      cases via.bind (c.nearReader · key) with
      | none => exact h.putPrimary hholds key value ttl
      | some reader => exact (h.register key reader).putPrimary hholds key value ttl
  | remove key event awaited =>
      simp only [Cluster.change]
      split
      · exact h.removePrimary hholds key _ event awaited
      · exact h
  | share key via =>
      simp only [Cluster.change]
      split
      · exact (h.register key _).ship _ _
      · exact h
  | note node target event => exact h.modifyStore node target fun _ => hholds.record event
  | drop node target key event now =>
      simp only [Cluster.change]
      split
      · refine h.modifyStore node target (f := fun s => (s.write key .remove).record event) ?_
        exact fun s hs => hholds.record event (hholds.write key .remove hs)
      · exact h
  | deliver node =>
      refine h.modifyNode node fun n hn target => ?_
      unfold Node.deliver
      split
      next m rest _ _ =>
        rw [Node.apply_eq, Node.store_withStore, Node.store_setInbox, Node.store_setInbox]
        split
        · exact hholds.accept (hn m.target) m.update
        · exact hn target
      next => exact hn target

theorem follow (h : c.AllStores holds) (trace : List (Change κ V)) :
    (c.follow trace).AllStores holds :=
  follow_induction trace (fun _ x _ hd => hd.change hholds x) c h

end AllStores

variable [TransOrd κ] [Hashable κ]

theorem lockStep_start {config : CacheConfig} {nodes : Nat} {affinity : Affinity κ} {c : Cluster κ V}
    (h : start config nodes affinity = .ok c) : c.AllStores (Store.LockStep config.eager) := by
  intro node n hn target
  rw [node_of_start h hn]
  cases target <;> exact Store.lockStep_empty config.eager

end Cluster

end Ephemera
