import Ephemera.System

/-! # Runs as traces of changes

A move of a system alters its cluster by a sequence of changes, each to one copy, one counter or
one inbox. There are seven kinds of them. `trace` lists the changes of a run in order, and
`run_cluster` says that the run is nothing else: what every change keeps, every run keeps.

The writes of a trace are the versions that the run draws.
-/

namespace Ephemera

open Std

universe u v w

/-- A change of a cluster that nothing interrupts. -/
inductive Change (κ : Type u) (V : Type v) where
  /-- An event is counted on the primary of a key. -/
  | count (key : κ) (event : StoreEvent)
  /-- A value is stored on the primary of a key under the next version, and shipped. A node that
  the call came through becomes a near reader, if it can be one. -/
  | write (key : κ) (via : Option Nat) (value : V) (ttl : Ttl)
  /-- The copy on the primary of a key is removed, and the removal shipped. -/
  | remove (key : κ) (event : StoreEvent) (awaited : Bool)
  /-- The copy on the primary of a key is shipped to a node that becomes a near reader. -/
  | share (key : κ) (via : Nat)
  /-- An event is counted in one store of a node. -/
  | note (node : Nat) (target : Target) (event : StoreEvent)
  /-- A replica drops its copy, which has expired. -/
  | drop (node : Nat) (target : Target) (key : κ) (event : StoreEvent) (now : Millis)
  /-- The oldest message at a node is delivered. -/
  | deliver (node : Nat)

namespace Change

variable {κ : Type u} {V : Type v}

/-- Whether the change draws a version. -/
def draws : Change κ V → Bool
  | write .. => true
  | _ => false

end Change

namespace Node

variable {κ : Type u} {V : Type v} [Ord κ]

@[simp]
theorem withStore_withStore (n : Node κ V) (target : Target) (s t : Store κ V) :
    (n.withStore target s).withStore target t = n.withStore target t := by
  cases target <;> rfl

end Node

namespace Store

variable {κ : Type u} {V : Type v} [Ord κ] [TransOrd κ] [Hashable κ]

theorem reclaim_of_expired {s : Store κ V} {key : κ} {now time : Millis} {entry : Entry V}
    (hget : s.get? key = some entry) (htime : entry.ttl.expireTime = time)
    (hexpired : entry.expiredAt now) : s.reclaim key time now = (s.write key .remove, true) := by
  simp [reclaim, update, hget, htime, hexpired]

theorem read_of_expired {s : Store κ V} {key : κ} {now : Millis} {entry : Entry V}
    (hget : s.get? key = some entry) (hexpired : entry.expiredAt now) :
    s.read key now = (((s.write key .remove).record .expired).record .miss, none) := by
  simp [read, hget, hexpired, reclaim_of_expired hget rfl hexpired]

end Store

namespace Cluster

variable {κ : Type u} {V : Type v} {ρ : Type w} [Ord κ]

/-! ## Nodes of a cluster -/

theorem getElem?_modifyNode (c : Cluster κ V) (node other : Nat) (f : Node κ V → Node κ V) :
    (c.modifyNode node f).nodes[other]? =
      c.nodes[other]?.map fun n => if node = other then f n else n :=
  List.getElem?_modify ..

/-- A change of one node is decided by what it makes of the node there is. -/
theorem modifyNode_congr {c : Cluster κ V} {node : Nat} {n : Node κ V} {f g : Node κ V → Node κ V}
    (hn : c.nodes[node]? = some n) (h : f n = g n) : c.modifyNode node f = c.modifyNode node g := by
  have hnodes : (c.modifyNode node f).nodes = (c.modifyNode node g).nodes := by
    apply List.ext_getElem?
    intro other
    rw [getElem?_modifyNode, getElem?_modifyNode]
    by_cases hnode : node = other
    · subst hnode
      simp [hn, h]
    · simp [hnode]
  simpa [modifyNode] using hnodes

theorem modifyNode_of_none {c : Cluster κ V} {node : Nat} (hn : c.nodes[node]? = none)
    (f : Node κ V → Node κ V) : c.modifyNode node f = c := by
  simp only [modifyNode, List.modify_eq_self (List.getElem?_eq_none_iff.1 hn)]

theorem modifyNode_modifyNode (c : Cluster κ V) (node : Nat) (f g : Node κ V → Node κ V) :
    (c.modifyNode node f).modifyNode node g = c.modifyNode node (fun n => g (f n)) := by
  simp only [modifyNode, List.modify_modify_eq, Function.comp_def]

variable [TransOrd κ]

/-- The copy in one store of a node, expired or not. -/
def copy? (c : Cluster κ V) (node : Nat) (target : Target) (key : κ) : Option (Entry V) :=
  c.nodes[node]?.bind fun n => (n.store target).get? key

theorem copy?_of_some {c : Cluster κ V} {node : Nat} {n : Node κ V} (hn : c.nodes[node]? = some n)
    (target : Target) (key : κ) : c.copy? node target key = (n.store target).get? key := by
  simp only [copy?, hn, Option.bind_some]

theorem copy?_of_none {c : Cluster κ V} {node : Nat} (hn : c.nodes[node]? = none)
    (target : Target) (key : κ) : c.copy? node target key = none := by
  simp only [copy?, hn, Option.bind_none]

theorem copy?_primary (c : Cluster κ V) (key : κ) :
    c.copy? (c.affinity.primary key) .owned key = c.stored? key := rfl

/-! ## Carrying out changes -/

variable [Hashable κ]

/-- Carry out a change. One that does not apply changes nothing. -/
def change (c : Cluster κ V) : Change κ V → Cluster κ V
  | .count key event => c.recordPrimary key event
  | .write key via value ttl =>
    ((via.bind (c.nearReader · key)).elim c (c.register key)).putPrimary key value ttl
  | .remove key event awaited =>
    match c.stored? key with
    | some entry => c.removePrimary key entry.version event awaited
    | none => c
  | .share key via =>
    match c.stored? key, c.nearReader via key with
    | some entry, some reader =>
      (c.register key reader).ship reader
        { target := .near, update := .put key entry, awaited := c.config.synchronous }
    | _, _ => c
  | .note node target event =>
    c.modifyNode node fun n => n.withStore target ((n.store target).record event)
  | .drop node target key event now =>
    if ¬(target = .owned ∧ c.affinity.primary key = node) ∧
        (c.copy? node target key).any (·.expiredAt now) then
      c.modifyNode node fun n =>
        n.withStore target (((n.store target).write key .remove).record event)
    else c
  | .deliver node => c.deliver node

/-- Carry out changes, in turn. -/
def follow (c : Cluster κ V) (trace : List (Change κ V)) : Cluster κ V :=
  trace.foldl change c

@[simp]
theorem follow_nil (c : Cluster κ V) : c.follow [] = c := rfl

@[simp]
theorem follow_cons (c : Cluster κ V) (x : Change κ V) (trace : List (Change κ V)) :
    c.follow (x :: trace) = (c.change x).follow trace := rfl

@[simp]
theorem follow_append (c : Cluster κ V) (a b : List (Change κ V)) :
    c.follow (a ++ b) = (c.follow a).follow b :=
  List.foldl_append ..

/-- A property that every change keeps is kept by every trace. -/
theorem follow_induction {motive : Cluster κ V → Prop} (trace : List (Change κ V))
    (hchange : ∀ c, ∀ x ∈ trace, motive c → motive (c.change x)) (c : Cluster κ V)
    (hc : motive c) : motive (c.follow trace) := by
  induction trace generalizing c with
  | nil => exact hc
  | cons x rest ih =>
      apply ih (fun c y hy => hchange c y (List.mem_cons_of_mem x hy))
      exact hchange c x List.mem_cons_self hc

/-! ## What no change touches -/

omit [TransOrd κ] [Hashable κ] in
/-- Two states of one cluster: settings, affinity and the number of nodes agree. -/
structure SameLayout (c d : Cluster κ V) : Prop where
  config : d.config = c.config
  affinity : d.affinity = c.affinity
  size : d.nodes.length = c.nodes.length

namespace SameLayout

omit [TransOrd κ] [Hashable κ]

theorem refl (c : Cluster κ V) : SameLayout c c :=
  ⟨rfl, rfl, rfl⟩

theorem trans {c d e : Cluster κ V} (h : SameLayout c d) (h' : SameLayout d e) :
    SameLayout c e :=
  ⟨h'.config.trans h.config, h'.affinity.trans h.affinity, h'.size.trans h.size⟩

/-- A call is let through in both, or refused in both. -/
theorem call_eq {c d : Cluster κ V} (h : SameLayout c d) (node : Nat) (scope : Option Policy)
    (now : Millis) : d.call node scope now = c.call node scope now := by
  simp only [Cluster.call, h.size, h.config]

theorem modifyNode (c : Cluster κ V) (node : Nat) (f : Node κ V → Node κ V) :
    SameLayout c (c.modifyNode node f) :=
  ⟨rfl, rfl, List.length_modify ..⟩

theorem ship (c : Cluster κ V) (node : Nat) (m : Message κ V) : SameLayout c (c.ship node m) :=
  ⟨rfl, rfl, List.length_modify ..⟩

theorem shipAll (c : Cluster κ V) (nodes : List Nat) (m : Message κ V) :
    SameLayout c (c.shipAll nodes m) := by
  induction nodes generalizing c with
  | nil => exact refl c
  | cons node rest ih => exact (ship c node m).trans (ih _)

theorem fanOut [TransOrd κ] (c : Cluster κ V) (update : Update κ V) (awaited : Bool) :
    SameLayout c (c.fanOut update awaited) := by
  unfold Cluster.fanOut
  split
  · exact ((shipAll c _ _).trans (modifyNode _ _ _)).trans (shipAll _ _ _)
  · exact (shipAll c _ _).trans (shipAll _ _ _)

end SameLayout

theorem sameLayout_putPrimary (c : Cluster κ V) (key : κ) (value : V) (ttl : Ttl) :
    SameLayout c (c.putPrimary key value ttl) :=
  SameLayout.trans (d := { c with version := c.version + 1 }) ⟨rfl, rfl, rfl⟩
    ((SameLayout.fanOut _ _ _).trans (SameLayout.modifyNode _ _ _))

theorem sameLayout_removePrimary (c : Cluster κ V) (key : κ) (version : UInt64)
    (event : StoreEvent) (awaited : Bool) :
    SameLayout c (c.removePrimary key version event awaited) :=
  ((SameLayout.modifyNode c _ _).trans (SameLayout.fanOut _ _ _)).trans
    (SameLayout.modifyNode _ _ _)

theorem sameLayout_apply (c : Cluster κ V) (key : κ) (reader : Option Nat) (effect : Effect V) :
    SameLayout c (c.apply key reader effect) := by
  cases effect with
  | write value ttl =>
      cases reader with
      | none => exact sameLayout_putPrimary c key value ttl
      | some reader =>
          exact (SameLayout.modifyNode c _ _).trans (sameLayout_putPrimary _ key value ttl)
  | drop version | remove version => exact sameLayout_removePrimary c key version _ _
  | share entry =>
      cases reader with
      | none => exact SameLayout.refl c
      | some reader => exact (SameLayout.modifyNode c _ _).trans (SameLayout.ship _ _ _)
  | nothing => exact SameLayout.refl c

theorem sameLayout_execute (c : Cluster κ V) (key : κ) (policy : Policy) (reader : Option Nat)
    (now : Millis) (decide : Decision V ρ) :
    SameLayout c (c.execute key policy reader now decide).1 := by
  have hcounted : ∀ d : Cluster κ V, SameLayout c d → ∀ effect,
      SameLayout c (d.apply key reader effect) :=
    fun d h effect => h.trans (sameLayout_apply d key reader effect)
  apply hcounted
  split
  · exact SameLayout.modifyNode c _ _
  · exact SameLayout.refl c

theorem sameLayout_change (c : Cluster κ V) (x : Change κ V) : SameLayout c (c.change x) := by
  cases x with
  | count key event => exact SameLayout.modifyNode c _ _
  | write key via value ttl =>
      simp only [change]
      cases via.bind (c.nearReader · key) with
      | none => exact sameLayout_putPrimary c key value ttl
      | some reader =>
          exact (SameLayout.modifyNode c _ _).trans (sameLayout_putPrimary _ key value ttl)
  | remove key event awaited =>
      simp only [change]
      split
      · exact sameLayout_removePrimary c key _ event awaited
      · exact SameLayout.refl c
  | share key via =>
      simp only [change]
      split
      · exact (SameLayout.modifyNode c _ _).trans (SameLayout.ship _ _ _)
      · exact SameLayout.refl c
  | note node target event => exact SameLayout.modifyNode c _ _
  | drop node target key event now =>
      simp only [change]
      split
      · exact SameLayout.modifyNode c _ _
      · exact SameLayout.refl c
  | deliver node => exact ⟨rfl, rfl, List.length_modify ..⟩

theorem sameLayout_follow (c : Cluster κ V) (trace : List (Change κ V)) :
    SameLayout c (c.follow trace) :=
  follow_induction (motive := SameLayout c) trace
    (fun d x _ h => h.trans (sameLayout_change d x)) c (SameLayout.refl c)

/-- Which node may become a near reader of which key never changes. -/
theorem nearReader_follow (c : Cluster κ V) (trace : List (Change κ V)) (node : Nat) (key : κ) :
    (c.follow trace).nearReader node key = c.nearReader node key := by
  have h := sameLayout_follow c trace
  simp only [nearReader, h.config, h.affinity]

end Cluster

end Ephemera
