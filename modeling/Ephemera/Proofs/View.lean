import Ephemera.Proofs.Replica
import Ephemera.Proofs.Trace

/-! # Views of a cluster

What coherence is about: the copy that a store of a node holds of a key, the changes of the key that
are under way to that store, and the nodes registered as near readers of the key. One equation says
for each step what becomes of each of them.
-/

namespace Ephemera

open Std

universe u v

/-- Whether the store of a node follows the primary of a key. All do but the one that the primary
decides on. -/
def Affinity.IsReplica {κ : Type u} (a : Affinity κ) (node : Nat) (target : Target) (key : κ) :
    Prop :=
  ¬(target = .owned ∧ a.primary key = node)

namespace Node

variable {κ : Type u} {V : Type v} [Ord κ]

theorem queue_push {n : Node κ V} (hrunning : n.inbox.service = .running) (m : Message κ V) :
    (n.push m).inbox.queue = n.inbox.queue ++ [m] := by
  simp [push, Inbox.push, Inbox.accepts, hrunning]

@[simp]
theorem service_push (n : Node κ V) (m : Message κ V) :
    (n.push m).inbox.service = n.inbox.service := by
  unfold push Inbox.push
  split <;> rfl

@[simp]
theorem store_setInbox (n : Node κ V) (inbox : Inbox κ V) (target : Target) :
    ({ n with inbox } : Node κ V).store target = n.store target := by
  cases target <;> rfl

variable [TransOrd κ]

theorem mem_readersOf_addReader [LawfulEqOrd κ] (n : Node κ V) (key other : κ) (reader r : Nat) :
    r ∈ (n.addReader key reader).readersOf other ↔
      (other = key ∧ r = reader) ∨ r ∈ n.readersOf other := by
  simp only [readersOf, addReader, ExtTreeSet.mem_toList, ExtTreeMap.getD_insert]
  by_cases hkey : key = other
  · subst hkey
    simp [ExtTreeSet.mem_insert, eq_comm (a := r)]
  · simp [hkey, Ne.symm hkey]

theorem mem_readersOf_forgetReaders [LawfulEqOrd κ] (n : Node κ V) (key other : κ) (r : Nat) :
    r ∈ (n.forgetReaders key).readersOf other ↔ other ≠ key ∧ r ∈ n.readersOf other := by
  simp only [readersOf, forgetReaders, ExtTreeSet.mem_toList, ExtTreeMap.getD_erase]
  by_cases hkey : key = other
  · subst hkey
    simp
  · simp [hkey, Ne.symm hkey]

variable [Hashable κ]

@[simp]
theorem inbox_apply (n : Node κ V) (target : Target) (update : Update κ V) :
    (n.apply target update).1.inbox = n.inbox :=
  n.inbox_withStore target _

@[simp]
theorem readers_apply (n : Node κ V) (target : Target) (update : Update κ V) :
    (n.apply target update).1.readers = n.readers := by
  cases target <;> rfl

/-- A change of a store changes the copy of its key and no other. -/
theorem get?_apply [LawfulEqOrd κ] (n : Node κ V) (target other : Target) (update : Update κ V)
    (key : κ) :
    ((n.apply target update).1.store other).get? key =
      if target = other ∧ compare update.key key = .eq then
        update.onto ((n.store other).get? key)
      else (n.store other).get? key := by
  by_cases htarget : target = other
  · subst htarget
    by_cases hkey : update.key = key
    · subst hkey
      cases update with
      | put key entry =>
          simp only [apply, Store.install, Store.update, Update.key, Update.onto]
          split <;> simp [Store.get?_write_put, *]
      | remove key version =>
          simp only [apply, Store.removeVersion, Store.update, Update.key, Update.onto]
          split <;> simp [Store.get?_write_remove, *]
    · cases update with
      | put other entry =>
          have hne : other ≠ key := hkey
          simp only [apply, Store.install, Store.update, Update.key]
          split <;> simp [Store.get?_write_put, hne]
      | remove other version =>
          have hne : other ≠ key := hkey
          simp only [apply, Store.removeVersion, Store.update, Update.key]
          split <;> simp [Store.get?_write_remove, hne]
  · simp [apply, htarget]

theorem deliver_of_queue {n : Node κ V} {m : Message κ V} {rest : List (Message κ V)}
    (hrunning : n.inbox.service = .running) (hqueue : n.inbox.queue = m :: rest) :
    n.deliver.1 =
      ({ n with inbox := { n.inbox with queue := rest } }.apply m.target m.update).1 := by
  simp [deliver, hrunning, hqueue]

@[simp]
theorem service_deliver (n : Node κ V) : n.deliver.1.inbox.service = n.inbox.service := by
  unfold deliver
  split <;> simp

@[simp]
theorem readers_deliver (n : Node κ V) : n.deliver.1.readers = n.readers := by
  unfold deliver
  split <;> simp

end Node

namespace Cluster

variable {κ : Type u} {V : Type v} [Ord κ]

/-- The messages that wait at a node, the oldest first. -/
def queue (c : Cluster κ V) (node : Nat) : List (Message κ V) :=
  (c.nodes[node]?.map (·.inbox.queue)).getD []

/-- Every inbox is being served. -/
def Running (c : Cluster κ V) : Prop :=
  ∀ (node : Nat) (n : Node κ V), c.nodes[node]? = some n → n.inbox.service = .running

/-- The changes under way to one store of a node that concern a key, the oldest first. -/
def inflight (c : Cluster κ V) (node : Nat) (target : Target) (key : κ) : List (Update κ V) :=
  ((c.queue node).filter fun m => m.target = target ∧ compare m.update.key key = .eq).map (·.update)

theorem queue_of_some {c : Cluster κ V} {node : Nat} {n : Node κ V} (hn : c.nodes[node]? = some n) :
    c.queue node = n.inbox.queue := by
  simp only [queue, hn, Option.map_some, Option.getD_some]

theorem queue_of_none {c : Cluster κ V} {node : Nat} (hn : c.nodes[node]? = none) :
    c.queue node = [] := by
  simp only [queue, hn, Option.map_none, Option.getD_none]

/-- No change is under way. -/
def Quiet (c : Cluster κ V) : Prop :=
  ∀ n ∈ c.nodes, n.inbox.queue = []

instance [DecidableEq κ] [DecidableEq V] (c : Cluster κ V) : Decidable c.Quiet :=
  inferInstanceAs (Decidable (∀ n ∈ c.nodes, n.inbox.queue = []))

theorem inflight_of_quiet {c : Cluster κ V} (h : c.Quiet) (node : Nat) (target : Target) (key : κ) :
    c.inflight node target key = [] := by
  have hqueue : c.queue node = [] := by
    cases hn : c.nodes[node]? with
    | none => exact queue_of_none hn
    | some n => rw [queue_of_some hn, h n (List.mem_of_getElem? hn)]
  simp only [inflight, hqueue, List.filter_nil, List.map_nil]

/-! ## Changes that queue nothing -/

theorem queue_modifyNode (c : Cluster κ V) (node other : Nat) {f : Node κ V → Node κ V}
    (hf : ∀ n, (f n).inbox = n.inbox) : (c.modifyNode node f).queue other = c.queue other := by
  simp only [queue, getElem?_modifyNode, Option.map_map]
  congr 2
  funext n
  simp only [Function.comp_apply]
  split
  · rw [hf]
  · rfl

theorem inflight_modifyNode (c : Cluster κ V) (node other : Nat) (target : Target) (key : κ)
    {f : Node κ V → Node κ V} (hf : ∀ n, (f n).inbox = n.inbox) :
    (c.modifyNode node f).inflight other target key = c.inflight other target key := by
  simp only [inflight, queue_modifyNode c node other hf]

theorem Running.modifyNode {c : Cluster κ V} (hc : c.Running) (node : Nat) {f : Node κ V → Node κ V}
    (hf : ∀ n, (f n).inbox.service = n.inbox.service) : (c.modifyNode node f).Running := by
  intro other n hn
  rw [getElem?_modifyNode, Option.map_eq_some_iff] at hn
  obtain ⟨m, hm, rfl⟩ := hn
  split
  · rw [hf]
    exact hc other m hm
  · exact hc other m hm

/-! ## Shipping -/

theorem queue_ship {c : Cluster κ V} (hc : c.Running) (node other : Nat) (m : Message κ V) :
    (c.ship node m).queue other =
      c.queue other ++ if node = other ∧ other < c.nodes.length then [m] else [] := by
  have hship : (c.ship node m).nodes[other]? =
      c.nodes[other]?.map fun n => if node = other then n.push m else n :=
    Network.getElem?_ship ..
  cases hn : c.nodes[other]? with
  | none =>
      have hlength := List.getElem?_eq_none_iff.1 hn
      rw [queue_of_none hn, queue_of_none (by rw [hship, hn]; rfl)]
      simp [Nat.not_lt.2 hlength]
  | some n =>
      have hlength : other < c.nodes.length := (List.getElem?_eq_some_iff.1 hn).1
      rw [hn, Option.map_some] at hship
      rw [queue_of_some hship, queue_of_some hn]
      by_cases hnode : node = other
      · simp [hnode, hlength, Node.queue_push (hc other n hn)]
      · simp [hnode]

theorem Running.ship {c : Cluster κ V} (hc : c.Running) (node : Nat) (m : Message κ V) :
    (c.ship node m).Running :=
  hc.modifyNode node fun n => n.service_push m

theorem Running.shipAll {c : Cluster κ V} (hc : c.Running) (nodes : List Nat) (m : Message κ V) :
    (c.shipAll nodes m).Running := by
  induction nodes generalizing c with
  | nil => exact hc
  | cons node rest ih => exact ih (hc.ship node m)

/-- A change shipped to several nodes is under way to each as often as it is named. -/
theorem queue_shipAll {c : Cluster κ V} (hc : c.Running) (nodes : List Nat) (other : Nat)
    (m : Message κ V) :
    (c.shipAll nodes m).queue other = c.queue other ++
      if other < c.nodes.length then List.replicate (nodes.count other) m else [] := by
  induction nodes generalizing c with
  | nil => simp [shipAll]
  | cons node rest ih =>
      have hlength : (c.ship node m).nodes.length = c.nodes.length :=
        (SameLayout.ship c node m).size
      change ((c.ship node m).shipAll rest m).queue other = _
      rw [ih (hc.ship node m), queue_ship hc, hlength, List.count_cons, List.append_assoc]
      congr 1
      by_cases hother : other < c.nodes.length
      · by_cases hnode : node = other
        · simp [hother, hnode, List.replicate_succ]
        · simp [hother, hnode]
      · simp [hother]

theorem inflight_ship {c : Cluster κ V} (hc : c.Running) (node other : Nat) (m : Message κ V)
    (target : Target) (key : κ) :
    (c.ship node m).inflight other target key = c.inflight other target key ++
      if node = other ∧ other < c.nodes.length ∧ m.target = target ∧ compare m.update.key key = .eq
      then [m.update] else [] := by
  simp only [inflight, queue_ship hc, List.filter_append, List.map_append]
  congr 1
  by_cases hother : node = other ∧ other < c.nodes.length
  · by_cases hslot : m.target = target ∧ compare m.update.key key = .eq <;>
      simp [hother, hslot]
  · simp only [hother, if_false, List.filter_nil, List.map_nil]
    rw [if_neg (fun h => hother ⟨h.1, h.2.1⟩)]

theorem inflight_shipAll {c : Cluster κ V} (hc : c.Running) (nodes : List Nat) (other : Nat)
    (m : Message κ V) (target : Target) (key : κ) :
    (c.shipAll nodes m).inflight other target key = c.inflight other target key ++
      if other < c.nodes.length ∧ m.target = target ∧ compare m.update.key key = .eq
      then List.replicate (nodes.count other) m.update else [] := by
  simp only [inflight, queue_shipAll hc, List.filter_append, List.map_append]
  congr 1
  by_cases hother : other < c.nodes.length
  · by_cases hslot : m.target = target ∧ compare m.update.key key = .eq <;>
      simp [hother, hslot]
  · simp [hother]

/-! ## Copies -/

section Copies

variable [TransOrd κ]

theorem copy?_modifyNode (c : Cluster κ V) (node other : Nat) (target : Target) (key : κ)
    {f : Node κ V → Node κ V}
    (hf : ∀ n, ((f n).store target).get? key = (n.store target).get? key) :
    (c.modifyNode node f).copy? other target key = c.copy? other target key := by
  simp only [copy?, getElem?_modifyNode]
  cases c.nodes[other]? with
  | none => rfl
  | some n =>
      simp only [Option.map_some, Option.bind_some]
      split
      · exact hf n
      · rfl

theorem copy?_ship (c : Cluster κ V) (node other : Nat) (m : Message κ V) (target : Target)
    (key : κ) : (c.ship node m).copy? other target key = c.copy? other target key :=
  c.copy?_modifyNode node other target key fun n => by rw [Node.store_push]

theorem copy?_shipAll (c : Cluster κ V) (nodes : List Nat) (other : Nat) (m : Message κ V)
    (target : Target) (key : κ) :
    (c.shipAll nodes m).copy? other target key = c.copy? other target key := by
  induction nodes generalizing c with
  | nil => rfl
  | cons node rest ih => exact (ih (c.ship node m)).trans (c.copy?_ship node other m target key)

end Copies

/-! ## Registered readers -/

section Registry

variable [TransOrd κ]

/-- Whether a node is registered as a near reader of a key. -/
def Registered (c : Cluster κ V) (key : κ) (reader : Nat) : Prop :=
  ∃ n : Node κ V, c.nodes[c.affinity.primary key]? = some n ∧ reader ∈ n.readersOf key

/-- Near readers that own the key are passed over. -/
theorem mem_readersOf_iff (c : Cluster κ V) (key : κ) (reader : Nat) :
    reader ∈ c.readersOf key ↔
      c.Registered key reader ∧ c.affinity.isOwner reader key = false := by
  have howner : c.affinity.isOwner reader key = false ↔
      reader ≠ c.affinity.primary key ∧ reader ∉ c.affinity.backups key := by
    rw [← Bool.not_eq_true, Affinity.isOwner_iff, not_or, ne_comm]
  simp only [readersOf, List.mem_filter, Bool.and_eq_true, decide_eq_true_eq, howner, Registered]
  cases c.nodes[c.affinity.primary key]? with
  | none => simp
  | some n => simp

theorem registered_modifyNode (c : Cluster κ V) (node : Nat) (key : κ) (reader : Nat)
    {f : Node κ V → Node κ V} (hf : ∀ n, (f n).readers = n.readers) :
    (c.modifyNode node f).Registered key reader ↔ c.Registered key reader := by
  unfold Registered
  rw [getElem?_modifyNode]
  change (∃ n, (c.nodes[c.affinity.primary key]?).map _ = some n ∧ _) ↔ _
  cases c.nodes[c.affinity.primary key]? with
  | none => simp
  | some n =>
      simp only [Option.map_some, Option.some.injEq, exists_eq_left']
      split
      · simp only [Node.readersOf, hf]
      · rfl

theorem registered_ship (c : Cluster κ V) (node : Nat) (m : Message κ V) (key : κ)
    (reader : Nat) : (c.ship node m).Registered key reader ↔ c.Registered key reader :=
  c.registered_modifyNode node key reader fun _ => rfl

theorem registered_shipAll (c : Cluster κ V) (nodes : List Nat) (m : Message κ V) (key : κ)
    (reader : Nat) : (c.shipAll nodes m).Registered key reader ↔ c.Registered key reader := by
  induction nodes generalizing c with
  | nil => rfl
  | cons node rest ih => exact (ih (c.ship node m)).trans (c.registered_ship node m key reader)

end Registry

/-! ## A decision on its way -/

section FanOut

variable [TransOrd κ]

/-- The nodes that a decision about a key is shipped to, for one of their stores. -/
def recipients (c : Cluster κ V) (key : κ) : Target → List Nat
  | .owned => c.affinity.backups key
  | .near => c.readersOf key

/-- The cluster in which the readers of a key are forgotten if the key is removed. -/
def dismiss (c : Cluster κ V) (update : Update κ V) : Cluster κ V :=
  if update.isRemove then c.modifyPrimary update.key (·.forgetReaders update.key) else c

theorem fanOut_eq (c : Cluster κ V) (update : Update κ V) (awaited : Bool) :
    c.fanOut update awaited =
      (((c.shipAll (c.recipients update.key .owned) { target := .owned, update, awaited }).dismiss
        update).shipAll (c.recipients update.key .near) { target := .near, update, awaited }) := rfl

theorem queue_dismiss (c : Cluster κ V) (update : Update κ V) (node : Nat) :
    (c.dismiss update).queue node = c.queue node := by
  unfold dismiss
  split
  · exact c.queue_modifyNode _ node fun _ => rfl
  · rfl

theorem copy?_dismiss (c : Cluster κ V) (update : Update κ V) (node : Nat) (target : Target)
    (key : κ) : (c.dismiss update).copy? node target key = c.copy? node target key := by
  unfold dismiss
  split
  · exact c.copy?_modifyNode _ node target key fun n => by cases target <;> rfl
  · rfl

theorem Running.dismiss {c : Cluster κ V} (hc : c.Running) (update : Update κ V) :
    (c.dismiss update).Running := by
  unfold Cluster.dismiss
  split
  · exact hc.modifyNode _ fun _ => rfl
  · exact hc

theorem size_dismiss (c : Cluster κ V) (update : Update κ V) :
    (c.dismiss update).nodes.length = c.nodes.length := by
  unfold dismiss
  split
  · exact (SameLayout.modifyNode c _ _).size
  · rfl

theorem Running.fanOut {c : Cluster κ V} (hc : c.Running) (update : Update κ V) (awaited : Bool) :
    (c.fanOut update awaited).Running :=
  ((hc.shipAll _ _).dismiss update).shipAll _ _

theorem inflight_fanOut {c : Cluster κ V} (hc : c.Running) (update : Update κ V) (awaited : Bool)
    (node : Nat) (target : Target) (key : κ) :
    (c.fanOut update awaited).inflight node target key = c.inflight node target key ++
      if node < c.nodes.length ∧ compare update.key key = .eq
      then List.replicate ((c.recipients update.key target).count node) update else [] := by
  have hshipped := hc.shipAll (c.recipients update.key .owned) { target := .owned, update, awaited }
  have hsize := (SameLayout.shipAll c (c.recipients update.key .owned)
    { target := .owned, update, awaited }).size
  have hdismiss : ∀ d : Cluster κ V, (d.dismiss update).inflight node target key =
      d.inflight node target key := by
    intro d
    simp only [inflight, queue_dismiss]
  rw [fanOut_eq, inflight_shipAll (hshipped.dismiss update), hdismiss, inflight_shipAll hc,
    size_dismiss, hsize, List.append_assoc]
  congr 1
  cases target <;> simp

theorem copy?_fanOut (c : Cluster κ V) (update : Update κ V) (awaited : Bool) (node : Nat)
    (target : Target) (key : κ) :
    (c.fanOut update awaited).copy? node target key = c.copy? node target key := by
  rw [fanOut_eq, copy?_shipAll, copy?_dismiss, copy?_shipAll]

omit [TransOrd κ] in
theorem version_shipAll (c : Cluster κ V) (nodes : List Nat) (m : Message κ V) :
    (c.shipAll nodes m).version = c.version := by
  induction nodes generalizing c with
  | nil => rfl
  | cons node rest ih => exact ih (c.ship node m)

/-- Shipping draws no version. -/
theorem version_fanOut (c : Cluster κ V) (update : Update κ V) (awaited : Bool) :
    (c.fanOut update awaited).version = c.version := by
  have hdismiss : ∀ d : Cluster κ V, (d.dismiss update).version = d.version := by
    intro d
    unfold dismiss
    split <;> rfl
  rw [fanOut_eq, version_shipAll, hdismiss, version_shipAll]

theorem registered_fanOut [LawfulEqOrd κ] (c : Cluster κ V) (update : Update κ V)
    (awaited : Bool) (key : κ) (reader : Nat) :
    (c.fanOut update awaited).Registered key reader ↔
      (update.isRemove → key ≠ update.key) ∧ c.Registered key reader := by
  rw [fanOut_eq, registered_shipAll]
  generalize hd : c.shipAll (c.recipients update.key .owned) { target := .owned, update, awaited } = d
  have hregistered : d.Registered key reader ↔ c.Registered key reader := by
    rw [← hd, registered_shipAll]
  rw [← hregistered]
  unfold dismiss
  by_cases hremove : update.isRemove
  · simp only [hremove, if_true, forall_const]
    unfold Registered modifyPrimary
    rw [getElem?_modifyNode]
    change (∃ n, (d.nodes[d.affinity.primary key]?).map _ = some n ∧ _) ↔ _
    cases d.nodes[d.affinity.primary key]? with
    | none => simp
    | some n =>
        simp only [Option.map_some, Option.some.injEq, exists_eq_left']
        split
        next hprimary => rw [Node.mem_readersOf_forgetReaders]
        next hprimary =>
          have hkey : key ≠ update.key := fun h => hprimary (h ▸ rfl)
          simp [hkey]
  · simp [hremove]

end FanOut

/-! ## Counting and registering on the primary -/

section Count

variable [TransOrd κ]

theorem copy?_recordPrimary (c : Cluster κ V) (key : κ) (event : StoreEvent) (node : Nat)
    (target : Target) (other : κ) :
    (c.recordPrimary key event).copy? node target other = c.copy? node target other :=
  c.copy?_modifyNode _ node target other fun n => by cases target <;> rfl

theorem registered_recordPrimary (c : Cluster κ V) (key : κ) (event : StoreEvent) (other : κ)
    (reader : Nat) :
    (c.recordPrimary key event).Registered other reader ↔ c.Registered other reader :=
  c.registered_modifyNode _ other reader fun _ => rfl

omit [TransOrd κ] in
theorem inflight_recordPrimary (c : Cluster κ V) (key : κ) (event : StoreEvent) (node : Nat)
    (target : Target) (other : κ) :
    (c.recordPrimary key event).inflight node target other = c.inflight node target other :=
  c.inflight_modifyNode _ node target other fun _ => rfl

omit [TransOrd κ] in
theorem Running.recordPrimary {c : Cluster κ V} (hc : c.Running) (key : κ) (event : StoreEvent) :
    (c.recordPrimary key event).Running :=
  hc.modifyNode _ fun _ => rfl

theorem copy?_register (c : Cluster κ V) (key : κ) (reader : Nat) (node : Nat) (target : Target)
    (other : κ) : (c.register key reader).copy? node target other = c.copy? node target other :=
  c.copy?_modifyNode _ node target other fun n => by cases target <;> rfl

theorem inflight_register (c : Cluster κ V) (key : κ) (reader : Nat) (node : Nat) (target : Target)
    (other : κ) :
    (c.register key reader).inflight node target other = c.inflight node target other :=
  c.inflight_modifyNode _ node target other fun _ => rfl

theorem Running.register {c : Cluster κ V} (hc : c.Running) (key : κ) (reader : Nat) :
    (c.register key reader).Running :=
  hc.modifyNode _ fun _ => rfl

/-- Two clusters with the same version, copies and changes under way. Their near readers may differ. -/
structure SameHoldings (c d : Cluster κ V) : Prop where
  layout : SameLayout c d
  version : d.version = c.version
  copies : ∀ node target key, d.copy? node target key = c.copy? node target key
  inflight : ∀ node target key, d.inflight node target key = c.inflight node target key
  running : c.Running → d.Running

theorem SameHoldings.refl (c : Cluster κ V) : SameHoldings c c :=
  ⟨SameLayout.refl c, rfl, fun _ _ _ => rfl, fun _ _ _ => rfl, id⟩

theorem SameHoldings.register (c : Cluster κ V) (key : κ) (reader : Nat) :
    SameHoldings c (c.register key reader) :=
  ⟨SameLayout.modifyNode c _ _, rfl, c.copy?_register key reader, c.inflight_register key reader,
    fun hc => hc.register key reader⟩

/-- Whoever becomes a near reader, if anyone does. -/
theorem SameHoldings.elim_register (c : Cluster κ V) (key : κ) (reader : Option Nat) :
    SameHoldings c (reader.elim c (c.register key)) := by
  cases reader with
  | none => exact SameHoldings.refl c
  | some reader => exact SameHoldings.register c key reader

theorem SameHoldings.stored? {c d : Cluster κ V} (h : SameHoldings c d) (key : κ) :
    d.stored? key = c.stored? key := by
  rw [← copy?_primary, ← copy?_primary, h.layout.affinity]
  exact h.copies _ .owned key

/-- A write stores the value on the primary, whoever becomes a near reader before. -/
theorem exists_change_write [Hashable κ] (c : Cluster κ V) (key : κ) (via : Option Nat) (value : V)
    (ttl : Ttl) : ∃ d, SameHoldings c d ∧
      c.change (.write key via value ttl) = d.putPrimary key value ttl :=
  ⟨_, SameHoldings.elim_register c key (via.bind (c.nearReader · key)), rfl⟩

theorem recipients_modifyNode (c : Cluster κ V) (node : Nat) (key : κ) (target : Target)
    {f : Node κ V → Node κ V} (hf : ∀ n, (f n).readers = n.readers) :
    (c.modifyNode node f).recipients key target = c.recipients key target := by
  cases target with
  | owned => rfl
  | near =>
      simp only [recipients, readersOf, getElem?_modifyNode, Option.map_map]
      congr 3
      funext n
      simp only [Function.comp_apply, Node.readersOf]
      split
      · rw [hf]
      · rfl

end Count

/-! ## Changes of the primary copy -/

section Primary

variable [TransOrd κ] [Hashable κ]

theorem copy?_writePrimary (c : Cluster κ V) (key : κ) (change : Write V) (node : Nat)
    (target : Target) (other : κ) (hprimary : c.affinity.primary key < c.nodes.length) :
    (c.writePrimary key change).copy? node target other =
      if node = c.affinity.primary key ∧ target = .owned ∧ compare key other = .eq then
        match change with
        | .keep => c.copy? node target other
        | .put entry => some entry
        | .remove => none
      else c.copy? node target other := by
  simp only [copy?, writePrimary, modifyPrimary, getElem?_modifyNode]
  by_cases hnode : c.affinity.primary key = node
  · subst hnode
    rw [List.getElem?_eq_getElem hprimary]
    cases target with
    | near => simp [Node.store]
    | owned =>
        cases change with
        | keep => simp
        | put entry => simp [Node.store, Store.get?_write_put]
        | remove => simp [Node.store, Store.get?_write_remove]
  · simp [hnode, Ne.symm hnode]

theorem queue_writePrimary (c : Cluster κ V) (key : κ) (change : Write V) (node : Nat) :
    (c.writePrimary key change).queue node = c.queue node :=
  c.queue_modifyNode _ node fun _ => rfl

theorem registered_writePrimary (c : Cluster κ V) (key : κ) (change : Write V) (other : κ)
    (reader : Nat) :
    (c.writePrimary key change).Registered other reader ↔ c.Registered other reader :=
  c.registered_modifyNode _ other reader fun _ => rfl

/-- A value stored on the primary is the primary's copy. -/
theorem copy?_putPrimary (c : Cluster κ V) (key : κ) (value : V) (ttl : Ttl) (node : Nat)
    (target : Target) (other : κ) (hprimary : c.affinity.primary key < c.nodes.length) :
    (c.putPrimary key value ttl).copy? node target other =
      if node = c.affinity.primary key ∧ target = .owned ∧ compare key other = .eq then
        some { value, version := c.version + 1, ttl }
      else c.copy? node target other := by
  have hlayout := SameLayout.fanOut { c with version := c.version + 1 }
    (.put key { value, version := c.version + 1, ttl }) c.config.synchronous
  unfold putPrimary
  rw [copy?_writePrimary _ key _ node target other
    (by rw [hlayout.affinity, hlayout.size]; exact hprimary), copy?_fanOut, hlayout.affinity]
  rfl

theorem inflight_putPrimary {c : Cluster κ V} (hc : c.Running) (key : κ) (value : V) (ttl : Ttl)
    (node : Nat) (target : Target) (other : κ) :
    (c.putPrimary key value ttl).inflight node target other = c.inflight node target other ++
      if node < c.nodes.length ∧ compare key other = .eq
      then List.replicate ((c.recipients key target).count node)
        (.put key { value, version := c.version + 1, ttl })
      else [] := by
  simp only [putPrimary, inflight, queue_writePrimary]
  exact inflight_fanOut (c := { c with version := c.version + 1 }) hc
    (.put key { value, version := c.version + 1, ttl }) c.config.synchronous node target other

theorem Running.putPrimary {c : Cluster κ V} (hc : c.Running) (key : κ) (value : V) (ttl : Ttl) :
    (c.putPrimary key value ttl).Running :=
  (Running.fanOut (c := { c with version := c.version + 1 }) hc _ _).modifyNode _ fun _ => rfl

/-- A copy removed on the primary is gone from it. -/
theorem copy?_removePrimary (c : Cluster κ V) (key : κ) (version : UInt64) (event : StoreEvent)
    (awaited : Bool) (node : Nat) (target : Target) (other : κ)
    (hprimary : c.affinity.primary key < c.nodes.length) :
    (c.removePrimary key version event awaited).copy? node target other =
      if node = c.affinity.primary key ∧ target = .owned ∧ compare key other = .eq then none
      else c.copy? node target other := by
  have hlayout : SameLayout c
      ((c.recordPrimary key event).fanOut (.remove key version) awaited) :=
    (SameLayout.modifyNode c _ _).trans (SameLayout.fanOut _ _ _)
  unfold removePrimary
  rw [copy?_writePrimary _ key _ node target other
    (by rw [hlayout.affinity, hlayout.size]; exact hprimary), copy?_fanOut, copy?_recordPrimary,
    hlayout.affinity]

theorem inflight_removePrimary {c : Cluster κ V} (hc : c.Running) (key : κ) (version : UInt64)
    (event : StoreEvent) (awaited : Bool) (node : Nat) (target : Target) (other : κ) :
    (c.removePrimary key version event awaited).inflight node target other =
      c.inflight node target other ++
        if node < c.nodes.length ∧ compare key other = .eq
        then List.replicate ((c.recipients key target).count node) (.remove key version)
        else [] := by
  have hrecorded := c.inflight_recordPrimary key event node target other
  have hrecipients : (c.recordPrimary key event).recipients key target = c.recipients key target :=
    c.recipients_modifyNode _ key target fun _ => rfl
  have hsize : (c.recordPrimary key event).nodes.length = c.nodes.length :=
    (SameLayout.modifyNode c _ _).size
  simp only [removePrimary, inflight, queue_writePrimary]
  have h := inflight_fanOut (hc.recordPrimary key event) (.remove key version) awaited node target
    other
  simp only [Update.key, hrecorded, hrecipients, hsize] at h
  exact h

theorem Running.removePrimary {c : Cluster κ V} (hc : c.Running) (key : κ) (version : UInt64)
    (event : StoreEvent) (awaited : Bool) :
    (c.removePrimary key version event awaited).Running :=
  ((hc.recordPrimary key event).fanOut _ _).modifyNode _ fun _ => rfl

theorem version_putPrimary (c : Cluster κ V) (key : κ) (value : V) (ttl : Ttl) :
    (c.putPrimary key value ttl).version = c.version + 1 :=
  version_fanOut ..

theorem version_removePrimary (c : Cluster κ V) (key : κ) (version : UInt64) (event : StoreEvent)
    (awaited : Bool) : (c.removePrimary key version event awaited).version = c.version :=
  version_fanOut ..

variable [LawfulEqOrd κ]

omit [Hashable κ] in
theorem registered_register (c : Cluster κ V) (key other : κ) (reader r : Nat)
    (hprimary : c.affinity.primary key < c.nodes.length) :
    (c.register key reader).Registered other r ↔
      (other = key ∧ r = reader) ∨ c.Registered other r := by
  unfold Registered register modifyPrimary
  rw [getElem?_modifyNode]
  change (∃ n, (c.nodes[c.affinity.primary other]?).map _ = some n ∧ _) ↔ _
  by_cases hkey : other = key
  · subst hkey
    rw [List.getElem?_eq_getElem hprimary]
    simp [modifyNode, Node.mem_readersOf_addReader]
  · cases c.nodes[c.affinity.primary other]? with
    | none => simp [hkey]
    | some n =>
        simp only [Option.map_some, Option.some.injEq, exists_eq_left', hkey, false_and, false_or]
        split
        · simp [Node.mem_readersOf_addReader, hkey]
        · rfl

theorem registered_putPrimary (c : Cluster κ V) (key : κ) (value : V) (ttl : Ttl) (other : κ)
    (reader : Nat) :
    (c.putPrimary key value ttl).Registered other reader ↔ c.Registered other reader := by
  unfold putPrimary
  rw [registered_writePrimary, registered_fanOut]
  simp only [Update.isRemove, Bool.false_eq_true, false_implies, true_and]
  rfl

theorem registered_removePrimary (c : Cluster κ V) (key : κ) (version : UInt64)
    (event : StoreEvent) (awaited : Bool) (other : κ) (reader : Nat) :
    (c.removePrimary key version event awaited).Registered other reader ↔
      other ≠ key ∧ c.Registered other reader := by
  unfold removePrimary
  rw [registered_writePrimary, registered_fanOut, registered_recordPrimary]
  simp [Update.isRemove, Update.key]

end Primary

/-! ## Events, drops and deliveries -/

section Delivery

variable [TransOrd κ] [Hashable κ]

theorem copy?_dropped (c : Cluster κ V) (node other : Nat) (target t : Target) (key k : κ)
    (event : StoreEvent) :
    (c.modifyNode node fun n =>
        n.withStore target (((n.store target).write key .remove).record event)).copy? other t k =
      if other = node ∧ t = target ∧ compare key k = .eq then none else c.copy? other t k := by
  simp only [copy?, getElem?_modifyNode]
  cases c.nodes[other]? with
  | none => simp
  | some n =>
      by_cases hnode : node = other
      · by_cases htarget : target = t
        · simp [hnode, htarget, Store.get?_write_remove]
        · simp [hnode, htarget, Ne.symm htarget]
      · simp [hnode, Ne.symm hnode]

/-- An event that is counted leaves every copy alone. -/
theorem copy?_note (c : Cluster κ V) (node : Nat) (target : Target) (event : StoreEvent)
    (other : Nat) (t : Target) (key : κ) :
    (c.change (.note node target event)).copy? other t key = c.copy? other t key := by
  refine c.copy?_modifyNode node other t key fun n => ?_
  rw [Node.store_withStore]
  split
  next htarget => rw [← htarget, Store.get?_record]
  next => rfl

theorem inflight_note (c : Cluster κ V) (node : Nat) (target : Target) (event : StoreEvent)
    (other : Nat) (t : Target) (key : κ) :
    (c.change (.note node target event)).inflight other t key = c.inflight other t key :=
  c.inflight_modifyNode node other t key fun n => n.inbox_withStore target _

/-- A drop takes a copy away, if anything. -/
theorem copy?_drop (c : Cluster κ V) (node : Nat) (target : Target) (key : κ) (event : StoreEvent)
    (now : Millis) (other : Nat) (t : Target) (k : κ) :
    (c.change (.drop node target key event now)).copy? other t k = c.copy? other t k ∨
      (c.change (.drop node target key event now)).copy? other t k = none := by
  simp only [change]
  split
  · rw [copy?_dropped]
    split
    · exact .inr rfl
    · exact .inl rfl
  · exact .inl rfl

/-- Nothing is dropped from a primary. -/
theorem stored?_drop [LawfulEqOrd κ] (c : Cluster κ V) (node : Nat) (target : Target) (key : κ)
    (event : StoreEvent) (now : Millis) (other : κ) :
    (c.change (.drop node target key event now)).stored? other = c.stored? other := by
  simp only [change]
  split
  next hdrop =>
    refine (c.copy?_dropped node (c.affinity.primary other) target .owned key other event).trans
      (if_neg ?_)
    rintro ⟨hnode, htarget, hkey⟩
    obtain rfl : key = other := by simpa using hkey
    exact hdrop.1 ⟨htarget.symm, hnode⟩
  next => rfl

/-- A replica drops its copy without a word. -/
theorem inflight_drop (c : Cluster κ V) (node : Nat) (target : Target) (key : κ)
    (event : StoreEvent) (now : Millis) (other : Nat) (t : Target) (k : κ) :
    (c.change (.drop node target key event now)).inflight other t k = c.inflight other t k := by
  simp only [change]
  split
  · exact c.inflight_modifyNode node other t k fun n => n.inbox_withStore target _
  · rfl

/-- Without messages at the node there is nothing to deliver. -/
theorem deliver_of_nil {c : Cluster κ V} {node : Nat} (hqueue : c.queue node = []) :
    c.deliver node = c := by
  have hnodes : c.nodes.deliver node = c.nodes := by
    apply List.ext_getElem?
    intro other
    simp only [Network.deliver, List.getElem?_modify]
    cases hn : c.nodes[other]? with
    | none => rfl
    | some n =>
        by_cases hnode : node = other
        · subst hnode
          rw [queue_of_some hn] at hqueue
          simp [Node.deliver, hqueue]
        · simp [hnode]
  simp only [deliver, hnodes]

theorem getElem?_deliver (c : Cluster κ V) (node other : Nat) :
    (c.deliver node).nodes[other]? =
      c.nodes[other]?.map fun n => if node = other then n.deliver.1 else n :=
  List.getElem?_modify ..

variable {c : Cluster κ V} {node : Nat} {m : Message κ V} {rest : List (Message κ V)}

theorem Running.deliver (hc : c.Running) (node : Nat) : (c.deliver node).Running :=
  hc.modifyNode node fun n => n.service_deliver

theorem queue_deliver (hc : c.Running) (hqueue : c.queue node = m :: rest) (other : Nat) :
    (c.deliver node).queue other = if other = node then rest else c.queue other := by
  cases hn : c.nodes[other]? with
  | none =>
      rw [queue_of_none (by rw [getElem?_deliver, hn]; rfl), queue_of_none hn]
      split
      next hnode => rw [← hnode, queue_of_none hn] at hqueue; cases hqueue
      next => rfl
  | some n =>
      have hdelivered := getElem?_deliver c node other
      rw [hn, Option.map_some] at hdelivered
      rw [queue_of_some hdelivered, queue_of_some hn]
      by_cases hnode : node = other
      · subst hnode
        rw [queue_of_some hn] at hqueue
        simp [Node.deliver_of_queue (hc node n hn) hqueue]
      · simp [hnode, Ne.symm hnode]

theorem inflight_deliver (hc : c.Running) (hqueue : c.queue node = m :: rest) (other : Nat)
    (target : Target) (key : κ) :
    c.inflight other target key =
      (if other = node ∧ m.target = target ∧ compare m.update.key key = .eq then [m.update] else [])
        ++ (c.deliver node).inflight other target key := by
  simp only [inflight, queue_deliver hc hqueue]
  by_cases hnode : other = node
  · subst hnode
    rw [hqueue]
    by_cases hslot : m.target = target ∧ compare m.update.key key = .eq <;> simp [hslot]
  · simp [hnode]

theorem registered_deliver (c : Cluster κ V) (node : Nat) (key : κ) (reader : Nat) :
    (c.deliver node).Registered key reader ↔ c.Registered key reader :=
  c.registered_modifyNode node key reader fun n => n.readers_deliver

/-- A delivered change is applied to the copy it is for. -/
theorem copy?_deliver [LawfulEqOrd κ] (hc : c.Running) (hqueue : c.queue node = m :: rest)
    (other : Nat) (target : Target) (key : κ) :
    (c.deliver node).copy? other target key =
      if other = node ∧ m.target = target ∧ compare m.update.key key = .eq then
        m.update.onto (c.copy? other target key)
      else c.copy? other target key := by
  cases hn : c.nodes[other]? with
  | none =>
      rw [copy?_of_none (by rw [getElem?_deliver, hn]; rfl), copy?_of_none hn]
      split
      next h => rw [← h.1, queue_of_none hn] at hqueue; cases hqueue
      next => rfl
  | some n =>
      have hdelivered := getElem?_deliver c node other
      rw [hn, Option.map_some] at hdelivered
      rw [copy?_of_some hdelivered, copy?_of_some hn]
      by_cases hnode : node = other
      · subst hnode
        rw [queue_of_some hn] at hqueue
        simp only [if_true, Node.deliver_of_queue (hc node n hn) hqueue, Node.get?_apply,
          Node.store_setInbox, true_and]
      · simp [hnode, Ne.symm hnode]

end Delivery

/-! ## Keys -/

section Keys

variable [TransOrd κ] [LawfulEqOrd κ]

/-- The keys of the cache are those with a copy on their primary. -/
theorem mem_keys_iff (c : Cluster κ V) (key : κ) : key ∈ c.keys ↔ (c.stored? key).isSome := by
  let : DecidableEq κ := Classical.typeDecidableEq κ
  simp only [keys, ExtTreeSet.mem_toList, ExtTreeSet.mem_ofList, List.contains_iff_mem,
    List.mem_flatMap, List.mem_filter, Prod.exists, List.mem_zipIdx_iff_getElem?, decide_eq_true_eq]
  constructor
  · rintro ⟨n, node, hn, hkey, rfl⟩
    have hmem : key ∈ n.owned.copies := ExtTreeMap.mem_keys.1 hkey
    rw [stored?, hn]
    simpa [Store.get?] using hmem
  · intro h
    obtain ⟨entry, hentry⟩ := Option.isSome_iff_exists.1 h
    obtain ⟨n, hn, hget⟩ := Option.bind_eq_some_iff.1 hentry
    refine ⟨n, _, hn, ?_, rfl⟩
    have hmem : key ∈ n.owned.copies := by
      rw [ExtTreeMap.mem_iff_isSome_getElem?]
      exact Option.isSome_of_eq_some hget
    exact ExtTreeMap.mem_keys.2 hmem

theorem keys_eq (c : Cluster κ V) {s : ExtTreeSet κ}
    (h : ∀ key, key ∈ s ↔ (c.stored? key).isSome) : c.keys = s.toList := by
  unfold keys
  congr 1
  apply ExtTreeSet.ext_mem
  intro key
  rw [h, ← mem_keys_iff, keys, ExtTreeSet.mem_toList]

theorem keys_congr {c d : Cluster κ V} (h : ∀ key, d.stored? key = c.stored? key) :
    d.keys = c.keys := by
  refine d.keys_eq fun key => ?_
  rw [h, ← mem_keys_iff, keys, ExtTreeSet.mem_toList]

end Keys

end Cluster

end Ephemera
