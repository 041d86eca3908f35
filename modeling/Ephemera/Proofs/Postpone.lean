import Ephemera.Proofs.Commute
import Ephemera.Proofs.Quiescence

/-! # Deliveries put off

What a primary does on a cluster, it does in the same way before and after a delivery, and the delivery
can be made up for afterwards. `deliverAll` makes deliveries at several nodes in turn; every change on
a primary moves past them.
-/

namespace Ephemera

open Std

universe u v

/-- Whether a change is made by a primary on the copy it decides on, and shipped from there. -/
def Change.OnPrimary {κ : Type u} {V : Type v} : Change κ V → Prop
  | .count .. | .write .. | .remove .. | .share .. => True
  | .note .. | .drop .. | .deliver _ => False

namespace Node

variable {κ : Type u} {V : Type v} [Ord κ] [TransOrd κ] [Hashable κ]

/-- Delivering a message first changes nothing for who delivers all of them. -/
theorem settle_deliver {n : Node κ V} (hrunning : n.inbox.service = .running) :
    n.deliver.1.settle.1 = n.settle.1 := by
  cases hqueue : n.inbox.queue with
  | nil => simp [deliver, hqueue]
  | cons m rest =>
      rw [deliver_of_queue hrunning hqueue]
      have hinbox : ∀ inbox inbox' : Inbox κ V,
          { ({ n with inbox }.apply m.target m.update).1 with inbox := inbox' } =
            ({ n with inbox := inbox' }.apply m.target m.update).1 := by
        intro inbox inbox'
        simp only [apply_eq, store_setInbox]
        cases m.target <;> rfl
      simp only [settle, inbox_apply, hrunning, hqueue, List.foldl_cons, hinbox]

theorem settle_of_nil {n : Node κ V} (hrunning : n.inbox.service = .running)
    (hqueue : n.inbox.queue = []) : n.settle.1 = n := by
  obtain ⟨owned, near, readers, ⟨queue, service⟩⟩ := n
  cases hrunning
  cases hqueue
  rfl

end Node

namespace Cluster

variable {κ : Type u} {V : Type v} [Ord κ] [TransOrd κ]

/-- The oldest message at a node that serves its inbox, which is not about the copy that decisions are
made on. -/
structure Awaits (c : Cluster κ V) (node : Nat) (m : Message κ V) : Prop where
  running : c.Running
  oldest : ∃ rest, c.queue node = m :: rest
  away : m.target = .owned → c.affinity.primary m.update.key ≠ node

section Postpone

variable [Hashable κ] {c : Cluster κ V} {node : Nat} {m : Message κ V} {touches : κ → Prop}
  {f : Node κ V → Node κ V}

theorem Awaits.modifyNode (h : c.Awaits node m) (hf : Node.Apart touches f) (i : Nat) :
    (c.modifyNode i f).Awaits node m := by
  obtain ⟨hrunning, ⟨rest, hrest⟩, haway⟩ := h
  refine ⟨hrunning.modifyNode i hf.service, ?_, haway⟩
  cases hn : c.nodes[node]? with
  | none =>
      rw [queue_of_none hn] at hrest
      cases hrest
  | some n =>
      have hnode := getElem?_modifyNode c i node f
      rw [hn, Option.map_some] at hnode
      rw [queue_of_some hn] at hrest
      rw [queue_of_some hnode]
      split
      · obtain ⟨added, hadded⟩ := hf.queue n
        exact ⟨rest ++ added, by rw [hadded, hrest, List.cons_append]⟩
      · exact ⟨rest, hrest⟩

/-- What is apart from deliveries may be done first. -/
theorem deliver_modifyNode (h : c.Awaits node m) (hf : Node.Apart touches f) {i : Nat}
    (hi : i = node → m.target = .owned → ¬touches m.update.key) :
    (c.modifyNode i f).deliver node = (c.deliver node).modifyNode i f := by
  obtain ⟨hrunning, ⟨rest, hrest⟩, -⟩ := h
  change (c.modifyNode i f).modifyNode node (·.deliver.1) =
    (c.modifyNode node (·.deliver.1)).modifyNode i f
  by_cases hnode : i = node
  · subst hnode
    rw [modifyNode_modifyNode, modifyNode_modifyNode]
    cases hn : c.nodes[i]? with
    | none => rw [modifyNode_of_none hn, modifyNode_of_none hn]
    | some n =>
        refine modifyNode_congr hn ?_
        rw [queue_of_some hn] at hrest
        exact hf.deliver n m rest (hrunning i n hn) hrest (hi rfl)
  · simp only [Cluster.modifyNode, List.modify_modify_ne _ _ _ hnode]

theorem deliver_modifyPrimary (h : c.Awaits node m) {key : κ} (hf : Node.Apart (· = key) f) :
    (c.modifyPrimary key f).deliver node = (c.deliver node).modifyPrimary key f := by
  apply deliver_modifyNode h hf
  rintro hnode htarget rfl
  exact h.away htarget hnode

theorem Awaits.ship (h : c.Awaits node m) (i : Nat) (shipped : Message κ V) :
    (c.ship i shipped).Awaits node m :=
  h.modifyNode (Node.apart_push shipped) i

theorem deliver_ship (h : c.Awaits node m) (i : Nat) (shipped : Message κ V) :
    (c.ship i shipped).deliver node = (c.deliver node).ship i shipped :=
  deliver_modifyNode h (Node.apart_push shipped) fun _ _ hfalse => hfalse

theorem Awaits.shipAll (h : c.Awaits node m) (nodes : List Nat) (shipped : Message κ V) :
    (c.shipAll nodes shipped).Awaits node m := by
  induction nodes generalizing c with
  | nil => exact h
  | cons i rest ih => exact ih (h.ship i shipped)

theorem deliver_shipAll (h : c.Awaits node m) (nodes : List Nat) (shipped : Message κ V) :
    (c.shipAll nodes shipped).deliver node = (c.deliver node).shipAll nodes shipped := by
  induction nodes generalizing c with
  | nil => rfl
  | cons i rest ih =>
      change ((c.ship i shipped).shipAll rest shipped).deliver node = _
      rw [ih (h.ship i shipped), deliver_ship h]
      rfl

theorem recipients_deliver (c : Cluster κ V) (node : Nat) (key : κ) (target : Target) :
    (c.deliver node).recipients key target = c.recipients key target :=
  c.recipients_modifyNode node key target fun n => n.readers_deliver

theorem Awaits.dismiss (h : c.Awaits node m) (update : Update κ V) :
    (c.dismiss update).Awaits node m := by
  unfold Cluster.dismiss
  split
  · exact h.modifyNode (Node.apart_readers (·.erase update.key)) _
  · exact h

theorem deliver_dismiss (h : c.Awaits node m) (update : Update κ V) :
    (c.dismiss update).deliver node = (c.deliver node).dismiss update := by
  unfold Cluster.dismiss
  split
  · exact deliver_modifyNode h (Node.apart_readers (·.erase update.key)) fun _ _ hfalse => hfalse
  · rfl

theorem Awaits.fanOut (h : c.Awaits node m) (update : Update κ V) (awaited : Bool) :
    (c.fanOut update awaited).Awaits node m :=
  ((h.shipAll _ _).dismiss update).shipAll _ _

theorem deliver_fanOut (h : c.Awaits node m) (update : Update κ V) (awaited : Bool) :
    (c.fanOut update awaited).deliver node = (c.deliver node).fanOut update awaited := by
  rw [fanOut_eq, fanOut_eq, deliver_shipAll ((h.shipAll _ _).dismiss update),
    deliver_dismiss (h.shipAll _ _), deliver_shipAll h, recipients_deliver, recipients_deliver]

/-! ## Changes of the primary copy -/

theorem deliver_recordPrimary (h : c.Awaits node m) (key : κ) (event : StoreEvent) :
    (c.recordPrimary key event).deliver node = (c.deliver node).recordPrimary key event :=
  deliver_modifyNode h (Node.apart_record event) fun _ _ hfalse => hfalse

theorem Awaits.register (h : c.Awaits node m) (key : κ) (reader : Nat) :
    (c.register key reader).Awaits node m :=
  h.modifyNode (Node.apart_readers fun readers =>
    readers.insert key ((readers.getD key ∅).insert reader)) _

theorem deliver_register (h : c.Awaits node m) (key : κ) (reader : Nat) :
    (c.register key reader).deliver node = (c.deliver node).register key reader :=
  deliver_modifyNode h (Node.apart_readers fun readers =>
    readers.insert key ((readers.getD key ∅).insert reader)) fun _ _ hfalse => hfalse

theorem deliver_putPrimary [LawfulEqOrd κ] (h : c.Awaits node m) (key : κ) (value : V) (ttl : Ttl) :
    (c.putPrimary key value ttl).deliver node = (c.deliver node).putPrimary key value ttl := by
  have hdrawn : ({ c with version := c.version + 1 } : Cluster κ V).Awaits node m :=
    ⟨h.running, h.oldest, h.away⟩
  unfold putPrimary writePrimary
  rw [deliver_modifyPrimary (hdrawn.fanOut _ _) (Node.apart_write key _), deliver_fanOut hdrawn]
  rfl

theorem deliver_removePrimary [LawfulEqOrd κ] (h : c.Awaits node m) (key : κ) (version : UInt64)
    (event : StoreEvent) (awaited : Bool) :
    (c.removePrimary key version event awaited).deliver node =
      (c.deliver node).removePrimary key version event awaited := by
  have hrecorded : (c.recordPrimary key event).Awaits node m :=
    h.modifyNode (Node.apart_record event) _
  unfold removePrimary writePrimary
  rw [deliver_modifyPrimary (hrecorded.fanOut _ _) (Node.apart_write key _),
    deliver_fanOut hrecorded, deliver_recordPrimary h]

/-- A delivery leaves what the primaries hold as it is. -/
theorem Awaits.stored?_deliver [LawfulEqOrd κ] (h : c.Awaits node m) (key : κ) :
    (c.deliver node).stored? key = c.stored? key := by
  obtain ⟨hrunning, ⟨rest, hrest⟩, haway⟩ := h
  change (c.deliver node).copy? (c.affinity.primary key) .owned key = _
  rw [copy?_deliver hrunning hrest, if_neg, copy?_primary]
  rintro ⟨hnode, htarget, hkey⟩
  obtain rfl : m.update.key = key := by simpa using hkey
  exact haway htarget hnode

/-- A change on a primary and the delivery of an earlier message commute. -/
theorem deliver_change [LawfulEqOrd κ] (h : c.Awaits node m) {x : Change κ V} (hx : x.OnPrimary) :
    (c.change x).deliver node = (c.deliver node).change x := by
  cases x with
  | count key event => exact deliver_recordPrimary h key event
  | write key via value ttl =>
      change Cluster.deliver (((via.bind (c.nearReader · key)).elim c (c.register key)).putPrimary
        key value ttl) node = ((via.bind (c.nearReader · key)).elim (c.deliver node)
          ((c.deliver node).register key)).putPrimary key value ttl
      cases via.bind (c.nearReader · key) with
      | none => exact deliver_putPrimary h key value ttl
      | some reader =>
          simp only [Option.elim_some]
          rw [deliver_putPrimary (h.register key reader), deliver_register h]
  | remove key event awaited =>
      simp only [change, h.stored?_deliver]
      split
      · exact deliver_removePrimary h key _ event awaited
      · rfl
  | share key via =>
      have hreader : (c.deliver node).nearReader via key = c.nearReader via key := rfl
      simp only [change, h.stored?_deliver, hreader]
      split
      · rw [deliver_ship (h.register _ _), deliver_register h]
        rfl
      · rfl
  | note | drop | deliver => exact hx.elim

end Postpone

/-! ## Orderly clusters -/

/-- Every inbox is served, and no decision is under way to the copy that decisions are made on. -/
structure Orderly (c : Cluster κ V) : Prop where
  lawful : c.affinity.Lawful
  size : c.nodes.length = c.affinity.nodes
  running : c.Running
  home : ∀ key, c.inflight (c.affinity.primary key) .owned key = []

theorem Coherent.orderly {lapsed : Entry V → Prop} {c : Cluster κ V} (h : c.Coherent lapsed) :
    c.Orderly :=
  ⟨h.lawful, h.size, h.running, fun key => (h.inStep key).home⟩

theorem count_primary_recipients {c : Cluster κ V} (h : c.affinity.Lawful) (key : κ) :
    (c.recipients key .owned).count (c.affinity.primary key) = 0 :=
  List.count_eq_zero.2 (h.primary_not_mem_backups key)

variable [Hashable κ]

theorem Running.change {c : Cluster κ V} (h : c.Running) (x : Change κ V) :
    (c.change x).Running := by
  cases x with
  | count key event => exact h.recordPrimary key event
  | write key via value ttl =>
      obtain ⟨d, hd, hchange⟩ := c.exists_change_write key via value ttl
      exact hchange ▸ (hd.running h).putPrimary key value ttl
  | remove key event awaited =>
      simp only [Cluster.change]
      split
      · exact h.removePrimary key _ event awaited
      · exact h
  | share key via =>
      simp only [Cluster.change]
      split
      next entry reader _ _ => exact (h.register key reader).ship reader _
      next => exact h
  | note node target event =>
      exact h.modifyNode _ fun n => congrArg _ (n.inbox_withStore target _)
  | drop node target key event now =>
      simp only [Cluster.change]
      split
      · exact h.modifyNode _ fun n => congrArg _ (n.inbox_withStore target _)
      · exact h
  | deliver node => exact h.deliver node

variable [LawfulEqOrd κ]

omit [TransOrd κ] [Hashable κ] in
theorem Orderly.awaits {c : Cluster κ V} (h : c.Orderly) {node : Nat} {m : Message κ V}
    {rest : List (Message κ V)} (hqueue : c.queue node = m :: rest) : c.Awaits node m := by
  refine ⟨h.running, ⟨rest, hqueue⟩, ?_⟩
  rintro htarget rfl
  have hmem : m.update ∈ c.inflight (c.affinity.primary m.update.key) .owned m.update.key := by
    refine List.mem_map.2 ⟨m, List.mem_filter.2 ⟨?_, by simp [htarget]⟩, rfl⟩
    rw [hqueue]
    exact List.mem_cons_self
  rw [h.home] at hmem
  cases hmem

namespace Orderly

variable {c : Cluster κ V}

omit [LawfulEqOrd κ] in
theorem deliver (h : c.Orderly) (node : Nat) : (c.deliver node).Orderly := by
  have hlayout := sameLayout_change c (.deliver node)
  refine ⟨h.lawful, hlayout.size.trans h.size, h.running.deliver node, ?_⟩
  intro key
  cases hqueue : c.queue node with
  | nil =>
      rw [deliver_of_nil hqueue]
      exact h.home key
  | cons m rest =>
      have hinflight := inflight_deliver h.running hqueue (c.affinity.primary key) .owned key
      rw [h.home] at hinflight
      exact (List.append_eq_nil_iff.1 hinflight.symm).2

theorem change (h : c.Orderly) (x : Change κ V) : (c.change x).Orderly := by
  have hlayout := sameLayout_change c x
  refine ⟨hlayout.affinity ▸ h.lawful, ?_, h.running.change x, ?_⟩
  · rw [hlayout.size, hlayout.affinity, h.size]
  intro other
  rw [hlayout.affinity]
  cases x with
  | count key event =>
      exact (c.inflight_recordPrimary key event _ _ other).trans (h.home other)
  | write key via value ttl =>
      obtain ⟨d, hd, hchange⟩ := c.exists_change_write key via value ttl
      rw [hchange, inflight_putPrimary (hd.running h.running), hd.inflight, h.home]
      split
      next hslot =>
        obtain rfl : key = other := by simpa using hslot.2
        rw [← hd.layout.affinity, count_primary_recipients (hd.layout.affinity ▸ h.lawful)]
        rfl
      next => rfl
  | remove key event awaited =>
      simp only [Cluster.change]
      split
      · rw [inflight_removePrimary h.running, h.home]
        split
        next hslot =>
          obtain rfl : key = other := by simpa using hslot.2
          rw [count_primary_recipients h.lawful]
          rfl
        next => rfl
      · exact h.home other
  | share key via =>
      simp only [Cluster.change]
      split
      next entry reader _ _ =>
        rw [inflight_ship (h.running.register key reader),
          if_neg (fun hslot => by cases hslot.2.2.1), List.append_nil, inflight_register]
        exact h.home other
      next => exact h.home other
  | note node target event => exact (c.inflight_note node target event ..).trans (h.home other)
  | drop node target key event now =>
      exact (c.inflight_drop node target key event now ..).trans (h.home other)
  | deliver node => exact (h.deliver node).home other

theorem stored?_deliver (h : c.Orderly) (node : Nat) (key : κ) :
    (c.deliver node).stored? key = c.stored? key := by
  cases hqueue : c.queue node with
  | nil => rw [deliver_of_nil hqueue]
  | cons m rest => exact (h.awaits hqueue).stored?_deliver key

end Orderly

/-! ## Deliveries in turn -/

/-- Deliver the oldest message at each of the nodes, in turn. -/
def deliverAll (c : Cluster κ V) (nodes : List Nat) : Cluster κ V :=
  nodes.foldl deliver c

omit [LawfulEqOrd κ] in
theorem sameLayout_deliverAll (c : Cluster κ V) (nodes : List Nat) :
    SameLayout c (c.deliverAll nodes) := by
  induction nodes generalizing c with
  | nil => exact SameLayout.refl c
  | cons node rest ih => exact (sameLayout_change c (.deliver node)).trans (ih (c.deliver node))

namespace Orderly

variable {c : Cluster κ V}

omit [LawfulEqOrd κ] in
theorem deliverAll (h : c.Orderly) (nodes : List Nat) : (c.deliverAll nodes).Orderly := by
  induction nodes generalizing c with
  | nil => exact h
  | cons node rest ih => exact ih (h.deliver node)

theorem stored?_deliverAll (h : c.Orderly) (nodes : List Nat) (key : κ) :
    (c.deliverAll nodes).stored? key = c.stored? key := by
  induction nodes generalizing c with
  | nil => rfl
  | cons node rest ih => exact (ih (h.deliver node)).trans (h.stored?_deliver node key)

/-- Deliveries can be put off past a change on a primary. Some of them may then find an inbox that is
no longer empty, and are not made. -/
theorem change_deliverAll (h : c.Orderly) {x : Change κ V} (hx : x.OnPrimary) (nodes : List Nat) :
    ∃ later, (c.deliverAll nodes).change x = (c.change x).deliverAll later := by
  induction nodes generalizing c with
  | nil => exact ⟨[], rfl⟩
  | cons node rest ih =>
      obtain ⟨later, hlater⟩ := ih (h.deliver node)
      cases hqueue : c.queue node with
      | nil =>
          rw [deliver_of_nil hqueue] at hlater
          refine ⟨later, ?_⟩
          rw [← hlater]
          change ((c.deliver node).deliverAll rest).change x = _
          rw [deliver_of_nil hqueue]
      | cons m queue =>
          refine ⟨node :: later, ?_⟩
          change ((c.deliver node).deliverAll rest).change x = ((c.change x).deliver node).deliverAll later
          rw [hlater, deliver_change (h.awaits hqueue) hx]

theorem follow (h : c.Orderly) (trace : List (Change κ V)) : (c.follow trace).Orderly :=
  follow_induction trace (fun _ x _ hd => hd.change x) c h

/-- Deliveries can be put off past all changes of a trace on primaries. -/
theorem follow_deliverAll (h : c.Orderly) (trace : List (Change κ V))
    (htrace : ∀ x ∈ trace, x.OnPrimary) (nodes : List Nat) :
    ∃ later, (c.deliverAll nodes).follow trace = (c.follow trace).deliverAll later := by
  induction trace generalizing c nodes with
  | nil => exact ⟨nodes, rfl⟩
  | cons x rest ih =>
      have hx := htrace x List.mem_cons_self
      obtain ⟨later, hlater⟩ := h.change_deliverAll hx nodes
      simp only [follow_cons, hlater]
      exact ih (h.change x) (fun y hy => htrace y (List.mem_cons_of_mem x hy)) later

end Orderly

/-! ## Delivering everything -/

omit [LawfulEqOrd κ] in
/-- Delivering a message first changes nothing for who delivers all of them. -/
theorem settle_deliver {c : Cluster κ V} (h : c.Running) (node : Nat) :
    (c.deliver node).settle = c.settle := by
  have hnodes : (c.deliver node).nodes.settle = c.nodes.settle := by
    apply List.ext_getElem?
    intro other
    simp only [Network.settle, List.getElem?_map, getElem?_deliver, Option.map_map]
    cases hn : c.nodes[other]? with
    | none => rfl
    | some n =>
        simp only [Option.map_some, Function.comp_apply]
        split
        · rw [Node.settle_deliver (h other n hn)]
        · rfl
  simp only [settle, hnodes]
  rfl

omit [LawfulEqOrd κ] in
/-- Without messages there is nothing to deliver. -/
theorem settle_of_quiet {c : Cluster κ V} (h : c.Running) (hquiet : c.Quiet) : c.settle = c := by
  have hnodes : c.nodes.settle = c.nodes := by
    refine (List.map_congr_left fun n hn => ?_).trans (List.map_id _)
    obtain ⟨node, hnode⟩ := List.mem_iff_getElem?.1 hn
    exact Node.settle_of_nil (h node n hnode) (hquiet n hn)
  simp only [settle, hnodes]

omit [LawfulEqOrd κ] in
theorem settle_deliverAll {c : Cluster κ V} (h : c.Running) (nodes : List Nat) :
    (c.deliverAll nodes).settle = c.settle := by
  induction nodes generalizing c with
  | nil => rfl
  | cons node rest ih => exact (ih (h.deliver node)).trans (settle_deliver h node)

omit [LawfulEqOrd κ] [Hashable κ] in
theorem orderly_start {config : CacheConfig} {nodes : Nat} {affinity : Affinity κ} {c : Cluster κ V}
    (h : start config nodes affinity = .ok c) (hlawful : affinity.Lawful) : c.Orderly :=
  (coherent_start h hlawful fun _ => True).orderly

end Cluster

namespace System

variable {κ : Type u} {V : Type v} [Ord κ] [TransOrd κ] [LawfulEqOrd κ] [Hashable κ]
variable [DecidableEq V] [Append V] [Inhabited V]

/-- However a cluster is used, its inboxes are served, and no decision comes back to where it was
made. -/
theorem orderly_run {config : CacheConfig} {nodes : Nat} {affinity : Affinity κ}
    {c₀ : Cluster κ V} (hstart : Cluster.start config nodes affinity = .ok c₀)
    (hlawful : affinity.Lawful) (now : Millis) (moves : List (Move κ V)) :
    (run moves { cluster := c₀, clock := now }).1.cluster.Orderly := by
  rw [run_cluster]
  exact (Cluster.orderly_start hstart hlawful).follow _

end System

end Ephemera
