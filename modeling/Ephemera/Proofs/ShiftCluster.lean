import Ephemera.Proofs.Mirror
import Ephemera.Proofs.Shift

/-! # A cluster ahead of another

One cluster is ahead of another if all its expire times are later by one gap and nothing else differs.
An operation, a sweep or a delivery on the one, at a reading that is later by the gap, keeps it ahead
and has the result that it has on the other.
-/

namespace Ephemera

open Std

universe u v w

/-! ## Messages and nodes -/

namespace Update

variable {κ : Type u} {V : Type v}

/-- The change with the copy moved. -/
def shift (gap : Millis) : Update κ V → Update κ V
  | put key entry => put key (entry.shift gap)
  | remove key version => remove key version

/-- A copy that is shipped has room to be moved. -/
def RoomFor (gap : Millis) : Update κ V → Prop
  | put _ entry => entry.ttl.RoomFor gap
  | remove .. => True

@[simp]
theorem key_shift (update : Update κ V) (gap : Millis) : (update.shift gap).key = update.key := by
  cases update <;> rfl

@[simp]
theorem isRemove_shift (update : Update κ V) (gap : Millis) :
    (update.shift gap).isRemove = update.isRemove := by
  cases update <;> rfl

end Update

/-- The message with the copy moved. -/
def Message.shift {κ : Type u} {V : Type v} (gap : Millis) (m : Message κ V) : Message κ V :=
  { m with update := m.update.shift gap }

namespace Node

variable {κ : Type u} {V : Type v} [Ord κ] [TransOrd κ] {gap : Millis}

/-- The node with all expire times moved, those in its inbox as well. -/
def shift (n : Node κ V) (gap : Millis) : Node κ V :=
  { n with
    owned := n.owned.shift gap
    near := n.near.shift gap
    inbox := { n.inbox with queue := n.inbox.queue.map (·.shift gap) } }

/-- All expire times on the node can be moved. -/
structure RoomFor (gap : Millis) (n : Node κ V) : Prop where
  stores : ∀ target, (n.store target).RoomFor gap
  queue : ∀ m ∈ n.inbox.queue, m.update.RoomFor gap

theorem store_shift (n : Node κ V) (target : Target) :
    (n.shift gap).store target = (n.store target).shift gap := by
  cases target <;> rfl

theorem withStore_shift (n : Node κ V) (target : Target) (s : Store κ V) :
    (n.shift gap).withStore target (s.shift gap) = (n.withStore target s).shift gap := by
  cases target <;> rfl

theorem stats_shift (n : Node κ V) : (n.shift gap).stats = n.stats := by
  simp only [stats, shift, Store.stats_shift]

theorem push_shift (n : Node κ V) (m : Message κ V) :
    (n.shift gap).push (m.shift gap) = (n.push m).shift gap := by
  have haccepts : (n.shift gap).inbox.accepts = n.inbox.accepts := rfl
  unfold push Inbox.push
  rw [haccepts]
  split
  · simp only [shift, List.map_append, List.map_cons, List.map_nil]
  · rfl

namespace RoomFor

variable {n : Node κ V}

/-- A node with the same stores, on which nothing else is queued. -/
theorem of_fewer {m : Node κ V} (h : n.RoomFor gap) (howned : m.owned = n.owned)
    (hnear : m.near = n.near) (hqueue : ∀ q ∈ m.inbox.queue, q ∈ n.inbox.queue) : m.RoomFor gap where
  stores target := by
    cases target with
    | owned =>
        change m.owned.RoomFor gap
        rw [howned]
        exact h.stores .owned
    | near =>
        change m.near.RoomFor gap
        rw [hnear]
        exact h.stores .near
  queue q hq := h.queue q (hqueue q hq)

theorem withStore (h : n.RoomFor gap) (target : Target) {s : Store κ V} (hs : s.RoomFor gap) :
    (n.withStore target s).RoomFor gap where
  stores other := by
    rw [store_withStore]
    split
    · exact hs
    · exact h.stores other
  queue := by
    rw [inbox_withStore]
    exact h.queue

theorem push (h : n.RoomFor gap) {m : Message κ V} (hm : m.update.RoomFor gap) :
    (n.push m).RoomFor gap where
  stores target := by
    rw [store_push]
    exact h.stores target
  queue other hother := by
    simp only [Node.push, Inbox.push] at hother
    split at hother
    · rcases List.mem_append.1 hother with hqueued | hnew
      · exact h.queue other hqueued
      · rw [List.mem_singleton.1 hnew]
        exact hm
    · exact h.queue other hother

variable [LawfulEqOrd κ] [Hashable κ]

/-- A moved change applied to the moved node. -/
theorem apply_shift (h : n.RoomFor gap) (target : Target) {update : Update κ V}
    (hupdate : update.RoomFor gap) :
    (n.apply target update).1.RoomFor gap ∧
      (n.shift gap).apply target (update.shift gap) =
        ((n.apply target update).1.shift gap, (n.apply target update).2) := by
  unfold apply
  rw [store_shift]
  cases update with
  | put key entry =>
      obtain ⟨hroom, heq⟩ := Store.install_shift (h.stores target) key hupdate
      simp only [Update.shift, heq]
      exact ⟨h.withStore target hroom, Prod.ext (n.withStore_shift target _) rfl⟩
  | remove key version =>
      obtain ⟨hroom, heq⟩ := Store.removeVersion_shift (h.stores target) key version
      simp only [Update.shift, heq]
      exact ⟨h.withStore target hroom, Prod.ext (n.withStore_shift target _) rfl⟩

theorem deliver_shift (h : n.RoomFor gap) :
    n.deliver.1.RoomFor gap ∧ (n.shift gap).deliver.1 = n.deliver.1.shift gap := by
  have hservice : (n.shift gap).inbox.service = n.inbox.service := rfl
  have hqueue : (n.shift gap).inbox.queue = n.inbox.queue.map (·.shift gap) := rfl
  unfold deliver
  rw [hservice, hqueue]
  cases n.inbox.service with
  | stopping | stopped => exact ⟨h, rfl⟩
  | running =>
      cases hmessages : n.inbox.queue with
      | nil => exact ⟨h, rfl⟩
      | cons m rest =>
          have hm : ∀ other ∈ m :: rest, other.update.RoomFor gap := hmessages ▸ h.queue
          have hrest : ({ n with inbox := { n.inbox with queue := rest } } : Node κ V).RoomFor gap :=
            h.of_fewer rfl rfl fun other hother => hmessages ▸ List.mem_cons_of_mem m hother
          obtain ⟨hroom, heq⟩ := hrest.apply_shift m.target (hm m List.mem_cons_self)
          exact ⟨hroom, congrArg Prod.fst heq⟩

end RoomFor

end Node

/-! ## Effects -/

namespace Effect

variable {V : Type v} {gap : Millis}

/-- The effect with lifetimes moved. -/
def shift (gap : Millis) : Effect V → Effect V
  | write value ttl => write value (ttl.shift gap)
  | share entry => share (entry.shift gap)
  | drop version => drop version
  | remove version => remove version
  | nothing => nothing

/-- What the effect stores or ships has room to be moved. -/
def RoomFor (gap : Millis) : Effect V → Prop
  | write _ ttl => ttl.RoomFor gap
  | share entry => entry.ttl.RoomFor gap
  | drop _ | remove _ | nothing => True

theorem ofPlan_shift (stored live : Option (Entry V)) (p : Plan V) :
    ofPlan (stored.map (·.shift gap)) (live.map (·.shift gap)) (p.shift gap) =
      (ofPlan stored live p).shift gap := by
  cases p with
  | put => rfl
  | remove | unchanged => cases live <;> cases stored <;> rfl

theorem roomFor_ofPlan {stored live : Option (Entry V)} {p : Plan V}
    (hlive : ∀ entry, live = some entry → entry.ttl.RoomFor gap)
    (hplan : ∀ value ttl kind, p = .put value ttl kind → ttl.RoomFor gap) :
    (ofPlan stored live p).RoomFor gap := by
  cases p with
  | put value ttl kind => exact hplan value ttl kind rfl
  | remove => cases live <;> cases stored <;> trivial
  | unchanged =>
      cases live with
      | none => cases stored <;> trivial
      | some entry => exact hlive entry rfl

end Effect

namespace Cluster

variable {κ : Type u} {V : Type v} {ρ : Type w} [Ord κ] [TransOrd κ] {gap now : Millis}

/-- The cluster with all expire times moved. -/
def shift (c : Cluster κ V) (gap : Millis) : Cluster κ V :=
  { c with nodes := c.nodes.map (·.shift gap) }

/-- All expire times of the cluster can be moved. -/
def RoomFor (gap : Millis) (c : Cluster κ V) : Prop :=
  ∀ (node : Nat) (n : Node κ V), c.nodes[node]? = some n → n.RoomFor gap

/-- One cluster is the other with all expire times moved, for which there is room. -/
structure Ahead (gap : Millis) (c d : Cluster κ V) : Prop where
  room : c.RoomFor gap
  eq : d = c.shift gap

theorem getElem?_shift (c : Cluster κ V) (node : Nat) :
    (c.shift gap).nodes[node]? = c.nodes[node]?.map (·.shift gap) :=
  List.getElem?_map ..

namespace Ahead

variable {c d : Cluster κ V}

theorem affinity (h : Ahead gap c d) : d.affinity = c.affinity := by
  rw [h.eq]
  rfl

theorem config (h : Ahead gap c d) : d.config = c.config := by
  rw [h.eq]
  rfl

theorem version (h : Ahead gap c d) : d.version = c.version := by
  rw [h.eq]
  rfl

theorem size (h : Ahead gap c d) : d.nodes.length = c.nodes.length := by
  rw [h.eq]
  exact List.length_map _

theorem nearReader (h : Ahead gap c d) : d.nearReader = c.nearReader := by
  rw [h.eq]
  rfl

theorem getElem? (h : Ahead gap c d) (node : Nat) :
    d.nodes[node]? = c.nodes[node]?.map (·.shift gap) := by
  rw [h.eq]
  exact c.getElem?_shift node

/-! ### What is read -/

section Reading

variable [LawfulEqOrd κ]

omit [LawfulEqOrd κ] in
theorem roomFor_copy (h : Ahead gap c d) {node : Nat} {target : Target} {key : κ} {entry : Entry V}
    (hcopy : c.copy? node target key = some entry) : entry.ttl.RoomFor gap := by
  obtain ⟨n, hn, hget⟩ := Option.bind_eq_some_iff.1 hcopy
  exact ((h.room node n hn).stores target).copies key entry hget

theorem copy? (h : Ahead gap c d) (node : Nat) (target : Target) (key : κ) :
    d.copy? node target key = (c.copy? node target key).map (·.shift gap) := by
  cases hn : c.nodes[node]? with
  | none =>
      have hnone : d.nodes[node]? = none := by rw [h.getElem?, hn]; rfl
      rw [copy?_of_none hn, copy?_of_none hnone]
      rfl
  | some n =>
      have hsome : d.nodes[node]? = some (n.shift gap) := by rw [h.getElem?, hn]; rfl
      rw [copy?_of_some hn, copy?_of_some hsome, Node.store_shift, Store.get?_shift]

theorem stored? (h : Ahead gap c d) (key : κ) : d.stored? key = (c.stored? key).map (·.shift gap) := by
  rw [← copy?_primary, ← copy?_primary, h.affinity]
  exact h.copy? _ .owned key

omit [LawfulEqOrd κ] in
theorem roomFor_stored (h : Ahead gap c d) {key : κ} {entry : Entry V}
    (hstored : c.stored? key = some entry) : entry.ttl.RoomFor gap :=
  h.roomFor_copy ((copy?_primary c key).trans hstored)

theorem live? (h : Ahead gap c d) (key : κ) (hnow : Millis.RoomFor gap now) :
    d.live? key (now + gap) = (c.live? key now).map (·.shift gap) := by
  unfold Cluster.live?
  rw [h.stored?]
  exact Entry.filter_live_shift (fun _ => h.roomFor_stored) hnow

omit [LawfulEqOrd κ] in
theorem roomFor_live (h : Ahead gap c d) {key : κ} {entry : Entry V}
    (hlive : c.live? key now = some entry) : entry.ttl.RoomFor gap :=
  h.roomFor_stored (stored?_of_live? hlive)

theorem local? (h : Ahead gap c d) (node : Nat) (key : κ) :
    d.local? node key = (c.local? node key).map (·.shift gap) := by
  rw [local?_eq, local?_eq, h.affinity]
  exact h.copy? _ _ key

omit [LawfulEqOrd κ] in
theorem readers? (h : Ahead gap c d) (node : Nat) (key : κ) :
    d.readers? node key = c.readers? node key := by
  unfold Cluster.readers?
  rw [h.getElem?]
  cases c.nodes[node]? <;> rfl

omit [LawfulEqOrd κ] in
/-- Every node counts the same. -/
theorem stats_nodes (h : Ahead gap c d) : d.nodes.map (·.stats) = c.nodes.map (·.stats) := by
  rw [h.eq]
  simp only [Cluster.shift, List.map_map]
  exact List.map_congr_left fun n _ => n.stats_shift

omit [LawfulEqOrd κ] in
theorem queue (h : Ahead gap c d) (node : Nat) : d.queue node = (c.queue node).map (·.shift gap) := by
  unfold Cluster.queue
  rw [h.getElem?]
  cases c.nodes[node]? <;> rfl

omit [LawfulEqOrd κ] in
theorem roomFor_queue (h : Ahead gap c d) {node : Nat} {m : Message κ V} (hm : m ∈ c.queue node) :
    m.update.RoomFor gap := by
  unfold Cluster.queue at hm
  cases hn : c.nodes[node]? with
  | none => simp [hn] at hm
  | some n =>
      rw [hn] at hm
      exact (h.room node n hn).queue m hm

omit [LawfulEqOrd κ] in
theorem roomFor_local (h : Ahead gap c d) {node : Nat} {key : κ} {entry : Entry V}
    (hlocal : c.local? node key = some entry) : entry.ttl.RoomFor gap := by
  rw [local?_eq] at hlocal
  exact h.roomFor_copy hlocal

omit [LawfulEqOrd κ] in
theorem readersOf (h : Ahead gap c d) (key : κ) : d.readersOf key = c.readersOf key := by
  unfold Cluster.readersOf
  rw [h.affinity, h.getElem?, Option.map_map]
  rfl

theorem keys (h : Ahead gap c d) : d.keys = c.keys := by
  refine d.keys_eq fun key => ?_
  rw [h.stored?, Option.isSome_map, ← mem_keys_iff, Cluster.keys, ExtTreeSet.mem_toList]

end Reading

/-! ### What is changed -/

section Changing

variable [LawfulEqOrd κ] [Hashable κ]

omit [LawfulEqOrd κ] [Hashable κ] in
/-- A change of the one node and the same change of the moved node. -/
theorem modifyNode (h : Ahead gap c d) (node : Nat) {f g : Node κ V → Node κ V}
    (hfg : ∀ n, c.nodes[node]? = some n → n.RoomFor gap →
      (f n).RoomFor gap ∧ g (n.shift gap) = (f n).shift gap) :
    Ahead gap (c.modifyNode node f) (d.modifyNode node g) where
  room other n hn := by
    rw [getElem?_modifyNode, Option.map_eq_some_iff] at hn
    obtain ⟨m, hm, rfl⟩ := hn
    split
    next heq => exact (hfg m (heq ▸ hm) (h.room other m hm)).1
    next => exact h.room other m hm
  eq := by
    rw [h.eq]
    unfold Cluster.modifyNode shift
    congr 1
    refine List.ext_getElem? fun other => ?_
    simp only [List.getElem?_modify, List.getElem?_map]
    cases hm : c.nodes[other]? with
    | none => rfl
    | some m =>
        simp only [Option.map_some, Option.map_eq_map, Option.some.injEq]
        split
        next heq => exact (hfg m (heq ▸ hm) (h.room other m hm)).2
        next => rfl

omit [LawfulEqOrd κ] [Hashable κ] in
theorem ship (h : Ahead gap c d) (node : Nat) {m : Message κ V} (hm : m.update.RoomFor gap) :
    Ahead gap (c.ship node m) (d.ship node (m.shift gap)) :=
  h.modifyNode node fun n _ hn => ⟨hn.push hm, n.push_shift m⟩

omit [LawfulEqOrd κ] [Hashable κ] in
theorem shipAll (h : Ahead gap c d) (nodes : List Nat) {m : Message κ V} (hm : m.update.RoomFor gap) :
    Ahead gap (c.shipAll nodes m) (d.shipAll nodes (m.shift gap)) := by
  induction nodes generalizing c d with
  | nil => exact h
  | cons node rest ih => exact ih (h.ship node hm)

omit [LawfulEqOrd κ] [Hashable κ] in
theorem modifyPrimary (h : Ahead gap c d) (key : κ) {f g : Node κ V → Node κ V}
    (hfg : ∀ n : Node κ V, n.RoomFor gap → (f n).RoomFor gap ∧ g (n.shift gap) = (f n).shift gap) :
    Ahead gap (c.modifyPrimary key f) (d.modifyPrimary key g) := by
  unfold Cluster.modifyPrimary
  rw [h.affinity]
  exact h.modifyNode _ fun n _ hn => hfg n hn

omit [LawfulEqOrd κ] [Hashable κ] in
theorem dismiss (h : Ahead gap c d) (update : Update κ V) :
    Ahead gap (c.dismiss update) (d.dismiss (update.shift gap)) := by
  unfold Cluster.dismiss
  rw [update.key_shift, update.isRemove_shift]
  split
  · exact h.modifyPrimary _ fun _ hn => ⟨hn.of_fewer rfl rfl fun _ hq => hq, rfl⟩
  · exact h

omit [LawfulEqOrd κ] [Hashable κ] in
theorem fanOut (h : Ahead gap c d) {update : Update κ V} (hupdate : update.RoomFor gap)
    (awaited : Bool) : Ahead gap (c.fanOut update awaited) (d.fanOut (update.shift gap) awaited) := by
  have hrecipients : ∀ target, d.recipients (update.shift gap).key target =
      c.recipients update.key target := by
    intro target
    rw [update.key_shift]
    cases target with
    | owned => simp only [recipients, h.affinity]
    | near => exact h.readersOf update.key
  rw [fanOut_eq, fanOut_eq, hrecipients, hrecipients]
  exact ((h.shipAll _ hupdate).dismiss update).shipAll _ hupdate

omit [LawfulEqOrd κ] [Hashable κ] in
theorem register (h : Ahead gap c d) (key : κ) (reader : Nat) :
    Ahead gap (c.register key reader) (d.register key reader) :=
  h.modifyPrimary key fun _ hn => ⟨hn.of_fewer rfl rfl fun _ hq => hq, rfl⟩

omit [LawfulEqOrd κ] [Hashable κ] in
theorem recordPrimary (h : Ahead gap c d) (key : κ) (event : StoreEvent) :
    Ahead gap (c.recordPrimary key event) (d.recordPrimary key event) :=
  h.modifyPrimary key fun _ hn => ⟨hn.withStore .owned ((hn.stores .owned).record event), rfl⟩

theorem writePrimary (h : Ahead gap c d) (key : κ) {change : Write V} (hchange : change.RoomFor gap) :
    Ahead gap (c.writePrimary key change) (d.writePrimary key (change.shift gap)) :=
  h.modifyPrimary key fun n hn => by
    refine ⟨hn.withStore .owned ((hn.stores .owned).write key hchange), ?_⟩
    exact (congrArg ((n.shift gap).withStore .owned) (n.owned.write_shift key hchange)).trans
      (n.withStore_shift .owned _)

theorem putPrimary (h : Ahead gap c d) (key : κ) (value : V) {ttl : Ttl} (httl : ttl.RoomFor gap) :
    Ahead gap (c.putPrimary key value ttl) (d.putPrimary key value (ttl.shift gap)) := by
  obtain ⟨hroom, rfl⟩ := h
  let entry : Entry V := { value, version := c.version + 1, ttl }
  -- Both clusters draw the same version.
  have hdrawn : Ahead gap { c with version := entry.version }
      { c.shift gap with version := entry.version } := ⟨hroom, rfl⟩
  have hput : (Update.put key entry).RoomFor gap := httl
  have hwrite : (Write.put entry).RoomFor gap := httl
  exact (hdrawn.fanOut hput c.config.synchronous).writePrimary key hwrite

theorem removePrimary (h : Ahead gap c d) (key : κ) (version : UInt64) (event : StoreEvent)
    (awaited : Bool) :
    Ahead gap (c.removePrimary key version event awaited)
      (d.removePrimary key version event awaited) := by
  have hupdate : (Update.remove key version : Update κ V).RoomFor gap := trivial
  have hwrite : (Write.remove : Write V).RoomFor gap := trivial
  exact ((h.recordPrimary key event).fanOut hupdate awaited).writePrimary key hwrite

theorem deliver (h : Ahead gap c d) (node : Nat) : Ahead gap (c.deliver node) (d.deliver node) :=
  h.modifyNode node fun _ _ hn => hn.deliver_shift

/-- A moved effect. -/
theorem apply (h : Ahead gap c d) (key : κ) (reader : Option Nat) {effect : Effect V}
    (heffect : effect.RoomFor gap) :
    Ahead gap (c.apply key reader effect) (d.apply key reader (effect.shift gap)) := by
  cases effect with
  | write value ttl =>
      cases reader with
      | none => exact h.putPrimary key value heffect
      | some reader => exact (h.register key reader).putPrimary key value heffect
  | drop version | remove version =>
      simp only [Cluster.apply, Effect.shift, h.config]
      exact h.removePrimary key version _ _
  | share entry =>
      cases reader with
      | none => exact h
      | some reader =>
          simp only [Cluster.apply, Effect.shift, h.config]
          have hupdate : (Update.put key entry).RoomFor gap := heffect
          exact (h.register key reader).ship reader hupdate
  | nothing => exact h

end Changing

end Ahead

/-! ## Operations -/

/-- One thing done to a cluster, and to another that is ahead: it stays ahead, and the result is the
same. -/
structure Alongside (gap : Millis) (p q : Cluster κ V × ρ) : Prop where
  ahead : Ahead gap p.1 q.1
  result : q.2 = p.2

namespace Ahead

variable [LawfulEqOrd κ] [Hashable κ] {c d : Cluster κ V} {policy : Policy}

/-- An operation on the primary of a key, at the moved reading. -/
theorem execute (h : Ahead gap c d) (hnow : Millis.RoomFor gap now) (hfits : policy.Fits gap now)
    (key : κ) (reader : Option Nat) (decide : Decision V ρ) :
    Alongside gap (c.execute key policy reader now decide)
      (d.execute key policy reader (now + gap) decide) := by
  have hvalue : (d.live? key (now + gap)).map (·.value) = (c.live? key now).map (·.value) := by
    rw [h.live? key hnow, Option.map_map]
    rfl
  have hcontent : (d.live? key (now + gap)).map (·.content) =
      ((c.live? key now).map (·.content)).map (shiftPair gap) := by
    rw [h.live? key hnow, Option.map_map, Option.map_map]
    rfl
  have hroom : ∀ pair, (c.live? key now).map (·.content) = some pair → pair.2.RoomFor gap := by
    intro pair hpair
    obtain ⟨entry, hentry, rfl⟩ := Option.map_eq_some_iff.1 hpair
    exact h.roomFor_live hentry
  have hplan : ∀ intent, plan ((d.live? key (now + gap)).map (·.content)) intent policy (now + gap) =
      (plan ((c.live? key now).map (·.content)) intent policy now).shift gap := by
    intro intent
    rw [hcontent]
    exact plan_shift hroom hfits hnow intent
  unfold Cluster.execute
  simp only
  rw [hvalue, hplan, h.stored?, h.live? key hnow, Option.isSome_map, Effect.ofPlan_shift]
  refine ⟨Ahead.apply ?_ key reader (Effect.roomFor_ofPlan (fun _ => h.roomFor_live) fun _ _ _ =>
    roomFor_of_plan hroom hfits), rfl⟩
  cases (decide ((c.live? key now).map (·.value))).1 with
  | read => exact h.recordPrimary key _
  | write | remove | ignore => exact h

theorem executeAll (h : Ahead gap c d) (hnow : Millis.RoomFor gap now) (hfits : policy.Fits gap now)
    (reader : κ → Option Nat) (decisions : List (κ × Decision V ρ)) :
    Alongside gap (Cluster.executeAll policy reader now decisions c)
      (Cluster.executeAll policy reader (now + gap) decisions d) := by
  induction decisions generalizing c d with
  | nil => exact ⟨h, rfl⟩
  | cons head rest ih =>
      obtain ⟨key, decide⟩ := head
      obtain ⟨hhead, hresult⟩ := h.execute hnow hfits key (reader key) decide
      obtain ⟨hrest, hresults⟩ := ih hhead
      exact ⟨hrest, congrArg₂ List.cons hresult hresults⟩

theorem readStore (h : Ahead gap c d) (hnow : Millis.RoomFor gap now) (node : Nat) (target : Target)
    (key : κ) :
    Ahead gap (c.readStore node target key now).1 (d.readStore node target key (now + gap)).1 ∧
      (d.readStore node target key (now + gap)).2 =
        (c.readStore node target key now).2.map (·.shift gap) := by
  unfold Cluster.readStore
  rw [h.getElem?]
  cases hn : c.nodes[node]? with
  | none => exact ⟨h, rfl⟩
  | some n =>
      obtain ⟨hroom, heq⟩ := Store.read_shift ((h.room node n hn).stores target) key hnow
      simp only [Option.map_some, Node.store_shift, heq]
      refine ⟨h.modifyNode node fun m hm hroom' => ?_, trivial⟩
      exact ⟨hroom'.withStore target hroom, m.withStore_shift target _⟩

theorem readLocal (h : Ahead gap c d) (hnow : Millis.RoomFor gap now) (node : Nat) (key : κ) :
    Ahead gap (c.readLocal node key now).1 (d.readLocal node key (now + gap)).1 ∧
      (d.readLocal node key (now + gap)).2 = (c.readLocal node key now).2.map (·.shift gap) := by
  unfold Cluster.readLocal
  rw [h.affinity, h.config]
  split
  · exact ⟨h, rfl⟩
  · exact h.readStore hnow node .owned key
  · split
    · exact h.readStore hnow node .near key
    · exact ⟨h, rfl⟩

omit [LawfulEqOrd κ] [Hashable κ] in
theorem call (h : Ahead gap c d) (node : Nat) (scope : Option Policy) (now : Millis) :
    d.call node scope (now + gap) =
      (c.call node scope now).map fun call => { call with now := call.now + gap } := by
  unfold Cluster.call
  rw [h.size, h.config]
  split <;> rfl

variable {call : Call}

theorem run (h : Ahead gap c d) (hnow : Millis.RoomFor gap call.now)
    (hfits : call.policy.Fits gap call.now) (key : κ) (decide : Decision V ρ) :
    Alongside gap (c.run call key decide)
      (d.run { call with now := call.now + gap } key decide) := by
  unfold Cluster.run
  rw [h.nearReader]
  exact h.execute hnow hfits key _ decide

theorem runAll (h : Ahead gap c d) (hnow : Millis.RoomFor gap call.now)
    (hfits : call.policy.Fits gap call.now) (decisions : List (κ × Decision V ρ)) :
    Alongside gap (c.runAll call decisions)
      (d.runAll { call with now := call.now + gap } decisions) := by
  unfold Cluster.runAll
  rw [h.nearReader]
  exact h.executeAll hnow hfits _ decisions

theorem get (h : Ahead gap c d) (hnow : Millis.RoomFor gap call.now)
    (hfits : call.policy.Fits gap call.now) (key : κ) :
    Alongside gap (c.get call key) (d.get { call with now := call.now + gap } key) := by
  unfold Cluster.get
  simp only
  split
  · obtain ⟨hread, hfound⟩ := h.readLocal hnow call.node key
    cases hc : c.readLocal call.node key call.now with
    | mk c' found =>
        cases hd : d.readLocal call.node key (call.now + gap) with
        | mk d' found' =>
            rw [hc, hd] at hread hfound
            simp only at hread hfound
            subst hfound
            cases found with
            | none => exact hread.run hnow hfits key .get
            | some entry => exact ⟨hread, rfl⟩
  · exact h.run hnow hfits key .get

theorem getEach (h : Ahead gap c d) (hnow : Millis.RoomFor gap call.now)
    (hfits : call.policy.Fits gap call.now) (keys : List κ) :
    Alongside gap (Cluster.getEach call keys c)
      (Cluster.getEach { call with now := call.now + gap } keys d) := by
  induction keys generalizing c d with
  | nil => exact ⟨h, rfl⟩
  | cons key rest ih =>
      obtain ⟨hhead, hvalue⟩ := h.get hnow hfits key
      obtain ⟨hrest, hvalues⟩ := ih hhead
      exact ⟨hrest, congrArg₂ List.cons hvalue hvalues⟩

end Ahead

end Cluster

/-- The answer with expire times moved. Only a lifetime tells one. -/
def Answer.shift {κ : Type u} {V : Type v} [Ord κ] (gap : Millis) : Answer κ V → Answer κ V
  | ttl found => ttl (found.map (·.shift gap))
  | answer => answer

theorem Answer.shift_of_ne {κ : Type u} {V : Type v} [Ord κ] {gap : Millis} {answer : Answer κ V}
    (h : ∀ found, answer ≠ .ttl found) : answer.shift gap = answer := by
  cases answer with
  | ttl found => exact absurd rfl (h found)
  | done | flag | count | value | values | entries | replies => rfl

namespace Cluster.Ahead

variable {κ : Type u} {V : Type v} [Ord κ] [TransOrd κ] [LawfulEqOrd κ] [Hashable κ]
variable [DecidableEq V] [Append V] [Inhabited V] {gap : Millis} {c d : Cluster κ V} {call : Call}

/-- An operation performed at the moved reading has the moved answer. -/
theorem perform (h : Ahead gap c d) (hnow : Millis.RoomFor gap call.now)
    (hfits : call.policy.Fits gap call.now) (operation : Operation κ V) :
    Ahead gap (c.perform call operation).1
        (d.perform { call with now := call.now + gap } operation).1 ∧
      (d.perform { call with now := call.now + gap } operation).2 =
        (c.perform call operation).2.shift gap := by
  cases operation with
  | put key value =>
      obtain ⟨hahead, -⟩ := h.run hnow hfits key (.put value)
      exact ⟨hahead, rfl⟩
  | putAll entries =>
      obtain ⟨hahead, -⟩ := h.runAll hnow hfits (entries.map fun entry => (entry.1, .put entry.2))
      exact ⟨hahead, rfl⟩
  | putIfAbsent key value =>
      obtain ⟨hahead, hresult⟩ := h.run hnow hfits key (.putIfAbsent value)
      exact ⟨hahead, congrArg Answer.flag hresult⟩
  | get key =>
      obtain ⟨hahead, hresult⟩ := h.get hnow hfits key
      exact ⟨hahead, congrArg Answer.value hresult⟩
  | getAll keys =>
      obtain ⟨hahead, hresult⟩ := h.getEach hnow hfits keys
      refine ⟨hahead, ?_⟩
      change Answer.values (.ofList (found keys (Cluster.getEach _ keys d).2)) = _
      rw [hresult]
      rfl
  | remove key =>
      obtain ⟨hahead, hresult⟩ := h.run hnow hfits key .remove
      exact ⟨hahead, congrArg Answer.flag hresult⟩
  | removeAll keys =>
      obtain ⟨hahead, hresult⟩ := h.runAll hnow hfits (keys.map fun key => (key, .remove))
      refine ⟨hahead, ?_⟩
      change Answer.count ((d.runAll _ (keys.map fun key => (key, .remove))).2.countP id) = _
      rw [hresult]
      rfl
  | removeIfEquals key expected =>
      obtain ⟨hahead, hresult⟩ := h.run hnow hfits key (.removeIfEquals expected)
      exact ⟨hahead, congrArg Answer.flag hresult⟩
  | replace key value =>
      obtain ⟨hahead, hresult⟩ := h.run hnow hfits key (.replace value)
      exact ⟨hahead, congrArg Answer.flag hresult⟩
  | replaceIfEquals key expected value =>
      obtain ⟨hahead, hresult⟩ := h.run hnow hfits key (.replaceIfEquals expected value)
      exact ⟨hahead, congrArg Answer.flag hresult⟩
  | invoke key script =>
      obtain ⟨hahead, hresult⟩ := h.run hnow hfits key (.invoke script)
      exact ⟨hahead, congrArg Answer.replies hresult⟩
  | entries =>
      obtain ⟨hahead, hresult⟩ := h.executeAll hnow hfits (fun _ => none)
        (c.keys.map fun key => (key, .get))
      change Ahead gap _ (Cluster.executeAll _ _ _ (d.keys.map fun key => (key, .get)) d).1 ∧
        Answer.entries (found d.keys
          (Cluster.executeAll _ _ _ (d.keys.map fun key => (key, .get)) d).2) = _
      rw [h.keys]
      refine ⟨hahead, ?_⟩
      rw [hresult]
      rfl
  | localPeek key =>
      refine ⟨h, ?_⟩
      have hroom : ∀ entry, c.local? call.node key = some entry → entry.ttl.RoomFor gap :=
        fun _ => h.roomFor_local
      change Answer.value (((d.local? call.node key).filter _).map _) = _
      rw [h.local?, Entry.filter_live_shift hroom hnow, Option.map_map]
      rfl
  | peekTtl key =>
      refine ⟨h, ?_⟩
      change Answer.ttl ((d.local? call.node key).map _) = Answer.ttl (Option.map _ (Option.map _ _))
      rw [h.local?, Option.map_map, Option.map_map]
      rfl
  | ttl key =>
      refine ⟨h, ?_⟩
      change Answer.ttl ((d.live? key (call.now + gap)).map _) =
        Answer.ttl (Option.map _ (Option.map _ _))
      rw [h.live? key hnow, Option.map_map, Option.map_map]
      rfl

omit [LawfulEqOrd κ] in
/-- Every lifetime that is told can be moved. -/
theorem roomFor_answer (h : Ahead gap c d) {operation : Operation κ V} {found : Ttl}
    (hanswer : (c.perform call operation).2 = .ttl (some found)) : found.RoomFor gap := by
  cases operation with
  | peekTtl key =>
      obtain ⟨entry, hentry, rfl⟩ := Option.map_eq_some_iff.1 (Answer.ttl.inj hanswer)
      exact h.roomFor_local hentry
  | ttl key =>
      obtain ⟨entry, hentry, rfl⟩ := Option.map_eq_some_iff.1 (Answer.ttl.inj hanswer)
      exact h.roomFor_live hentry
  | put | putAll | putIfAbsent | get | getAll | remove | removeAll | removeIfEquals | replace |
    replaceIfEquals | invoke | entries | localPeek => cases hanswer

end Cluster.Ahead

/-! ## Sweeps -/

namespace Cluster.Ahead

variable {κ : Type u} {V : Type v} [Ord κ] [TransOrd κ] [LawfulEqOrd κ] [Hashable κ]
variable {gap now : Millis} {c d : Cluster κ V}

omit [LawfulEqOrd κ] [Hashable κ] in
theorem index? (h : Ahead gap c d) (node : Nat) (target : Target) :
    d.index? node target = (c.index? node target).map (·.shift gap) := by
  unfold Cluster.index?
  rw [h.getElem?]
  cases c.nodes[node]? with
  | none => rfl
  | some n => exact congrArg Store.index (n.store_shift target)

omit [LawfulEqOrd κ] [Hashable κ] in
theorem roomFor_index (h : Ahead gap c d) {node : Nat} {target : Target} {index : Index κ}
    (hindex : c.index? node target = some index) : index.RoomFor gap := by
  obtain ⟨n, hn, hstore⟩ := Option.bind_eq_some_iff.1 hindex
  exact ((h.room node n hn).stores target).index index hstore

/-- What is listed at a time is reclaimed at the moved time. -/
theorem reclaim (h : Ahead gap c d) (hnow : Millis.RoomFor gap now) (node : Nat) (target : Target)
    {listed : Deadline κ} (hlimit : listed.time ≠ 0) (htime : Millis.RoomFor gap listed.time) :
    Alongside gap (c.reclaim node target listed now)
      (d.reclaim node target (listed.shift gap) (now + gap)) := by
  -- What is listed is moved as a reading, and the expire time it is compared with as a limit.
  have hshift : listed.time + gap = Millis.shiftLimit gap listed.time := by
    simp only [Millis.shiftLimit, hlimit, if_false]
  unfold Cluster.reclaim
  rw [h.affinity]
  simp only [Deadline.shift, hshift]
  split
  · unfold reclaimPrimary
    simp only
    rw [h.stored?]
    cases hstored : c.stored? listed.key with
    | none => exact ⟨h, rfl⟩
    | some entry =>
        have hroom := h.roomFor_stored hstored
        have hsame : (entry.shift gap).ttl.expireTime = Millis.shiftLimit gap listed.time ↔
            entry.ttl.expireTime = listed.time := Millis.shiftLimit_inj hroom htime
        simp only [Option.map_some, Entry.expiredAt_shift hroom hnow, hsame]
        split
        · exact ⟨h.removePrimary listed.key entry.version .swept false, rfl⟩
        · exact ⟨h, rfl⟩
  · unfold reclaimLocal
    simp only
    rw [h.getElem?]
    cases hn : c.nodes[node]? with
    | none => exact ⟨h, rfl⟩
    | some n =>
        obtain ⟨hroom, heq⟩ :=
          Store.reclaim_shift ((h.room node n hn).stores target) listed.key htime hnow
        simp only [Option.map_some, Node.store_shift, heq]
        cases hreclaimed : (n.store target).reclaim listed.key listed.time now with
        | mk s removed =>
            rw [hreclaimed] at hroom
            cases removed with
            | false => exact ⟨h, rfl⟩
            | true =>
                refine ⟨h.modifyNode node fun m _ hm => ?_, rfl⟩
                exact ⟨hm.withStore target (hroom.record .swept),
                  m.withStore_shift target (s.record .swept)⟩

theorem sweepFrom (h : Ahead gap c d) (node : Nat) (target : Target) (hnow : Millis.RoomFor gap now)
    (fuel : Nat) (scan : Scan κ) (hscan : scan.now = now)
    (hcursor : ∀ e, scan.cursor = some e → Millis.RoomFor gap e.time) :
    Alongside gap (Cluster.sweepFrom node target now fuel scan c)
      (Cluster.sweepFrom node target (now + gap) fuel (scan.shift gap) d) := by
  induction fuel generalizing c d scan with
  | zero => exact ⟨h, rfl⟩
  | succ fuel ih =>
      unfold Cluster.sweepFrom
      rw [h.index?]
      cases hindex : c.index? node target with
      | none => exact ⟨h, rfl⟩
      | some index =>
          have hroom := h.roomFor_index hindex
          simp only [Option.map_some, Scan.next_shift hroom (hscan ▸ hnow) hcursor]
          cases hnext : scan.next index with
          | mk listed next =>
              have hbest : (scan.next index).1 = listed := congrArg Prod.fst hnext
              obtain rfl : { scan with cursor := listed } = next := by
                rw [← hbest]
                exact congrArg Prod.snd hnext
              cases listed with
              | none => exact ⟨h, rfl⟩
              | some e =>
                  -- The cursor of the next step is what was listed, so there is room for it.
                  obtain ⟨hmem, -⟩ := Scan.next_eq_some hbest
                  obtain ⟨hlimit, htime⟩ := hroom e hmem
                  obtain ⟨hreclaimed, hremoved⟩ := h.reclaim hnow node target hlimit htime
                  obtain ⟨hrest, hcount⟩ := ih hreclaimed { scan with cursor := some e } hscan
                    fun f hf => Option.some.inj hf ▸ htime
                  exact ⟨hrest, congrArg₂ (fun removed count => Bool.toNat removed + count)
                    hremoved hcount⟩

theorem sweepStore (h : Ahead gap c d) (node : Nat) (target : Target)
    (hnow : Millis.RoomFor gap now) :
    Alongside gap (c.sweepStore node target now) (d.sweepStore node target (now + gap)) := by
  unfold Cluster.sweepStore
  have hsize : (d.index? node target).map Index.size = (c.index? node target).map Index.size := by
    rw [h.index?, Option.map_map]
    congr 1
    funext index
    exact index.size_shift gap
  rw [hsize]
  exact h.sweepFrom node target hnow _ { now } rfl nofun

/-- A sweep at the moved reading reclaims what the sweep at the reading does. -/
theorem sweep (h : Ahead gap c d) (node : Nat) (hnow : Millis.RoomFor gap now) :
    Alongside gap (c.sweep node now) (d.sweep node (now + gap)) := by
  obtain ⟨howned, hcount⟩ := h.sweepStore node .owned hnow
  obtain ⟨hnear, hcount'⟩ := howned.sweepStore node .near hnow
  exact ⟨hnear, congrArg₂ (· + ·) hcount hcount'⟩

end Cluster.Ahead

end Ephemera
