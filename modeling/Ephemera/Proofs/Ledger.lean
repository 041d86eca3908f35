import Ephemera.Proofs.Reclamation

/-! # What becomes of copies

A store counts what happens to it, and a copy that it has taken in is either still there or was
counted once when it was taken away. To say so of a run, what the run does to one store is written down
in order. Replayed on the empty store the ledger gives the store that there is, so nothing is missing
from it, and the balance of copies and counters is a matter of the ledger alone.
-/

namespace Ephemera

open Std

universe u v w

/-! ## Counters -/

namespace Counters

/-- The counter of an event. -/
def of (c : Counters) : StoreEvent → UInt64
  | .hit => c.hits
  | .miss => c.misses
  | .put => c.puts
  | .removal => c.removals
  | .expired => c.expired
  | .swept => c.swept

theorem of_record (c : Counters) (event other : StoreEvent) :
    (c.record event).of other = if event = other then c.of other + 1 else c.of other := by
  cases event <;> cases other <;> rfl

/-- Each event is counted under its own heading. -/
theorem of_foldl_record (events : List StoreEvent) (c : Counters) (event : StoreEvent) :
    (events.foldl record c).of event = c.of event + UInt64.ofNat (events.count event) := by
  induction events generalizing c with
  | nil => exact (UInt64.add_zero _).symm
  | cons head rest ih =>
      rw [List.foldl_cons, ih, of_record, List.count_cons]
      by_cases hhead : head = event
      · rw [if_pos hhead, if_pos (by simpa using hhead), UInt64.ofNat_add, UInt64.add_assoc,
          UInt64.add_comm 1]
        rfl
      · rw [if_neg hhead, if_neg (by simpa using hhead)]
        rfl

end Counters

/-- Whether the event is that a copy was taken away. -/
def StoreEvent.isLoss : StoreEvent → Bool
  | .removal | .expired | .swept => true
  | .hit | .miss | .put => false

theorem StoreEvent.countP_isLoss (events : List StoreEvent) :
    events.countP (·.isLoss) =
      events.count .removal + events.count .expired + events.count .swept := by
  induction events with
  | nil => rfl
  | cons head rest ih =>
      rw [List.countP_cons, List.count_cons, List.count_cons, List.count_cons, ih]
      cases head <;> simp [isLoss] <;> omega

/-! ## Ledgers of stores -/

namespace Store

variable {κ : Type u} {V : Type v}

/-- What is done to a store. -/
inductive Action (κ : Type u) (V : Type v) where
  /-- An event is counted, and no copy changes. -/
  | tally (event : StoreEvent)
  /-- A copy is written. -/
  | put (key : κ) (entry : Entry V)
  /-- A copy is taken away, for a reason that is counted. -/
  | take (key : κ) (event : StoreEvent)

namespace Action

/-- The event that is counted. -/
def event : Action κ V → StoreEvent
  | tally event => event
  | put .. => .put
  | take _ event => event

/-- Whether a copy is written. -/
def isPut : Action κ V → Bool
  | put .. => true
  | tally _ | take .. => false

end Action

variable [Ord κ] [TransOrd κ]

/-- Whether the action writes a copy where there is none. -/
def fills (s : Store κ V) : Action κ V → Bool
  | .put key _ => key ∉ s.copies
  | .tally _ | .take .. => false

/-- An action that counts what it does: a read is a hit or a miss, a copy is taken away under one of
the three reasons, and nothing is taken away that is not there. -/
def Proper (s : Store κ V) : Action κ V → Prop
  | .tally event => event = .hit ∨ event = .miss
  | .put .. => True
  | .take key event => key ∈ s.copies ∧ event.isLoss = true

variable [Hashable κ]

/-- The store after an action. -/
def act (s : Store κ V) : Action κ V → Store κ V
  | .tally event => s.record event
  | .put key entry => s.write key (.put entry)
  | .take key event => (s.write key .remove).record event

/-- The store after several actions, in turn. -/
def replay (s : Store κ V) (ledger : List (Action κ V)) : Store κ V :=
  ledger.foldl act s

/-- How many actions of a ledger write a copy where there is none. -/
def filled : List (Action κ V) → Store κ V → Nat
  | [], _ => 0
  | x :: rest, s => (s.fills x).toNat + filled rest (s.act x)

/-- Every action of a ledger is proper where it is made. -/
def AllProper : List (Action κ V) → Store κ V → Prop
  | [], _ => True
  | x :: rest, s => s.Proper x ∧ AllProper rest (s.act x)

theorem replay_append (s : Store κ V) (a b : List (Action κ V)) :
    s.replay (a ++ b) = (s.replay a).replay b :=
  List.foldl_append ..

theorem allProper_append {a b : List (Action κ V)} {s : Store κ V} :
    AllProper (a ++ b) s ↔ AllProper a s ∧ AllProper b (s.replay a) := by
  induction a generalizing s with
  | nil => exact ⟨fun h => ⟨trivial, h⟩, fun h => h.2⟩
  | cons x rest ih =>
      simp only [List.cons_append, AllProper, ih, and_assoc]
      rfl

theorem counters_act (s : Store κ V) (x : Action κ V) :
    (s.act x).counters = s.counters.record x.event := by
  cases x with
  | tally event => rfl
  | put key entry => rfl
  | take key event =>
      simp only [act, record, counters_write]
      rfl

/-- Every action counts one event. -/
theorem counters_replay (s : Store κ V) (ledger : List (Action κ V)) :
    (s.replay ledger).counters = (ledger.map (·.event)).foldl Counters.record s.counters := by
  induction ledger generalizing s with
  | nil => rfl
  | cons x rest ih =>
      rw [List.map_cons, List.foldl_cons, ← counters_act]
      exact ih (s.act x)

/-- Each counter of a store that began without copies has counted its event, if that fits into it. -/
theorem toNat_counter_replay (eager : Bool) (event : StoreEvent) {ledger : List (Action κ V)}
    (hlt : (ledger.map (·.event)).count event < 2 ^ 64) :
    (((.empty eager : Store κ V).replay ledger).counters.of event).toNat =
      (ledger.map (·.event)).count event := by
  have hzero : ((.empty eager : Store κ V).counters).of event = 0 := by
    cases event <;> rfl
  rw [counters_replay, Counters.of_foldl_record, hzero, UInt64.zero_add,
    UInt64.toNat_ofNat_of_lt' hlt]

theorem replay_removals_eq_zero_iff {ledger : List (Action κ V)} {eager : Bool}
    (hlt : (ledger.map (·.event)).count .removal < 2 ^ 64) :
    ((.empty eager : Store κ V).replay ledger).counters.removals = 0 ↔
      (ledger.map (·.event)).count .removal = 0 := by
  rw [← toNat_counter_replay eager .removal hlt]
  exact UInt64.toNat_inj.symm

theorem filled_le_countP (ledger : List (Action κ V)) (s : Store κ V) :
    filled ledger s ≤ ledger.countP (·.isPut) := by
  induction ledger generalizing s with
  | nil => exact Nat.le_refl _
  | cons x rest ih =>
      have hone : (s.fills x).toNat ≤ if x.isPut then 1 else 0 := by
        cases x with
        | put => exact Bool.toNat_le _
        | tally | take => exact Nat.le_refl _
      rw [filled, List.countP_cons, Nat.add_comm]
      exact Nat.add_le_add (ih (s.act x)) hone

theorem size_act {s : Store κ V} {x : Action κ V} (h : s.Proper x) :
    (s.act x).copies.size + x.event.isLoss.toNat = s.copies.size + (s.fills x).toNat := by
  cases x with
  | tally event =>
      rcases h with rfl | rfl <;> rfl
  | put key entry =>
      simp only [act, write, fills, ExtTreeMap.size_insert, ExtTreeMap.contains_iff_mem]
      by_cases hkey : key ∈ s.copies <;> simp [hkey, Action.event, StoreEvent.isLoss]
  | take key event =>
      obtain ⟨hkey, hloss⟩ := h
      have hpos : s.copies.size ≠ 0 := by
        intro hzero
        rw [ExtTreeMap.eq_empty_iff_size_eq_zero.2 hzero] at hkey
        simp at hkey
      simp only [act, write, hkey, if_true, record, fills, ExtTreeMap.size_erase,
        ExtTreeMap.contains_iff_mem, Action.event, hloss, Bool.toNat_true, Bool.toNat_false]
      omega

namespace AllProper

variable {ledger : List (Action κ V)} {s : Store κ V}

/-- The copies that were filled in are still there or have been taken away. -/
theorem size_replay (h : AllProper ledger s) :
    (s.replay ledger).copies.size + (ledger.map (·.event)).countP (·.isLoss) =
      s.copies.size + filled ledger s := by
  induction ledger generalizing s with
  | nil => rfl
  | cons x rest ih =>
      have hone := size_act h.1
      have hrest := ih h.2
      have hcount : (if x.event.isLoss then 1 else 0) = x.event.isLoss.toNat := by
        cases x.event.isLoss <;> rfl
      rw [filled, List.map_cons, List.countP_cons, hcount]
      change ((s.act x).replay rest).copies.size + _ = _
      omega

theorem countP_isPut (h : AllProper ledger s) :
    ledger.countP (·.isPut) = (ledger.map (·.event)).count .put := by
  induction ledger generalizing s with
  | nil => rfl
  | cons x rest ih =>
      have hone : x.isPut = (x.event == .put) := by
        cases x with
        | tally event => rcases h.1 with rfl | rfl <;> rfl
        | put => rfl
        | take key event => rcases event with _ | _ | _ | _ | _ | _ <;> first | rfl | cases h.1.2
      rw [List.map_cons, List.countP_cons, List.count_cons, ih h.2, hone]

/-- The balance of a store that began without copies, as long as the puts fit into their counter. -/
theorem balance {eager : Bool} (h : AllProper ledger (.empty eager : Store κ V))
    (hputs : ledger.countP (·.isPut) < 2 ^ 64) :
    let stats := ((.empty eager : Store κ V).replay ledger).stats
    stats.puts.toNat = ledger.countP (·.isPut) ∧
    filled ledger (.empty eager : Store κ V) =
      stats.entries.toNat + stats.removals.toNat + stats.expired.toNat + stats.swept.toNat := by
  intro stats
  have hsize := h.size_replay
  have hfilled := filled_le_countP ledger (.empty eager : Store κ V)
  have hempty : (.empty eager : Store κ V).copies.size = 0 := ExtTreeMap.size_empty
  rw [StoreEvent.countP_isLoss, hempty, Nat.zero_add] at hsize
  refine ⟨?_, ?_⟩
  · rw [h.countP_isPut] at hputs ⊢
    exact toNat_counter_replay eager .put hputs
  · have hentries : stats.entries.toNat = ((.empty eager : Store κ V).replay ledger).copies.size :=
      UInt64.toNat_ofNat_of_lt' (by change _ < 2 ^ 64; omega)
    have hremovals : stats.removals.toNat = _ := toNat_counter_replay eager .removal (by omega)
    have hexpired : stats.expired.toNat = _ := toNat_counter_replay eager .expired (by omega)
    have hswept : stats.swept.toNat = _ := toNat_counter_replay eager .swept (by omega)
    omega

/-- No more copies are removed than were written. -/
theorem count_removal_le {eager : Bool} (h : AllProper ledger (.empty eager : Store κ V)) :
    (ledger.map (·.event)).count .removal ≤ ledger.countP (·.isPut) := by
  have hsize := h.size_replay
  have hfilled := filled_le_countP ledger (.empty eager : Store κ V)
  have hempty : (.empty eager : Store κ V).copies.size = 0 := ExtTreeMap.size_empty
  rw [StoreEvent.countP_isLoss] at hsize
  omega

end AllProper

end Store

/-! ## What changes do to stores -/

/-- What a store does that accepts a change, given the copy that it holds of the key. -/
def Update.actions {κ : Type u} {V : Type v} (current : Option (Entry V)) :
    Update κ V → List (Store.Action κ V)
  | .put key entry => if current.any (entry.version < ·.version) then [] else [.put key entry]
  | .remove key version => if current.any (·.version ≤ version) then [.take key .removal] else []

theorem Store.accept_eq {κ : Type u} {V : Type v} [Ord κ] [TransOrd κ] [Hashable κ] (s : Store κ V)
    (update : Update κ V) : s.accept update = s.replay (update.actions (s.get? update.key)) := by
  cases update with
  | put key entry =>
      by_cases hnewer : (s.get? key).any (entry.version < ·.version)
      · simp [accept, install, Store.update, Update.actions, Update.key, hnewer, replay]
      · simp [accept, install, Store.update, Update.actions, Update.key, hnewer, replay, act]
  | remove key version =>
      by_cases hold : (s.get? key).any (·.version ≤ version)
      · simp [accept, removeVersion, Store.update, Update.actions, Update.key, hold, replay, act]
      · simp [accept, removeVersion, Store.update, Update.actions, Update.key, hold, replay]

/-- An update does at most one thing to a store. -/
theorem Store.update_actions_eq {κ : Type u} {V : Type v} [Ord κ] [TransOrd κ] (s : Store κ V)
    (update : Update κ V) :
    update.actions (s.get? update.key) = [] ∨
      ∃ a, update.actions (s.get? update.key) = [a] ∧ s.Proper a := by
  cases update with
  | put key entry =>
      rw [Update.actions]
      split
      next => exact .inl rfl
      next => exact .inr ⟨_, rfl, trivial⟩
  | remove key version =>
      rw [Update.actions]
      split
      next hold =>
        obtain ⟨entry, hentry, -⟩ := (Option.any_eq_true _ _).1 hold
        have hkey : key ∈ s.copies :=
          ExtTreeMap.mem_iff_isSome_getElem?.2 (Option.isSome_of_eq_some hentry)
        exact .inr ⟨_, rfl, hkey, rfl⟩
      next => exact .inl rfl

namespace Cluster

variable {κ : Type u} {V : Type v} [Ord κ] [TransOrd κ]

/-- What a change does to one store of a node. -/
def actions (c : Cluster κ V) (node : Nat) (target : Target) : Change κ V → List (Store.Action κ V)
  | .count key event =>
    if node = c.affinity.primary key ∧ target = .owned then [.tally event] else []
  | .write key _ value ttl =>
    if node = c.affinity.primary key ∧ target = .owned then
      [.put key { value, version := c.version + 1, ttl }]
    else []
  | .remove key event _ =>
    if (node = c.affinity.primary key ∧ target = .owned) ∧ (c.stored? key).isSome then
      [.take key event]
    else []
  | .share .. => []
  | .note other t event => if node = other ∧ target = t then [.tally event] else []
  | .drop other t key event now =>
    if (node = other ∧ target = t) ∧ ¬(t = .owned ∧ c.affinity.primary key = other) ∧
        (c.copy? other t key).any (·.expiredAt now) then
      [.take key event]
    else []
  | .deliver other =>
    match c.queue other with
    | [] => []
    | m :: _ =>
      if node = other ∧ target = m.target then m.update.actions (c.copy? node target m.update.key)
      else []

variable [Hashable κ]

/-- What a trace does to one store of a node, in order. -/
def ledger (node : Nat) (target : Target) : List (Change κ V) → Cluster κ V → List (Store.Action κ V)
  | [], _ => []
  | x :: rest, c => c.actions node target x ++ ledger node target rest (c.change x)

theorem store?_putPrimary (c : Cluster κ V) (key : κ) (value : V) (ttl : Ttl) (node : Nat)
    (target : Target) :
    (c.putPrimary key value ttl).store? node target =
      if node = c.affinity.primary key ∧ target = .owned then
        (c.store? node target).map
          (·.write key (.put { value, version := c.version + 1, ttl }))
      else c.store? node target := by
  let entry : Entry V := { value, version := c.version + 1, ttl }
  have hlayout := SameLayout.fanOut { c with version := c.version + 1 } (.put key entry)
    c.config.synchronous
  have hwritten := ({ c with version := c.version + 1 }.fanOut (.put key entry)
    c.config.synchronous).store?_modifyStore (c.affinity.primary key) node .owned target
    fun s => s.write key (.put entry)
  rw [store?_fanOut] at hwritten
  have hput : c.putPrimary key value ttl = ({ c with version := c.version + 1 }.fanOut (.put key entry)
      c.config.synchronous).writePrimary key (.put entry) := rfl
  rw [hput]
  unfold writePrimary modifyPrimary
  rw [hlayout.affinity]
  exact hwritten

theorem store?_deliver {c : Cluster κ V} (hc : c.Running) {node : Nat} {m : Message κ V}
    {rest : List (Message κ V)} (hqueue : c.queue node = m :: rest) (other : Nat) (target : Target) :
    (c.deliver node).store? other target =
      if other = node ∧ target = m.target then (c.store? other target).map (·.accept m.update)
      else c.store? other target := by
  simp only [store?, getElem?_deliver]
  cases hn : c.nodes[other]? with
  | none => simp
  | some n =>
      by_cases hnode : other = node
      · subst hnode
        rw [queue_of_some hn] at hqueue
        simp only [Option.map_some, if_true, Node.deliver_of_queue (hc other n hn) hqueue,
          Node.apply_eq, Node.store_withStore, Node.store_setInbox]
        by_cases htarget : target = m.target
        · simp [htarget]
        · simp [htarget, Ne.symm htarget]
      · simp [hnode, Ne.symm hnode]

/-- A change does to a store what its actions do. -/
theorem store?_change {c : Cluster κ V} (hc : c.Running) (x : Change κ V) (node : Nat)
    (target : Target) :
    (c.change x).store? node target =
      (c.store? node target).map (·.replay (c.actions node target x)) := by
  have hsame : c.store? node target = (c.store? node target).map (·.replay []) :=
    (Option.map_id' ..).symm
  -- An action is carried out in one store, and all others stay as they are.
  have hone : ∀ (p : Prop) [Decidable p] (a : Store.Action κ V),
      (if p then (c.store? node target).map (·.act a) else c.store? node target) =
        (c.store? node target).map (·.replay (if p then [a] else [])) := by
    intro p _ a
    split
    · rfl
    · exact hsame
  cases x with
  | count key event =>
      refine (c.store?_modifyStore (c.affinity.primary key) node .owned target fun s =>
        s.record event).trans ?_
      exact hone _ (.tally event)
  | write key via value ttl =>
      refine Eq.trans ?_ (hone (node = c.affinity.primary key ∧ target = .owned)
        (.put key { value, version := c.version + 1, ttl }))
      simp only [change]
      cases via.bind (c.nearReader · key) with
      | none => exact c.store?_putPrimary key value ttl node target
      | some reader =>
          have hregistered : (c.register key reader).store? node target = c.store? node target :=
            c.store?_modifyNode _ node target fun n => by cases target <;> rfl
          exact ((c.register key reader).store?_putPrimary key value ttl node target).trans
            (by rw [hregistered]; rfl)
  | remove key event awaited =>
      simp only [change, actions]
      cases c.stored? key with
      | none => simpa using hsame
      | some entry =>
          simp only [Option.isSome_some, and_true]
          rw [store?_removePrimary]
          exact hone _ (.take key event)
  | share key via =>
      refine Eq.trans ?_ hsame
      simp only [change]
      split
      · exact (store?_modifyNode _ _ _ _ fun n => n.store_push _ target).trans
          (c.store?_modifyNode _ node target fun n => by cases target <;> rfl)
      · rfl
  | note other t event =>
      refine (c.store?_modifyStore other node t target fun s => s.record event).trans ?_
      exact hone _ (.tally event)
  | drop other t key event now =>
      simp only [change, actions]
      split
      next happlies =>
        simp only [happlies, and_true, not_false_eq_true]
        refine (c.store?_modifyStore other node t target fun s =>
          (s.write key .remove).record event).trans ?_
        exact hone _ (.take key event)
      next hnot =>
        rw [if_neg fun h => hnot h.2]
        exact hsame
  | deliver other =>
      simp only [change, actions]
      cases hqueue : c.queue other with
      | nil =>
          rw [deliver_of_nil hqueue]
          exact hsame
      | cons m rest =>
          rw [store?_deliver hc hqueue]
          simp only
          split
          next =>
            rw [copy?_eq]
            cases c.store? node target with
            | none => rfl
            | some s => exact congrArg some (s.accept_eq m.update)
          next => exact hsame

end Cluster

/-- A change that is counted for what it is: reads as hits and misses, and copies that are taken away
under one of the three reasons. -/
def Change.Counted {κ : Type u} {V : Type v} : Change κ V → Prop
  | .count _ event | .note _ _ event => event = .hit ∨ event = .miss
  | .remove _ event _ | .drop _ _ _ event _ => event.isLoss = true
  | .write .. | .share .. | .deliver _ => True

namespace Cluster

variable {κ : Type u} {V : Type v} [Ord κ] [TransOrd κ] [Hashable κ]

section Ledger

variable {c : Cluster κ V} {node : Nat} {target : Target} {s : Store κ V}

omit [Hashable κ] in
theorem mem_copies_iff (hs : c.store? node target = some s) (key : κ) :
    key ∈ s.copies ↔ (c.copy? node target key).isSome := by
  rw [copy?_eq, hs]
  exact ExtTreeMap.mem_iff_isSome_getElem?

omit [Hashable κ] in
/-- A change does at most one thing to a store. -/
theorem actions_eq (hs : c.store? node target = some s) {x : Change κ V} (hx : x.Counted) :
    c.actions node target x = [] ∨ ∃ a, c.actions node target x = [a] ∧ s.Proper a := by
  have hone : ∀ (p : Prop) [Decidable p] (a : Store.Action κ V), (p → s.Proper a) →
      (if p then [a] else []) = [] ∨ ∃ b, (if p then [a] else []) = [b] ∧ s.Proper b := by
    intro p _ a ha
    split
    next hp => exact .inr ⟨a, rfl, ha hp⟩
    next => exact .inl rfl
  cases x with
  | count key event => exact hone _ _ fun _ => hx
  | write key via value ttl => exact hone _ _ fun _ => trivial
  | remove key event awaited =>
      refine hone _ _ fun ⟨⟨hnode, htarget⟩, hsome⟩ => ⟨?_, hx⟩
      subst hnode
      subst htarget
      exact (mem_copies_iff hs key).2 hsome
  | share key via => exact .inl rfl
  | note other t event => exact hone _ _ fun _ => hx
  | drop other t key event now =>
      refine hone _ _ fun ⟨⟨hnode, htarget⟩, _, hany⟩ => ⟨?_, hx⟩
      subst hnode
      subst htarget
      obtain ⟨entry, hentry, -⟩ := (Option.any_eq_true _ _).1 hany
      exact (mem_copies_iff hs key).2 (Option.isSome_of_eq_some hentry)
  | deliver other =>
      simp only [actions]
      split
      · exact .inl rfl
      next m _ _ =>
        split
        next =>
          rw [copy?_eq, hs]
          exact s.update_actions_eq m.update
        next => exact .inl rfl

/-- A store is what its ledger makes of it. -/
theorem store?_follow (hc : c.Running) (trace : List (Change κ V)) (node : Nat) (target : Target) :
    (c.follow trace).store? node target =
      (c.store? node target).map (·.replay (ledger node target trace c)) := by
  induction trace generalizing c with
  | nil => exact (Option.map_id' ..).symm
  | cons x rest ih =>
      rw [follow_cons, ih (hc.change x), store?_change hc, Option.map_map]
      congr 1
      funext s
      exact (s.replay_append _ _).symm

theorem allProper_ledger (hc : c.Running) (hs : c.store? node target = some s)
    {trace : List (Change κ V)} (htrace : ∀ x ∈ trace, x.Counted) :
    Store.AllProper (ledger node target trace c) s := by
  induction trace generalizing c s with
  | nil => trivial
  | cons x rest ih =>
      have hnext := store?_change hc x node target
      rw [hs] at hnext
      refine Store.allProper_append.2 ⟨?_, ih (hc.change x) hnext fun y hy =>
        htrace y (List.mem_cons_of_mem x hy)⟩
      rcases actions_eq hs (htrace x List.mem_cons_self) with hnil | ⟨a, ha, hproper⟩
      · rw [hnil]
        trivial
      · rw [ha]
        exact ⟨hproper, trivial⟩

/-- A change that is counted takes at most one copy out of a store. Then one event says why, and
otherwise none does. -/
theorem taken_change (hc : c.Running) (hs : c.store? node target = some s) {x : Change κ V}
    (hx : x.Counted) :
    ∃ t, (c.change x).store? node target = some t ∧
      ((∃ key event, c.actions node target x = [.take key event] ∧ event.isLoss = true ∧
        (s.get? key).isSome ∧ t = (s.write key .remove).record event) ∨
      (∀ a ∈ c.actions node target x, a.event.isLoss = false) ∧
        (∀ key, (s.get? key).isSome → (t.get? key).isSome) ∧
        t.counters.removals = s.counters.removals ∧ t.counters.expired = s.counters.expired ∧
        t.counters.swept = s.counters.swept) := by
  have hnext := store?_change hc x node target
  rw [hs] at hnext
  refine ⟨_, hnext, ?_⟩
  rcases actions_eq hs hx with hnil | ⟨a, ha, hproper⟩
  · rw [hnil]
    exact .inr ⟨nofun, fun _ h => h, rfl, rfl, rfl⟩
  · rw [ha]
    cases a with
    | tally event =>
        right
        rcases hproper with rfl | rfl <;>
          exact ⟨List.forall_mem_singleton.2 rfl, fun _ h => h, rfl, rfl, rfl⟩
    | put key entry =>
        refine .inr ⟨List.forall_mem_singleton.2 rfl, fun other hother => ?_, rfl, rfl, rfl⟩
        have hget : (s.replay [.put key entry]).get? other = _ := s.get?_write_put key other entry
        rw [hget]
        split
        · rfl
        · exact hother
    | take key event =>
        exact .inl ⟨key, event, rfl, hproper.2, ExtTreeMap.mem_iff_isSome_getElem?.1 hproper.1, rfl⟩

omit [TransOrd κ] [Hashable κ] in
theorem store?_start {config : CacheConfig} {nodes : Nat} {affinity : Affinity κ}
    (h : start config nodes affinity = .ok c) (hs : c.store? node target = some s) :
    s = .empty config.eager := by
  obtain ⟨n, hn, rfl⟩ := Option.map_eq_some_iff.1 hs
  rw [node_of_start h hn]
  cases target <;> rfl

end Ledger

/-! ## Runs are counted -/

omit [Hashable κ] in
theorem counted_touchTrace {ρ : Type w} (c : Cluster κ V) (policy : Policy) (via : Option Nat)
    (now : Millis) (key : κ) (decide : Decision V ρ) :
    ∀ x ∈ c.touchTrace policy via now key decide, x.Counted := by
  intro x hx
  rcases mem_touchTrace hx with ⟨event, hevent, rfl⟩ | hx
  · exact hevent
  · unfold Effect.trace at hx
    split at hx
    next => rw [List.mem_singleton.1 hx]; trivial
    next => rw [List.mem_singleton.1 hx]; rfl
    next => rw [List.mem_singleton.1 hx]; rfl
    next =>
      obtain ⟨node, -, rfl⟩ := Option.map_eq_some_iff.1 (Option.mem_toList.1 hx)
      trivial
    next => cases hx

end Cluster

namespace System

variable {κ : Type u} {V : Type v} [Ord κ] [TransOrd κ] [Hashable κ]
variable [DecidableEq V] [Append V] [Inhabited V]

theorem counted_moveTrace (s : System κ V) (move : Move κ V) :
    ∀ x ∈ s.moveTrace move, x.Counted := by
  refine s.forall_moveTrace (fun node scope operation _ _ => ?_) (fun tx opened _ => ?_)
    (fun node => ?_) fun _ => trivial
  · exact Cluster.forall_performTrace s.cluster operation
      (fun d via key decide _ _ => d.counted_touchTrace _ via _ key decide)
      fun d key => d.forall_readLocalTrace node key s.clock (fun _ _ h => h) fun _ => rfl
  · exact Cluster.forall_commitTrace s.clock s.cluster (fun _ _ _ => trivial) fun _ _ _ _ => rfl
  · exact Cluster.forall_sweepTrace s.cluster fun d target deadline =>
      d.forall_reclaimTrace node target deadline s.clock (fun _ _ _ => rfl) rfl

theorem counted_trace (moves : List (Move κ V)) (s : System κ V) :
    ∀ x ∈ trace moves s, x.Counted := by
  induction moves generalizing s with
  | nil =>
      intro x hx
      cases hx
  | cons move rest ih =>
      intro x hx
      rcases List.mem_append.1 hx with hx | hx
      · exact s.counted_moveTrace move x hx
      · exact ih _ x hx

/-- Statistics conserve copies. However operations, transactions, sweeps, deliveries and readings of
the clock have come in turn, the store is what its ledger makes of the empty one. As long as the
writes fit into their counter, it has counted each of them. Those that filled an empty slot are as
many as the copies that it holds and the removed, expired and swept ones together, so these are no more
than the writes. Each change takes at most one copy out of the store. When it does, it counts one of
the three reasons once, and when it does not, none. -/
theorem copies_conserved {config : CacheConfig} {nodes : Nat} {affinity : Affinity κ}
    {c₀ : Cluster κ V} (hstart : Cluster.start config nodes affinity = .ok c₀) (now : Millis)
    (moves : List (Move κ V)) {s : System κ V}
    (hrun : (run moves { cluster := c₀, clock := now }).1 = s) {node : Nat} {target : Target}
    {store : Store κ V} (hstore : s.cluster.store? node target = some store) :
    let changes := trace moves { cluster := c₀, clock := now }
    let ledger := Cluster.ledger node target changes c₀
    let empty : Store κ V := .empty config.eager
    store = empty.replay ledger ∧
    (ledger.countP (·.isPut) < 2 ^ 64 →
      store.stats.puts.toNat = ledger.countP (·.isPut) ∧
      Store.filled ledger empty = store.stats.entries.toNat + store.stats.removals.toNat +
        store.stats.expired.toNat + store.stats.swept.toNat ∧
      store.stats.entries.toNat + store.stats.removals.toNat + store.stats.expired.toNat +
        store.stats.swept.toNat ≤ store.stats.puts.toNat) ∧
    ∀ before x after, changes = before ++ x :: after → ∃ s t,
      (c₀.follow before).store? node target = some s ∧
      (c₀.follow (before ++ [x])).store? node target = some t ∧
      ((∃ key event, (event = .removal ∨ event = .expired ∨ event = .swept) ∧
        (s.get? key).isSome ∧ t = (s.write key .remove).record event) ∨
      (∀ key, (s.get? key).isSome → (t.get? key).isSome) ∧
        t.counters.removals = s.counters.removals ∧ t.counters.expired = s.counters.expired ∧
        t.counters.swept = s.counters.swept) := by
  intro changes ledger empty
  have hrunning := Cluster.running_start hstart
  have hcounted : ∀ x ∈ changes, x.Counted := counted_trace moves _
  have hreplayed := Cluster.store?_follow hrunning changes node target
  rw [← run_cluster moves { cluster := c₀, clock := now }, hrun, hstore] at hreplayed
  obtain ⟨first, hfirst, hlast⟩ := Option.map_eq_some_iff.1 hreplayed.symm
  obtain rfl : first = empty := Cluster.store?_start hstart hfirst
  have hproper : Store.AllProper ledger empty :=
    Cluster.allProper_ledger hrunning hfirst hcounted
  refine ⟨hlast.symm, fun hputs => ?_, ?_⟩
  · rw [← hlast]
    obtain ⟨hcount, hbalance⟩ := hproper.balance hputs
    refine ⟨hcount, hbalance, ?_⟩
    rw [← hbalance, hcount]
    exact Store.filled_le_countP ledger empty
  · intro before x after hchanges
    have hbefore := Cluster.store?_follow hrunning before node target
    rw [hfirst] at hbefore
    obtain ⟨t, ht, htaken⟩ := Cluster.taken_change (hrunning.follow before) hbefore
      (hcounted x (by rw [hchanges]; exact List.mem_append_right before List.mem_cons_self))
    refine ⟨_, t, hbefore, by rw [Cluster.follow_append]; exact ht, htaken.imp ?_ And.right⟩
    rintro ⟨key, event, -, hloss, hkey⟩
    refine ⟨key, event, ?_, hkey⟩
    cases event <;> simp [StoreEvent.isLoss] at hloss ⊢

/-- A backup is sent two values of one key and one of another. The first key is updated for no time at
all, which removes it, and the copy of the other one is swept. -/
def passing : List (Move Nat (List Nat)) :=
  [.call 0 none (.put 0 [7]), .call 0 none (.put 0 [8]),
    .call 0 (some (.custom (.created (.millis 3)))) (.put 1 [9]),
    .call 0 (some (.custom { update := some (.millis 0) })) (.put 0 [5]),
    .deliver 1, .deliver 1, .deliver 1, .deliver 1, .setClock 5, .sweep 1]

theorem copies_conserved_passing :
    ∃ (c₀ : Cluster Nat (List Nat)) (s : System Nat (List Nat)) (store : Store Nat (List Nat)),
      Cluster.start {} 3 trio = .ok c₀ ∧ (run passing { cluster := c₀ }).1 = s ∧
      s.cluster.store? 1 .owned = some store ∧ store.stats.puts.toNat = 3 ∧
      store.stats.entries.toNat + store.stats.removals.toNat + store.stats.expired.toNat +
        store.stats.swept.toNat = 2 ∧ store.stats.removals.toNat = 1 := by
  let c₀ : Cluster Nat (List Nat) := { config := {}, affinity := trio, nodes := .empty 3 true }
  have hstart : Cluster.start {} 3 trio = .ok c₀ := rfl
  have hsome : ((run passing { cluster := c₀ }).1.cluster.store? 1 .owned).isSome = true := by cbv
  have hremovals : ((run passing { cluster := c₀ }).1.cluster.store? 1 .owned).map
      (·.stats.removals.toNat) = some 1 := by cbv
  have hputs : (Cluster.ledger 1 .owned (trace passing { cluster := c₀ }) c₀).countP (·.isPut) = 3 := by
    cbv
  have hfilled : Store.filled (Cluster.ledger 1 .owned (trace passing { cluster := c₀ }) c₀)
      (.empty true) = 2 := by cbv
  obtain ⟨store, hstore⟩ := Option.isSome_iff_exists.1 hsome
  obtain ⟨-, hbalance, -⟩ := copies_conserved hstart 0 passing rfl hstore
  obtain ⟨hcounted, hconserved, -⟩ := hbalance (by rw [hputs]; decide)
  refine ⟨c₀, _, store, hstart, rfl, hstore, hcounted.trans hputs, hconserved.symm.trans hfilled, ?_⟩
  rw [hstore] at hremovals
  exact Option.some.inj hremovals

end System

end Ephemera
