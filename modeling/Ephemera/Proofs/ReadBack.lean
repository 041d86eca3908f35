import Ephemera.Proofs.Refinement
import Ephemera.Proofs.SweepRound

/-! # Reading back

What a client finds that changes a key and, once everything is delivered, reads it at the same reading
of the clock: the copies that nodes hold follow the primary, so the read finds what the primary had in
the end, whichever node answers it.

A removal that finds nothing visible still makes an expired copy go, and with it every other copy of the
key, each of which has expired as well.
-/

namespace Ephemera

open Std

universe u v w

/-! ## Stores that lose a copy -/

namespace Store

variable {κ : Type u} {V : Type v} [Ord κ] [TransOrd κ] [Hashable κ]

/-- The store without its copy of a key, which is counted if there is one. -/
def lapse (s : Store κ V) (key : κ) (event : StoreEvent) : Store κ V :=
  if (s.get? key).isSome then (s.write key .remove).record event else s

theorem lapse_of_some {s : Store κ V} {key : κ} {entry : Entry V} (h : s.get? key = some entry)
    (event : StoreEvent) : s.lapse key event = (s.write key .remove).record event := by
  rw [lapse, h]
  rfl

theorem get?_lapse_self (s : Store κ V) (key : κ) (event : StoreEvent) :
    (s.lapse key event).get? key = none := by
  unfold lapse
  split
  · rw [get?_record, get?_write_remove, if_pos ReflCmp.compare_self]
  next habsent => exact Option.not_isSome_iff_eq_none.1 habsent

theorem lapse_of_none {s : Store κ V} {key : κ} (h : s.get? key = none) (event : StoreEvent) :
    s.lapse key event = s := by
  rw [lapse, h]
  rfl

theorem accept_remove {s : Store κ V} {key : κ} {version : UInt64}
    (h : ∀ entry, s.get? key = some entry → entry.version ≤ version) :
    s.accept (.remove key version) = s.lapse key .removal := by
  cases hget : s.get? key with
  | none => simp [accept, removeVersion, Store.update, lapse, hget]
  | some entry => simp [accept, removeVersion, Store.update, lapse, hget, h entry hget]

/-- However often the same removal arrives, only the first one takes a copy away. -/
theorem foldl_accept_remove {s : Store κ V} {key : κ} {version : UInt64}
    (h : ∀ entry, s.get? key = some entry → entry.version ≤ version) (count : Nat) :
    (List.replicate count (.remove key version)).foldl accept s =
      if count = 0 then s else s.lapse key .removal := by
  induction count generalizing s with
  | zero => rfl
  | succ count ih =>
      have hgone := s.get?_lapse_self key .removal
      rw [List.replicate_succ, List.foldl_cons, accept_remove h, ih fun entry hentry => by
        cases hgone.symm.trans hentry]
      simp [lapse_of_none hgone]

end Store

namespace Node

variable {κ : Type u} {V : Type v} [Ord κ] [TransOrd κ] [Hashable κ]

/-- The node without its copies of a key. A near copy is counted as removed. -/
def lapse (n : Node κ V) (key : κ) (event : StoreEvent) : Node κ V :=
  { n with owned := n.owned.lapse key event, near := n.near.lapse key .removal }

omit [Hashable κ] in
theorem eq_of_stores [LawfulEqOrd κ] {m n : Node κ V} (hstore : ∀ target, m.store target = n.store target)
    (hreaders : ∀ key : κ, m.readers[key]? = n.readers[key]?) (hinbox : m.inbox = n.inbox) : m = n := by
  have hall : m.readers = n.readers := ExtTreeMap.ext_getElem? fun {key} => hreaders key
  have howned : m.owned = n.owned := hstore .owned
  have hnear : m.near = n.near := hstore .near
  cases m
  cases n
  cases howned
  cases hnear
  cases hall
  cases hinbox
  rfl

/-- Each store accepts the changes for it, in turn. -/
theorem store_settle {n : Node κ V} (hrunning : n.inbox.service = .running) (target : Target) :
    n.settle.1.store target =
      ((n.inbox.queue.filter (·.target = target)).map (·.update)).foldl Store.accept
        (n.store target) := by
  have hfold : ∀ (queue : List (Message κ V)) (n : Node κ V),
      (queue.foldl (fun n m => (n.apply m.target m.update).1) n).store target =
        ((queue.filter (·.target = target)).map (·.update)).foldl Store.accept (n.store target) := by
    intro queue
    induction queue with
    | nil => exact fun _ => rfl
    | cons m rest ih =>
        intro n
        rw [List.foldl_cons, ih, apply_eq, store_withStore]
        by_cases htarget : m.target = target
        · rw [List.filter_cons_of_pos (by simpa using htarget), if_pos htarget]
          subst htarget
          rfl
        · rw [List.filter_cons_of_neg (by simpa using htarget), if_neg htarget]
  rw [settle, hrunning]
  exact (hfold _ _).trans (by rw [store_setInbox])

end Node

/-! ## Writes -/

theorem Effect.length_trace_le {κ : Type u} {V : Type v} (key : κ) (via : Option Nat)
    (awaited : Bool) (effect : Effect V) : (effect.trace key via awaited).length ≤ 1 := by
  cases effect with
  | write | drop | remove => exact Nat.le_refl 1
  | share => cases via <;> simp [trace]
  | nothing => exact Nat.zero_le 1

/-- A write leaves the value that is written, or none. -/
theorem fst_of_outcome_write {V : Type v} {live : Option (V × Ttl)} {value : V} {policy : Policy}
    {now : Millis} {pair : V × Ttl}
    (h : (plan live (.write value) policy now).outcome live = some pair) : pair.1 = value := by
  cases live with
  | none =>
      cases htouch : Ttl.eternal.touch .create (policy.on .create) now <;>
        simp only [plan, htouch, Plan.outcome] at h <;> cases h
      rfl
  | some before =>
      cases htouch : before.2.touch .update (policy.on .update) now <;>
        simp only [plan, htouch, Plan.outcome] at h <;> cases h
      rfl

namespace Cluster

/-! ## What removals ship -/

variable {κ : Type u} {V : Type v} [Ord κ]

/-- A step that changes only nodes is told by its nodes. -/
theorem SameLayout.eq_of_nodes {c d : Cluster κ V} (h : SameLayout c d)
    (hversion : d.version = c.version) (hrunning : d.running = c.running) :
    d = { c with nodes := d.nodes } := by
  obtain ⟨hconfig, haffinity, -⟩ := h
  cases c
  cases d
  cases hconfig
  cases haffinity
  cases hversion
  cases hrunning
  rfl

theorem queue_of_quiet {c : Cluster κ V} (h : c.Quiet) (node : Nat) : c.queue node = [] := by
  cases hn : c.nodes[node]? with
  | none => exact queue_of_none hn
  | some n => rw [queue_of_some hn, h n (List.mem_of_getElem? hn)]

/-- At rest the inbox of a node is as at the start. -/
theorem inbox_of_quiet {c : Cluster κ V} (hquiet : c.Quiet) (hrunning : c.Running) {node : Nat}
    {n : Node κ V} (hn : c.nodes[node]? = some n) : n.inbox = {} := by
  have hqueue := hquiet n (List.mem_of_getElem? hn)
  have hservice := hrunning node n hn
  obtain ⟨owned, near, readers, queue, service⟩ := n
  cases hqueue
  cases hservice
  rfl

theorem running_shipAll (c : Cluster κ V) (nodes : List Nat) (m : Message κ V) :
    (c.shipAll nodes m).running = c.running := by
  induction nodes generalizing c with
  | nil => rfl
  | cons node rest ih => exact ih (c.ship node m)

variable [TransOrd κ]

theorem running_fanOut (c : Cluster κ V) (update : Update κ V) (awaited : Bool) :
    (c.fanOut update awaited).running = c.running := by
  have hdismiss : ∀ d : Cluster κ V, (d.dismiss update).running = d.running := by
    intro d
    unfold dismiss
    split <;> rfl
  rw [fanOut_eq, running_shipAll, hdismiss, running_shipAll]

variable [Hashable κ]

/-- The cluster without any copy of a key and without its near readers, if the primary has a copy. That
one is counted as the event, and the copy of any other node as removed. -/
def lapse (c : Cluster κ V) (key : κ) (event : StoreEvent) : Cluster κ V :=
  if (c.stored? key).isSome then
    { c with
      nodes := c.nodes.mapIdx fun node n =>
        if node = c.affinity.primary key then (n.lapse key event).forgetReaders key
        else n.lapse key .removal }
  else c

theorem store?_settle {c : Cluster κ V} (hc : c.Running) (node : Nat) (target : Target) :
    c.settle.store? node target = (c.store? node target).map
      ((((c.queue node).filter (·.target = target)).map (·.update)).foldl Store.accept) := by
  have hnode : c.settle.nodes[node]? = c.nodes[node]?.map (·.settle.1) := List.getElem?_map
  rw [store?, store?, hnode]
  cases hn : c.nodes[node]? with
  | none => rfl
  | some n =>
      rw [queue_of_some hn]
      exact congrArg some (Node.store_settle (hc node n hn) target)

/-- A cluster at rest ships the removal of a key to those that follow it, and nothing else. -/
theorem updates_removePrimary {c : Cluster κ V} (hc : c.Running) (hquiet : c.Quiet) (key : κ)
    (version : UInt64) (event : StoreEvent) (awaited : Bool) (node : Nat) (target : Target) :
    (((c.removePrimary key version event awaited).queue node).filter (·.target = target)).map
        (·.update) = List.replicate (c.sent node target key) (.remove key version) := by
  rw [queue_removePrimary hc, queue_of_quiet hquiet, List.nil_append, sent]
  split
  · cases target <;> simp [List.filter_append]
  · rfl

/-! ## Copies that go everywhere -/

section Removed

variable {c : Cluster κ V} {lapsed : Entry V → Prop} {key : κ} {entry : Entry V}

/-- A replica of a cluster at rest holds the copy that the primary removes, or is not told because it
holds none. -/
theorem Coherent.store?_removePrimary_settle (h : c.Coherent lapsed) (hquiet : c.Quiet)
    (hstored : c.stored? key = some entry) (event : StoreEvent) (awaited : Bool) (node : Nat)
    (target : Target) :
    (c.removePrimary key entry.version event awaited).settle.store? node target =
      (c.store? node target).map (·.lapse key
        (if node = c.affinity.primary key ∧ target = .owned then event else .removal)) := by
  rw [store?_settle (h.running.removePrimary key entry.version event awaited),
    updates_removePrimary h.running hquiet, store?_removePrimary]
  cases hstore : c.store? node target with
  | none => split <;> rfl
  | some s =>
      have hget : s.get? key = c.copy? node target key := by rw [copy?_eq, hstore]; rfl
      by_cases hslot : node = c.affinity.primary key ∧ target = .owned
      · -- The primary ships nothing to itself, and counts what it removes.
        obtain ⟨rfl, rfl⟩ := hslot
        have hsent : c.sent (c.affinity.primary key) .owned key = 0 := by
          rw [sent, List.count_eq_zero.2 fun hmem =>
            isReplica_of_mem_recipients h.lawful hmem ⟨rfl, rfl⟩, ite_self]
        rw [copy?_primary, hstored] at hget
        simp [hsent, Store.lapse_of_some hget]
      · -- However often a replica is told, it loses its copy once; it has none if it is not told.
        have hreplica : c.affinity.IsReplica node target key :=
          fun hprimary => hslot ⟨hprimary.2.symm, hprimary.1⟩
        have hversion : ∀ copy, s.get? key = some copy → copy.version ≤ entry.version := by
          intro copy hcopy
          cases hstored.symm.trans (h.stored_of_quiet hquiet hreplica (hget ▸ hcopy))
          exact UInt64.le_refl _
        simp only [if_neg hslot, Option.map_some, Store.foldl_accept_remove hversion]
        split
        next hsent =>
          have hnone := (h.inStep key).ahead?_of_sent_eq_zero hreplica hsent
          rw [ahead?_eq (inflight_of_quiet hquiet node target key), ← hget] at hnone
          rw [Store.lapse_of_none hnone]
        next => rfl

variable [LawfulEqOrd κ]

theorem Coherent.settle (h : c.Coherent lapsed) : c.settle.Coherent lapsed :=
  settle_induction h.running (fun _ node _ hd => hd.deliver node) h

/-- A copy that the primary removes is gone everywhere once that is delivered, and nothing else is
different. -/
theorem Coherent.settle_removePrimary (h : c.Coherent lapsed) (hquiet : c.Quiet)
    (hstored : c.stored? key = some entry) (event : StoreEvent) (awaited : Bool) :
    (c.removePrimary key entry.version event awaited).settle = c.lapse key event := by
  have hremoved := h.running.removePrimary key entry.version event awaited
  have hlayout := (sameLayout_removePrimary c key entry.version event awaited).trans
    (sameLayout_settle hremoved)
  have hstore := h.store?_removePrimary_settle hquiet hstored event awaited
  have hreaders : ∀ node other, (c.removePrimary key entry.version event awaited).settle.readers? node
      other = if node = c.affinity.primary key ∧ compare key other = .eq then none
        else c.readers? node other := fun node other =>
    (readers?_settle hremoved node other).trans (readers?_removePrimary ..)
  have hrest := quiet_settle hremoved
  have hrunning := (h.removePrimary hstored event awaited).settle.running
  rw [hlayout.eq_of_nodes (version_removePrimary ..) (running_fanOut ..), lapse,
    if_pos (Option.isSome_of_eq_some hstored)]
  congr 1
  generalize (c.removePrimary key entry.version event awaited).settle = d at *
  refine List.ext_getElem? fun node => ?_
  rw [List.getElem?_mapIdx]
  cases hn : c.nodes[node]? with
  | none => exact List.getElem?_eq_none_iff.2 (hlayout.size ▸ List.getElem?_eq_none_iff.1 hn)
  | some n =>
      have hlt : node < d.nodes.length := hlayout.size ▸ (List.getElem?_eq_some_iff.1 hn).1
      have hm : d.nodes[node]? = some d.nodes[node] := List.getElem?_eq_getElem hlt
      generalize d.nodes[node] = m at hm
      have hinbox : m.inbox = n.inbox :=
        (inbox_of_quiet hrest hrunning hm).trans (inbox_of_quiet hquiet h.running hn).symm
      rw [hm, Option.map_some]
      refine congrArg some (Node.eq_of_stores (fun target => ?_) (fun other => ?_) ?_)
      · have hlapse := hstore node target
        rw [store?, store?, hm, hn] at hlapse
        refine (Option.some.inj hlapse).trans ?_
        by_cases hprimary : node = c.affinity.primary key
        · cases target <;> simp [hprimary, Node.lapse, Node.store, Node.forgetReaders]
        · cases target <;> simp [hprimary, Node.lapse, Node.store]
      · have hforgotten := hreaders node other
        rw [readers?, readers?, hm, hn] at hforgotten
        refine hforgotten.trans ?_
        by_cases hprimary : node = c.affinity.primary key
        · subst hprimary
          simp only [true_and, if_true, Option.bind_some]
          exact ExtTreeMap.getElem?_erase.symm
        · simp [hprimary, Node.lapse]
      · rw [hinbox]
        split <;> rfl

/-! ## Operations and what is read after them -/

omit [LawfulEqOrd κ] in
/-- A removal takes the copy of the primary away, whether it has expired or not. -/
theorem remove_of_stored (c : Cluster κ V) {call : Call} (hstored : c.stored? key = some entry) :
    (c.remove call key).1 = c.removePrimary key entry.version
      (if entry.expiredAt call.now then .expired else .removal) c.config.synchronous := by
  cases hexpired : entry.expiredAt call.now with
  | true =>
      have hlive : c.live? key call.now = none := by
        rw [live?, hstored, Option.filter_some_neg (by simp [hexpired])]
      simp [remove, run, execute, hstored, hlive, Decision.remove, plan, Effect.ofPlan, apply]
  | false =>
      have hlive := live?_of_stored? hstored hexpired
      simp [remove, run, execute, hstored, hlive, Decision.remove, plan, Effect.ofPlan, apply]

omit [LawfulEqOrd κ] in
theorem remove_of_none (c : Cluster κ V) {call : Call} (hnone : c.stored? key = none) :
    (c.remove call key).1 = c := by
  have hlive : c.live? key call.now = none := by rw [live?, hnone]; rfl
  simp [remove, run, execute, hnone, hlive, Decision.remove, plan, Effect.ofPlan, apply]

omit [LawfulEqOrd κ] in
theorem remove_snd (c : Cluster κ V) (call : Call) (key : κ) :
    (c.remove call key).2 = (c.live? key call.now).isSome := by
  cases hlive : c.live? key call.now <;> simp [remove, run, execute, hlive, Decision.remove]

/-- Once everything is delivered, a removal has come down to the loss of every copy of its key. -/
theorem Coherent.settle_remove (h : c.Coherent lapsed) (hquiet : c.Quiet) (call : Call) (key : κ) :
    (c.remove call key).1.settle =
      c.lapse key (if (c.live? key call.now).isSome then .removal else .expired) := by
  cases hstored : c.stored? key with
  | none =>
      rw [c.remove_of_none hstored, settle_of_quiet h.running hquiet, lapse, hstored]
      rfl
  | some entry =>
      rw [c.remove_of_stored hstored, h.settle_removePrimary hquiet hstored, live?, hstored]
      cases hexpired : entry.expiredAt call.now <;> simp [hexpired]

theorem Coherent.remove (h : c.Coherent lapsed) (call : Call) (key : κ) :
    (c.remove call key).1.Coherent lapsed := by
  cases hstored : c.stored? key with
  | some entry =>
      rw [c.remove_of_stored hstored]
      exact h.removePrimary hstored _ _
  | none => rw [c.remove_of_none hstored]; exact h

theorem live?_remove (c : Cluster κ V) (call : Call) {key : κ}
    (hprimary : c.affinity.primary key < c.nodes.length) (now : Millis) :
    (c.remove call key).1.live? key now = none := by
  rw [live?, Option.filter_eq_none_iff]
  cases hstored : c.stored? key with
  | some entry =>
      rw [c.remove_of_stored hstored, stored?_removePrimary _ _ _ _ _ _ hprimary,
        if_pos ReflCmp.compare_self]
      simp
  | none =>
      rw [c.remove_of_none hstored, hstored]
      simp

omit [LawfulEqOrd κ] [Hashable κ] in
/-- At rest all copies of a key have expired if that of the primary has. -/
theorem Coherent.expiredAt_of_live?_eq_none (h : c.Coherent lapsed) (hquiet : c.Quiet) {now : Millis}
    (hlive : c.live? key now = none) {node : Nat} {target : Target}
    (hcopy : c.copy? node target key = some entry) : entry.expiredAt now := by
  have hstored : c.stored? key = some entry := by
    by_cases hreplica : c.affinity.IsReplica node target key
    · exact h.stored_of_quiet hquiet hreplica hcopy
    · obtain ⟨rfl, rfl⟩ := Classical.not_not.1 hreplica
      rw [← copy?_primary, hcopy]
  rw [live?, hstored, Option.filter_eq_none_iff] at hlive
  simpa using hlive entry rfl

/-- What is visible of a key after it was written is the value that was written. -/
theorem value_of_live?_put (c : Cluster κ V) {call : Call} {value : V}
    (hprimary : c.affinity.primary key < c.nodes.length)
    (h : (c.put call key value).live? key call.now = some entry) : entry.value = value := by
  have hput := c.live?_execute key call.policy (c.nearReader call.node key) call.now
    (Decision.put value) key hprimary
  rw [if_pos ReflCmp.compare_self] at hput
  have hcontent := hput.symm.trans (congrArg (Option.map (·.content)) h)
  exact fst_of_outcome_write (Option.filter_eq_some_iff.1 hcontent).1

theorem Coherent.put (h : c.Coherent lapsed) {call : Call} (hnode : call.node < c.nodes.length)
    (key : κ) (value : V) (hversion : c.version.toNat + 1 < 2 ^ 64) :
    (c.put call key value).Coherent lapsed := by
  have hfst : c.put call key value =
      c.follow (c.touchTrace call.policy (some call.node) call.now key (Decision.put value)) :=
    c.execute_fst key call.policy (some call.node) call.now (Decision.put value)
  have hdraws : (c.touchTrace call.policy (some call.node) call.now key
      (Decision.put value)).countP (·.draws) ≤ 1 :=
    List.countP_le_length.trans (Effect.length_trace_le ..)
  rw [hfst]
  exact h.follow _ (c.allowed_touchTrace _ _ _ _ fun node hvia => by cases hvia; exact hnode)
    (by omega)

/-- A read through any node finds what is live on the primary, if the live copies of replicas are those
of the primaries. -/
theorem Fresh.get_snd {call : Call} (h : Fresh call.now c) (key : κ) :
    (c.get call key).2 = (c.live? key call.now).map (·.value) := by
  unfold get
  split
  · cases hread : c.readLocal call.node key call.now with
    | mk d found =>
        cases found with
        | some entry =>
            obtain ⟨target, hreplica, hcopy, hlive⟩ := readLocal_eq_some hread
            rw [live?_of_stored? (h call.node target key entry hreplica hcopy hlive) hlive]
            rfl
        | none =>
            have hfades := c.fades_readLocal call.node key call.now
            rw [hread] at hfades
            exact congrArg (Option.map (·.value)) (hfades.live key)
  · rfl

/-- Once everything is delivered, a read through any node finds what is live on the primary. -/
theorem Coherent.get_settle (h : c.Coherent lapsed) (call : Call) (key : κ) :
    (c.settle.get call key).2 = (c.live? key call.now).map (·.value) := by
  have hlive : c.settle.live? key call.now = c.live? key call.now := by
    rw [live?, live?, h.orderly.stored?_settle]
  rw [(h.settle.fresh (quiet_settle h.running) call.now).get_snd, hlive]

end Removed

end Cluster

end Ephemera
