import Ephemera.Proofs.LockStep
import Ephemera.Proofs.Placement

/-! # Everything delivered

To deliver all messages of a cluster is to make so many single deliveries, so what each delivery keeps
is kept. What a store will hold of a key when everything under way to it has been delivered can be told
before, and no delivery changes it.
-/

namespace Ephemera

open Std

universe u v

namespace Cluster

variable {κ : Type u} {V : Type v} [Ord κ]

/-! ## How much is under way -/

/-- The number of messages that wait at all nodes together. -/
def backlog (c : Cluster κ V) : Nat :=
  c.nodes.foldr (fun n waiting => n.inbox.queue.length + waiting) 0

variable [TransOrd κ] [Hashable κ]

/-- Every delivery leaves one message less. -/
theorem backlog_deliver {c : Cluster κ V} (hc : c.Running) {node : Nat} {m : Message κ V}
    {rest : List (Message κ V)} (hqueue : c.queue node = m :: rest) :
    c.backlog = (c.deliver node).backlog + 1 := by
  have hmodify : ∀ (nodes : List (Node κ V)) (i : Nat) (n : Node κ V), nodes[i]? = some n →
      n.deliver.1.inbox.queue.length + 1 = n.inbox.queue.length →
        nodes.foldr (fun n waiting => n.inbox.queue.length + waiting) 0 =
          (nodes.modify i (·.deliver.1)).foldr (fun n waiting => n.inbox.queue.length + waiting) 0
            + 1 := by
    intro nodes
    induction nodes with
    | nil =>
        intro i n hn
        simp at hn
    | cons head tail ih =>
        intro i n hn hlength
        cases i with
        | zero =>
            obtain rfl : head = n := by simpa using hn
            simp only [List.modify_zero_cons, List.foldr_cons]
            omega
        | succ i =>
            simp only [List.modify_succ_cons, List.foldr_cons]
            rw [ih i n (by simpa using hn) hlength, Nat.add_assoc]
  cases hn : c.nodes[node]? with
  | none =>
      rw [queue_of_none hn] at hqueue
      cases hqueue
  | some n =>
      rw [queue_of_some hn] at hqueue
      refine hmodify c.nodes node n hn ?_
      rw [Node.deliver_of_queue (hc node n hn) hqueue, Node.inbox_apply, hqueue]
      rfl

/-- To deliver everything is to make single deliveries, in turn, after which nothing is under way. -/
theorem settle_eq_deliverAll {c : Cluster κ V} (hc : c.Running) :
    ∃ nodes, c.settle = c.deliverAll nodes ∧ c.settle.Quiet := by
  induction hbacklog : c.backlog using Nat.strongRecOn generalizing c with
  | ind backlog ih =>
      by_cases hquiet : c.Quiet
      · have hsettled := settle_of_quiet hc hquiet
        exact ⟨[], hsettled, hsettled.symm ▸ hquiet⟩
      · obtain ⟨n, hn, hwaits⟩ : ∃ n ∈ c.nodes, n.inbox.queue ≠ [] := by
          simpa [Quiet] using hquiet
        obtain ⟨node, hnode⟩ := List.mem_iff_getElem?.1 hn
        obtain ⟨m, rest, hqueue⟩ := List.exists_cons_of_ne_nil hwaits
        have hless := backlog_deliver hc ((queue_of_some hnode).trans hqueue)
        obtain ⟨nodes, hnodes⟩ := ih (c.deliver node).backlog (by omega) (hc.deliver node) rfl
        rw [settle_deliver hc] at hnodes
        exact ⟨node :: nodes, hnodes⟩

theorem quiet_settle {c : Cluster κ V} (hc : c.Running) : c.settle.Quiet := by
  obtain ⟨_, _, hquiet⟩ := settle_eq_deliverAll hc
  exact hquiet

/-- What every delivery keeps is kept when everything is delivered. -/
theorem settle_induction {motive : Cluster κ V → Prop} {c : Cluster κ V} (hrunning : c.Running)
    (hdeliver : ∀ d node, d.Running → motive d → motive (d.deliver node)) (hc : motive c) :
    motive c.settle := by
  obtain ⟨nodes, hnodes, -⟩ := settle_eq_deliverAll hrunning
  rw [hnodes]
  clear hnodes
  induction nodes generalizing c with
  | nil => exact hc
  | cons node rest ih => exact ih (hrunning.deliver node) (hdeliver c node hrunning hc)

/-! ## What deliveries keep -/

section Settled

variable {c : Cluster κ V}

theorem sameLayout_settle (hc : c.Running) : SameLayout c c.settle :=
  settle_induction hc (fun d node _ hd => hd.trans (sameLayout_change d (.deliver node)))
    (SameLayout.refl c)

theorem Orderly.settle (hc : c.Orderly) : c.settle.Orderly :=
  settle_induction hc.running (fun _ node _ hd => hd.deliver node) hc

theorem AllStores.settle {holds : Store κ V → Prop} (hholds : Store.Stable holds)
    (h : c.AllStores holds) (hc : c.Running) : c.settle.AllStores holds :=
  settle_induction hc (fun _ node _ hd => hd.change hholds (.deliver node)) h

theorem readers?_settle (hc : c.Running) (node : Nat) (key : κ) :
    c.settle.readers? node key = c.readers? node key :=
  settle_induction (motive := fun d => d.readers? node key = c.readers? node key) hc
    (fun d other _ hd => (d.readers?_deliver other node key).trans hd) rfl

/-! ## Copies to come -/

omit [Hashable κ] in
/-- The copy that a store will hold when everything under way to it has been delivered. -/
def final? (c : Cluster κ V) (node : Nat) (target : Target) (key : κ) : Option (Entry V) :=
  (c.inflight node target key).foldl (fun copy update => update.onto copy) (c.copy? node target key)

variable [LawfulEqOrd κ]

theorem final?_deliver (hc : c.Running) (node other : Nat) (target : Target) (key : κ) :
    (c.deliver node).final? other target key = c.final? other target key := by
  cases hqueue : c.queue node with
  | nil => rw [deliver_of_nil hqueue]
  | cons m rest =>
      unfold final?
      rw [inflight_deliver hc hqueue other target key, List.foldl_append,
        copy?_deliver hc hqueue other target key]
      split <;> rfl

/-- When everything has been delivered, a store holds the copy that was to come. -/
theorem copy?_settle (hc : c.Running) (node : Nat) (target : Target) (key : κ) :
    c.settle.copy? node target key = c.final? node target key := by
  have hfinal : c.settle.final? node target key = c.final? node target key :=
    settle_induction (motive := fun d => d.final? node target key = c.final? node target key) hc
      (fun d other hd h => (final?_deliver hd other node target key).trans h) rfl
  rw [← hfinal, final?, inflight_of_quiet (quiet_settle hc)]
  rfl

end Settled

/-! ## Sound clusters -/

variable [LawfulEqOrd κ]

/-- What holds of a cluster however it is used: it is orderly, and its stores are in lock step with
their indexes. -/
structure Sound (c : Cluster κ V) : Prop where
  orderly : c.Orderly
  lockStep : c.AllStores (Store.LockStep c.config.eager)

namespace Sound

variable {c : Cluster κ V}

theorem follow (h : c.Sound) (trace : List (Change κ V)) : (c.follow trace).Sound where
  orderly := h.orderly.follow trace
  lockStep := by
    rw [(sameLayout_follow c trace).config]
    exact h.lockStep.follow (Store.stable_lockStep _) trace

theorem settle (h : c.Sound) : c.settle.Sound where
  orderly := h.orderly.settle
  lockStep := h.lockStep.settle (Store.stable_lockStep _) h.orderly.running

omit [LawfulEqOrd κ] in
theorem start {config : CacheConfig} {nodes : Nat} {affinity : Affinity κ}
    (hstart : Cluster.start config nodes affinity = .ok c) (hlawful : affinity.Lawful) : c.Sound where
  orderly := orderly_start hstart hlawful
  lockStep := by
    obtain ⟨-, hc⟩ := start_ok hstart
    have hlock := lockStep_start hstart
    rw [hc] at hlock ⊢
    exact hlock

end Sound

end Cluster

end Ephemera
