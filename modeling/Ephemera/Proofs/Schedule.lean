import Ephemera.Proofs.Postpone

/-! # Delivery schedules

Operations that run on primaries do not look at what has been delivered. However their messages are
delivered between them, they give the same results; and once everything has been delivered the cluster
is the same, down to counters and indexes.
-/

namespace Ephemera

open Std

universe u v w

/-- Whether an operation under the policy runs on the primaries of its keys only. A read does if it
counts as an access. -/
def Operation.OnPrimary {κ : Type u} {V : Type v} (policy : Policy) : Operation κ V → Prop
  | .get _ | .getAll _ => (policy.on .access).isSome
  | .localPeek _ | .peekTtl _ => False
  | _ => True

namespace Move

variable {κ : Type u} {V : Type v}

/-- Whether a move of a cache with that default policy is an operation on primaries, a delivery, or
one of the clock. -/
def OnPrimary (default : Policy) : Move κ V → Prop
  | call _ scope operation => operation.OnPrimary (.effective default scope)
  | deliver _ | setClock _ => True
  | _ => False

end Move

namespace Cluster

variable {κ : Type u} {V : Type v} {ρ : Type w} [Ord κ] [TransOrd κ]

/-! ## Traces of operations on primaries -/

theorem onPrimary_touchTrace (c : Cluster κ V) (policy : Policy) (via : Option Nat) (now : Millis)
    (key : κ) (decide : Decision V ρ) :
    ∀ x ∈ c.touchTrace policy via now key decide, x.OnPrimary :=
  c.forall_touchTrace policy via now key decide (fun _ => trivial) (fun _ _ _ _ => trivial)
    (fun _ _ => trivial) fun _ _ => trivial

/-- An operation on a primary sees what the primary holds, and nothing else. -/
theorem touchTrace_congr {c d : Cluster κ V} (hconfig : d.config = c.config)
    (hstored : ∀ key, d.stored? key = c.stored? key) (policy : Policy) (via : Option Nat)
    (now : Millis) (key : κ) (decide : Decision V ρ) :
    d.touchTrace policy via now key decide = c.touchTrace policy via now key decide := by
  simp only [touchTrace, effect, live?, hstored, hconfig]

variable [Hashable κ]

/-- One cluster is another, which is orderly, after some deliveries. -/
structure Delivered (c d : Cluster κ V) : Prop where
  orderly : c.Orderly
  deliveries : ∃ nodes, d = c.deliverAll nodes

namespace Delivered

variable {c d : Cluster κ V}

theorem layout (h : Delivered c d) : SameLayout c d := by
  obtain ⟨nodes, rfl⟩ := h.deliveries
  exact sameLayout_deliverAll c nodes

theorem orderly_after (h : Delivered c d) : d.Orderly := by
  obtain ⟨nodes, rfl⟩ := h.deliveries
  exact h.orderly.deliverAll nodes

theorem settle_eq (h : Delivered c d) : d.settle = c.settle := by
  obtain ⟨nodes, rfl⟩ := h.deliveries
  exact settle_deliverAll h.orderly.running nodes

/-- One more delivery. -/
theorem deliver (h : Delivered c d) (node : Nat) : Delivered c (d.deliver node) := by
  obtain ⟨nodes, rfl⟩ := h.deliveries
  refine ⟨h.orderly, nodes ++ [node], ?_⟩
  simp only [deliverAll, List.foldl_append, List.foldl_cons, List.foldl_nil]

variable [LawfulEqOrd κ]

theorem stored?_eq (h : Delivered c d) (key : κ) : d.stored? key = c.stored? key := by
  obtain ⟨nodes, rfl⟩ := h.deliveries
  exact h.orderly.stored?_deliverAll nodes key

theorem follow (h : Delivered c d) {trace : List (Change κ V)}
    (htrace : ∀ x ∈ trace, x.OnPrimary) : Delivered (c.follow trace) (d.follow trace) := by
  obtain ⟨nodes, rfl⟩ := h.deliveries
  exact ⟨h.orderly.follow trace, h.orderly.follow_deliverAll trace htrace nodes⟩

/-! ### Operations -/

/-- An operation on a primary gives the same result before and after deliveries, which can be made
up for when it is done. -/
theorem execute (h : Delivered c d) (key : κ) (policy : Policy) (via : Option Nat) (now : Millis)
    (decide : Decision V ρ) :
    Delivered (c.execute key policy (via.bind (c.nearReader · key)) now decide).1
        (d.execute key policy (via.bind (d.nearReader · key)) now decide).1 ∧
      (d.execute key policy (via.bind (d.nearReader · key)) now decide).2 =
        (c.execute key policy (via.bind (c.nearReader · key)) now decide).2 := by
  refine ⟨?_, ?_⟩
  · rw [execute_fst, execute_fst, touchTrace_congr h.layout.config h.stored?_eq]
    exact h.follow (c.onPrimary_touchTrace policy via now key decide)
  · simp only [Cluster.execute, live?, h.stored?_eq]

theorem executeAll (policy : Policy) (via : Option Nat) (now : Millis)
    (decisions : List (κ × Decision V ρ)) {c d : Cluster κ V} (h : Delivered c d)
    {reader : κ → Option Nat} (hreader : ∀ key, reader key = via.bind (c.nearReader · key)) :
    Delivered (executeAll policy reader now decisions c).1
        (executeAll policy reader now decisions d).1 ∧
      (executeAll policy reader now decisions d).2 =
        (executeAll policy reader now decisions c).2 := by
  induction decisions generalizing c d with
  | nil => exact ⟨h, rfl⟩
  | cons head rest ih =>
      obtain ⟨key, decide⟩ := head
      have hreader' : reader key = via.bind (d.nearReader · key) := by
        simp only [hreader, nearReader, h.layout.config, h.layout.affinity]
      have hkey := h.execute key policy via now decide
      rw [← hreader, ← hreader'] at hkey
      have hrest := ih hkey.1 (fun other => by
        rw [hreader other, hreader key, execute_fst]
        simp only [nearReader_follow])
      refine ⟨hrest.1, ?_⟩
      simp only [Cluster.executeAll]
      rw [hkey.2, hrest.2]

theorem run (h : Delivered c d) (call : Call) (key : κ) (decide : Decision V ρ) :
    Delivered (c.run call key decide).1 (d.run call key decide).1 ∧
      (d.run call key decide).2 = (c.run call key decide).2 :=
  h.execute key call.policy (some call.node) call.now decide

theorem runAll (h : Delivered c d) (call : Call) (decisions : List (κ × Decision V ρ)) :
    Delivered (c.runAll call decisions).1 (d.runAll call decisions).1 ∧
      (d.runAll call decisions).2 = (c.runAll call decisions).2 := by
  have hreader : d.nearReader call.node = c.nearReader call.node := by
    funext key
    simp only [nearReader, h.layout.config, h.layout.affinity]
  simp only [Cluster.runAll, hreader]
  exact h.executeAll call.policy (some call.node) call.now decisions fun _ => rfl

theorem getEach {call : Call} (hpolicy : (call.policy.on .access).isSome) (keys : List κ)
    {c d : Cluster κ V} (h : Delivered c d) :
    Delivered (getEach call keys c).1 (getEach call keys d).1 ∧
      (getEach call keys d).2 = (getEach call keys c).2 := by
  induction keys generalizing c d with
  | nil => exact ⟨h, rfl⟩
  | cons key rest ih =>
      have hkey := h.run call key .get
      have hrest := ih hkey.1
      simp only [Cluster.getEach, get_of_access hpolicy]
      exact ⟨hrest.1, by rw [hkey.2, hrest.2]⟩

variable [DecidableEq V] [Append V] [Inhabited V]

theorem perform (h : Delivered c d) (call : Call) {operation : Operation κ V}
    (hoperation : operation.OnPrimary call.policy) :
    Delivered (c.perform call operation).1 (d.perform call operation).1 ∧
      (d.perform call operation).2 = (c.perform call operation).2 := by
  cases operation with
  | put key value => exact ⟨(h.run call key (.put value)).1, rfl⟩
  | putAll entries => exact ⟨(h.runAll call _).1, rfl⟩
  | putIfAbsent key value =>
      have hrun := h.run call key (.putIfAbsent value)
      exact ⟨hrun.1, congrArg Answer.flag hrun.2⟩
  | get key =>
      have hrun := h.run call key .get
      simp only [Cluster.perform, get_of_access hoperation]
      exact ⟨hrun.1, congrArg Answer.value hrun.2⟩
  | getAll keys =>
      obtain ⟨hcluster, hvalues⟩ := getEach hoperation keys h
      refine ⟨hcluster, ?_⟩
      change Answer.values (.ofList (found keys (Cluster.getEach call keys d).2)) = _
      rw [hvalues]
      rfl
  | remove key =>
      have hrun := h.run call key .remove
      exact ⟨hrun.1, congrArg Answer.flag hrun.2⟩
  | removeAll keys =>
      obtain ⟨hcluster, hremoved⟩ := h.runAll call (keys.map fun key => (key, Decision.remove))
      refine ⟨hcluster, ?_⟩
      change Answer.count ((d.runAll call (keys.map fun key => (key, Decision.remove))).2.countP id) = _
      rw [hremoved]
      rfl
  | removeIfEquals key expected =>
      have hrun := h.run call key (.removeIfEquals expected)
      exact ⟨hrun.1, congrArg Answer.flag hrun.2⟩
  | replace key value =>
      have hrun := h.run call key (.replace value)
      exact ⟨hrun.1, congrArg Answer.flag hrun.2⟩
  | replaceIfEquals key expected value =>
      have hrun := h.run call key (.replaceIfEquals expected value)
      exact ⟨hrun.1, congrArg Answer.flag hrun.2⟩
  | invoke key script =>
      have hrun := h.run call key (.invoke script)
      exact ⟨hrun.1, congrArg Answer.replies hrun.2⟩
  | entries =>
      have hkeys : d.keys = c.keys := keys_congr h.stored?_eq
      have hreader : ∀ key, (none : Option Nat) = none.bind (c.nearReader · key) := fun _ => rfl
      obtain ⟨hcluster, hvalues⟩ := h.executeAll call.policy none call.now
        (c.keys.map fun key => (key, Decision.get)) hreader
      simp only [Cluster.perform, Cluster.entries, hkeys]
      refine ⟨hcluster, ?_⟩
      simp only [Prod.map_snd]
      rw [hvalues]
  | localPeek | peekTtl => exact hoperation.elim
  | ttl key =>
      refine ⟨h, ?_⟩
      simp only [Cluster.perform, Cluster.ttl, live?, h.stored?_eq]

end Delivered

end Cluster

namespace System

variable {κ : Type u} {V : Type v} [Ord κ] [TransOrd κ] [Hashable κ]
variable [DecidableEq V] [Append V] [Inhabited V]

/-- The moves other than deliveries. -/
def requests (moves : List (Move κ V)) : List (Move κ V) :=
  moves.filter (!·.isDelivery)

/-- The outcomes of the moves other than deliveries, in the course of a run. -/
def results (moves : List (Move κ V)) (s : System κ V) : List (Outcome κ V) :=
  ((moves.zip (run moves s).2).filter (!·.1.isDelivery)).map (·.2)

/-- A move on primaries from two states that differ in deliveries. -/
theorem step_delivered [LawfulEqOrd κ] {s t : System κ V}
    (h : Cluster.Delivered s.cluster t.cluster) (hclock : t.clock = s.clock) {move : Move κ V}
    (hmove : move.OnPrimary s.cluster.config.policy) (hrequest : move.isDelivery = false) :
    Cluster.Delivered (s.step move).1.cluster (t.step move).1.cluster ∧
      (t.step move).2 = (s.step move).2 := by
  cases move with
  | call node scope operation =>
      simp only [step, hclock, h.layout.call_eq]
      cases hcalled : s.cluster.call node scope s.clock with
      | error e => exact ⟨h, rfl⟩
      | ok call =>
          obtain ⟨-, rfl⟩ := Cluster.call_ok hcalled
          obtain ⟨hcluster, hanswer⟩ := h.perform
            { node, policy := .effective s.cluster.config.policy scope, now := s.clock } hmove
          exact ⟨hcluster, congrArg Outcome.answer hanswer⟩
  | setClock now => exact ⟨h, rfl⟩
  | deliver node => cases hrequest
  | begin | stage | commit | rollback | sweep => exact hmove.elim

theorem config_step (s : System κ V) (move : Move κ V) :
    (s.step move).1.cluster.config = s.cluster.config := by
  rw [step_cluster]
  exact (Cluster.sameLayout_follow _ _).config

/-- All deliveries of a run can be put off to its end. -/
theorem run_delivered [LawfulEqOrd κ] (moves : List (Move κ V)) {s t : System κ V}
    (h : Cluster.Delivered s.cluster t.cluster) (hclock : t.clock = s.clock)
    (hmoves : ∀ move ∈ moves, move.OnPrimary s.cluster.config.policy) :
    Cluster.Delivered (run (requests moves) s).1.cluster (run moves t).1.cluster ∧
      results moves t = (run (requests moves) s).2 := by
  induction moves generalizing s t with
  | nil => exact ⟨h, rfl⟩
  | cons move rest ih =>
      have hrest : ∀ m ∈ rest, m.OnPrimary s.cluster.config.policy :=
        fun m hm => hmoves m (List.mem_cons_of_mem move hm)
      cases hrequest : move.isDelivery with
      | true =>
          obtain ⟨node, rfl⟩ := Move.eq_deliver hrequest
          obtain ⟨hcluster, hresults⟩ := ih (t := (t.step (.deliver node)).1) (h.deliver node) hclock
            hrest
          have hfilter : requests (.deliver node :: rest) = requests rest := rfl
          rw [hfilter]
          refine ⟨hcluster, ?_⟩
          rw [← hresults]
          rfl
      | false =>
          obtain ⟨hcluster, houtcome⟩ :=
            step_delivered h hclock (hmoves move List.mem_cons_self) hrequest
          have hfilter : requests (move :: rest) = move :: requests rest := by
            simp [requests, hrequest]
          have hnext : (t.step move).1.clock = (s.step move).1.clock := by
            rw [clock_step, clock_step, hclock]
          obtain ⟨hfinal, hresults⟩ := ih hcluster hnext (by rw [config_step]; exact hrest)
          rw [hfilter]
          refine ⟨hfinal, ?_⟩
          simp only [run]
          rw [← hresults, ← houtcome]
          simp [results, run, hrequest]

omit [Ord κ] [TransOrd κ] [Hashable κ] [DecidableEq V] [Append V] [Inhabited V] in
theorem onPrimary_of_requests {default : Policy} {moves : List (Move κ V)}
    (h : ∀ move ∈ requests moves, move.OnPrimary default) :
    ∀ move ∈ moves, move.OnPrimary default := by
  intro move hmove
  cases move with
  | deliver node => trivial
  | _ => exact h _ (List.mem_filter.2 ⟨hmove, rfl⟩)

/-- Delivery schedules do not matter. From any state that a run has led to, make the same requests to
primaries with the same readings of the clock, and deliver what is shipped in two different ways. All
requests have the same outcomes, and when everything has been delivered the clusters are the same. -/
theorem deliveries_in_any_order [LawfulEqOrd κ] {config : CacheConfig} {nodes : Nat}
    {affinity : Affinity κ} {c₀ : Cluster κ V}
    (hstart : Cluster.start config nodes affinity = .ok c₀) (hlawful : affinity.Lawful)
    (now : Millis) (before : List (Move κ V)) {s : System κ V}
    (hrun : (run before { cluster := c₀, clock := now }).1 = s)
    {a b : List (Move κ V)} (hrequests : ∀ move ∈ requests a, move.OnPrimary config.policy)
    (hsame : requests a = requests b) :
    results a s = results b s ∧
      (run a s).1.cluster.settle = (run b s).1.cluster.settle ∧
      ((run a s).1.cluster.Quiet → (run b s).1.cluster.Quiet →
        (run a s).1.cluster = (run b s).1.cluster) := by
  have hconfig : s.cluster.config = config := by
    rw [← hrun, run_cluster, (Cluster.sameLayout_follow _ _).config, (Cluster.start_ok hstart).2]
  have hs : Cluster.Delivered s.cluster s.cluster :=
    ⟨hrun ▸ orderly_run hstart hlawful now before, [], rfl⟩
  rw [← hconfig] at hrequests
  obtain ⟨ha, haresults⟩ := run_delivered a hs rfl (onPrimary_of_requests hrequests)
  obtain ⟨hb, hbresults⟩ := run_delivered b hs rfl (onPrimary_of_requests (hsame ▸ hrequests))
  rw [← hsame] at hb hbresults
  have hsettle : (run a s).1.cluster.settle = (run b s).1.cluster.settle :=
    ha.settle_eq.trans hb.settle_eq.symm
  refine ⟨haresults.trans hbresults.symm, hsettle, ?_⟩
  intro hquieta hquietb
  rw [← Cluster.settle_of_quiet ha.orderly_after.running hquieta, hsettle,
    Cluster.settle_of_quiet hb.orderly_after.running hquietb]

/-- Two writes and a read through the near reader, each message delivered at once. -/
def promptly : List (Move Nat (List Nat)) :=
  [.call 2 none (.put 0 [7]), .deliver 1, .deliver 2, .setClock 5, .call 2 none (.put 0 [8]),
    .deliver 2, .deliver 1, .call 1 none (.remove 3)]

/-- The same requests, and all deliveries at the end. -/
def belatedly : List (Move Nat (List Nat)) :=
  [.call 2 none (.put 0 [7]), .setClock 5, .call 2 none (.put 0 [8]), .call 1 none (.remove 3),
    .deliver 1, .deliver 1, .deliver 2, .deliver 2]

theorem deliveries_in_any_order_belatedly :
    ∃ c₀ : Cluster Nat (List Nat), Cluster.start { near := true } 3 trio = .ok c₀ ∧
      (run belatedly { cluster := c₀ }).1.cluster.Quiet ∧
      (run promptly { cluster := c₀ }).1.cluster = (run belatedly { cluster := c₀ }).1.cluster := by
  let c₀ : Cluster Nat (List Nat) :=
    { config := { near := true }, affinity := trio, nodes := .empty 3 true }
  have hstart : Cluster.start { near := true } 3 trio = .ok c₀ := rfl
  have hrequests : ∀ move ∈ requests promptly, move.OnPrimary ({} : CacheConfig).policy := by
    simp [requests, promptly, Move.isDelivery, Move.OnPrimary, Operation.OnPrimary]
  have hprompt : (run promptly { cluster := c₀ }).1.cluster.Quiet := by decide +kernel
  have hbelated : (run belatedly { cluster := c₀ }).1.cluster.Quiet := by decide +kernel
  have hsame : requests promptly = requests belatedly := by
    simp [requests, promptly, belatedly, Move.isDelivery]
  refine ⟨c₀, hstart, hbelated, ?_⟩
  exact (deliveries_in_any_order (s := { cluster := c₀ }) hstart lawful_trio 0 [] rfl
    hrequests hsame).2.2 hprompt hbelated

end System

end Ephemera
