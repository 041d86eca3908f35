import Mathlib.Data.Fintype.Basic
import Ephemera.Proofs.Coherence

/-! # Runs that come to rest

Every run of a system that starts without copies keeps them coherent. When no change is under way any
more, a replica holds what the primary holds or nothing, and if the clock has never gone back, nothing
only in place of an expired copy.
-/

namespace Ephemera

open Std

universe u v w

namespace Cluster

variable {κ : Type u} {V : Type v} {ρ : Type w} [Ord κ] [TransOrd κ]

/-! ## What traces are allowed -/

section Allowed

variable {size : Nat} {lapsed : Entry V → Prop}

theorem allowed_touchTrace (c : Cluster κ V) (policy : Policy) {via : Option Nat} (now : Millis)
    (key : κ) (decide : Decision V ρ) (hvia : ∀ node, via = some node → node < size) :
    ∀ x ∈ c.touchTrace policy via now key decide, x.Allowed size lapsed :=
  c.forall_touchTrace policy via now key decide (fun _ => trivial) (fun _ _ _ _ => hvia)
    (fun _ _ => trivial) hvia

theorem allowed_readLocalTrace (c : Cluster κ V) (node : Nat) (key : κ) {now : Millis}
    (hlapsed : ∀ entry : Entry V, entry.expiredAt now → lapsed entry) :
    ∀ x ∈ c.readLocalTrace node key now, x.Allowed size lapsed :=
  c.forall_readLocalTrace node key now (fun _ _ _ => trivial) fun _ => hlapsed

variable [Hashable κ]

/-- The changes of an operation that is called through a node of the cluster. -/
theorem allowed_performTrace [DecidableEq V] [Append V] [Inhabited V] (c : Cluster κ V)
    {call : Call} (operation : Operation κ V) (hnode : call.node < size)
    (hlapsed : ∀ entry : Entry V, entry.expiredAt call.now → lapsed entry) :
    ∀ x ∈ c.performTrace call operation, x.Allowed size lapsed := by
  refine forall_performTrace c operation ?_ ?_
  · intro d via key decide hvia _
    apply d.allowed_touchTrace
    intro node hcalled
    rw [hvia node hcalled]
    exact hnode
  · exact fun d key => d.allowed_readLocalTrace call.node key hlapsed

theorem allowed_sweepTrace (c : Cluster κ V) (node : Nat) {now : Millis}
    (hlapsed : ∀ entry : Entry V, entry.expiredAt now → lapsed entry) :
    ∀ x ∈ c.sweepTrace node now, x.Allowed size lapsed := by
  exact forall_sweepTrace c fun d target deadline =>
    d.forall_reclaimTrace node target deadline now (fun _ _ _ => trivial) hlapsed

end Allowed

/-! ## At the start and at rest -/

omit [TransOrd κ] in
theorem start_ok {config : CacheConfig} {nodes : Nat} {affinity : Affinity κ} {c : Cluster κ V}
    (h : start config nodes affinity = .ok c) :
    affinity.nodes = nodes ∧ c = { config, affinity, nodes := .empty nodes config.eager } := by
  unfold start at h
  split at h
  · cases h
  · split at h
    · cases h
    · split at h
      next => cases h
      next hsize =>
        cases h
        exact ⟨Decidable.not_not.1 hsize, rfl⟩

omit [TransOrd κ] in
theorem node_of_start {config : CacheConfig} {nodes : Nat} {affinity : Affinity κ}
    {c : Cluster κ V} (h : start config nodes affinity = .ok c) {node : Nat} {n : Node κ V}
    (hn : c.nodes[node]? = some n) : n = .empty config.eager := by
  obtain ⟨-, rfl⟩ := start_ok h
  change (Network.empty nodes config.eager)[node]? = some n at hn
  rw [Network.empty, List.getElem?_replicate] at hn
  split at hn
  · exact (Option.some.inj hn).symm
  · cases hn

theorem copy?_start {config : CacheConfig} {nodes : Nat} {affinity : Affinity κ} {c : Cluster κ V}
    (h : start config nodes affinity = .ok c) (node : Nat) (target : Target) (key : κ) :
    c.copy? node target key = none := by
  cases hn : c.nodes[node]? with
  | none => exact copy?_of_none hn target key
  | some n =>
      rw [copy?_of_some hn, node_of_start h hn]
      cases target <;> exact Store.get?_empty config.eager key

/-- A cluster without copies is coherent. -/
theorem coherent_start {config : CacheConfig} {nodes : Nat} {affinity : Affinity κ}
    {c : Cluster κ V} (h : start config nodes affinity = .ok c) (hlawful : affinity.Lawful)
    (lapsed : Entry V → Prop) : c.Coherent lapsed := by
  have hcopy := fun node target key => copy?_start h node target key
  have hinflight : ∀ node target key, c.inflight node target key = [] := by
    intro node target key
    cases hn : c.nodes[node]? with
    | none => simp [inflight, queue_of_none hn]
    | some n =>
        rw [inflight, queue_of_some hn, node_of_start h hn]
        rfl
  have hregistered : ∀ key node, ¬c.Registered key node := by
    rintro key node ⟨n, hn, hreader⟩
    rw [node_of_start h hn] at hreader
    simp [Node.readersOf, Node.empty] at hreader
  obtain ⟨hsize, hc⟩ := start_ok h
  refine ⟨by rw [hc]; exact hlawful, by simp [hc, Network.empty, hsize], ?_, ?_⟩
  · intro node n hn
    rw [node_of_start h hn]
    rfl
  · intro key
    have hstored : c.stored? key = none := hcopy (c.affinity.primary key) .owned key
    refine ⟨hinflight _ _ _, ?_, ?_, ?_, ?_, ?_⟩
    · intro entry hentry
      cases hstored.symm.trans hentry
    · intro node hreader
      exact absurd hreader (hregistered key node)
    · intro node target _
      rw [hcopy, hinflight]
      exact Follows.empty _ _
    · intro node target _ hne
      rw [ahead?_eq (hinflight node target key), hcopy] at hne
      exact absurd rfl hne
    · intro node target entry _ hentry
      cases hstored.symm.trans hentry

namespace Coherent

variable {lapsed : Entry V → Prop} {c : Cluster κ V} {node : Nat} {target : Target} {key : κ}
  {entry : Entry V}

/-- At rest a replica holds nothing but what the primary holds. -/
theorem stored_of_quiet (h : c.Coherent lapsed) (hquiet : c.Quiet)
    (hreplica : c.affinity.IsReplica node target key)
    (hcopy : c.copy? node target key = some entry) : c.stored? key = some entry := by
  apply ((h.inStep key).follows node target hreplica).ahead_eq
  rw [inflight_of_quiet hquiet, ahead_nil, hcopy]

/-- At rest a replica that is shipped to lacks only what has lapsed. -/
theorem lapsed_of_quiet (h : c.Coherent lapsed) (hquiet : c.Quiet)
    (hnode : node ∈ c.recipients key target) (hcopy : c.copy? node target key = none)
    (hstored : c.stored? key = some entry) : lapsed entry := by
  rcases (h.inStep key).complete node target entry hnode hstored with hahead | hlapsed
  · rw [ahead?_eq (inflight_of_quiet hquiet node target key), hcopy] at hahead
    cases hahead
  · exact hlapsed

end Coherent

end Cluster

namespace System

variable {κ : Type u} {V : Type v} [Ord κ] [TransOrd κ] [Hashable κ]
variable [DecidableEq V] [Append V] [Inhabited V]

/-- What the clock shows in the course of a run that starts at `now`. -/
def readings (now : Millis) (moves : List (Move κ V)) : List Millis :=
  now :: moves.filterMap Move.reading?

/-- The clock never goes back. -/
def Forward (now : Millis) (moves : List (Move κ V)) : Prop :=
  (readings now moves).Pairwise (· ≤ ·)

instance (now : Millis) (moves : List (Move κ V)) : Decidable (Forward now moves) :=
  inferInstanceAs (Decidable ((readings now moves).Pairwise (· ≤ ·)))

/-- The clock shows the last of its readings at the end of a run. -/
theorem clock_run (moves : List (Move κ V)) (s : System κ V) :
    (readings s.clock moves).getLast? = some (run moves s).1.clock := by
  induction moves generalizing s with
  | nil => rfl
  | cons move rest ih =>
      have hstep := ih (s.step move).1
      rw [clock_step] at hstep
      simp only [run, ← hstep, readings, List.filterMap_cons]
      cases move.reading? with
      | none => rfl
      | some now => rw [List.getLast?_cons_cons]; rfl

theorem forward_step {s : System κ V} {move : Move κ V} {rest : List (Move κ V)}
    (h : Forward s.clock (move :: rest)) :
    s.clock ≤ (s.step move).1.clock ∧ Forward (s.step move).1.clock rest := by
  rw [clock_step]
  unfold Forward readings at h ⊢
  rw [List.filterMap_cons] at h
  cases hreading : move.reading? with
  | none =>
      rw [hreading] at h
      exact ⟨UInt64.le_refl _, h⟩
  | some now =>
      rw [hreading] at h
      exact ⟨(List.pairwise_cons.1 h).1 now List.mem_cons_self, (List.pairwise_cons.1 h).2⟩

theorem le_clock_of_forward {moves : List (Move κ V)} {s : System κ V}
    (h : Forward s.clock moves) {now : Millis} (hnow : now ∈ readings s.clock moves) :
    now ≤ (run moves s).1.clock := by
  obtain ⟨before, hreadings⟩ := List.getLast?_eq_some_iff.1 (clock_run moves s)
  unfold Forward at h
  rw [hreadings] at h hnow
  rcases List.mem_append.1 hnow with hnow | hnow
  · exact (List.pairwise_append.1 h).2.2 now hnow _ List.mem_cons_self
  · rw [List.mem_singleton.1 hnow]
    exact UInt64.le_refl _

theorem allowed_moveTrace (s : System κ V) (move : Move κ V) {lapsed : Entry V → Prop}
    (hlapsed : ∀ entry : Entry V, entry.expiredAt s.clock → lapsed entry) :
    ∀ x ∈ s.moveTrace move, x.Allowed s.cluster.nodes.length lapsed := by
  refine s.forall_moveTrace (fun node scope operation _ hnode => ?_) (fun tx opened _ => ?_)
    (fun node => s.cluster.allowed_sweepTrace node hlapsed) fun _ => trivial
  · exact s.cluster.allowed_performTrace operation hnode hlapsed
  · exact Cluster.forall_commitTrace s.clock s.cluster (fun _ _ _ => nofun) fun _ _ _ _ => trivial

theorem allowed_trace {lapsed : Entry V → Prop} (moves : List (Move κ V)) (s : System κ V)
    (hlapsed : ∀ now ∈ readings s.clock moves, ∀ entry : Entry V, entry.expiredAt now →
      lapsed entry) :
    ∀ x ∈ trace moves s, x.Allowed s.cluster.nodes.length lapsed := by
  induction moves generalizing s with
  | nil =>
      intro x hx
      cases hx
  | cons move rest ih =>
      intro x hx
      rcases List.mem_append.1 hx with hx | hx
      · exact s.allowed_moveTrace move (hlapsed s.clock List.mem_cons_self) x hx
      · have hsize : (s.step move).1.cluster.nodes.length = s.cluster.nodes.length := by
          rw [step_cluster]
          exact (Cluster.sameLayout_follow _ _).size
        rw [← hsize]
        refine ih (s.step move).1 ?_ x hx
        intro now hnow
        apply hlapsed now
        rw [clock_step] at hnow
        simp only [readings, List.filterMap_cons, List.mem_cons] at hnow ⊢
        cases hreading : move.reading? with
        | none => simpa only [hreading, Option.getD_none] using hnow
        | some reading =>
            rw [hreading] at hnow
            exact .inr (List.mem_cons.2 hnow)

/-- A run keeps all copies in step, with what has expired at any reading of the clock lapsed. -/
theorem coherent_run [LawfulEqOrd κ] {lapsed : Entry V → Prop} (moves : List (Move κ V))
    (s : System κ V) (h : s.cluster.Coherent lapsed)
    (hlapsed : ∀ now ∈ readings s.clock moves, ∀ entry : Entry V, entry.expiredAt now →
      lapsed entry)
    (hdrawn : s.cluster.version.toNat + drawn moves s < 2 ^ 64) :
    (run moves s).1.cluster.Coherent lapsed := by
  rw [run_cluster]
  exact h.follow (trace moves s) (allowed_trace moves s hlapsed) hdrawn

/-- A run from the start does, if it draws fewer versions than there are. -/
theorem coherent_run_of_start [LawfulEqOrd κ] {config : CacheConfig} {nodes : Nat}
    {affinity : Affinity κ} {c₀ : Cluster κ V}
    (hstart : Cluster.start config nodes affinity = .ok c₀) (hlawful : affinity.Lawful)
    {lapsed : Entry V → Prop} {now : Millis} {moves : List (Move κ V)}
    (hlapsed : ∀ reading ∈ readings now moves, ∀ entry : Entry V, entry.expiredAt reading →
      lapsed entry)
    (hdrawn : drawn moves { cluster := c₀, clock := now } < 2 ^ 64) :
    (run moves { cluster := c₀, clock := now }).1.cluster.Coherent lapsed := by
  refine coherent_run moves { cluster := c₀, clock := now }
    (Cluster.coherent_start hstart hlawful lapsed) hlapsed ?_
  simpa [(Cluster.start_ok hstart).2] using hdrawn

/-- Coherence at rest. However operations, transactions, sweeps, deliveries and readings of the clock
have come in turn, once no change is under way a replica holds the copy of the primary or none. If
the clock has never gone back, a backup or registered reader that holds none while the primary holds
one has dropped it because it has expired. -/
theorem replicas_agree_at_rest [LawfulEqOrd κ] {config : CacheConfig} {nodes : Nat}
    {affinity : Affinity κ} {c₀ : Cluster κ V}
    (hstart : Cluster.start config nodes affinity = .ok c₀) (hlawful : affinity.Lawful)
    (now : Millis) (moves : List (Move κ V))
    (hdrawn : drawn moves { cluster := c₀, clock := now } < 2 ^ 64) {s : System κ V}
    (hrun : (run moves { cluster := c₀, clock := now }).1 = s) (hquiet : s.cluster.Quiet) :
    (∀ key node target entry, affinity.IsReplica node target key →
      s.cluster.copy? node target key = some entry → s.cluster.stored? key = some entry) ∧
    (∀ key, s.cluster.stored? key = none →
      ∀ node target, s.cluster.copy? node target key = none) ∧
    (Forward now moves → ∀ key entry, s.cluster.stored? key = some entry →
      (∀ node ∈ affinity.backups key, s.cluster.copy? node .owned key = none →
        entry.expiredAt s.clock) ∧
      (∀ node, s.cluster.Registered key node → s.cluster.copy? node .near key = none →
        entry.expiredAt s.clock)) := by
  obtain ⟨-, hc₀⟩ := Cluster.start_ok hstart
  have hcoherent : ∀ lapsed : Entry V → Prop,
      (∀ reading ∈ readings now moves, ∀ entry : Entry V, entry.expiredAt reading → lapsed entry) →
        s.cluster.Coherent lapsed := by
    intro lapsed hlapsed
    exact hrun ▸ coherent_run_of_start hstart hlawful hlapsed hdrawn
  have haffinity : s.cluster.affinity = affinity := by
    rw [← hrun, run_cluster, (Cluster.sameLayout_follow _ _).affinity, hc₀]
  have hagree : ∀ key node target entry, affinity.IsReplica node target key →
      s.cluster.copy? node target key = some entry → s.cluster.stored? key = some entry := by
    intro key node target entry hreplica
    exact (hcoherent (fun _ => True) fun _ _ _ _ => trivial).stored_of_quiet hquiet
      (haffinity ▸ hreplica)
  refine ⟨hagree, ?_, ?_⟩
  · intro key hnone node target
    by_cases hreplica : affinity.IsReplica node target key
    · rw [← Option.not_isSome_iff_eq_none, Option.isSome_iff_exists]
      rintro ⟨entry, hcopy⟩
      cases hnone.symm.trans (hagree key node target entry hreplica hcopy)
    · obtain ⟨rfl, rfl⟩ := Classical.not_not.1 hreplica
      rw [← haffinity, Cluster.copy?_primary]
      exact hnone
  · intro hforward key entry hstored
    have h : s.cluster.Coherent (·.expiredAt s.clock) := by
      apply hcoherent
      intro reading hreading next hexpired
      obtain ⟨hlimit, hle⟩ := (next.ttl.expiredAt_iff reading).1 hexpired
      refine (next.ttl.expiredAt_iff s.clock).2 ⟨hlimit, UInt64.le_trans hle ?_⟩
      rw [← hrun]
      exact le_clock_of_forward (s := { cluster := c₀, clock := now }) hforward hreading
    refine ⟨?_, ?_⟩
    · intro node hnode hcopy
      refine h.lapsed_of_quiet hquiet ?_ hcopy hstored
      rw [Cluster.mem_recipients_iff, haffinity]
      exact .inl ⟨rfl, hnode⟩
    · intro node hnode hcopy
      refine h.lapsed_of_quiet hquiet ?_ hcopy hstored
      rw [Cluster.mem_recipients_iff]
      exact .inr ⟨rfl, hnode, ((h.inStep key).readers node hnode).2⟩

/-- Three nodes, of which node 0 is primary of every key and node 1 backs it up. -/
def trio : Affinity Nat where
  nodes := 3
  primary _ := 0
  backups _ := [1]

theorem lawful_trio : trio.Lawful where
  primary_lt := by simp [trio]
  backups_lt := by simp [trio]
  primary_not_mem_backups := by simp [trio]

/-- An entry that lives for three milliseconds is written through node 2, which becomes its near
reader. Once it has expired a sweep takes the copy of the backup away. -/
def shortLived : List (Move Nat (List Nat)) :=
  [.call 2 (some (.custom (.created (.millis 3)))) (.put 0 [7]), .deliver 1, .deliver 2,
    .setClock 5, .sweep 1]

theorem replicas_agree_at_rest_shortLived :
    ∃ (c₀ : Cluster Nat (List Nat)) (s : System Nat (List Nat)) (entry : Entry (List Nat)),
      Cluster.start { near := true } 3 trio = .ok c₀ ∧
      (run shortLived { cluster := c₀ }).1 = s ∧ s.cluster.Quiet ∧
      s.cluster.stored? 0 = some entry ∧ s.cluster.copy? 1 .owned 0 = none ∧
      entry.expiredAt s.clock ∧ s.cluster.copy? 2 .near 0 = s.cluster.stored? 0 := by
  let c₀ : Cluster Nat (List Nat) :=
    { config := { near := true }, affinity := trio, nodes := .empty 3 true }
  have hstart : Cluster.start { near := true } 3 trio = .ok c₀ := rfl
  have hdrawn : drawn shortLived { cluster := c₀ } < 2 ^ 64 := by decide_cbv
  have hquiet : (run shortLived { cluster := c₀ }).1.cluster.Quiet := by decide_cbv
  have hstored : (run shortLived { cluster := c₀ }).1.cluster.stored? 0 =
      some { value := [7], version := 1, ttl := .lasting 3 0 } := by cbv
  have hbackup : (run shortLived { cluster := c₀ }).1.cluster.copy? 1 .owned 0 = none := by cbv
  have hnear : (run shortLived { cluster := c₀ }).1.cluster.copy? 2 .near 0 =
      some { value := [7], version := 1, ttl := .lasting 3 0 } := by cbv
  obtain ⟨hagree, -, hforward⟩ :=
    replicas_agree_at_rest hstart lawful_trio 0 shortLived hdrawn rfl hquiet
  refine ⟨c₀, _, _, hstart, rfl, hquiet, hstored, hbackup, ?_, ?_⟩
  · exact (hforward (by decide) 0 _ hstored).1 1 (by decide) hbackup
  · rw [hnear, hagree 0 2 .near _ (by simp [Affinity.IsReplica]) hnear]

end System

end Ephemera
