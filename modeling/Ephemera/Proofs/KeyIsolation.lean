import Ephemera.Proofs.Mirror
import Ephemera.Proofs.Refinement

/-! # Isolation of keys

All keys share the version counter, the inboxes, the stores and their indexes, and the sweeps. Yet what
becomes of one key can be told from the requests that are about it. The others may be left out, and
calls on several keys restricted to this one: everything that a client learns of the key is the same,
and so are its copies, its place in every index and its readers. Only the versions are others, in the
same order.
-/

namespace Ephemera

open Std

universe u v

namespace Move

variable {κ : Type u} {V : Type v}

/-- Whether the move is an operation on keys that it names, a sweep, or one of the clock. -/
def NamesKeys : Move κ V → Prop
  | call _ _ operation => operation ≠ .entries
  | sweep _ | setClock _ => True
  | _ => False

variable [Ord κ]

/-- The request as far as it is about the key, if it is. Sweeps and readings of the clock are about all
keys. -/
def restrict? (key : κ) : Move κ V → Option (Move κ V)
  | call node scope operation => (operation.restrict? key).map (call node scope)
  | sweep node => some (.sweep node)
  | setClock now => some (.setClock now)
  | _ => none

end Move

namespace Index

variable {κ : Type u} [Ord κ] [TransOrd κ] [LawfulEqOrd κ] [Hashable κ]

/-- A key is in order where it is by key. -/
theorem Agrees.filter_deadlines {index : Index κ} (h : index.Agrees) (key : κ) :
    index.deadlines.filter (compare ·.key key = .eq) =
      (index.expireTime? key).toList.map fun time => ⟨time, key⟩ := by
  have hmem : ∀ d, d ∈ index.deadlines.filter (compare ·.key key = .eq) ↔
      d.key = key ∧ index.expireTime? key = some d.time := by
    intro d
    rw [List.mem_filter, h.mem_deadlines_iff, decide_eq_true_eq, Std.compare_eq_iff_eq, and_comm]
    refine and_congr_right ?_
    rintro rfl
    rfl
  have hnodup : (index.deadlines.filter (compare ·.key key = .eq)).Nodup :=
    (h.nodup_keys.of_map _).filter _
  cases htime : index.expireTime? key with
  | none =>
      refine List.eq_nil_iff_forall_not_mem.2 fun d hd => ?_
      cases htime.symm.trans ((hmem d).1 hd).2
  | some time =>
      refine List.perm_singleton.1 ((List.perm_ext_iff_of_nodup hnodup (List.nodup_singleton _)).2 ?_)
      intro d
      rw [hmem, List.mem_singleton, htime]
      constructor
      · rintro ⟨rfl, hd⟩
        cases hd
        rfl
      · rintro rfl
        exact ⟨rfl, rfl⟩

end Index

namespace Cluster

variable {κ : Type u} {V : Type v} [Ord κ] [TransOrd κ] [Hashable κ]

/-! ## What there is of a key -/

/-- Where the index of a store has a key, in order and by key, if there is an index. -/
def position? (c : Cluster κ V) (node : Nat) (target : Target) (key : κ) :
    Option (List (Deadline κ) × Option Millis) :=
  (c.index? node target).map fun index =>
    (index.deadlines.filter (compare ·.key key = .eq), index.expireTime? key)

/-- All that two clusters hold of a key is the same, but for a renaming of versions. -/
structure SameKey (ren : UInt64 → UInt64) (key : κ) (c d : Cluster κ V) : Prop where
  copies : ∀ node target, c.copy? node target key = (d.copy? node target key).map (Entry.rename ren)
  positions : ∀ node target, c.position? node target key = d.position? node target key
  readers : ∀ node, c.readers? node key = d.readers? node key

variable [LawfulEqOrd κ]

/-- The place of a key in the indexes of a sound cluster can be told from its copies. -/
theorem Sound.position?_eq {c : Cluster κ V} (h : c.Sound) (node : Nat) (target : Target) (key : κ) :
    c.position? node target key =
      if node < c.nodes.length ∧ c.config.eager = true then
        let time := ((c.copy? node target key).map (·.ttl.expireTime)).filter (· ≠ 0)
        some (time.toList.map fun time => ⟨time, key⟩, time)
      else none := by
  unfold position? index?
  cases hn : c.nodes[node]? with
  | none =>
      rw [if_neg fun hnode => Nat.not_le.2 hnode.1 (List.getElem?_eq_none_iff.1 hn)]
      rfl
  | some n =>
      have hlength : node < c.nodes.length := (List.getElem?_eq_some_iff.1 hn).1
      have hlock := h.lockStep node n hn target
      rw [Option.bind_some, copy?_of_some hn]
      cases hindex : (n.store target).index with
      | none =>
          have heager : c.config.eager = false := by rw [← hlock.indexed, hindex]; rfl
          simp [heager]
      | some index =>
          have heager : c.config.eager = true := by rw [← hlock.indexed, hindex]; rfl
          rw [if_pos ⟨hlength, heager⟩, Option.map_some, (hlock.agrees index hindex).filter_deadlines,
            hlock.position index hindex]
          rfl

theorem Mirrors.sameKey {ren : UInt64 → UInt64} {key : κ} {c d : Cluster κ V}
    (h : Mirrors ren key c d) (hc : c.Sound) (hd : d.Sound) : SameKey ren key c d where
  copies := h.copies
  positions node target := by
    rw [hc.position?_eq, hd.position?_eq, h.layout.size, h.layout.config, h.copies, Option.map_map]
    rfl
  readers := h.readers

section Start

variable {config : CacheConfig} {nodes : Nat} {affinity : Affinity κ} {c : Cluster κ V}

omit [LawfulEqOrd κ] [TransOrd κ] [Hashable κ] in
theorem quiet_start (hstart : start config nodes affinity = .ok c) : c.Quiet := by
  intro n hn
  obtain ⟨node, hnode⟩ := List.mem_iff_getElem?.1 hn
  rw [← queue_of_some hnode, queue_start hstart]

omit [LawfulEqOrd κ] [Hashable κ] in
/-- At the start there is nothing of any key. -/
theorem mirrors_start (hstart : start config nodes affinity = .ok c) (key : κ) :
    Mirrors (fun v => v) key c c where
  layout := SameLayout.refl c
  renames := ⟨fun hlt _ => hlt, fun hv => hv, UInt64.le_refl _⟩
  copies node target := by
    rw [copy?_start hstart]
    rfl
  inflight node target := by
    rw [inflight_of_quiet (quiet_start hstart)]
    rfl
  readers _ := rfl
  copies_le hentry := by
    rw [copy?_start hstart] at hentry
    cases hentry
  inflight_le hu := by
    rw [inflight_of_quiet (quiet_start hstart)] at hu
    cases hu

end Start

end Cluster

namespace System

variable {κ : Type u} {V : Type v} [Ord κ] [TransOrd κ] [Hashable κ]
variable [DecidableEq V] [Append V] [Inhabited V]

/-! ## Requests made at rest -/

omit [DecidableEq V] [Append V] [Inhabited V] in
/-- The system with everything delivered. -/
def settled (s : System κ V) : System κ V :=
  { s with cluster := s.cluster.settle }

/-- Make several requests, in turn, each time with everything delivered. -/
def attend : List (Move κ V) → System κ V → System κ V
  | [], s => s
  | move :: rest, s => attend rest (s.step move).1.settled

/-- How many versions are drawn meanwhile. -/
def outlay : List (Move κ V) → System κ V → Nat
  | [], _ => 0
  | move :: rest, s => (s.moveTrace move).countP (·.draws) + outlay rest (s.step move).1.settled

omit [DecidableEq V] [Append V] [Inhabited V] in
theorem settled_of_quiet {s : System κ V} (hrunning : s.cluster.Running) (hquiet : s.cluster.Quiet) :
    s.settled = s := by
  unfold settled
  rw [Cluster.settle_of_quiet hrunning hquiet]

theorem running_step {s : System κ V} (h : s.cluster.Running) (move : Move κ V) :
    (s.step move).1.cluster.Running := by
  rw [step_cluster]
  exact h.follow _

/-- A run in which everything is delivered before each request does what its requests do. -/
theorem settled_run (moves : List (Move κ V)) {s : System κ V} (hrunning : s.cluster.Running)
    (hdrained : Drained moves s) :
    (run moves s).1.settled = attend (requests moves) s.settled ∧
      drawn moves s = outlay (requests moves) s.settled := by
  induction moves generalizing s with
  | nil => exact ⟨rfl, rfl⟩
  | cons move rest ih =>
      obtain ⟨hrest, hdrawn⟩ := ih (running_step hrunning move) hdrained.2
      have hcount : drawn (move :: rest) s =
          (s.moveTrace move).countP (·.draws) + drawn rest (s.step move).1 := by
        simp only [drawn, trace, List.countP_append]
      rw [hcount, hdrawn]
      cases hrequest : move.isDelivery with
      | true =>
          obtain ⟨node, rfl⟩ := Move.eq_deliver hrequest
          have hsettled : (s.step (.deliver node)).1.settled = s.settled := by
            unfold settled
            simp only [step, Cluster.settle_deliver hrunning node]
          rw [hsettled] at hrest ⊢
          exact ⟨hrest, Nat.zero_add _⟩
      | false =>
          have hrequests : requests (move :: rest) = move :: requests rest := by
            simp [requests, hrequest]
          rw [hrequests, settled_of_quiet hrunning (hdrained.1 hrequest)]
          exact ⟨hrest, rfl⟩

/-! ## Requests about one key -/

/-- What the outcome of a move tells about the key. Sweeps and readings of the clock tell nothing. -/
def report (key : κ) (s : System κ V) : Move κ V → Outcome κ V
  | .call node scope operation =>
    match s.cluster.call node scope s.clock with
    | .error e => .refused e
    | .ok call => .answer (s.cluster.report call key operation)
  | _ => .done

/-- A call on a single key tells of it what it results in. -/
theorem report_eq_outcome {operation : Operation κ V} {other : κ} (h : operation.key? = some other)
    (key : κ) (s : System κ V) (node : Nat) (scope : Option Policy) :
    s.report key (.call node scope operation) = (s.step (.call node scope operation)).2 := by
  simp only [report, step]
  cases s.cluster.call node scope s.clock with
  | error e => rfl
  | ok call => exact congrArg Outcome.answer (Cluster.report_of_key? h s.cluster call key)

/-- Make a request as far as it is about the key. -/
def stepFor (key : κ) (s : System κ V) (move : Move κ V) : System κ V :=
  match move.restrict? key with
  | some restricted => (s.step restricted).1
  | none => s

section StepFor

variable {key : κ} {move restricted : Move κ V}

theorem stepFor_of_some (h : move.restrict? key = some restricted) (s : System κ V) :
    s.stepFor key move = (s.step restricted).1 := by
  simp only [stepFor, h]

theorem stepFor_of_none (h : move.restrict? key = none) (s : System κ V) : s.stepFor key move = s := by
  simp only [stepFor, h]

/-- The requests about a key, one after the other. -/
theorem attend_cons_restricted {t : System κ V} (hrunning : t.cluster.Running)
    (hquiet : t.cluster.Quiet) (rest : List (Move κ V)) :
    attend ((move :: rest).filterMap (Move.restrict? key)) t =
      attend (rest.filterMap (Move.restrict? key)) (t.stepFor key move).settled := by
  cases hrestrict : move.restrict? key with
  | none =>
      rw [List.filterMap_cons_none hrestrict, stepFor_of_none hrestrict,
        settled_of_quiet hrunning hquiet]
  | some restricted =>
      rw [List.filterMap_cons_some hrestrict, stepFor_of_some hrestrict]
      rfl

end StepFor

variable [LawfulEqOrd κ]

theorem sound_step {s : System κ V} (h : s.cluster.Sound) (move : Move κ V) :
    (s.step move).1.cluster.Sound := by
  rw [step_cluster]
  exact h.follow _

theorem sound_stepFor {s : System κ V} (h : s.cluster.Sound) (key : κ) (move : Move κ V) :
    (s.stepFor key move).cluster.Sound := by
  unfold stepFor
  split
  · exact sound_step h _
  · exact h

section Mirrored

variable {key : κ} {ren : UInt64 → UInt64} {s t : System κ V} {node : Nat} {scope : Option Policy}

/-- A call is made in one system, and restricted to the key in the other. -/
theorem mirrored_call (h : Cluster.Mirrors ren key s.cluster t.cluster) (hs : s.cluster.Sound)
    (ht : t.cluster.Sound) (hclock : t.clock = s.clock) {operation restricted : Operation κ V}
    (hrestrict : operation.restrict? key = some restricted)
    (hroom : s.cluster.version.toNat +
      (s.moveTrace (.call node scope operation)).countP (·.draws) < 2 ^ 64) :
    Cluster.Mirrored ren t.cluster.version key (s.step (.call node scope operation)).1.cluster
        (t.step (.call node scope restricted)).1.cluster ∧
      s.report key (.call node scope operation) = t.report key (.call node scope restricted) := by
  simp only [step, report, hclock, h.layout.call_eq]
  cases hcalled : s.cluster.call node scope s.clock with
  | error e => exact ⟨h.mirrored, rfl⟩
  | ok call =>
      simp only [moveTrace, hcalled] at hroom
      exact (h.perform hs.orderly ht.orderly call hrestrict hroom).imp_right (congrArg Outcome.answer)

/-- A call that is not about the key is made in one system only. -/
theorem mirrored_call_other (h : Cluster.Mirrors ren key s.cluster t.cluster) (hs : s.cluster.Sound)
    (ht : t.cluster.Sound) {operation : Operation κ V} (hentries : operation ≠ .entries)
    (hrestrict : operation.restrict? key = none)
    (hroom : s.cluster.version.toNat +
      (s.moveTrace (.call node scope operation)).countP (·.draws) < 2 ^ 64) :
    Cluster.Mirrored ren t.cluster.version key (s.step (.call node scope operation)).1.cluster
      t.cluster := by
  simp only [step]
  cases hcalled : s.cluster.call node scope s.clock with
  | error e => exact h.mirrored
  | ok call =>
      simp only [moveTrace, hcalled] at hroom
      exact h.perform_other hs.orderly ht.orderly call hentries hrestrict hroom

/-- A request is made in one system, and in the other as far as it is about the key. -/
theorem mirrored_stepFor (h : Cluster.Mirrors ren key s.cluster t.cluster) (hs : s.cluster.Sound)
    (ht : t.cluster.Sound) (hclock : t.clock = s.clock) {move : Move κ V} (hmove : move.NamesKeys)
    (hroom : s.cluster.version.toNat + (s.moveTrace move).countP (·.draws) < 2 ^ 64) :
    Cluster.Mirrored ren t.cluster.version key (s.step move).1.cluster (t.stepFor key move).cluster ∧
      (t.stepFor key move).clock = (s.step move).1.clock ∧
      ∀ restricted, move.restrict? key = some restricted →
        s.report key move = t.report key restricted := by
  cases move with
  | begin | stage | commit | rollback | deliver => exact hmove.elim
  | setClock now => exact ⟨h.mirrored, rfl, by rintro _ ⟨⟩; rfl⟩
  | sweep node =>
      refine ⟨?_, hclock, by rintro _ ⟨⟩; rfl⟩
      change Cluster.Mirrored ren t.cluster.version key (s.cluster.sweep node s.clock).1
        (t.cluster.sweep node t.clock).1
      rw [hclock]
      exact h.sweep hs ht node s.clock hroom
  | call node scope operation =>
      have hclock_call : ∀ (u : System κ V) other,
          (u.step (.call node scope other)).1.clock = u.clock :=
        fun u other => clock_step u (.call node scope other)
      cases hrestrict : operation.restrict? key with
      | none =>
          have hnone : Move.restrict? key (.call node scope operation) = none :=
            congrArg (Option.map (Move.call node scope)) hrestrict
          rw [stepFor_of_none hnone, hclock_call]
          exact ⟨mirrored_call_other h hs ht hmove hrestrict hroom, hclock,
            fun restricted hsome => by cases hnone.symm.trans hsome⟩
      | some other =>
          have hsome : Move.restrict? key (.call node scope operation) =
              some (.call node scope other) :=
            congrArg (Option.map (Move.call node scope)) hrestrict
          obtain ⟨hmirrored, hreport⟩ := mirrored_call h hs ht hclock hrestrict hroom
          rw [stepFor_of_some hsome, hclock_call, hclock_call]
          refine ⟨hmirrored, hclock, fun restricted hrestricted => ?_⟩
          cases hsome.symm.trans hrestricted
          exact hreport

end Mirrored

/-- Requests are made in one system, and in the other as far as they are about the key. One renaming
does for the whole time. -/
theorem attend_mirrors (moves : List (Move κ V)) {key : κ} {ren : UInt64 → UInt64} {s t : System κ V}
    (h : Cluster.Mirrors ren key s.cluster t.cluster) (hs : s.cluster.Sound) (ht : t.cluster.Sound)
    (hquiet : t.cluster.Quiet) (hclock : t.clock = s.clock) (hmoves : ∀ move ∈ moves, move.NamesKeys)
    (hroom : s.cluster.version.toNat + outlay moves s < 2 ^ 64) :
    ∃ ren', (∀ v ≤ t.cluster.version, ren' v = ren v) ∧ ∀ pre, pre <+: moves →
      Cluster.Mirrors ren' key (attend pre s).cluster
          (attend (pre.filterMap (Move.restrict? key)) t).cluster ∧
        (attend (pre.filterMap (Move.restrict? key)) t).clock = (attend pre s).clock := by
  induction moves generalizing ren s t with
  | nil =>
      refine ⟨ren, fun _ _ => rfl, fun pre hpre => ?_⟩
      obtain rfl := List.prefix_nil.1 hpre
      exact ⟨h, hclock⟩
  | cons move rest ih =>
      obtain ⟨⟨hle, ren₁, hren₁, hstep⟩, hclock', -⟩ :=
        mirrored_stepFor h hs ht hclock (hmoves move List.mem_cons_self)
          (Nat.lt_of_le_of_lt (by simp only [outlay]; omega) hroom)
      have hs' := sound_step hs move
      have ht' := sound_stepFor ht key move
      have hversion : (s.step move).1.cluster.version.toNat =
          s.cluster.version.toNat + (s.moveTrace move).countP (·.draws) := by
        rw [step_cluster]
        exact Cluster.version_follow (Nat.lt_of_le_of_lt (by simp only [outlay]; omega) hroom)
      have hroom' : (s.step move).1.cluster.version.toNat + outlay rest (s.step move).1.settled <
          2 ^ 64 := by
        rw [hversion, Nat.add_assoc]
        exact hroom
      obtain ⟨ren₂, hren₂, hrest⟩ := ih (s := (s.step move).1.settled)
        (t := (t.stepFor key move).settled)
        (hstep.settle hs'.orderly.running ht'.orderly.running) hs'.settle ht'.settle
        (Cluster.quiet_settle ht'.orderly.running) hclock'
        (fun m hm => hmoves m (List.mem_cons_of_mem move hm)) hroom'
      have hagree : ∀ v ≤ t.cluster.version, ren₂ v = ren v := by
        intro v hv
        rw [hren₂ v (UInt64.le_trans hv hle), hren₁ v hv]
      refine ⟨ren₂, hagree, fun pre hpre => ?_⟩
      cases pre with
      | nil => exact ⟨h.congr hagree, hclock⟩
      | cons first pre =>
          obtain ⟨rfl, hprefix⟩ := List.cons_prefix_cons.1 hpre
          rw [attend_cons_restricted ht.orderly.running hquiet]
          exact hrest pre hprefix

omit [LawfulEqOrd κ] in
/-- A run up to a point is drained if the whole is. -/
theorem drained_of_initial {pre moves : List (Move κ V)} (h : pre <+: moves) {s : System κ V}
    (hdrained : Drained moves s) : Drained pre s := by
  induction moves generalizing pre s with
  | nil =>
      obtain rfl := List.prefix_nil.1 h
      exact hdrained
  | cons move rest ih =>
      cases pre with
      | nil => trivial
      | cons first pre =>
          obtain ⟨rfl, hprefix⟩ := List.cons_prefix_cons.1 h
          exact ⟨hdrained.1, ih hprefix hdrained.2⟩

/-- A run that stands still after all deliveries has done what its requests do. -/
theorem run_eq_attend {pre moves : List (Move κ V)} (h : pre <+: moves) {s : System κ V}
    (hs : s.cluster.Sound) (hquiet : s.cluster.Quiet) (hdrained : Drained moves s)
    (hrest : (run pre s).1.cluster.Quiet) : (run pre s).1 = attend (requests pre) s := by
  have hrunning : (run pre s).1.cluster.Running := by
    rw [run_cluster]
    exact (hs.follow _).orderly.running
  rw [← settled_of_quiet hrunning hrest, (settled_run pre hs.orderly.running
    (drained_of_initial h hdrained)).1, settled_of_quiet hs.orderly.running hquiet]

omit [Ord κ] [TransOrd κ] [Hashable κ] [DecidableEq V] [Append V] [Inhabited V] [LawfulEqOrd κ] in
theorem namesKeys_of_initial {pre moves : List (Move κ V)} {move : Move κ V}
    (h : pre ++ [move] <+: moves) (hrequest : move.isDelivery = false)
    (hmoves : ∀ m ∈ requests moves, m.NamesKeys) : move.NamesKeys := by
  refine hmoves move (List.mem_filter.2 ⟨h.subset ?_, by simp [hrequest]⟩)
  exact List.mem_append_right _ List.mem_cons_self

omit [LawfulEqOrd κ] in
/-- As long as versions last for a run, they last for each move of it. -/
theorem room_of_initial {pre moves : List (Move κ V)} {move : Move κ V} (h : pre ++ [move] <+: moves)
    {s : System κ V} (hroom : s.cluster.version.toNat + drawn moves s < 2 ^ 64) :
    (run pre s).1.cluster.version.toNat +
      ((run pre s).1.moveTrace move).countP (·.draws) < 2 ^ 64 := by
  obtain ⟨rest, rfl⟩ := h
  have hmove : drawn [move] (run pre s).1 =
      ((run pre s).1.moveTrace move).countP (·.draws) := by
    simp only [drawn, trace, List.append_nil]
  rw [drawn_append, drawn_append, hmove] at hroom
  have hversion : (run pre s).1.cluster.version.toNat = s.cluster.version.toNat + drawn pre s := by
    rw [run_cluster]
    exact Cluster.version_follow (Nat.lt_of_le_of_lt (by unfold drawn; omega) hroom)
  omega

/-- Two runs from one state at rest, in the second of which only the requests about the key are made. -/
theorem mirrors_at_rest {key : κ} {s : System κ V} (hs : s.cluster.Sound) (hquiet : s.cluster.Quiet)
    (hself : Cluster.Mirrors (fun v => v) key s.cluster s.cluster) {a b : List (Move κ V)}
    (hmoves : ∀ move ∈ requests a, move.NamesKeys)
    (hrestricted : requests b = (requests a).filterMap (Move.restrict? key))
    (hdraineda : Drained a s) (hdrainedb : Drained b s)
    (hroom : s.cluster.version.toNat + drawn a s < 2 ^ 64) :
    ∃ ren, (∀ v w, v < w → w ≤ (run b s).1.cluster.version → ren v < ren w) ∧
      ∀ prea preb, prea <+: a → preb <+: b →
        requests preb = (requests prea).filterMap (Move.restrict? key) →
        (run prea s).1.cluster.Quiet → (run preb s).1.cluster.Quiet →
          Cluster.Mirrors ren key (run prea s).1.cluster (run preb s).1.cluster ∧
            (run preb s).1.clock = (run prea s).1.clock := by
  have hstill := settled_of_quiet hs.orderly.running hquiet
  have houtlay : drawn a s = outlay (requests a) s := by
    rw [(settled_run a hs.orderly.running hdraineda).2, hstill]
  obtain ⟨ren, -, hmirrors⟩ := attend_mirrors (requests a) hself hs hs hquiet rfl hmoves
    (houtlay ▸ hroom)
  refine ⟨ren, ?_, ?_⟩
  · intro v w hlt hw
    obtain ⟨hfinal, -⟩ := hmirrors (requests a) (List.prefix_refl _)
    have hsettled := (settled_run b hs.orderly.running hdrainedb).1
    rw [hstill, hrestricted] at hsettled
    have hversion : (run b s).1.cluster.version =
        (attend ((requests a).filterMap (Move.restrict? key)) s).cluster.version :=
      congrArg (·.cluster.version) hsettled
    exact hfinal.renames.increasing hlt (hversion ▸ hw)
  · intro prea preb hprea hpreb hsame hquieta hquietb
    rw [run_eq_attend hprea hs hquiet hdraineda hquieta,
      run_eq_attend hpreb hs hquiet hdrainedb hquietb, hsame]
    exact hmirrors (requests prea) (hprea.filter _)

/-- Keys do not interfere with each other. However clients call on keys that they name, whatever nodes
are swept and whatever the clock shows, with everything delivered in between: leave out the requests
that are not about a key, and restrict those on several keys to this one. Then all that is told of the
key is the same, and whenever both runs are at rest at corresponding points, so are the copies of the
key on every node, its place in every index and its registered readers. Versions are renamed, in order,
in one way for the whole run. -/
theorem keys_isolated {config : CacheConfig} {nodes : Nat} {affinity : Affinity κ} {c₀ : Cluster κ V}
    (hstart : Cluster.start config nodes affinity = .ok c₀) (hlawful : affinity.Lawful) (now : Millis)
    {s : System κ V} (hs : s = { cluster := c₀, clock := now }) (key : κ) {a b : List (Move κ V)}
    (hmoves : ∀ move ∈ requests a, move.NamesKeys)
    (hrestricted : requests b = (requests a).filterMap (Move.restrict? key))
    (hdraineda : Drained a s) (hdrainedb : Drained b s) (hdrawn : drawn a s < 2 ^ 64) :
    ∃ ren : UInt64 → UInt64, (∀ v w, v < w → w ≤ (run b s).1.cluster.version → ren v < ren w) ∧
      ∀ prea preb, prea <+: a → preb <+: b →
        requests preb = (requests prea).filterMap (Move.restrict? key) →
        (run prea s).1.cluster.Quiet → (run preb s).1.cluster.Quiet →
          Cluster.SameKey ren key (run prea s).1.cluster (run preb s).1.cluster ∧
          ∀ movea moveb, prea ++ [movea] <+: a → preb ++ [moveb] <+: b →
            movea.restrict? key = some moveb →
            (run prea s).1.report key movea = (run preb s).1.report key moveb := by
  obtain ⟨-, hc₀⟩ := Cluster.start_ok hstart
  have hcluster : s.cluster = c₀ := by rw [hs]
  have hsound : s.cluster.Sound := hcluster ▸ Cluster.Sound.start hstart hlawful
  have hquiet : s.cluster.Quiet := hcluster ▸ Cluster.quiet_start hstart
  have hself : Cluster.Mirrors (fun v => v) key s.cluster s.cluster :=
    hcluster ▸ Cluster.mirrors_start hstart key
  have hroom : s.cluster.version.toNat + drawn a s < 2 ^ 64 := by
    rw [hcluster, hc₀]
    exact (Nat.zero_add _).symm ▸ hdrawn
  obtain ⟨ren, hren, hmirrors⟩ :=
    mirrors_at_rest hsound hquiet hself hmoves hrestricted hdraineda hdrainedb hroom
  refine ⟨ren, hren, fun prea preb hprea hpreb hsame hquieta hquietb => ?_⟩
  obtain ⟨hslices, hclock⟩ := hmirrors prea preb hprea hpreb hsame hquieta hquietb
  have hsounda : (run prea s).1.cluster.Sound := by
    rw [run_cluster]
    exact hsound.follow _
  have hsoundb : (run preb s).1.cluster.Sound := by
    rw [run_cluster]
    exact hsound.follow _
  refine ⟨hslices.sameKey hsounda hsoundb, fun movea moveb hmovea _ hmove => ?_⟩
  have hrequest : movea.isDelivery = false := by
    cases movea with
    | deliver node => cases hmove
    | _ => rfl
  obtain ⟨-, -, hreport⟩ := mirrored_stepFor hslices hsounda hsoundb hclock
    (namesKeys_of_initial hmovea hrequest hmoves) (room_of_initial hmovea hroom)
  exact hreport moveb hmove

/-- A key is written and the backup swept. Then this key and another one are written together through
node 2, which becomes near reader of both, and two milliseconds later both are read. -/
def bustling : List (Move Nat (List Nat)) :=
  [.call 1 none (.put 1 [8]), .deliver 1, .sweep 1,
    .call 2 (some (.custom (.created (.millis 3)))) (.putAll [(1, [9]), (0, [7])]), .deliver 1,
    .deliver 1, .deliver 2, .deliver 2, .setClock 2, .call 2 none (.getAll [1, 0])]

/-- The requests about the second key. -/
def restful : List (Move Nat (List Nat)) :=
  [.sweep 1, .call 2 (some (.custom (.created (.millis 3)))) (.putAll [(0, [7])]), .deliver 1,
    .deliver 2, .setClock 2, .call 2 none (.getAll [0])]

theorem keys_isolated_restful :
    ∃ (c₀ : Cluster Nat (List Nat)) (s t : System Nat (List Nat)) (ren : UInt64 → UInt64),
      Cluster.start { near := true } 3 trio = .ok c₀ ∧
      (run (bustling.take 9) { cluster := c₀ }).1 = s ∧ (run (restful.take 5) { cluster := c₀ }).1 = t ∧
      Cluster.SameKey ren 0 s.cluster t.cluster ∧ ren 1 = 3 ∧
      t.report 0 (.call 2 none (.getAll [0])) = .answer (.value (some [7])) ∧
      s.report 0 (.call 2 none (.getAll [1, 0])) = .answer (.value (some [7])) := by
  let c₀ : Cluster Nat (List Nat) :=
    { config := { near := true }, affinity := trio, nodes := .empty 3 true }
  have hstart : Cluster.start { near := true } 3 trio = .ok c₀ := rfl
  have hmoves : ∀ move ∈ requests bustling, move.NamesKeys := by
    simp [requests, bustling, Move.isDelivery, Move.NamesKeys]
  have hrestricted : requests restful = (requests bustling).filterMap (Move.restrict? 0) := by
    decide +kernel
  have hdraineda : Drained bustling { cluster := c₀ } := by decide +kernel
  have hdrainedb : Drained restful { cluster := c₀ } := by decide +kernel
  have hdrawn : drawn bustling { cluster := c₀ } < 2 ^ 64 := by decide +kernel
  have hrestrictedBefore :
      requests (restful.take 5) = (requests (bustling.take 9)).filterMap (Move.restrict? 0) := by
    decide +kernel
  have hquieta : (run (bustling.take 9) { cluster := c₀ }).1.cluster.Quiet := by decide +kernel
  have hquietb : (run (restful.take 5) { cluster := c₀ }).1.cluster.Quiet := by decide +kernel
  have hcopya : (run (bustling.take 9) { cluster := c₀ }).1.cluster.copy? 0 .owned 0 =
      some { value := [7], version := 3, ttl := .lasting 3 0 } := by decide +kernel
  have hcopyb : (run (restful.take 5) { cluster := c₀ }).1.cluster.copy? 0 .owned 0 =
      some { value := [7], version := 1, ttl := .lasting 3 0 } := by decide +kernel
  have hread : (run (restful.take 5) { cluster := c₀ }).1.report 0 (.call 2 none (.getAll [0])) =
      .answer (.value (some [7])) := by rfl
  obtain ⟨ren, -, hsame⟩ :=
    keys_isolated hstart lawful_trio 0 rfl 0 hmoves hrestricted hdraineda hdrainedb hdrawn
  obtain ⟨hkey, hreport⟩ := hsame (bustling.take 9) (restful.take 5) (List.take_prefix _ _)
    (List.take_prefix _ _) hrestrictedBefore hquieta hquietb
  have hrenamed := hkey.copies 0 .owned
  rw [hcopya, hcopyb] at hrenamed
  exact ⟨c₀, _, _, ren, hstart, rfl, rfl, hkey,
    (congrArg Entry.version (Option.some.inj hrenamed)).symm, hread,
    (hreport _ _ (List.prefix_refl _) (List.prefix_refl _) rfl).trans hread⟩

end System

end Ephemera
