import Ephemera.Proofs.Postpone
import Ephemera.Proofs.Slot
import Ephemera.Proofs.Visible

/-! # Copies on primaries

The copy on the primary of a key stays as it is until it is taken away or replaced, and whatever
replaces it has a version of its own. Unless the versions run out, a copy is therefore known by its
version. No copy is ever marked as removed.
-/

namespace Ephemera

open Std

universe u v w

/-- The change does not write a lifetime that is marked as removed. -/
def Change.Plain {κ : Type u} {V : Type v} : Change κ V → Prop
  | write _ _ _ ttl => ttl.deleted = false
  | _ => True

namespace Cluster

variable {κ : Type u} {V : Type v} {ρ : Type w} [Ord κ] [TransOrd κ]

theorem plain_touchTrace (c : Cluster κ V) (policy : Policy) (via : Option Nat) (now : Millis)
    (key : κ) (decide : Decision V ρ) :
    ∀ x ∈ c.touchTrace policy via now key decide, x.Plain := by
  refine c.forall_touchTrace policy via now key decide (fun _ => trivial) ?_ (fun _ _ => trivial)
    fun _ _ => trivial
  intro intent value ttl heffect
  obtain ⟨kind, hplan⟩ := Effect.plan_of_write heffect
  exact not_deleted_of_plan hplan

theorem plain_readLocalTrace (c : Cluster κ V) (node : Nat) (key : κ) (now : Millis) :
    ∀ x ∈ c.readLocalTrace node key now, x.Plain :=
  c.forall_readLocalTrace node key now (fun _ _ _ => trivial) fun _ => trivial

theorem plain_reclaimTrace (c : Cluster κ V) (node : Nat) (target : Target) (d : Deadline κ)
    (now : Millis) : ∀ x ∈ c.reclaimTrace node target d now, x.Plain :=
  c.forall_reclaimTrace node target d now (fun _ _ _ => trivial) trivial

variable [LawfulEqOrd κ] [Hashable κ]

/-! ## What one change does to a primary copy -/

namespace Orderly

variable {c : Cluster κ V}

omit [TransOrd κ] [LawfulEqOrd κ] [Hashable κ] in
theorem primary_lt (h : c.Orderly) (key : κ) : c.affinity.primary key < c.nodes.length :=
  h.size ▸ h.lawful.primary_lt key

/-- A change leaves the copy on the primary of a key alone, takes it away, or writes another one under
the next version. -/
theorem stored?_change (h : c.Orderly) (x : Change κ V) (key : κ) :
    (c.change x).stored? key = c.stored? key ∨ (c.change x).stored? key = none ∨
      ∃ via value ttl, x = .write key via value ttl ∧
        (c.change x).stored? key = some { value, version := c.version + 1, ttl } := by
  have hcopy : (c.change x).stored? key =
      (c.change x).copy? (c.affinity.primary key) .owned key := by
    rw [← copy?_primary, (sameLayout_change c x).affinity]
  rw [hcopy]
  rcases copy?_change h.running x (c.affinity.primary key) .owned key with hsame | hnone | ⟨u, hu, -⟩ |
    hwritten
  · exact .inl hsame
  · exact .inr (.inl hnone)
  · rw [h.home] at hu
    cases hu
  · exact .inr (.inr hwritten)

/-- Once a key has been removed its primary has no copy. -/
theorem stored?_remove (h : c.Orderly) (key : κ) (event : StoreEvent) (awaited : Bool) :
    (c.change (.remove key event awaited)).stored? key = none := by
  simp only [Cluster.change]
  split
  next entry hentry =>
    rw [stored?_removePrimary _ _ _ _ _ _ (h.primary_lt key), if_pos ReflCmp.compare_self]
  next hnone => exact hnone

/-- A copy on a primary at the end of a trace was there before, or has a version drawn since. -/
theorem stored?_follow (h : c.Orderly) {trace : List (Change κ V)}
    (hversion : c.version.toNat + trace.countP (·.draws) < 2 ^ 64) {key : κ} {entry : Entry V}
    (hstored : (c.follow trace).stored? key = some entry) :
    c.stored? key = some entry ∨
      (c.version < entry.version ∧ entry.version ≤ (c.follow trace).version) := by
  induction trace generalizing c with
  | nil => exact .inl hstored
  | cons x rest ih =>
      rw [countP_draws_cons] at hversion
      have hnext : (c.change x).version.toNat = c.version.toNat + x.draws.toNat :=
        version_change_toNat (by omega)
      have hlast : (c.follow (x :: rest)).version.toNat =
          (c.change x).version.toNat + rest.countP (·.draws) :=
        version_follow (c := c.change x) (by omega)
      rw [UInt64.lt_iff_toNat_lt, UInt64.le_iff_toNat_le]
      rcases ih (h.change x) (by omega) hstored with hthere | ⟨hlater, hle⟩
      · rcases h.stored?_change x key with hsame | hnone | ⟨via, value, ttl, rfl, hwritten⟩
        · exact .inl (hsame ▸ hthere)
        · cases hnone.symm.trans hthere
        · right
          cases hwritten.symm.trans hthere
          have hdrawn : (c.version + 1).toNat = c.version.toNat + 1 := by
            rw [version_change] at hnext
            exact hnext
          rw [hlast, hnext, hdrawn]
          simp only [Change.draws, Bool.toNat_true]
          omega
      · right
        rw [UInt64.lt_iff_toNat_lt, UInt64.le_iff_toNat_le] at *
        exact ⟨by omega, hle⟩

end Orderly

/-! ## No copy is marked as removed -/

/-- No copy on a primary has the lifetime of a removed key. -/
def Plain (c : Cluster κ V) : Prop :=
  ∀ key entry, c.stored? key = some entry → entry.ttl.deleted = false

omit [LawfulEqOrd κ] [Hashable κ] in
theorem stored?_start {config : CacheConfig} {nodes : Nat} {affinity : Affinity κ} {c : Cluster κ V}
    (h : start config nodes affinity = .ok c) (key : κ) : c.stored? key = none :=
  copy?_start h (c.affinity.primary key) .owned key

omit [TransOrd κ] [LawfulEqOrd κ] [Hashable κ] in
theorem version_start {config : CacheConfig} {nodes : Nat} {affinity : Affinity κ} {c : Cluster κ V}
    (h : start config nodes affinity = .ok c) : c.version = 0 := by
  rw [(start_ok h).2]

omit [LawfulEqOrd κ] [Hashable κ] in
theorem plain_start {config : CacheConfig} {nodes : Nat} {affinity : Affinity κ} {c : Cluster κ V}
    (h : start config nodes affinity = .ok c) : c.Plain := by
  intro key entry hentry
  cases (stored?_start h key).symm.trans hentry

namespace Plain

variable {c : Cluster κ V}

theorem change (h : c.Plain) (horderly : c.Orderly) {x : Change κ V} (hx : x.Plain) :
    (c.change x).Plain := by
  intro key entry hentry
  rcases horderly.stored?_change x key with hsame | hnone | ⟨via, value, ttl, rfl, hwritten⟩
  · exact h key entry (hsame ▸ hentry)
  · cases hnone.symm.trans hentry
  · cases hwritten.symm.trans hentry
    exact hx

theorem follow (h : c.Plain) (horderly : c.Orderly) {trace : List (Change κ V)}
    (htrace : ∀ x ∈ trace, x.Plain) : (c.follow trace).Plain := by
  induction trace generalizing c with
  | nil => exact h
  | cons x rest ih =>
      exact ih (h.change horderly (htrace x List.mem_cons_self)) (horderly.change x)
        fun y hy => htrace y (List.mem_cons_of_mem x hy)

/-- A commit restarts a lifetime or copies the one that is stored. -/
theorem commit (h : c.Plain) (horderly : c.Orderly) (now : Millis)
    (bindings : List (κ × Binding V)) : (c.follow (commitTrace now bindings c)).Plain := by
  induction bindings generalizing c with
  | nil => exact h
  | cons head rest ih =>
      obtain ⟨key, binding⟩ := head
      have hx : (c.installTrace key binding.outcome now).Plain := by
        unfold installTrace
        split
        next value commitTtl _ =>
          cases commitTtl with
          | keep =>
              change (Option.getD ((c.stored? key).map fun entry => entry.ttl) Ttl.eternal).deleted = false
              cases hstored : c.stored? key with
              | none => rfl
              | some entry => exact h key entry hstored
          | restart span =>
              exact Ttl.deleted_lasting span now
        next => trivial
      exact ih (h.change horderly hx) (horderly.change _)

end Plain

end Cluster

namespace System

variable {κ : Type u} {V : Type v} [Ord κ] [TransOrd κ] [LawfulEqOrd κ] [Hashable κ]
variable [DecidableEq V] [Append V] [Inhabited V]

theorem orderly_step {s : System κ V} (h : s.cluster.Orderly) (move : Move κ V) :
    (s.step move).1.cluster.Orderly := by
  rw [step_cluster]
  exact h.follow _

theorem plain_step {s : System κ V} (h : s.cluster.Plain) (horderly : s.cluster.Orderly)
    (move : Move κ V) : (s.step move).1.cluster.Plain := by
  rw [step_cluster]
  cases move with
  | call node scope operation =>
      simp only [moveTrace]
      split
      · exact h
      · apply h.follow horderly
        exact Cluster.forall_performTrace s.cluster operation
          (fun d via key decide _ _ => d.plain_touchTrace _ via _ key decide)
          (fun d key => d.plain_readLocalTrace _ key _)
  | commit tx =>
      simp only [moveTrace]
      split
      · exact h
      · split
        · exact h
        · exact h.commit horderly _ _
  | sweep node =>
      apply h.follow horderly
      exact Cluster.forall_sweepTrace s.cluster fun d target deadline =>
        d.plain_reclaimTrace node target deadline s.clock
  | deliver node =>
      apply h.follow horderly
      intro x hx
      rw [List.mem_singleton.1 hx]
      trivial
  | begin | stage | rollback | setClock => exact h

/-- In the course of a run no copy on a primary is ever marked as removed. -/
theorem plain_run (moves : List (Move κ V)) {s : System κ V} (h : s.cluster.Plain)
    (horderly : s.cluster.Orderly) : (run moves s).1.cluster.Plain := by
  induction moves generalizing s with
  | nil => exact h
  | cons move rest ih => exact ih (plain_step h horderly move) (orderly_step horderly move)

section Versions

variable {config : CacheConfig} {nodes : Nat} {affinity : Affinity κ} {c₀ : Cluster κ V}

omit [LawfulEqOrd κ] in
/-- A run starts with all versions left to draw. -/
theorem version_add_draws (hstart : Cluster.start config nodes affinity = .ok c₀) (now : Millis)
    (moves : List (Move κ V)) :
    c₀.version.toNat + (trace moves { cluster := c₀, clock := now }).countP (·.draws) =
      drawn moves { cluster := c₀, clock := now } := by
  rw [Cluster.version_start hstart]
  exact Nat.zero_add _

omit [LawfulEqOrd κ] in
/-- The last version that was drawn tells how many were, as long as versions last. -/
theorem version_run (hstart : Cluster.start config nodes affinity = .ok c₀) (now : Millis)
    {moves : List (Move κ V)} {s : System κ V} (hrun : (run moves { cluster := c₀, clock := now }).1 = s)
    (hdrawn : drawn moves { cluster := c₀, clock := now } < 2 ^ 64) :
    s.cluster.version.toNat = drawn moves { cluster := c₀, clock := now } := by
  have hroom := version_add_draws hstart now moves
  rw [← hroom] at hdrawn
  rw [← hrun, run_cluster, Cluster.version_follow hdrawn, hroom]

/-- A copy on a primary has a version that has been drawn. -/
theorem version_le_of_stored? (hstart : Cluster.start config nodes affinity = .ok c₀)
    (hlawful : affinity.Lawful) (now : Millis) {moves : List (Move κ V)} {s : System κ V}
    (hrun : (run moves { cluster := c₀, clock := now }).1 = s)
    (hdrawn : drawn moves { cluster := c₀, clock := now } < 2 ^ 64) {key : κ} {entry : Entry V}
    (hentry : s.cluster.stored? key = some entry) : entry.version ≤ s.cluster.version := by
  rw [← version_add_draws hstart] at hdrawn
  rw [← hrun, run_cluster] at hentry ⊢
  rcases (Cluster.orderly_start hstart hlawful).stored?_follow hdrawn hentry with hthere | ⟨-, hle⟩
  · cases (Cluster.stored?_start hstart key).symm.trans hthere
  · exact hle

/-- A copy on a primary is known by its version, as long as the versions have not run out: one that is
found later with the same version is the same. -/
theorem stored?_of_version (hstart : Cluster.start config nodes affinity = .ok c₀)
    (hlawful : affinity.Lawful) (now : Millis) (before moves : List (Move κ V)) {s t : System κ V}
    (hbefore : (run before { cluster := c₀, clock := now }).1 = s) (hrun : (run moves s).1 = t)
    (hdrawn : drawn before { cluster := c₀, clock := now } + drawn moves s < 2 ^ 64) {key : κ}
    {entry later : Entry V} (hentry : s.cluster.stored? key = some entry)
    (hlater : t.cluster.stored? key = some later) (hversion : later.version = entry.version) :
    later = entry := by
  have hbound : drawn before { cluster := c₀, clock := now } < 2 ^ 64 :=
    Nat.lt_of_le_of_lt (Nat.le_add_right _ _) hdrawn
  -- The copy that was found has a version already drawn; one written since would have a later one.
  have hle := version_le_of_stored? hstart hlawful now hbefore hbound hentry
  have hs : s.cluster.Orderly := hbefore ▸ orderly_run hstart hlawful now before
  have hroom : s.cluster.version.toNat + (trace moves s).countP (·.draws) < 2 ^ 64 := by
    rw [version_run hstart now hbefore hbound]
    exact hdrawn
  rw [← hrun, run_cluster] at hlater
  rcases hs.stored?_follow hroom hlater with hthere | ⟨hlt, -⟩
  · exact Option.some.inj (hthere.symm.trans hentry)
  · rw [hversion] at hlt
    exact absurd hle (UInt64.not_le.2 hlt)

/-- Two live copies of a key with one version are the same, at whatever points of a run. -/
theorem live?_of_version (hstart : Cluster.start config nodes affinity = .ok c₀)
    (hlawful : affinity.Lawful) (now : Millis) (before moves : List (Move κ V)) {s t : System κ V}
    (hbefore : (run before { cluster := c₀, clock := now }).1 = s) (hrun : (run moves s).1 = t)
    (hdrawn : drawn before { cluster := c₀, clock := now } + drawn moves s < 2 ^ 64) {key : κ}
    (hversion : (t.cluster.live? key t.clock).map (·.version) =
      (s.cluster.live? key s.clock).map (·.version)) :
    t.cluster.live? key t.clock = s.cluster.live? key s.clock := by
  cases hlater : t.cluster.live? key t.clock with
  | none =>
      rw [hlater] at hversion
      exact (Option.map_eq_none_iff.1 hversion.symm).symm
  | some later =>
      rw [hlater] at hversion
      obtain ⟨entry, hentry, hsame⟩ := Option.map_eq_some_iff.1 hversion.symm
      rw [hentry, stored?_of_version hstart hlawful now before moves hbefore hrun hdrawn
        (Cluster.stored?_of_live? hentry) (Cluster.stored?_of_live? hlater) hsame.symm]

end Versions

end System

end Ephemera
