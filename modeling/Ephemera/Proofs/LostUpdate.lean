import Ephemera.Proofs.Atomicity
import Ephemera.Proofs.Provenance

/-! # No lost update

A commit compares versions and nothing else. As long as versions last that is as good as comparing
whole copies, whatever has been removed, has expired, or was written anew in between. A copy that a
commit has replaced never comes back, so another transaction that has started from it cannot commit a
change of the same key.
-/

namespace Ephemera

open Std

universe u v

namespace Cluster

variable {κ : Type u} {V : Type v} [Ord κ] [TransOrd κ] [LawfulEqOrd κ] [Hashable κ]
variable {c d : Cluster κ V} {tx : Transaction κ V} {now : Millis} {key : κ} {b : Binding V}

/-- What a commit has put on a primary has a version drawn in the commit. -/
theorem lt_version_of_commit (hcommit : c.commit tx now = .ok d) (hb : tx.bindings[key]? = some b)
    (hdirty : b.dirty = true) (hprimary : c.affinity.primary key < c.nodes.length)
    (hroom : c.version.toNat + (commitTrace now tx.bindings.dirty c).countP (·.draws) < 2 ^ 64)
    {entry : Entry V} (hstored : d.stored? key = some entry) : c.version < entry.version := by
  obtain ⟨-, rfl⟩ := commit_ok hcommit
  obtain ⟨pre, post, hsplit, -, hinstalled⟩ := stored?_commitTrace_of_mem now _ hprimary
    tx.bindings.distinct_dirty ((tx.bindings.mem_dirty_iff key b).2 ⟨hb, hdirty⟩)
  rw [hinstalled, installed] at hstored
  obtain ⟨pair, houtcome, rfl⟩ := Option.map_eq_some_iff.1 hstored
  have hdraws : ((c.follow pre).installTrace key b.outcome now).draws = true := by
    unfold installTrace
    rw [houtcome]
    rfl
  rw [hsplit, List.countP_append, countP_draws_cons, hdraws, Bool.toNat_true] at hroom
  have hcount : (c.follow pre).version.toNat = _ := version_follow (by omega)
  have hnext : ((c.follow pre).version + 1).toNat = _ := toNat_next (by omega)
  rw [UInt64.lt_iff_toNat_lt]
  change _ < ((c.follow pre).version + 1).toNat
  omega

/-- A copy that is on a primary when a commit changes its key is never there again. -/
theorem stored?_ne_of_commit (horderly : c.Orderly) (hcommit : c.commit tx now = .ok d)
    (hb : tx.bindings[key]? = some b) (hdirty : b.dirty = true) {later : List (Change κ V)}
    (hroom : c.version.toNat +
      (commitTrace now tx.bindings.dirty c ++ later).countP (·.draws) < 2 ^ 64)
    {entry : Entry V} (hle : entry.version ≤ c.version) :
    (d.follow later).stored? key ≠ some entry := by
  intro hstored
  rw [List.countP_append] at hroom
  have hd : d = c.follow (commitTrace now tx.bindings.dirty c) := (commit_ok hcommit).2
  have hcount : d.version.toNat = _ := hd ▸ version_follow (by omega)
  have horderly' : d.Orderly := hd ▸ horderly.follow _
  -- It is not put there by the commit, and what is written after has later versions still.
  rcases horderly'.stored?_follow (by omega) hstored with hthere | ⟨hlt, -⟩
  · have hlt := lt_version_of_commit hcommit hb hdirty (horderly.primary_lt key) (by omega) hthere
    exact absurd hle (UInt64.not_le.2 hlt)
  · rw [UInt64.lt_iff_toNat_lt] at hlt
    rw [UInt64.le_iff_toNat_le] at hle
    omega

end Cluster

namespace System

variable {κ : Type u} {V : Type v} [Ord κ] [TransOrd κ] [Hashable κ]
variable [DecidableEq V] [Append V] [Inhabited V]

omit [Hashable κ] [DecidableEq V] [Append V] [Inhabited V] in
/-- A transaction is open that has staged a change of the key. -/
def Dirty (s : System κ V) (tx : Nat) (key : κ) : Prop :=
  ∃ opened, s.transactions[tx]? = some opened ∧ opened.Dirty key

omit [Hashable κ] [DecidableEq V] [Append V] [Inhabited V] in
theorem dirty_iff {s : System κ V} {tx : Nat} {key : κ} :
    s.Dirty tx key ↔
      ((s.transactions[tx]?.bind fun opened => opened.bindings[key]?).any (·.dirty)) = true := by
  constructor
  · rintro ⟨opened, hopened, b, hb, hdirty⟩
    simp [hopened, hb, hdirty]
  · intro h
    obtain ⟨b, hbound, hdirty⟩ := Option.any_eq_true _ _ |>.1 h
    obtain ⟨opened, hopened, hb⟩ := Option.bind_eq_some_iff.1 hbound
    exact ⟨opened, hopened, b, hb, hdirty⟩

instance (s : System κ V) (tx : Nat) (key : κ) : Decidable (s.Dirty tx key) :=
  decidable_of_iff _ dirty_iff.symm

variable [LawfulEqOrd κ]

namespace Transacts

variable {s₀ s t : System κ V} {history moves : List (Move κ V)} {tx : Nat}

theorem touchesFirst_of_dirty (h : Transacts s₀ history tx moves s t) {key : κ}
    (hdirty : t.Dirty tx key) : ∃ r, TouchesFirst tx key moves s r := by
  obtain ⟨opened, hopened, hbindings⟩ := h.bindings
  obtain ⟨_, hsame, b, hb, -⟩ := hdirty
  cases hopened.symm.trans hsame
  rw [hbindings] at hb
  obtain ⟨r, hr, -⟩ := touchesFirst_of_after hb
  exact ⟨r, hr⟩

/-- The version that a binding is checked against is the one that was live at the first touch. -/
theorem base_eq (h : Transacts s₀ history tx moves s t) {opened : Transaction κ V} {key : κ}
    {b : Binding V} {r : System κ V} (hopened : t.transactions[tx]? = some opened)
    (hb : opened.bindings[key]? = some b) (hr : TouchesFirst tx key moves s r) :
    b.base = (r.cluster.live? key r.clock).map (·.version) := by
  obtain ⟨_, hsame, hbindings⟩ := h.bindings
  cases hopened.symm.trans hsame
  obtain ⟨first, later, htouches, -, hfound⟩ := hr.stagings_eq
  rw [hbindings, htouches, Binding.after_none, hfound] at hb
  rw [← Option.some.inj hb]
  exact Binding.base_foldl_record _ _

/-- While versions last, a dirty key conflicts unless its live copy is the one of the first touch. -/
theorem conflicts_of_ne {config : CacheConfig} {nodes : Nat} {affinity : Affinity κ}
    {c₀ : Cluster κ V} (hstart : Cluster.start config nodes affinity = .ok c₀)
    (hlawful : affinity.Lawful) {now : Millis}
    (h : Transacts { cluster := c₀, clock := now } history tx moves s t)
    (hdrawn : drawn history { cluster := c₀, clock := now } < 2 ^ 64) {opened : Transaction κ V}
    (hopened : t.transactions[tx]? = some opened) {key : κ} (hdirty : t.Dirty tx key) {r : System κ V}
    (hr : TouchesFirst tx key moves s r)
    (hne : t.cluster.live? key t.clock ≠ r.cluster.live? key r.clock) :
    opened.Conflicts t.cluster t.clock key := by
  obtain ⟨_, hsame, b, hb, hbdirty⟩ := hdirty
  cases hopened.symm.trans hsame
  refine ⟨b, hb, hbdirty, fun hversion => hne ?_⟩
  rw [h.base_eq hopened hb hr] at hversion
  exact h.live?_of_version hstart hlawful hdrawn hr hversion

end Transacts

/-- No update is lost, as long as versions last. When a transaction commits, each dirty key has the live
copy that was found at its first touch, whole, or has none at either time. Let another transaction, in
the same run, have started from the same live copy of a key that both have dirty. After the first has
committed, whatever happens in between, the commit of the other fails, for this key or one before it. -/
theorem no_lost_update {config : CacheConfig} {nodes : Nat} {affinity : Affinity κ}
    {c₀ : Cluster κ V} (hstart : Cluster.start config nodes affinity = .ok c₀)
    (hlawful : affinity.Lawful) (now : Millis) {history moves : List (Move κ V)} {tx : Nat}
    {s t : System κ V} (h : Transacts { cluster := c₀, clock := now } history tx moves s t)
    (hdone : (t.step (.commit tx)).2 = .done)
    (hdrawn : drawn history { cluster := c₀, clock := now } < 2 ^ 64) :
    (∀ key, t.Dirty tx key → ∃ r, TouchesFirst tx key moves s r ∧
      t.cluster.live? key t.clock = r.cluster.live? key r.clock) ∧
    ∀ (rest moves' : List (Move κ V)) (tx' : Nat) (s' t' : System κ V),
      Transacts { cluster := c₀, clock := now } (history ++ .commit tx :: rest) tx' moves' s' t' →
      drawn (history ++ .commit tx :: rest) { cluster := c₀, clock := now } < 2 ^ 64 →
      ∀ (key : κ) (r r' : System κ V) (entry : Entry V), t.Dirty tx key → t'.Dirty tx' key →
        TouchesFirst tx key moves s r → TouchesFirst tx' key moves' s' r' →
        r.cluster.live? key r.clock = some entry → r'.cluster.live? key r'.clock = some entry →
        ∃ other, (t'.step (.commit tx')).2 = .conflict other ∧ compare other key ≠ .gt := by
  obtain ⟨opened, hopened, -⟩ := h.bindings
  have hnone := (commit_done_iff hopened).1 hdone
  have hsame : ∀ {key : κ} {r : System κ V}, t.Dirty tx key → TouchesFirst tx key moves s r →
      t.cluster.live? key t.clock = r.cluster.live? key r.clock := by
    intro key r hdirty hr
    refine Classical.byContradiction fun hne => Cluster.conflict?_eq_none_iff.1 hnone key ?_
    exact h.conflicts_of_ne hstart hlawful hdrawn hopened hdirty hr hne
  refine ⟨fun key hdirty => ?_, ?_⟩
  · obtain ⟨r, hr⟩ := h.touchesFirst_of_dirty hdirty
    exact ⟨r, hr, hsame hdirty hr⟩
  · intro rest moves' tx' s' t' h' hdrawn' key r r' entry hdirty hdirty' hr hr' hentry hentry'
    obtain ⟨opened', hopened', -⟩ := h'.bindings
    -- The copy that both have started from is gone from the primary with the first commit.
    have hgone : t'.cluster.stored? key ≠ some entry := by
      obtain ⟨d, hcommit, hd, -⟩ := step_commit_of_none hopened hnone
      obtain ⟨_, hdirtyTx, b, hb, hbdirty⟩ := hdirty
      cases hopened.symm.trans hdirtyTx
      have hstored := Cluster.stored?_of_live? ((hsame ⟨opened, hopened, b, hb, hbdirty⟩ hr).trans hentry)
      have hle := version_le_of_stored? hstart hlawful now h.run_history hdrawn hstored
      have hrest : t'.cluster = d.follow (trace rest (t.step (.commit tx)).1) := by
        rw [← h'.run_history, run_append, h.run_history]
        simp only [run, run_cluster, hd]
      rw [drawn_append, h.run_history, ← version_run hstart now h.run_history hdrawn] at hdrawn'
      rw [hrest]
      refine Cluster.stored?_ne_of_commit ?_ hcommit hb hbdirty ?_ hle
      · exact h.run_history ▸ orderly_run hstart hlawful now history
      · simpa only [drawn, trace, moveTrace, hopened, hnone] using hdrawn'
    have hconflicts := h'.conflicts_of_ne hstart hlawful hdrawn' hopened' hdirty' hr' fun hlive =>
      hgone (Cluster.stored?_of_live? (hlive.trans hentry'))
    cases hfirst : t'.cluster.conflict? opened' t'.clock with
    | none => exact absurd hconflicts (Cluster.conflict?_eq_none_iff.1 hfirst key)
    | some other =>
        exact ⟨other, (commit_conflict_iff hopened').2 hfirst,
          (Cluster.least_of_conflict? hfirst).2 key hconflicts⟩

/-- Two transactions change one entry. -/
def race : List (Move Nat (List Nat)) :=
  [.stage 1 none (.put 0 [8]), .stage 2 none (.put 0 [9])]

/-- The entry is removed, and stored again as it had been. -/
def restore : List (Move Nat (List Nat)) :=
  [.call 0 none (.remove 0), .call 0 none (.put 0 [7])]

theorem no_lost_update_restore :
    ∃ (c₀ : Cluster Nat (List Nat)) (s t s' t' r r' : System Nat (List Nat)) (entry : Entry (List Nat)),
      Cluster.start { atomicity := .transactional } 3 trio = .ok c₀ ∧
      Transacts { cluster := c₀ } (stockUp ++ .begin 1 0 none :: .begin 2 1 none :: race) 1
        (.begin 2 1 none :: race) s t ∧
      (t.step (.commit 1)).2 = .done ∧
      Transacts { cluster := c₀ } ((stockUp ++ .begin 1 0 none :: .begin 2 1 none :: race) ++
        .commit 1 :: restore) 2 (race ++ .commit 1 :: restore) s' t' ∧
      t.Dirty 1 0 ∧ t'.Dirty 2 0 ∧ TouchesFirst 1 0 (.begin 2 1 none :: race) s r ∧
      TouchesFirst 2 0 (race ++ .commit 1 :: restore) s' r' ∧
      r.cluster.live? 0 r.clock = some entry ∧ r'.cluster.live? 0 r'.clock = some entry ∧
      t.cluster.live? 0 t.clock = some entry ∧
      (t'.cluster.live? 0 t'.clock).map (·.content) = some entry.content ∧
      ∃ other, (t'.step (.commit 2)).2 = .conflict other := by
  let c₀ : Cluster Nat (List Nat) :=
    { config := { atomicity := .transactional }, affinity := trio, nodes := .empty 3 true }
  let s := ((run stockUp { cluster := c₀ }).1.step (.begin 1 0 none)).1
  let t := (run (.begin 2 1 none :: race) s).1
  let before : List (Move Nat (List Nat)) := stockUp ++ [.begin 1 0 none]
  let s' := ((run before { cluster := c₀ }).1.step (.begin 2 1 none)).1
  let t' := (run (race ++ .commit 1 :: restore) s').1
  let r := (run [.begin 2 1 none] s).1
  let r' := (run [.stage 1 none (.put 0 [8])] s').1
  let entry : Entry (List Nat) := { value := [7], version := 1, ttl := .eternal }
  have hstart : Cluster.start { atomicity := .transactional } 3 trio = .ok c₀ := rfl
  have hbegin : (run stockUp { cluster := c₀ }).1.step (.begin 1 0 none) = (s, .done) :=
    step_begin (by decide +kernel) (by decide +kernel) 1 none
  have hbegin' : (run before { cluster := c₀ }).1.step (.begin 2 1 none) = (s', .done) :=
    step_begin (by decide +kernel) (by decide +kernel) 2 none
  have hone : Transacts { cluster := c₀ } (stockUp ++ .begin 1 0 none :: .begin 2 1 none :: race) 1
      (.begin 2 1 none :: race) s t :=
    ⟨⟨stockUp, 0, none, rfl, hbegin⟩, by simp [race, Move.Ends], rfl⟩
  have htwo : Transacts { cluster := c₀ } ((stockUp ++ .begin 1 0 none :: .begin 2 1 none :: race) ++
      .commit 1 :: restore) 2 (race ++ .commit 1 :: restore) s' t' :=
    ⟨⟨before, 1, none, by simp [before], hbegin'⟩,
      by simp [race, restore, Move.Ends], rfl⟩
  have hdone : (t.step (.commit 1)).2 = .done := commit_done_iff_map.2 (by decide +kernel)
  have hdirty : t.Dirty 1 0 := by decide +kernel
  have hdirty' : t'.Dirty 2 0 := by decide +kernel
  have hr : TouchesFirst 1 0 (.begin 2 1 none :: race) s r :=
    ⟨[.begin 2 1 none], _, _, rfl, rfl, rfl, List.isEmpty_eq_false_iff.1 (by decide +kernel)⟩
  have hr' : TouchesFirst 2 0 (race ++ .commit 1 :: restore) s' r' :=
    ⟨[.stage 1 none (.put 0 [8])], _, _, rfl, rfl, rfl, List.isEmpty_eq_false_iff.1 (by decide +kernel)⟩
  have hentry : r.cluster.live? 0 r.clock = some entry := by decide +kernel
  have hentry' : r'.cluster.live? 0 r'.clock = some entry := by decide +kernel
  obtain ⟨-, hfails⟩ := no_lost_update hstart lawful_trio 0 hone hdone (by decide +kernel)
  obtain ⟨other, hconflict, -⟩ := hfails restore _ 2 s' t' htwo (by decide +kernel) 0 r r' entry
    hdirty hdirty' hr hr' hentry hentry'
  exact ⟨c₀, s, t, s', t', r, r', entry, hstart, hone, hdone, htwo, hdirty, hdirty', hr, hr', hentry,
    hentry', by decide +kernel, by decide +kernel, other, hconflict⟩

end System

end Ephemera
