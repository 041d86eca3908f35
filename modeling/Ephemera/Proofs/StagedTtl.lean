import Ephemera.Proofs.LostUpdate

/-! # The lifetime that a transaction reports

While it is open, a transaction reports the lifetime that each key it has touched is to have. A commit
makes this good: the span is the one reported, and starts at the commit where the transaction has given
the key a new lifetime. Where it has not, the primary still has the copy of which the lifetime was
found, so there always is a lifetime to keep.
-/

namespace Ephemera

open Std

universe u v

namespace Binding

variable {V : Type v}

/-- A binding against the lifetime of the copy found at the first touch: a staged lifetime that is kept
is that one, and one that is restarted has the span to restart it with. -/
structure Dated (found : Option Ttl) (b : Binding V) : Prop where
  plain : ∀ {value ttl}, b.staged = some (value, ttl) → ttl.deleted = false
  kept : ∀ {value ttl}, b.staged = some (value, ttl) → b.commitTtl = .keep → found = some ttl
  restarted : ∀ {value ttl span}, b.staged = some (value, ttl) → b.commitTtl = .restart span →
    ttl.span = span

namespace Dated

variable {found : Option Ttl} {b : Binding V}

theorem ofEntry {found : Option (Entry V)} (hplain : ∀ entry, found = some entry →
    entry.ttl.deleted = false) : Dated (found.map (·.ttl)) (.ofEntry found) where
  plain h := by
    obtain ⟨entry, hentry, heq⟩ := Option.map_eq_some_iff.1 h
    cases heq
    exact hplain entry hentry
  kept h _ := by
    obtain ⟨entry, rfl, heq⟩ := Option.map_eq_some_iff.1 h
    cases heq
    rfl
  restarted _ h := by cases h

theorem stage_put (h : b.Dated found) {intent : Intent V} {policy : Policy} {now : Millis} {value : V}
    {ttl : Ttl} {kind : Touch}
    (hplan : plan (b.live now) intent policy now = .put value ttl kind) :
    (b.stage (.put value ttl kind) policy).Dated found := by
  obtain ⟨old, htouch, hlive⟩ := touch_of_plan hplan
  have hplain := Ttl.not_deleted_of_touch htouch
  rcases CommitTtl.ofTouch_of_touch htouch with hrestart | ⟨hleft, hkind, hnext⟩
  · -- The touch starts a lifetime anew, and gives the span to start it with at the commit.
    refine ⟨?_, ?_, ?_⟩ <;> simp only [stage, hrestart, Option.getD_some]
    · rintro _ _ ⟨⟩
      exact hplain
    · rintro _ _ - ⟨⟩
    · rintro _ _ _ ⟨⟩ ⟨⟩
      rfl
  · -- The touch replaces the value only, so the lifetime is the one that was staged before.
    obtain ⟨⟨current, before⟩, hcurrent, hbefore⟩ := Option.map_eq_some_iff.1 (hlive hkind)
    have hstaged := staged_of_live hcurrent
    obtain rfl : before = old := hbefore
    obtain rfl : ttl = before := by
      rw [hnext, ← h.plain hstaged]
    refine ⟨?_, ?_, ?_⟩ <;> simp only [stage, hleft, Option.getD_none]
    · rintro _ _ ⟨⟩
      exact hplain
    · rintro _ _ ⟨⟩ hkeep
      exact h.kept hstaged hkeep
    · rintro _ _ _ ⟨⟩ hrestart
      exact h.restarted hstaged hrestart

/-- Every touch leaves the binding dated. -/
theorem record (h : b.Dated found) (t : Staging V) : (b.record t).Dated found := by
  unfold Binding.record
  simp only
  cases hplan : plan (b.live t.now) (t.intent ((b.live t.now).map (·.1))) t.policy t.now with
  | unchanged => exact h
  | put value ttl kind => exact h.stage_put hplan
  | remove =>
      refine ⟨?_, ?_, ?_⟩
      · rintro _ _ ⟨⟩
      · rintro _ _ ⟨⟩
      · rintro _ _ _ ⟨⟩

theorem foldl (h : b.Dated found) (touches : List (Staging V)) :
    (touches.foldl Binding.record b).Dated found :=
  List.foldlRecOn touches Binding.record h fun _ hdated t _ => hdated.record t

end Dated

end Binding

namespace System

variable {κ : Type u} {V : Type v} [Ord κ] [TransOrd κ] [LawfulEqOrd κ] [Hashable κ]
variable [DecidableEq V] [Append V] [Inhabited V]

/-- What a transaction holds of a key is dated by the copy that was live at the first touch. -/
theorem Transacts.dated {s₀ s t : System κ V} {history moves : List (Move κ V)} {tx : Nat}
    (h : Transacts s₀ history tx moves s t) (hplain : s₀.cluster.Plain)
    (horderly : s₀.cluster.Orderly)
    {opened : Transaction κ V} {key : κ} {b : Binding V} (hopened : t.transactions[tx]? = some opened)
    (hb : opened.bindings[key]? = some b) :
    ∃ r, TouchesFirst tx key moves s r ∧
      b.base = (r.cluster.live? key r.clock).map (·.version) ∧
      b.Dated ((r.cluster.live? key r.clock).map (·.ttl)) := by
  obtain ⟨_, hsame, hbindings⟩ := h.bindings
  cases hopened.symm.trans hsame
  have hafter := (hbindings key).symm.trans hb
  obtain ⟨r, hr, rfl⟩ := touchesFirst_of_after hafter
  refine ⟨r, hr, Binding.base_foldl_record _ _,
    (Binding.Dated.ofEntry fun entry hentry => ?_).foldl _⟩
  obtain ⟨pre, move, post, hmoves, -, hpre, -⟩ := hr
  obtain ⟨before, -, hbefore⟩ := h.run_prefix hmoves
  have hreached : r.cluster.Plain := by
    rw [← hpre, ← hbefore]
    exact plain_run before hplain horderly
  exact hreached key entry (Cluster.stored?_of_live? hentry)

/-- A commit that succeeds finds the version that was live at the first touch of a dirty key. -/
theorem live?_version_of_commit {t u : System κ V} {tx : Nat}
    (hcommit : t.step (.commit tx) = (u, .done)) {opened : Transaction κ V}
    (hopened : t.transactions[tx]? = some opened) {key : κ} {b : Binding V}
    (hb : opened.bindings[key]? = some b) (hdirty : b.dirty = true) :
    (t.cluster.live? key t.clock).map (·.version) = b.base := by
  have hnone := (Cluster.commit_ok (commit_done hopened hcommit).1).1
  have hagrees := Cluster.conflict?_eq_none_iff.1 hnone key
  exact Classical.byContradiction fun hne => hagrees ⟨b, hb, hdirty, hne⟩

/-- What the first touch of a dirty key found is live at the commit, or another copy of its version is.
As long as versions last there is no other. -/
theorem live?_of_commit {config : CacheConfig} {nodes : Nat} {affinity : Affinity κ}
    {c₀ : Cluster κ V} (hstart : Cluster.start config nodes affinity = .ok c₀)
    (hlawful : affinity.Lawful) {now : Millis} {history moves : List (Move κ V)} {tx : Nat}
    {s t u : System κ V} (h : Transacts { cluster := c₀, clock := now } history tx moves s t)
    (hcommit : t.step (.commit tx) = (u, .done)) {opened : Transaction κ V}
    (hopened : t.transactions[tx]? = some opened) {key : κ} {b : Binding V}
    (hb : opened.bindings[key]? = some b) (hdirty : b.dirty = true) {r : System κ V}
    (hr : TouchesFirst tx key moves s r)
    (hbase : b.base = (r.cluster.live? key r.clock).map (·.version)) {found : Entry V}
    (hfound : r.cluster.live? key r.clock = some found) :
    ∃ kept, t.cluster.live? key t.clock = some kept ∧ kept.version = found.version ∧
      (drawn history { cluster := c₀, clock := now } < 2 ^ 64 → kept = found) := by
  have hversion := (live?_version_of_commit hcommit hopened hb hdirty).trans hbase
  obtain ⟨kept, hlive, hsame⟩ :=
    Option.map_eq_some_iff.1 (hversion.trans (congrArg (Option.map _) hfound))
  refine ⟨kept, hlive, hsame, fun hdrawn => ?_⟩
  have heq := h.live?_of_version hstart hlawful hdrawn hr hversion
  exact Option.some.inj (hlive.symm.trans (heq.trans hfound))

/-- The lifetime that a transaction reports is honoured by its commit. Take a transaction that commits,
and a key that it has dirty. It reports a lifetime for the key. If that is the tombstone, the key is
absent on its primary after the commit. Otherwise its staged value is there, and if the transaction has
restarted the lifetime, it has the reported span and starts at the commit. If the lifetime is kept, the
one that is reported was found at the first touch, and a copy is live on the primary at the commit, of
the version found, that gives its lifetime. As long as versions last that is the copy found, so in all
cases the span is the one reported. -/
theorem staged_ttl_honoured {config : CacheConfig} {nodes : Nat} {affinity : Affinity κ}
    {c₀ : Cluster κ V} (hstart : Cluster.start config nodes affinity = .ok c₀)
    (hlawful : affinity.Lawful) (now : Millis) {history moves : List (Move κ V)} {tx : Nat}
    {s t u : System κ V} (h : Transacts { cluster := c₀, clock := now } history tx moves s t)
    (hcommit : t.step (.commit tx) = (u, .done)) {opened : Transaction κ V}
    (hopened : t.transactions[tx]? = some opened) {key : κ} {b : Binding V}
    (hb : opened.bindings[key]? = some b) (hdirty : b.dirty = true) :
    (opened.stagedTtl key).isSome ∧
    (opened.stagedTtl key = some .tombstone → u.cluster.stored? key = none) ∧
    ∀ reported, opened.stagedTtl key = some reported → reported ≠ .tombstone →
      ∃ copy, u.cluster.stored? key = some copy ∧ b.staged = some (copy.value, reported) ∧
        (∀ span, b.commitTtl = .restart span →
          span = reported.span ∧ copy.ttl = .lasting span t.clock) ∧
        (b.commitTtl = .keep → ∃ r found kept, TouchesFirst tx key moves s r ∧
          r.cluster.live? key r.clock = some found ∧ reported = found.ttl ∧
          t.cluster.live? key t.clock = some kept ∧ kept.version = found.version ∧
          copy.ttl = kept.ttl ∧
          (drawn history { cluster := c₀, clock := now } < 2 ^ 64 → kept = found)) ∧
        (b.commitTtl ≠ .keep ∨ drawn history { cluster := c₀, clock := now } < 2 ^ 64 →
          copy.ttl.span = reported.span) := by
  have horderly := Cluster.orderly_start hstart hlawful
  have hprimary : t.cluster.affinity.primary key < t.cluster.nodes.length := by
    have hreached : t.cluster.Orderly := h.run_history ▸ orderly_run hstart hlawful now history
    exact hreached.primary_lt key
  obtain ⟨r, hr, hbase, hdated⟩ := h.dated (Cluster.plain_start hstart) horderly hopened hb
  obtain ⟨hcommitted, -⟩ := commit_done hopened hcommit
  obtain ⟨version, hstored⟩ := Cluster.stored?_commit hcommitted hb hdirty hprimary
  have hreport : opened.stagedTtl key = b.stagedTtl := by
    simp only [Transaction.stagedTtl, hb, Option.bind_some]
  rw [hreport]
  cases hstaged : b.staged with
  | none =>
      have htombstone : b.stagedTtl = some .tombstone := by
        simp only [Binding.stagedTtl, hstaged, hdirty, if_true]
      rw [htombstone, hstored, hstaged]
      refine ⟨rfl, fun _ => rfl, ?_⟩
      rintro _ ⟨⟩ hne
      exact absurd rfl hne
  | some pair =>
      obtain ⟨value, ttl⟩ := pair
      have hreported : b.stagedTtl = some ttl := by
        simp only [Binding.stagedTtl, hstaged]
      rw [hreported, hstored, hstaged]
      refine ⟨rfl, ?_, ?_⟩
      · rintro ⟨⟩
        cases hdated.plain hstaged
      rintro _ ⟨⟩ -
      have hkept : b.commitTtl = .keep → ∃ found kept,
          r.cluster.live? key r.clock = some found ∧ ttl = found.ttl ∧
          t.cluster.live? key t.clock = some kept ∧ kept.version = found.version ∧
          b.commitTtl.resolve ((t.cluster.stored? key).map (·.ttl)) t.clock = kept.ttl ∧
          (drawn history { cluster := c₀, clock := now } < 2 ^ 64 → kept = found) := by
        intro hkeep
        obtain ⟨found, hfound, rfl⟩ := Option.map_eq_some_iff.1 (hdated.kept hstaged hkeep)
        -- The commit has found the version of the first touch, so there is a live copy.
        obtain ⟨kept, hlive, hversion, hsame⟩ :=
          live?_of_commit hstart hlawful h hcommit hopened hb hdirty hr hbase hfound
        refine ⟨found, kept, hfound, rfl, hlive, hversion, ?_, hsame⟩
        rw [hkeep, Cluster.stored?_of_live? hlive]
        rfl
      refine ⟨_, rfl, rfl, ?_, ?_, ?_⟩
      · intro span hrestart
        refine ⟨(hdated.restarted hstaged hrestart).symm, ?_⟩
        rw [hrestart]
        rfl
      · intro hkeep
        obtain ⟨found, kept, hfound, httl, hlive, hversion, hresolved, hsame⟩ := hkept hkeep
        exact ⟨r, found, kept, hr, hfound, httl, hlive, hversion, hresolved, hsame⟩
      · intro hlast
        cases hrestart : b.commitTtl with
        | restart span => exact (Ttl.span_lasting ..).trans (hdated.restarted hstaged hrestart).symm
        | keep =>
            obtain ⟨found, kept, -, rfl, -, -, hresolved, hsame⟩ := hkept hrestart
            rw [← hrestart, hresolved, hsame (hlast.resolve_left (absurd hrestart))]

/-- Three entries are stored, the first for some time. -/
def stockThree : List (Move Nat (List Nat)) :=
  storing ++ [.call 0 none (.put 1 [8]), .call 0 none (.put 2 [9])]

/-- One value is replaced and its lifetime kept, one gets another lifetime, and one is removed. -/
def settleAll : List (Move Nat (List Nat)) :=
  [.setClock 5, .stage 1 none (.put 0 [5]),
    .stage 1 (some (.custom { update := some (.millis 50) })) (.put 1 [6]),
    .stage 1 none (.remove 2), .setClock 10]

theorem staged_ttl_honoured_settleAll :
    ∃ (c₀ : Cluster Nat (List Nat)) (s t u : System Nat (List Nat))
      (opened : Transaction Nat (List Nat)),
      Cluster.start { atomicity := .transactional } 3 trio = .ok c₀ ∧
      Transacts { cluster := c₀ } (stockThree ++ .begin 1 0 none :: settleAll) 1 settleAll s t ∧
      t.step (.commit 1) = (u, .done) ∧ t.transactions[1]? = some opened ∧
      opened.stagedTtl 0 = some (.lasting 100 0) ∧
      (u.cluster.stored? 0).map (·.content) = some ([5], .lasting 100 0) ∧
      opened.stagedTtl 1 = some (.lasting 50 5) ∧
      (u.cluster.stored? 1).map (·.content) = some ([6], .lasting 50 10) ∧
      opened.stagedTtl 2 = some .tombstone ∧ u.cluster.stored? 2 = none := by
  let c₀ : Cluster Nat (List Nat) :=
    { config := { atomicity := .transactional }, affinity := trio, nodes := .empty 3 true }
  let s := ((run stockThree { cluster := c₀ }).1.step (.begin 1 0 none)).1
  let t := (run settleAll s).1
  have hstart : Cluster.start { atomicity := .transactional } 3 trio = .ok c₀ := rfl
  have hbegin : (run stockThree { cluster := c₀ }).1.step (.begin 1 0 none) = (s, .done) :=
    step_begin (by decide +kernel) (by decide +kernel) 1 none
  have htransacts : Transacts { cluster := c₀ } (stockThree ++ .begin 1 0 none :: settleAll) 1
      settleAll s t :=
    ⟨⟨stockThree, 0, none, rfl, hbegin⟩, by simp [settleAll, Move.Ends], rfl⟩
  have hdone : (t.step (.commit 1)).2 = .done := commit_done_iff_map.2 (by decide +kernel)
  have hcommit : t.step (.commit 1) = ((t.step (.commit 1)).1, .done) := by rw [← hdone]
  have hclock : t.clock = 10 := by decide +kernel
  have hdrawn : drawn (stockThree ++ .begin 1 0 none :: settleAll) { cluster := c₀ } < 2 ^ 64 := by
    decide +kernel
  obtain ⟨opened, hopened, -⟩ := htransacts.bindings
  have hkept : (t.transactions[1]?.bind fun opened => opened.bindings[0]?) = some {
      base := some 1, staged := some ([5], .lasting 100 0), commitTtl := .keep, dirty := true } := by
    decide +kernel
  have hrestarted : (t.transactions[1]?.bind fun opened => opened.bindings[1]?) = some {
      base := some 2, staged := some ([6], .lasting 50 5), commitTtl := .restart 50,
      dirty := true } := by
    decide +kernel
  have hremoved : (t.transactions[1]?.bind fun opened => opened.bindings[2]?) = some {
      base := some 3, staged := none, commitTtl := .keep, dirty := true } := by
    decide +kernel
  rw [hopened] at hkept hrestarted hremoved
  have hzero : opened.stagedTtl 0 = some (.lasting 100 0) := congrArg (·.bind Binding.stagedTtl) hkept
  have hone : opened.stagedTtl 1 = some (.lasting 50 5) :=
    congrArg (·.bind Binding.stagedTtl) hrestarted
  have htwo : opened.stagedTtl 2 = some .tombstone := congrArg (·.bind Binding.stagedTtl) hremoved
  obtain ⟨-, -, hstored₀⟩ :=
    staged_ttl_honoured hstart lawful_trio 0 htransacts hcommit hopened hkept rfl
  obtain ⟨-, -, hstored₁⟩ :=
    staged_ttl_honoured hstart lawful_trio 0 htransacts hcommit hopened hrestarted rfl
  obtain ⟨-, hgone, -⟩ :=
    staged_ttl_honoured hstart lawful_trio 0 htransacts hcommit hopened hremoved rfl
  obtain ⟨copy₀, hcopy₀, hvalue₀, -, hkeep, -⟩ := hstored₀ _ hzero (by decide)
  obtain ⟨copy₁, hcopy₁, hvalue₁, hrestart, -⟩ := hstored₁ _ hone (by decide)
  obtain ⟨r, found, kept, -, -, hreported, -, -, httl₀, hsame⟩ := hkeep rfl
  obtain ⟨-, httl₁⟩ := hrestart 50 rfl
  refine ⟨c₀, s, t, _, opened, hstart, htransacts, hcommit, hopened, hzero, ?_, hone, ?_, htwo,
    hgone htwo⟩
  · have hvalue : [5] = copy₀.value := congrArg Prod.fst (Option.some.inj hvalue₀)
    rw [hcopy₀, hvalue, hreported, ← hsame hdrawn, ← httl₀]
    rfl
  · have hvalue : [6] = copy₁.value := congrArg Prod.fst (Option.some.inj hvalue₁)
    rw [hcopy₁, hvalue, ← hclock, ← httl₁]
    rfl

end System

end Ephemera
