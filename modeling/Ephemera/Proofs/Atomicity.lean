import Ephemera.Proofs.Commit

/-! # All or nothing

Until it commits, a transaction leaves the cluster alone. The commit compares each key that it is to
change with what the transaction has found there, and if one of them differs it leaves the cluster
alone as well, and names the first that does. Otherwise it puts in place what was staged for these keys
on their primaries, and changes no other copy.
-/

namespace Ephemera

open Std

universe u v

/-- Whether the move works on transactions without committing one. -/
def Move.Stages {κ : Type u} {V : Type v} : Move κ V → Prop
  | begin .. | stage .. | rollback _ => True
  | call .. | commit _ | sweep _ | deliver _ | setClock _ => False

namespace Transaction

variable {κ : Type u} {V : Type v} [Ord κ] [TransOrd κ]

/-- The transaction has staged a change of the key. -/
def Dirty (tx : Transaction κ V) (key : κ) : Prop :=
  ∃ b, tx.bindings[key]? = some b ∧ b.dirty = true

/-- The transaction has staged a change of the key, and the version that is live on its primary is not
the one that the transaction has found. -/
def Conflicts (tx : Transaction κ V) (c : Cluster κ V) (now : Millis) (key : κ) : Prop :=
  ∃ b, tx.bindings[key]? = some b ∧ b.dirty = true ∧
    (c.live? key now).map (·.version) ≠ b.base

end Transaction

namespace Binding

variable {V : Type v}

/-- What a transaction has found of a key is recorded at the first touch, for good. -/
@[simp]
theorem base_record (b : Binding V) (t : Staging V) : (b.record t).base = b.base := by
  simp only [record, stage]
  split <;> rfl

theorem base_foldl_record (b : Binding V) (touches : List (Staging V)) :
    (touches.foldl record b).base = b.base := by
  induction touches generalizing b with
  | nil => rfl
  | cons t rest ih => rw [List.foldl_cons, ih, base_record]

end Binding

namespace Bindings

variable {κ : Type u} {V : Type v} [Ord κ] [TransOrd κ]

/-- The dirty bindings are listed in the order of their keys. -/
theorem ordered_dirty (bindings : Bindings κ V) :
    bindings.dirty.Pairwise fun p q => compare p.1 q.1 = .lt :=
  ExtTreeMap.ordered_keys_toList.filter _

end Bindings

namespace Cluster

variable {κ : Type u} {V : Type v} [Ord κ] [TransOrd κ] [LawfulEqOrd κ]
variable {c : Cluster κ V} {tx : Transaction κ V} {now : Millis} {key : κ}

/-! ## The check of a commit -/

theorem conflict?_eq_none_iff : c.conflict? tx now = none ↔ ∀ key, ¬tx.Conflicts c now key := by
  rw [conflict?, Option.map_eq_none_iff, List.find?_eq_none]
  constructor
  · rintro h key ⟨b, hb, hdirty, hne⟩
    exact h (key, b) ((tx.bindings.mem_dirty_iff key b).2 ⟨hb, hdirty⟩) (decide_eq_true hne)
  · rintro h ⟨key, b⟩ hmem hne
    obtain ⟨hb, hdirty⟩ := (tx.bindings.mem_dirty_iff key b).1 hmem
    exact h key ⟨b, hb, hdirty, of_decide_eq_true hne⟩

/-- The key that is named is the least that conflicts. -/
theorem least_of_conflict? (h : c.conflict? tx now = some key) :
    tx.Conflicts c now key ∧ ∀ other, tx.Conflicts c now other → compare key other ≠ .gt := by
  obtain ⟨⟨first, b⟩, hfind, rfl⟩ := Option.map_eq_some_iff.1 h
  obtain ⟨hne, pre, post, hsplit, hpre⟩ := List.find?_eq_some_iff_append.1 hfind
  have hmem : (first, b) ∈ tx.bindings.dirty := by
    rw [hsplit]
    exact List.mem_append_right pre List.mem_cons_self
  obtain ⟨hb, hdirty⟩ := (tx.bindings.mem_dirty_iff first b).1 hmem
  refine ⟨⟨b, hb, hdirty, of_decide_eq_true hne⟩, ?_⟩
  rintro other ⟨b', hb', hdirty', hne'⟩
  have hother := (tx.bindings.mem_dirty_iff other b').2 ⟨hb', hdirty'⟩
  rw [hsplit] at hother
  rcases List.mem_append.1 hother with hearlier | hother
  · have hagrees := hpre _ hearlier
    simp [hne'] at hagrees
  · rcases List.mem_cons.1 hother with heq | hlater
    · cases heq
      have hself : compare first first = .eq := ReflCmp.compare_self
      rw [hself]
      simp
    · have hordered := tx.bindings.ordered_dirty
      rw [hsplit] at hordered
      have hlt := (List.pairwise_cons.1 (List.pairwise_append.1 hordered).2.1).1 _ hlater
      rw [hlt]
      simp

theorem conflict?_eq_some_iff :
    c.conflict? tx now = some key ↔
      tx.Conflicts c now key ∧ ∀ other, tx.Conflicts c now other → compare key other ≠ .gt := by
  refine ⟨least_of_conflict?, fun ⟨hconflicts, hleast⟩ => ?_⟩
  cases hfound : c.conflict? tx now with
  | none => exact absurd hconflicts (conflict?_eq_none_iff.1 hfound key)
  | some first =>
      obtain ⟨hfirst, hbefore⟩ := least_of_conflict? hfound
      have hle := hleast first hfirst
      have hge := hbefore key hconflicts
      -- Neither comes after the other, so they are one key.
      cases horder : compare key first with
      | gt => exact absurd horder hle
      | eq => rw [LawfulEqOrd.compare_eq_iff_eq.1 horder]
      | lt => exact absurd (OrientedCmp.gt_of_lt horder) hge

/-! ## What a commit puts in place -/

section Apply

variable [Hashable κ] {d : Cluster κ V}

/-- A commit changes the copies of dirty keys on their primaries and no other. -/
theorem copy?_commit (h : c.commit tx now = .ok d) {node : Nat} {target : Target}
    (hother : c.affinity.IsReplica node target key ∨ ¬tx.Dirty key) :
    d.copy? node target key = c.copy? node target key := by
  obtain ⟨-, rfl⟩ := commit_ok h
  refine copy?_commitTrace_of_ne now _ (hother.imp_right fun hclean p hp hkey => hclean ?_)
  obtain ⟨other, b⟩ := p
  obtain rfl : other = key := by simpa using hkey
  exact ⟨b, (tx.bindings.mem_dirty_iff other b).1 hp⟩

/-- A commit leaves each dirty key as it was staged. -/
theorem stored?_commit (h : c.commit tx now = .ok d) {b : Binding V}
    (hb : tx.bindings[key]? = some b) (hdirty : b.dirty = true)
    (hprimary : c.affinity.primary key < c.nodes.length) :
    ∃ version, d.stored? key = b.staged.map fun (value, _) =>
      { value, version, ttl := b.commitTtl.resolve ((c.stored? key).map (·.ttl)) now } := by
  obtain ⟨-, rfl⟩ := commit_ok h
  obtain ⟨pre, post, -, hsame, hstored⟩ := stored?_commitTrace_of_mem now _ hprimary
    tx.bindings.distinct_dirty ((tx.bindings.mem_dirty_iff key b).2 ⟨hb, hdirty⟩)
  refine ⟨(c.follow pre).version + 1, ?_⟩
  rw [hstored, installed, Binding.outcome, Option.map_map, hsame]
  rfl

end Apply

end Cluster

namespace System

variable {κ : Type u} {V : Type v} [Ord κ] [TransOrd κ] [Hashable κ]
variable [DecidableEq V] [Append V] [Inhabited V]

/-! ## Staging leaves the cluster alone -/

theorem cluster_step_of_stages (s : System κ V) {move : Move κ V} (h : move.Stages) :
    (s.step move).1.cluster = s.cluster := by
  rw [step_cluster]
  cases move with
  | begin | stage | rollback => rfl
  | call | commit | sweep | deliver | setClock => exact h.elim

theorem cluster_run_of_stages {moves : List (Move κ V)} (s : System κ V)
    (h : ∀ move ∈ moves, move.Stages) : (run moves s).1.cluster = s.cluster := by
  induction moves generalizing s with
  | nil => rfl
  | cons move rest ih =>
      exact (ih (s.step move).1 fun m hm => h m (List.mem_cons_of_mem move hm)).trans
        (cluster_step_of_stages s (h move List.mem_cons_self))

/-- Transactions are all or nothing. Moves that open, stage or give up transactions leave the whole
cluster as it is, in whatever state. A transaction that has been opened in the course of a run holds
for each key what its touches have come to, and the version that was live on the primary at the first
of them. Its commit succeeds exactly if no key conflicts, and otherwise names the least that does and
leaves the whole cluster as it is. If it succeeds, no copy changes but those of the dirty keys on
their primaries, and each of these is as it was staged. -/
theorem transactions_all_or_nothing [LawfulEqOrd κ] {config : CacheConfig} {nodes : Nat}
    {affinity : Affinity κ} {c₀ : Cluster κ V}
    (hstart : Cluster.start config nodes affinity = .ok c₀) (now : Millis)
    (before moves : List (Move κ V)) {tx node : Nat} {scope : Option Policy} {s t : System κ V}
    (hbegin : (run before { cluster := c₀, clock := now }).1.step (.begin tx node scope) = (s, .done))
    (hopen : ∀ move ∈ moves, ¬move.Ends tx) (hrun : (run moves s).1 = t) :
    (∀ (r : System κ V) (staging : List (Move κ V)), (∀ move ∈ staging, move.Stages) →
      (run staging r).1.cluster = r.cluster) ∧
    ∃ opened, t.transactions[tx]? = some opened ∧
      (∀ key b, opened.bindings[key]? = some b → ∃ r, TouchesFirst tx key moves s r ∧
        b.base = (r.cluster.live? key r.clock).map (·.version) ∧
        b = (stagings tx key moves s).foldl Binding.record
          (.ofEntry (r.cluster.live? key r.clock))) ∧
      ((t.step (.commit tx)).2 = .done ↔ ∀ key, ¬opened.Conflicts t.cluster t.clock key) ∧
      (∀ key, (t.step (.commit tx)).2 = .conflict key ↔
        opened.Conflicts t.cluster t.clock key ∧
          ∀ other, opened.Conflicts t.cluster t.clock other → compare key other ≠ .gt) ∧
      ((t.step (.commit tx)).2 ≠ .done → (t.step (.commit tx)).1.cluster = t.cluster) ∧
      ((t.step (.commit tx)).2 = .done →
        (∀ key node target, affinity.IsReplica node target key ∨ ¬opened.Dirty key →
          (t.step (.commit tx)).1.cluster.copy? node target key =
            t.cluster.copy? node target key) ∧
        ∀ key b, opened.bindings[key]? = some b → b.dirty = true → affinity.primary key < nodes →
          ∃ version, (t.step (.commit tx)).1.cluster.stored? key = b.staged.map fun (value, _) =>
            { value, version,
              ttl := b.commitTtl.resolve ((t.cluster.stored? key).map (·.ttl)) t.clock }) := by
  have htransacts : Transacts { cluster := c₀, clock := now } _ tx moves s t :=
    ⟨⟨before, node, scope, rfl, hbegin⟩, hopen, hrun⟩
  obtain ⟨opened, hopened, hbindings⟩ := htransacts.bindings
  have hlayout : Cluster.SameLayout c₀ t.cluster := by
    rw [← htransacts.run_history, run_cluster]
    exact Cluster.sameLayout_follow c₀ _
  obtain ⟨-, hc₀⟩ := Cluster.start_ok hstart
  have haffinity : t.cluster.affinity = affinity := by
    rw [hlayout.affinity, hc₀]
  have hsize : t.cluster.nodes.length = nodes := by
    rw [hlayout.size, hc₀]
    exact List.length_replicate
  refine ⟨fun r staging => cluster_run_of_stages r, opened, hopened, ?_, ?_, ?_, ?_, ?_⟩
  · intro key b hb
    rw [hbindings] at hb
    obtain ⟨r, hr, hbound⟩ := touchesFirst_of_after hb
    exact ⟨r, hr, hbound ▸ Binding.base_foldl_record _ _, hbound⟩
  · rw [commit_done_iff hopened, Cluster.conflict?_eq_none_iff]
  · intro key
    rw [commit_conflict_iff hopened, Cluster.conflict?_eq_some_iff]
  · intro hfailed
    rw [Ne, commit_done_iff hopened] at hfailed
    obtain ⟨key, hconflict⟩ := Option.ne_none_iff_exists'.1 hfailed
    exact (step_commit_of_some hopened hconflict).1
  · intro hdone
    obtain ⟨d, hcommit, hd, -⟩ := step_commit_of_none hopened ((commit_done_iff hopened).1 hdone)
    rw [hd, ← haffinity, ← hsize]
    exact ⟨fun key node target => Cluster.copy?_commit hcommit,
      fun key b hb hdirty => Cluster.stored?_commit hcommit hb hdirty⟩

/-- Two entries are stored. -/
def stockUp : List (Move Nat (List Nat)) :=
  [.call 0 none (.put 0 [7]), .call 0 none (.put 1 [9])]

/-- One entry is to be replaced, for some time, and the other one removed. -/
def rearrange : List (Move Nat (List Nat)) :=
  [.stage 1 (some (.custom { update := some (.millis 50) })) (.put 0 [8]), .setClock 10,
    .stage 1 none (.remove 1)]

theorem transactions_all_or_nothing_rearrange :
    ∃ (c₀ : Cluster Nat (List Nat)) (s t : System Nat (List Nat)),
      Cluster.start { atomicity := .transactional } 3 trio = .ok c₀ ∧
      (run stockUp { cluster := c₀ }).1.step (.begin 1 0 none) = (s, .done) ∧
      (∀ move ∈ rearrange, ¬move.Ends 1) ∧ (run rearrange s).1 = t ∧
      (t.step (.commit 1)).2 = .done ∧
      (∃ version, (t.step (.commit 1)).1.cluster.stored? 0 =
        some { value := [8], version, ttl := .lasting 50 10 }) ∧
      (t.step (.commit 1)).1.cluster.stored? 1 = none := by
  let c₀ : Cluster Nat (List Nat) :=
    { config := { atomicity := .transactional }, affinity := trio, nodes := .empty 3 true }
  let s := ((run stockUp { cluster := c₀ }).1.step (.begin 1 0 none)).1
  let t := (run rearrange s).1
  have hstart : Cluster.start { atomicity := .transactional } 3 trio = .ok c₀ := rfl
  have hbegin : (run stockUp { cluster := c₀ }).1.step (.begin 1 0 none) = (s, .done) :=
    step_begin (by decide +kernel) (by decide +kernel) 1 none
  have hopen : ∀ move ∈ rearrange, ¬move.Ends 1 := by simp [rearrange, Move.Ends]
  obtain ⟨-, opened, hopened, -, -, -, -, hsuccess⟩ :=
    transactions_all_or_nothing hstart 0 stockUp rearrange hbegin hopen (t := t) rfl
  have hclock : t.clock = 10 := by decide +kernel
  have hreplaced : (t.transactions[1]?.bind fun opened => opened.bindings[0]?) = some {
      base := some 1, staged := some ([8], .lasting 50 0), commitTtl := .restart 50, dirty := true } := by
    decide +kernel
  have hremoved : (t.transactions[1]?.bind fun opened => opened.bindings[1]?) = some {
      base := some 2, staged := none, commitTtl := .keep, dirty := true } := by
    decide +kernel
  rw [hopened] at hreplaced hremoved
  have hdone : (t.step (.commit 1)).2 = .done := commit_done_iff_map.2 (by decide +kernel)
  obtain ⟨-, hstored⟩ := hsuccess hdone
  obtain ⟨version, hzero⟩ := hstored 0 _ hreplaced rfl (by decide)
  obtain ⟨_, hone⟩ := hstored 1 _ hremoved rfl (by decide)
  refine ⟨c₀, s, t, hstart, hbegin, hopen, rfl, hdone, ⟨version, ?_⟩, hone⟩
  rw [hzero, hclock]
  rfl

end System

end Ephemera
