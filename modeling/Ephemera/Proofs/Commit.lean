import Ephemera.Proofs.Primary
import Ephemera.Proofs.Staging

/-! # Commits

A commit puts in place what a transaction has staged. For a key whose copy on the primary is the one
that the transaction has found, that is what its touches would do if all were made at the commit, but
for a lifetime whose restart was overlooked.
-/

namespace Ephemera

open Std

universe u v w w'

/-! ## Operations as touches -/

/-- What a decision intends. -/
def Decision.intent {V : Type v} {ρ : Type w} (decide : Decision V ρ) (live : Option V) : Intent V :=
  (decide live).1

namespace Binding

variable {V : Type v}

/-- The binding of a key after touches. The first touch of a key binds it. -/
def after (b : Option (Binding V)) (touches : List (Staging V)) : Option (Binding V) :=
  touches.foldl (fun b t => some ((b.getD (.ofEntry t.found)).record t)) b

theorem after_append (b : Option (Binding V)) (touches more : List (Staging V)) :
    after b (touches ++ more) = after (after b touches) more :=
  List.foldl_append ..

theorem after_some (b : Binding V) (touches : List (Staging V)) :
    after (some b) touches = some (touches.foldl record b) := by
  induction touches generalizing b with
  | nil => rfl
  | cons t rest ih => exact ih (b.record t)

theorem after_none (first : Staging V) (later : List (Staging V)) :
    after none (first :: later) =
      some ((first :: later).foldl record (.ofEntry first.found)) :=
  after_some _ later

/-- What holds of a binding when a touch makes it, and is kept by every touch, holds after them. -/
theorem after_induction {motive : Binding V → Prop} {touches : List (Staging V)}
    (hfirst : ∀ t ∈ touches, motive (.ofEntry t.found))
    (hrecord : ∀ t ∈ touches, ∀ b : Binding V, motive b → motive (b.record t))
    {before : Option (Binding V)} (hbefore : ∀ b, before = some b → motive b) {b : Binding V}
    (hb : after before touches = some b) : motive b := by
  induction touches generalizing before with
  | nil => exact hbefore b hb
  | cons t rest ih =>
      refine ih (fun u hu => hfirst u (List.mem_cons_of_mem t hu))
        (fun u hu => hrecord u (List.mem_cons_of_mem t hu)) ?_ hb
      rintro _ ⟨⟩
      refine hrecord t List.mem_cons_self _ ?_
      cases before with
      | none => exact hfirst t List.mem_cons_self
      | some b => exact hbefore b rfl

end Binding

namespace Transaction

variable {κ : Type u} {V : Type v} {ρ : Type w} [Ord κ]

namespace Operation

variable [Append V] [Inhabited V]

omit [Ord κ] in
/-- The keys that an operation touches, in turn, each with what is intended there. -/
def touches : Operation κ V → List (κ × (Option V → Intent V))
  | get key => [(key, Decision.get.intent)]
  | put key value => [(key, (Decision.put value).intent)]
  | remove key => [(key, Decision.remove.intent)]
  | invoke key script => [(key, (Decision.invoke script).intent)]
  | getAll keys => keys.map fun key => (key, Decision.get.intent)
  | putAll entries => entries.map fun (key, value) => (key, (Decision.put value).intent)
  | removeAll keys => keys.map fun key => (key, Decision.remove.intent)

end Operation

/-- The touches of one key among those of an operation that is staged at `now`. -/
def stagings (touches : List (κ × (Option V → Intent V))) (policy : Policy) (now : Millis)
    (found : Option (Entry V)) (key : κ) : List (Staging V) :=
  (touches.filter fun touch => compare touch.1 key = .eq).map fun touch =>
    { policy, now, intent := touch.2, found }

variable [TransOrd κ]

theorem getElem?_stage (tx : Transaction κ V) (c : Cluster κ V) (policy : Policy) (now : Millis)
    (key : κ) (decide : Decision V ρ) (other : κ) :
    (tx.stage c policy now key decide).1.bindings[other]? =
      if compare key other = .eq then
        some ((tx.bindings.touch key (c.live? key now)).record
          { policy, now, intent := decide.intent, found := c.live? key now })
      else tx.bindings[other]? :=
  ExtTreeMap.getElem?_insert

variable [LawfulEqOrd κ]

/-- Staging one touch. -/
theorem after_stage (tx : Transaction κ V) (c : Cluster κ V) (policy : Policy) (now : Millis)
    (key : κ) (decide : Decision V ρ) (other : κ) :
    (tx.stage c policy now key decide).1.bindings[other]? =
      Binding.after tx.bindings[other]?
        (stagings [(key, decide.intent)] policy now (c.live? other now) other) := by
  rw [getElem?_stage]
  by_cases hkey : compare key other = .eq
  · obtain rfl : key = other := by simpa using hkey
    simp only [stagings, List.filter_cons, hkey, decide_true, if_true, List.filter_nil, List.map_cons,
      List.map_nil]
    rfl
  · simp only [stagings, List.filter_cons, hkey, decide_false, Bool.false_eq_true, if_false,
      List.filter_nil, List.map_nil]
    rfl

/-- Staging several touches, in turn. -/
theorem after_stageAll {α : Type w'} (c : Cluster κ V) (policy : Policy) (now : Millis)
    (decision : α → κ × Decision V ρ) (items : List α) (tx : Transaction κ V) (other : κ) :
    (stageAll c policy now (items.map decision) tx).1.bindings[other]? =
      Binding.after tx.bindings[other]?
        (stagings (items.map fun x => ((decision x).1, (decision x).2.intent)) policy now
          (c.live? other now) other) := by
  induction items generalizing tx with
  | nil => rfl
  | cons head rest ih =>
      have hsplit : ∀ touch (more : List (κ × (Option V → Intent V))) found,
          stagings (touch :: more) policy now found other =
            stagings [touch] policy now found other ++ stagings more policy now found other := by
        intro touch more found
        simp only [stagings, List.filter_cons, List.filter_nil]
        split <;> rfl
      rw [List.map_cons, List.map_cons, hsplit, Binding.after_append, ← after_stage]
      exact ih _

variable [Append V] [Inhabited V]

/-- An operation of a transaction records its touches. -/
theorem after_perform (tx : Transaction κ V) (c : Cluster κ V) (scope : Option Policy)
    (now : Millis) (operation : Operation κ V) (key : κ) :
    (tx.perform c scope now operation).1.bindings[key]? =
      Binding.after tx.bindings[key]?
        (stagings operation.touches (.effective tx.policy scope) now (c.live? key now) key) := by
  cases operation with
  | get other => exact after_stage tx c _ now other .get key
  | put other value => exact after_stage tx c _ now other (.put value) key
  | remove other => exact after_stage tx c _ now other .remove key
  | invoke other script => exact after_stage tx c _ now other (.invoke script) key
  | getAll keys => exact after_stageAll c _ now (fun other => (other, .get)) keys tx key
  | putAll entries => exact after_stageAll c _ now (fun entry => (entry.1, .put entry.2)) entries tx key
  | removeAll keys => exact after_stageAll c _ now (fun other => (other, .remove)) keys tx key

end Transaction

/-! ## What a commit makes of each key -/

namespace Bindings

variable {κ : Type u} {V : Type v} [Ord κ] [TransOrd κ]

/-- The keys that a commit changes are those whose bindings are dirty, each once. -/
theorem distinct_dirty (bindings : Bindings κ V) :
    bindings.dirty.Pairwise fun p q => ¬compare p.1 q.1 = .eq :=
  ExtTreeMap.distinct_keys_toList.filter _

theorem mem_dirty_iff [LawfulEqOrd κ] (bindings : Bindings κ V) (key : κ) (b : Binding V) :
    (key, b) ∈ bindings.dirty ↔ bindings[key]? = some b ∧ b.dirty = true := by
  rw [Bindings.dirty, List.mem_filter, ExtTreeMap.mem_toList_iff_getElem?_eq_some]

end Bindings

namespace Cluster

variable {κ : Type u} {V : Type v} [Ord κ] [TransOrd κ] [LawfulEqOrd κ] [Hashable κ]

omit [LawfulEqOrd κ] [Hashable κ] in
theorem Plain.visible {c : Cluster κ V} (h : c.Plain) (key : κ) (now : Millis) :
    Binding.Visible now ((c.live? key now).map (·.content)) := by
  intro pair hpair
  obtain ⟨entry, hentry, rfl⟩ := Option.map_eq_some_iff.1 hpair
  obtain ⟨hstored, hlive⟩ := Option.filter_eq_some_iff.1 hentry
  exact ⟨h key entry hstored, by simpa [Entry.content, Entry.expiredAt] using hlive⟩

/-- The copy that a commit puts in place of the one on the primary. -/
def installed (c : Cluster κ V) (key : κ) (staged : Option (V × CommitTtl)) (now : Millis) :
    Option (Entry V) :=
  staged.map fun (value, commitTtl) =>
    { value, version := c.version + 1, ttl := commitTtl.resolve ((c.stored? key).map (·.ttl)) now }

/-- Putting in place what was staged for a key changes the copy on its primary and no other. -/
theorem copy?_install (c : Cluster κ V) (key : κ) (staged : Option (V × CommitTtl)) (now : Millis)
    (node : Nat) (target : Target) (other : κ) :
    (c.change (c.installTrace key staged now)).copy? node target other =
      if (node = c.affinity.primary key ∧ target = .owned ∧ compare key other = .eq) ∧
          c.affinity.primary key < c.nodes.length then c.installed key staged now
      else c.copy? node target other := by
  unfold installTrace installed
  rcases Nat.lt_or_ge (c.affinity.primary key) c.nodes.length with hlt | hle
  · simp only [hlt, and_true]
    cases staged with
    | some pair => exact c.copy?_putPrimary key pair.1 _ node target other hlt
    | none =>
        simp only [change]
        split
        next entry _ => exact c.copy?_removePrimary key entry.version _ _ node target other hlt
        next hnone =>
          split
          next hslot =>
            obtain ⟨rfl, rfl, hkey⟩ := hslot
            obtain rfl : key = other := by simpa using hkey
            exact hnone
          next => rfl
  · simp only [Nat.not_lt.2 hle, and_false, if_false]
    cases staged with
    | some pair => exact copy?_putPrimary_of_size_le hle pair.1 _ node target other
    | none =>
        simp only [change]
        split
        next entry _ => exact copy?_removePrimary_of_size_le hle entry.version _ _ node target other
        next => rfl

/-- A commit leaves the copies of replicas alone, and those of keys that it does not change. -/
theorem copy?_commitTrace_of_ne (now : Millis) {node : Nat} {target : Target} {key : κ}
    (bindings : List (κ × Binding V)) {c : Cluster κ V}
    (h : c.affinity.IsReplica node target key ∨ ∀ p ∈ bindings, compare p.1 key ≠ .eq) :
    (c.follow (commitTrace now bindings c)).copy? node target key = c.copy? node target key := by
  induction bindings generalizing c with
  | nil => rfl
  | cons head rest ih =>
      obtain ⟨other, binding⟩ := head
      rw [commitTrace, follow_cons, ih, copy?_install, if_neg]
      · rintro ⟨⟨hnode, htarget, hkey⟩, -⟩
        rcases h with hreplica | hne
        · obtain rfl : other = key := by simpa using hkey
          exact hreplica ⟨htarget, hnode.symm⟩
        · exact hne _ List.mem_cons_self hkey
      · rw [(sameLayout_change c _).affinity]
        exact h.imp_right fun hne p hp => hne p (List.mem_cons_of_mem _ hp)

theorem stored?_commitTrace_of_not_mem (now : Millis) {key : κ} (bindings : List (κ × Binding V))
    {c : Cluster κ V} (hkey : ∀ p ∈ bindings, compare p.1 key ≠ .eq) :
    (c.follow (commitTrace now bindings c)).stored? key = c.stored? key := by
  rw [← copy?_primary, (sameLayout_follow c _).affinity, ← copy?_primary]
  exact copy?_commitTrace_of_ne now bindings (.inr hkey)

/-- A commit puts in place, for each key that it changes, what was staged for the key. -/
theorem stored?_commitTrace_of_mem (now : Millis) {key : κ} {b : Binding V}
    (bindings : List (κ × Binding V)) {c : Cluster κ V}
    (hprimary : c.affinity.primary key < c.nodes.length)
    (hdistinct : bindings.Pairwise fun p q => ¬compare p.1 q.1 = .eq) (hmem : (key, b) ∈ bindings) :
    ∃ pre post, commitTrace now bindings c =
        pre ++ (c.follow pre).installTrace key b.outcome now :: post ∧
      (c.follow pre).stored? key = c.stored? key ∧
      (c.follow (commitTrace now bindings c)).stored? key =
        (c.follow pre).installed key b.outcome now := by
  induction bindings generalizing c with
  | nil => cases hmem
  | cons head rest ih =>
      obtain ⟨hhead, hrest⟩ := List.pairwise_cons.1 hdistinct
      have hinstall : ∀ (other : κ) (binding : Binding V),
          (c.change (c.installTrace other binding.outcome now)).stored? key =
            if compare other key = .eq then c.installed other binding.outcome now
            else c.stored? key := by
        intro other binding
        rw [← copy?_primary, (sameLayout_change c _).affinity, copy?_install]
        by_cases hkey : compare other key = .eq
        · obtain rfl : other = key := by simpa using hkey
          simp [hprimary]
        · rw [if_neg (fun hslot => hkey hslot.1.2.2), if_neg hkey, copy?_primary]
      -- Each key is written once, so its copy is as it was before that write and stays as written after.
      rcases List.mem_cons.1 hmem with rfl | hlater
      · refine ⟨[], commitTrace now rest _, rfl, rfl, ?_⟩
        rw [commitTrace, follow_cons, stored?_commitTrace_of_not_mem now rest, hinstall,
          if_pos ReflCmp.compare_self]
        · rfl
        · exact fun p hp heq => hhead p hp (OrientedCmp.eq_symm heq)
      · obtain ⟨other, binding⟩ := head
        have hlayout := sameLayout_change c (c.installTrace other binding.outcome now)
        obtain ⟨pre, post, hsplit, hsame, hstored⟩ :=
          ih (by rw [hlayout.affinity, hlayout.size]; exact hprimary) hrest hlater
        refine ⟨_ :: pre, post, by rw [commitTrace, hsplit]; rfl, ?_, ?_⟩
        · rw [follow_cons, hsame, hinstall, if_neg (hhead _ hlater)]
        · rw [commitTrace, follow_cons, hstored]
          rfl

/-- After a commit, what is visible of a key is what was staged for it if that changed anything, and
what was visible before if not. -/
theorem live?_commit {c d : Cluster κ V} (horderly : c.Orderly) {tx : Transaction κ V} {now : Millis}
    (hcommit : c.commit tx now = .ok d) {key : κ} {b : Binding V} (hb : tx.bindings[key]? = some b) :
    (d.live? key now).map (·.content) =
      if b.dirty then
        (b.outcome.map fun pair => (pair.1, pair.2.resolve ((c.stored? key).map (·.ttl)) now)).filter
          fun pair => !pair.2.expiredAt now
      else (c.live? key now).map (·.content) := by
  obtain ⟨-, rfl⟩ := commit_ok hcommit
  split
  next hdirty =>
    obtain ⟨pre, post, -, hsame, hstored⟩ := stored?_commitTrace_of_mem now _
      (horderly.primary_lt key) tx.bindings.distinct_dirty
      ((tx.bindings.mem_dirty_iff key b).2 ⟨hb, hdirty⟩)
    rw [live?_content, hstored, installed, hsame, Option.map_map]
    rfl
  next hclean =>
    rw [live?, live?, stored?_commitTrace_of_not_mem now]
    rintro ⟨other, binding⟩ hmem heq
    obtain rfl : other = key := by simpa using heq
    obtain ⟨hbinding, hdirty⟩ := (tx.bindings.mem_dirty_iff other binding).1 hmem
    cases hbinding.symm.trans hb
    exact hclean hdirty

/-- For a key whose primary copy is live and as it was found, the commit makes visible what its touches
have come to. -/
theorem live?_commit_eq_committed {c d : Cluster κ V} (horderly : c.Orderly) (hplain : c.Plain)
    {tx : Transaction κ V} {now : Millis} (hcommit : c.commit tx now = .ok d) {key : κ}
    {touches : List (Staging V)}
    (htouches : ∀ t ∈ touches, t.now ≤ now ∧ t.Fits now)
    (hb : tx.bindings[key]? = some (touches.foldl Binding.record (.ofEntry (c.live? key now)))) :
    (d.live? key now).map (·.content) =
      (touches.foldl Binding.record (.ofEntry (c.live? key now))).committed now := by
  have hvisible := hplain.visible key now
  rw [live?_commit horderly hcommit hb]
  split
  next =>
    have hcurrent : ∀ ttl, (Binding.ofEntry (c.live? key now)).staged.map (·.2) = some ttl →
        (c.stored? key).map (·.ttl) = some ttl := by
      intro ttl hfound
      obtain ⟨pair, hpair, rfl⟩ := Option.map_eq_some_iff.1 hfound
      obtain ⟨entry, hentry, rfl⟩ := Option.map_eq_some_iff.1 hpair
      rw [stored?_of_live? hentry]
      rfl
    rw [Binding.resolve_eq_committed hvisible rfl htouches hcurrent]
    cases hcommitted : (touches.foldl Binding.record (.ofEntry (c.live? key now))).committed now with
    | none => rfl
    | some pair =>
        have hlive := Binding.live_of_committed hvisible rfl htouches hcommitted
        rw [Option.filter_some_pos (by simp [hlive])]
  next hclean =>
    rw [Binding.foldl_record_of_clean touches (by simpa using hclean)]
    cases c.live? key now <;> rfl

end Cluster

/-! ## Transactions in the course of a run -/

/-- Whether the move opens or ends a transaction under the number. -/
def Move.Ends {κ : Type u} {V : Type v} (tx : Nat) : Move κ V → Prop
  | begin n _ _ | commit n | rollback n => n = tx
  | call .. | stage .. | sweep _ | deliver _ | setClock _ => False

namespace System

variable {κ : Type u} {V : Type v} [Ord κ] [TransOrd κ] [Hashable κ]
variable [DecidableEq V] [Append V] [Inhabited V]

omit [Hashable κ] [DecidableEq V] in
/-- The touches of a key that a move stages for a transaction. -/
def staged (tx : Nat) (key : κ) (s : System κ V) : Move κ V → List (Staging V)
  | .stage n scope operation =>
    if n = tx then
      match s.transactions[n]? with
      | none => []
      | some opened =>
        Transaction.stagings operation.touches (.effective opened.policy scope) s.clock
          (s.cluster.live? key s.clock) key
    else []
  | _ => []

/-- The touches of a key that a run stages for a transaction, in order. -/
def stagings (tx : Nat) (key : κ) : List (Move κ V) → System κ V → List (Staging V)
  | [], _ => []
  | move :: rest, s => s.staged tx key move ++ stagings tx key rest (s.step move).1

theorem stagings_append (tx : Nat) (key : κ) (pre post : List (Move κ V)) (s : System κ V) :
    stagings tx key (pre ++ post) s = stagings tx key pre s ++ stagings tx key post (run pre s).1 := by
  induction pre generalizing s with
  | nil => rfl
  | cons move rest ih => rw [List.cons_append, stagings, ih, stagings, run, List.append_assoc]

omit [Hashable κ] [DecidableEq V] in
theorem found_of_staged {tx : Nat} {key : κ} {s : System κ V} {move : Move κ V} {t : Staging V}
    (h : t ∈ s.staged tx key move) :
    t.now = s.clock ∧ t.found = s.cluster.live? key s.clock := by
  unfold staged at h
  split at h
  next =>
    split at h
    · split at h
      · cases h
      · obtain ⟨touch, -, rfl⟩ := List.mem_map.1 h
        exact ⟨rfl, rfl⟩
    · cases h
  next => cases h

/-- Each touch looks at the primary at some point of the run. -/
theorem found_of_stagings {tx : Nat} {key : κ} {moves : List (Move κ V)} {s : System κ V}
    {t : Staging V} (h : t ∈ stagings tx key moves s) :
    ∃ pre post, moves = pre ++ post ∧ t.now = (run pre s).1.clock ∧
      t.found = (run pre s).1.cluster.live? key (run pre s).1.clock := by
  induction moves generalizing s with
  | nil => cases h
  | cons move rest ih =>
      rcases List.mem_append.1 h with h | h
      · exact ⟨[], move :: rest, rfl, found_of_staged h⟩
      · obtain ⟨pre, post, rfl, hfound⟩ := ih h
        exact ⟨move :: pre, post, rfl, hfound⟩

/-- The transaction first touches the key in a move that is made from `r`. -/
def TouchesFirst (tx : Nat) (key : κ) (moves : List (Move κ V)) (s r : System κ V) : Prop :=
  ∃ pre move post, moves = pre ++ move :: post ∧ stagings tx key pre s = [] ∧ (run pre s).1 = r ∧
    r.staged tx key move ≠ []

theorem TouchesFirst.stagings_eq {tx : Nat} {key : κ} {moves : List (Move κ V)} {s r : System κ V}
    (h : TouchesFirst tx key moves s r) :
    ∃ first later, stagings tx key moves s = first :: later ∧ first.now = r.clock ∧
      first.found = r.cluster.live? key r.clock := by
  obtain ⟨pre, move, post, rfl, hbefore, rfl, htouched⟩ := h
  obtain ⟨first, more, hstaged⟩ := List.exists_cons_of_ne_nil htouched
  obtain ⟨hat, hfound⟩ := found_of_staged (hstaged ▸ List.mem_cons_self)
  refine ⟨first, more ++ stagings tx key post ((run pre s).1.step move).1, ?_, hat, hfound⟩
  rw [stagings_append, hbefore, stagings, hstaged]
  rfl

theorem touchesFirst_of_stagings {tx : Nat} {key : κ} {moves : List (Move κ V)} {s : System κ V}
    {first : Staging V} {later : List (Staging V)} (h : stagings tx key moves s = first :: later) :
    ∃ r, TouchesFirst tx key moves s r ∧ first.found = r.cluster.live? key r.clock := by
  induction moves generalizing s with
  | nil => cases h
  | cons move rest ih =>
      rw [stagings] at h
      cases hstaged : s.staged tx key move with
      | nil =>
          rw [hstaged] at h
          obtain ⟨r, ⟨pre, next, post, rfl, hbefore, hr, htouched⟩, hfound⟩ := ih h
          refine ⟨r, ⟨move :: pre, next, post, rfl, ?_, hr, htouched⟩, hfound⟩
          rw [stagings, hstaged, hbefore, List.nil_append]
      | cons touch more =>
          rw [hstaged] at h
          obtain ⟨rfl, -⟩ := List.cons.inj h
          refine ⟨s, ⟨[], move, rest, rfl, rfl, rfl, ?_⟩, ?_⟩
          · rw [hstaged]
            exact List.cons_ne_nil _ _
          · exact (found_of_staged (hstaged ▸ List.mem_cons_self)).2

/-- A binding is what the touches of its key have come to, from what the first of them has found. -/
theorem touchesFirst_of_after {tx : Nat} {key : κ} {moves : List (Move κ V)} {s : System κ V}
    {b : Binding V} (h : Binding.after none (stagings tx key moves s) = some b) :
    ∃ r, TouchesFirst tx key moves s r ∧
      b = (stagings tx key moves s).foldl Binding.record (.ofEntry (r.cluster.live? key r.clock)) := by
  cases htouches : stagings tx key moves s with
  | nil =>
      rw [htouches] at h
      cases h
  | cons first later =>
      obtain ⟨r, hr, hfound⟩ := touchesFirst_of_stagings htouches
      rw [htouches, Binding.after_none, hfound] at h
      exact ⟨r, hr, (Option.some.inj h).symm⟩

variable [LawfulEqOrd κ]

/-- A transaction that stays open records the touches that a move stages for it. -/
theorem bindings_step {s : System κ V} {tx : Nat} {opened : Transaction κ V}
    (h : s.transactions[tx]? = some opened) {move : Move κ V} (hmove : ¬move.Ends tx) :
    ∃ next, (s.step move).1.transactions[tx]? = some next ∧
      ∀ key, next.bindings[key]? = Binding.after opened.bindings[key]? (s.staged tx key move) := by
  have hkeep : ∀ ts : ExtTreeMap Nat (Transaction κ V), ts[tx]? = s.transactions[tx]? →
      ∃ next : Transaction κ V, ts[tx]? = some next ∧
        ∀ key : κ, next.bindings[key]? = Binding.after opened.bindings[key]? [] :=
    fun ts hts => ⟨opened, hts.trans h, fun _ => rfl⟩
  cases move with
  | call node scope operation =>
      simp only [step]
      split <;> exact hkeep _ rfl
  | begin n node scope =>
      have hne : n ≠ tx := hmove
      simp only [step]
      split
      · exact hkeep _ rfl
      · split
        · exact hkeep _ rfl
        · exact hkeep _ (by simp [ExtTreeMap.getElem?_insert, hne])
  | stage n scope operation =>
      simp only [step, staged]
      by_cases hn : n = tx
      · subst hn
        simp only [h, if_true, ExtTreeMap.getElem?_insert_self]
        exact ⟨_, rfl, fun key => opened.after_perform s.cluster scope s.clock operation key⟩
      · simp only [hn, if_false]
        split
        · exact hkeep _ rfl
        · exact hkeep _ (by simp [ExtTreeMap.getElem?_insert, hn])
  | commit n =>
      have hne : n ≠ tx := hmove
      simp only [step]
      split
      · exact hkeep _ rfl
      · split <;> exact hkeep _ (by simp [ExtTreeMap.getElem?_erase, hne])
  | rollback n =>
      have hne : n ≠ tx := hmove
      simp only [step]
      split
      · exact hkeep _ rfl
      · exact hkeep _ (by simp [ExtTreeMap.getElem?_erase, hne])
  | sweep node => exact hkeep _ rfl
  | deliver node => exact hkeep _ rfl
  | setClock now => exact hkeep _ rfl

theorem bindings_run {moves : List (Move κ V)} {s : System κ V} {tx : Nat}
    {opened : Transaction κ V} (h : s.transactions[tx]? = some opened)
    (hmoves : ∀ move ∈ moves, ¬move.Ends tx) :
    ∃ last, (run moves s).1.transactions[tx]? = some last ∧
      ∀ key, last.bindings[key]? = Binding.after opened.bindings[key]? (stagings tx key moves s) := by
  induction moves generalizing s opened with
  | nil => exact ⟨opened, h, fun _ => rfl⟩
  | cons move rest ih =>
      obtain ⟨next, hnext, hbindings⟩ := bindings_step h (hmoves move List.mem_cons_self)
      obtain ⟨last, hlast, hrest⟩ := ih hnext fun m hm => hmoves m (List.mem_cons_of_mem move hm)
      refine ⟨last, hlast, fun key => ?_⟩
      rw [hrest, hbindings, stagings, Binding.after_append]

omit [LawfulEqOrd κ] in
theorem begin_done {s u : System κ V} {tx node : Nat} {scope : Option Policy}
    (h : s.step (.begin tx node scope) = (u, .done)) :
    ∃ opened, u.transactions[tx]? = some opened ∧ opened.bindings = ∅ := by
  simp only [step] at h
  split at h
  · cases h
  · split at h
    · cases h
    next opened hopened =>
      cases h
      exact ⟨opened, ExtTreeMap.getElem?_insert_self, Transaction.bindings_begin hopened⟩

omit [LawfulEqOrd κ] in
/-- A transaction can be opened through any node of a transactional cluster. -/
theorem step_begin {s : System κ V} {node : Nat} (hnode : node < s.cluster.nodes.length)
    (hconfig : s.cluster.config.atomicity = .transactional) (tx : Nat) (scope : Option Policy) :
    s.step (.begin tx node scope) = ((s.step (.begin tx node scope)).1, .done) := by
  refine Prod.ext rfl ?_
  simp only [step, Cluster.call, hnode, if_true, Transaction.begin, hconfig]

omit [LawfulEqOrd κ] in
theorem commit_done {s u : System κ V} {tx : Nat} {opened : Transaction κ V}
    (hopened : s.transactions[tx]? = some opened) (h : s.step (.commit tx) = (u, .done)) :
    s.cluster.commit opened s.clock = .ok u.cluster ∧ u.clock = s.clock := by
  simp only [step, hopened] at h
  split at h
  · cases h
  next hcommit =>
    cases h
    exact ⟨hcommit, rfl⟩

section Outcome

variable {s : System κ V} {tx : Nat} {opened : Transaction κ V}

omit [LawfulEqOrd κ] in
theorem step_commit_of_none (h : s.transactions[tx]? = some opened)
    (hnone : s.cluster.conflict? opened s.clock = none) :
    ∃ d, s.cluster.commit opened s.clock = .ok d ∧
      (s.step (.commit tx)).1.cluster = d ∧ (s.step (.commit tx)).2 = .done := by
  cases hcommit : s.cluster.commit opened s.clock with
  | error key =>
      unfold Cluster.commit at hcommit
      rw [hnone] at hcommit
      cases hcommit
  | ok d => exact ⟨d, rfl, by simp only [step, h, hcommit], by simp only [step, h, hcommit]⟩

omit [LawfulEqOrd κ] in
theorem step_commit_of_some {key : κ} (h : s.transactions[tx]? = some opened)
    (hsome : s.cluster.conflict? opened s.clock = some key) :
    (s.step (.commit tx)).1.cluster = s.cluster ∧ (s.step (.commit tx)).2 = .conflict key := by
  have hcommit : s.cluster.commit opened s.clock = .error key := by
    unfold Cluster.commit
    rw [hsome]
  exact ⟨by simp only [step, h, hcommit], by simp only [step, h, hcommit]⟩

omit [LawfulEqOrd κ] in
theorem commit_done_iff (h : s.transactions[tx]? = some opened) :
    (s.step (.commit tx)).2 = .done ↔ s.cluster.conflict? opened s.clock = none := by
  cases hconflict : s.cluster.conflict? opened s.clock with
  | none =>
      obtain ⟨d, -, -, hdone⟩ := step_commit_of_none h hconflict
      simp [hdone]
  | some key =>
      rw [(step_commit_of_some h hconflict).2]
      simp

omit [LawfulEqOrd κ] in
theorem commit_conflict_iff {key : κ} (h : s.transactions[tx]? = some opened) :
    (s.step (.commit tx)).2 = .conflict key ↔ s.cluster.conflict? opened s.clock = some key := by
  cases hconflict : s.cluster.conflict? opened s.clock with
  | none =>
      obtain ⟨d, -, -, hdone⟩ := step_commit_of_none h hconflict
      simp [hdone]
  | some first =>
      rw [(step_commit_of_some h hconflict).2]
      simp

omit [LawfulEqOrd κ] in
/-- What a commit needs to succeed, as one equation. -/
theorem commit_done_iff_map :
    (s.step (.commit tx)).2 = .done ↔
      s.transactions[tx]?.map (s.cluster.conflict? · s.clock) = some none := by
  cases h : s.transactions[tx]? with
  | none => simp [step, h]
  | some opened => simp [commit_done_iff h]

end Outcome

/-- In the course of a run a transaction is opened, which leads to `s`, and after `moves` more it is
still open in `t`. -/
structure Transacts (s₀ : System κ V) (history : List (Move κ V)) (tx : Nat)
    (moves : List (Move κ V)) (s t : System κ V) : Prop where
  opened : ∃ before node scope, history = before ++ .begin tx node scope :: moves ∧
    (run before s₀).1.step (.begin tx node scope) = (s, .done)
  stays : ∀ move ∈ moves, ¬move.Ends tx
  ends : (run moves s).1 = t

namespace Transacts

variable {s₀ s t : System κ V} {history moves : List (Move κ V)} {tx : Nat}

omit [LawfulEqOrd κ] in
/-- The states of the run from where the transaction is opened are those of the whole run. -/
theorem run_prefix (h : Transacts s₀ history tx moves s t) {pre post : List (Move κ V)}
    (hmoves : moves = pre ++ post) :
    ∃ before, history = before ++ post ∧ (run before s₀).1 = (run pre s).1 := by
  obtain ⟨before, node, scope, rfl, hbegin⟩ := h.opened
  refine ⟨before ++ .begin tx node scope :: pre, by rw [hmoves]; simp, ?_⟩
  rw [run_append]
  simp only [run, hbegin]

omit [LawfulEqOrd κ] in
theorem run_history (h : Transacts s₀ history tx moves s t) : (run history s₀).1 = t := by
  obtain ⟨before, hhistory, hrun⟩ := h.run_prefix (List.append_nil moves).symm
  rw [hhistory, List.append_nil, hrun, h.ends]

/-- Of each key the transaction holds what its touches have come to. -/
theorem bindings (h : Transacts s₀ history tx moves s t) :
    ∃ opened, t.transactions[tx]? = some opened ∧
      ∀ key, opened.bindings[key]? = Binding.after none (stagings tx key moves s) := by
  obtain ⟨before, node, scope, -, hbegin⟩ := h.opened
  obtain ⟨empty, htx, hempty⟩ := begin_done hbegin
  obtain ⟨opened, hopened, hbindings⟩ := bindings_run htx h.stays
  refine ⟨opened, h.ends ▸ hopened, fun key => ?_⟩
  rw [hbindings, hempty, ExtTreeMap.getElem?_empty]

/-- While versions last, a key has the live copy that the transaction has found at its first touch as
soon as it has its version. -/
theorem live?_of_version {config : CacheConfig} {nodes : Nat} {affinity : Affinity κ}
    {c₀ : Cluster κ V} (hstart : Cluster.start config nodes affinity = .ok c₀)
    (hlawful : affinity.Lawful) {now : Millis}
    (h : Transacts { cluster := c₀, clock := now } history tx moves s t)
    (hdrawn : drawn history { cluster := c₀, clock := now } < 2 ^ 64) {key : κ} {r : System κ V}
    (hr : TouchesFirst tx key moves s r)
    (hversion : (t.cluster.live? key t.clock).map (·.version) =
      (r.cluster.live? key r.clock).map (·.version)) :
    t.cluster.live? key t.clock = r.cluster.live? key r.clock := by
  obtain ⟨pre, move, post, hmoves, -, hpre, -⟩ := hr
  obtain ⟨before, hhistory, hbefore⟩ := h.run_prefix hmoves
  rw [hhistory, drawn_append, hbefore, hpre] at hdrawn
  refine System.live?_of_version hstart hlawful now before (move :: post) (hbefore.trans hpre) ?_ hdrawn
    hversion
  rw [← hpre, ← run_append, ← hmoves, h.ends]

end Transacts

omit [LawfulEqOrd κ] in
/-- The clock shows no less at the end of a run than at any point of it, if it never goes back. -/
theorem clock_le_of_forward {pre post : List (Move κ V)} {s : System κ V}
    (h : Forward s.clock (pre ++ post)) :
    (run pre s).1.clock ≤ (run (pre ++ post) s).1.clock := by
  induction pre generalizing s with
  | nil => exact le_clock_of_forward h List.mem_cons_self
  | cons move rest ih => exact ih (forward_step h).2

/-- A commit against the same touches made at once. Take a transaction that commits, with a clock that
has never gone back since it was opened, and a key that it has touched. Let the live copy of the key
on the primary be the one that was found at the first touch, by itself or, while versions last, by its
version. After the commit the key has the value that its touches give when they are made at the
commit, one after the other. It has their lifetime exactly if no restart of the lifetime was lost; in
particular, the last duration that was given counts from the commit exactly then. -/
theorem commit_eq_direct_iff {config : CacheConfig} {nodes : Nat} {affinity : Affinity κ}
    {c₀ : Cluster κ V} (hstart : Cluster.start config nodes affinity = .ok c₀)
    (hlawful : affinity.Lawful) (now : Millis) (before moves : List (Move κ V)) {tx node : Nat}
    {scope : Option Policy} {s t u : System κ V}
    (hbegin : (run before { cluster := c₀, clock := now }).1.step (.begin tx node scope) = (s, .done))
    (hopen : ∀ move ∈ moves, ¬move.Ends tx) (hforward : Forward s.clock moves)
    (hrun : (run moves s).1 = t) (hcommit : t.step (.commit tx) = (u, .done)) {key : κ}
    {first : Staging V} {later : List (Staging V)}
    (htouches : stagings tx key moves s = first :: later)
    (hfits : ∀ touch ∈ first :: later, touch.Fits t.clock)
    (hsame : t.cluster.live? key t.clock = first.found ∨
      (t.cluster.live? key t.clock).map (·.version) = first.found.map (·.version) ∧
        drawn (before ++ .begin tx node scope :: moves) { cluster := c₀, clock := now } < 2 ^ 64) :
    let live := (t.cluster.live? key t.clock).map (·.content)
    let direct := (first :: later).foldl (Staging.direct t.clock) live
    let committed := (u.cluster.live? key u.clock).map (·.content)
    let lost := (Binding.ofEntry first.found).LosesRestart t.clock (first :: later)
    committed.map (·.1) = direct.map (·.1) ∧ (committed = direct ↔ ¬lost) ∧
      ∀ pre touch post span, first :: later = pre ++ touch :: post →
        touch.duration? (pre.foldl (Staging.direct t.clock) live) = some (.millis span) → span ≠ 0 →
        Staging.Keeps t.clock post (touch.direct t.clock (pre.foldl (Staging.direct t.clock) live)) →
        (committed.map (·.2) = some (.lasting span t.clock) ↔ ¬lost) := by
  have htransacts : Transacts { cluster := c₀, clock := now } _ tx moves s t :=
    ⟨⟨before, node, scope, rfl, hbegin⟩, hopen, hrun⟩
  obtain ⟨last, hlast, hbindings⟩ := htransacts.bindings
  obtain ⟨hcommitted, hclock⟩ := commit_done hlast hcommit
  have horderly : t.cluster.Orderly := htransacts.run_history ▸ orderly_run hstart hlawful now _
  have hplain : t.cluster.Plain := by
    rw [← htransacts.run_history]
    exact plain_run _ (Cluster.plain_start hstart)
      (Cluster.orderly_start hstart hlawful)
  obtain ⟨r, hr, hfirst⟩ := touchesFirst_of_stagings htouches
  have hfound : t.cluster.live? key t.clock = first.found := by
    rw [hfirst] at hsame ⊢
    exact hsame.elim id fun h => htransacts.live?_of_version hstart hlawful h.2 hr h.1
  -- Every touch was made at an earlier reading of the clock, which has not gone back since.
  have hnow : ∀ touch ∈ first :: later, touch.now ≤ t.clock ∧ touch.Fits t.clock := by
    intro touch htouch
    refine ⟨?_, hfits touch htouch⟩
    obtain ⟨pre, post, rfl, hat, -⟩ := found_of_stagings (htouches ▸ htouch)
    rw [hat, ← hrun]
    exact clock_le_of_forward hforward
  have hbound : last.bindings[key]? = some ((first :: later).foldl Binding.record
      (.ofEntry (t.cluster.live? key t.clock))) := by
    rw [hbindings, htouches, Binding.after_none, hfound]
  have hvisible := hplain.visible key t.clock
  have hresult := Cluster.live?_commit_eq_committed horderly hplain hcommitted hnow hbound
  have hagree := Binding.committed_eq_direct_iff
    (b := .ofEntry (t.cluster.live? key t.clock)) hvisible rfl hnow
  rw [← hfound, hclock]
  intro live direct committed lost
  change committed = _ at hresult
  rw [← hresult] at hagree
  refine ⟨hagree.1, hagree.2, ?_⟩
  intro pre touch post span hsplit hduration hspan hkeeps
  have hlast : direct.map (·.2) = some (.lasting span t.clock) := by
    change ((first :: later).foldl (Staging.direct t.clock) live).map (·.2) = _
    rw [hsplit]
    exact Staging.ttl_of_last_duration hduration hspan hkeeps
  rw [← hlast, ← hagree.2]
  exact Staging.ttl_eq_iff hagree.1

/-- An entry is stored to live for 100 milliseconds. -/
def storing : List (Move Nat (List Nat)) :=
  [.call 0 (some (.custom (.created (.millis 100)))) (.put 0 [7])]

/-- The entry is read at once, to live for another 100 milliseconds. Then the clock goes on. -/
def readAtOnce : List (Move Nat (List Nat)) :=
  [.stage 1 (some (.custom { access := some (.millis 100) })) (.get 0), .setClock 10]

/-- The entry is read a little later. -/
def readLater : List (Move Nat (List Nat)) :=
  .setClock 5 :: readAtOnce

/-- Read a little later than it was stored, the entry lives for 100 milliseconds from the commit. -/
theorem commit_eq_direct_iff_readLater :
    ∃ (c₀ : Cluster Nat (List Nat)) (s t u : System Nat (List Nat)) (first : Staging (List Nat)),
      Cluster.start { atomicity := .transactional } 3 trio = .ok c₀ ∧
      (run storing { cluster := c₀ }).1.step (.begin 1 0 none) = (s, .done) ∧
      (∀ move ∈ readLater, ¬move.Ends 1) ∧ Forward s.clock readLater ∧
      (run readLater s).1 = t ∧ t.step (.commit 1) = (u, .done) ∧
      stagings 1 0 readLater s = [first] ∧ first.Fits t.clock ∧
      t.cluster.live? 0 t.clock = first.found ∧
      (u.cluster.live? 0 u.clock).map (·.content) = some ([7], .lasting 100 10) := by
  let c₀ : Cluster Nat (List Nat) :=
    { config := { atomicity := .transactional }, affinity := trio, nodes := .empty 3 true }
  let s := ((run storing { cluster := c₀ }).1.step (.begin 1 0 none)).1
  let t := (run readLater s).1
  let u := (t.step (.commit 1)).1
  let first : Staging (List Nat) :=
    { policy := .custom { access := some (.millis 100) }, now := 5, intent := Decision.get.intent,
      found := some { value := [7], version := 1, ttl := .lasting 100 0 } }
  have hstart : Cluster.start { atomicity := .transactional } 3 trio = .ok c₀ := rfl
  have hbegin : (run storing { cluster := c₀ }).1.step (.begin 1 0 none) = (s, .done) :=
    step_begin (by decide +kernel) (by decide +kernel) 1 none
  have hopen : ∀ move ∈ readLater, ¬move.Ends 1 := by simp [readLater, readAtOnce, Move.Ends]
  have hforward : Forward s.clock readLater := by decide
  have hrun : (run readLater s).1 = t := rfl
  have hdone : (t.step (.commit 1)).2 = .done := commit_done_iff_map.2 (by decide +kernel)
  have hcommit : t.step (.commit 1) = (u, .done) := by rw [← hdone]
  obtain ⟨opened, hopened, -⟩ := begin_done hbegin
  have hlive : s.cluster.live? 0 5 = first.found := by decide +kernel
  have htouches : stagings 1 0 readLater s = [first] := by
    simp [readLater, readAtOnce, stagings, staged, step, hopened, hlive, Transaction.stagings,
      Transaction.Operation.touches, first]
  have hclock : t.clock = 10 := rfl
  have hfits : first.Fits t.clock := by
    intro kind span h
    cases kind <;> cases h
    decide +kernel
  have hfound : t.cluster.live? 0 t.clock = first.found := by decide +kernel
  have hrestarted : ¬(Binding.ofEntry first.found).LosesRestart t.clock [first] := by
    intro hlost
    cases hlost.kept
  obtain ⟨-, hequal, -⟩ := commit_eq_direct_iff hstart lawful_trio 0 storing readLater hbegin hopen
    hforward hrun hcommit htouches (by simpa using hfits) (.inl hfound)
  refine ⟨c₀, s, t, u, first, hstart, hbegin, hopen, hforward, hrun, hcommit, htouches, hfits, hfound, ?_⟩
  rw [hequal.2 hrestarted, hfound, hclock]
  rfl

/-- Read at the reading of the clock at which it was stored, the entry does not live for 100 milliseconds
from the commit. -/
theorem commit_loses_restart :
    ∃ (c₀ : Cluster Nat (List Nat)) (s t u : System Nat (List Nat)) (first : Staging (List Nat)),
      Cluster.start { atomicity := .transactional } 3 trio = .ok c₀ ∧ trio.Lawful ∧
      (run storing { cluster := c₀ }).1.step (.begin 1 0 none) = (s, .done) ∧
      (∀ move ∈ readAtOnce, ¬move.Ends 1) ∧ Forward s.clock readAtOnce ∧
      (run readAtOnce s).1 = t ∧ t.step (.commit 1) = (u, .done) ∧
      stagings 1 0 readAtOnce s = [first] ∧ first.Fits t.clock ∧
      t.cluster.live? 0 t.clock = first.found ∧
      [first].foldl (Staging.direct t.clock) ((t.cluster.live? 0 t.clock).map (·.content)) =
        some ([7], .lasting 100 10) ∧
      (u.cluster.live? 0 u.clock).map (·.content) = some ([7], .lasting 100 0) ∧
      Ttl.lasting 100 0 ≠ Ttl.lasting 100 10 := by
  let c₀ : Cluster Nat (List Nat) :=
    { config := { atomicity := .transactional }, affinity := trio, nodes := .empty 3 true }
  let s := ((run storing { cluster := c₀ }).1.step (.begin 1 0 none)).1
  let t := (run readAtOnce s).1
  let u := (t.step (.commit 1)).1
  let first : Staging (List Nat) :=
    { policy := .custom { access := some (.millis 100) }, now := 0, intent := Decision.get.intent,
      found := some { value := [7], version := 1, ttl := .lasting 100 0 } }
  have hfits : first.Fits t.clock := by
    intro kind span h
    cases kind <;> cases h
    decide +kernel
  have hbegin : (run storing { cluster := c₀ }).1.step (.begin 1 0 none) = (s, .done) :=
    step_begin (by decide +kernel) (by decide +kernel) 1 none
  have hrun : (run readAtOnce s).1 = t := rfl
  have hdone : (t.step (.commit 1)).2 = .done := commit_done_iff_map.2 (by decide +kernel)
  have hcommit : t.step (.commit 1) = (u, .done) := by rw [← hdone]
  obtain ⟨opened, hopened, -⟩ := begin_done hbegin
  have hclock : s.clock = 0 := rfl
  have hlive : s.cluster.live? 0 0 = first.found := by decide +kernel
  have htouches : stagings 1 0 readAtOnce s = [first] := by
    simp [readAtOnce, stagings, staged, hopened, hclock, hlive, Transaction.stagings,
      Transaction.Operation.touches, first]
  refine ⟨c₀, s, t, u, first, rfl, lawful_trio, hbegin, ?_, ?_, hrun, hcommit, htouches, hfits,
    ?_, ?_, ?_, ?_⟩
  · simp [readAtOnce, Move.Ends]
  · decide
  · decide +kernel
  · decide +kernel
  · decide +kernel
  · decide

end System

end Ephemera
