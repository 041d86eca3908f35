import Ephemera.Proofs.Atomicity

/-! # Isolation of transactions

A transaction looks at the cluster once for each key. From then on its binding of the key decides what
it sees, and only its own operations change the binding. What other clients do meanwhile is nothing to
it, and a value that it has given a lifetime of its own does not expire before the commit.
-/

namespace Ephemera

open Std

universe u v w w'

/-! ## What a touch does for the transaction that makes it -/

namespace Staging

variable {V : Type v}

/-- The touch takes the value away: it removes the entry, or has it expire at once. -/
def Takes (value : V) (t : Staging V) : Prop :=
  t.intent (some value) = .remove ∨
    ∃ kind d, (t.intent (some value)).touch? true = some kind ∧ t.policy.on kind = some d ∧
      d.isZero = true

/-- The touch leaves the key with the value under a lifetime that starts at the commit. That is what
comes of every creation that does not expire at once, of an update for which the policy has a duration,
and of a read that gives the entry another lifetime than it has. -/
inductive Restarts (t : Staging V) : Option (V × Ttl) → V → Prop where
  | create {value : V} (hintent : t.intent none = .write value)
      (hzero : ∀ d, t.policy.on .create = some d → d.isZero = false) : Restarts t none value
  | update {old value : V} {ttl : Ttl} {d : Duration} (hintent : t.intent (some old) = .write value)
      (hpolicy : t.policy.on .update = some d) (hzero : d.isZero = false) :
      Restarts t (some (old, ttl)) value
  | access {value : V} {ttl : Ttl} {d : Duration} (hintent : t.intent (some value) = .read)
      (hpolicy : t.policy.on .access = some d) (hzero : d.isZero = false)
      (hother : .lasting d.span t.now ≠ ttl) : Restarts t (some (value, ttl)) value

/-- The value after a touch that does not take it away. -/
def written (value : V) (t : Staging V) : V :=
  match t.intent (some value) with
  | .write next => next
  | .read | .remove | .ignore => value

/-- None of the touches takes the value away. -/
def Stays : V → List (Staging V) → Prop
  | _, [] => True
  | value, t :: rest => ¬t.Takes value ∧ Stays (t.written value) rest

/-- What the transaction sees of the key at a touch that comes after earlier ones. -/
def seen (earlier : List (Staging V)) (t : Staging V) : Option (V × Ttl) :=
  ((Binding.after none earlier).getD (.ofEntry t.found)).live t.now

end Staging

namespace Binding

variable {V : Type v} {b : Binding V} {t : Staging V}

theorem after_eq_none {b : Option (Binding V)} {touches : List (Staging V)} :
    after b touches = none ↔ b = none ∧ touches = [] := by
  cases touches with
  | nil => simp [after]
  | cons t rest =>
      have hsome : after b (t :: rest) = some _ :=
        after_some ((b.getD (.ofEntry t.found)).record t) rest
      simp [hsome]

/-- The value is staged under a lifetime that starts at the commit. -/
def Restarted (b : Binding V) (value : V) : Prop :=
  ∃ ttl span, b.staged = some (value, ttl) ∧ b.commitTtl = .restart span

/-- Such a value is seen at any time. -/
theorem Restarted.live {value : V} (h : b.Restarted value) (now : Millis) :
    (b.live now).map (·.1) = some value := by
  obtain ⟨ttl, span, hstaged, hcommit⟩ := h
  simp [Binding.live, hstaged, hcommit]

/-- What is planned and kept under a duration, or for a new entry, gets a lifetime of its own. -/
theorem restarted_stage {value : V} {ttl : Ttl} {kind : Touch} {policy : Policy}
    (h : kind = .create ∨ (policy.on kind).isSome ∨ ∃ span, b.commitTtl = .restart span) :
    (b.stage (.put value ttl kind) policy).Restarted value := by
  cases hpolicy : policy.on kind with
  | some duration =>
      exact ⟨ttl, duration.span, rfl, by simp [stage, CommitTtl.ofTouch_some hpolicy]⟩
  | none =>
      rcases h with rfl | hsome | ⟨span, hspan⟩
      · exact ⟨ttl, 0, rfl, by simp [stage, CommitTtl.ofTouch, hpolicy]⟩
      · rw [hpolicy] at hsome
        cases hsome
      · cases kind with
        | create => exact ⟨ttl, 0, rfl, by simp [stage, CommitTtl.ofTouch, hpolicy]⟩
        | update | access =>
            exact ⟨ttl, span, rfl, by simp [stage, CommitTtl.ofTouch, hpolicy, hspan]⟩

theorem restarted_record {value : V} (h : t.Restarts (b.live t.now) value) :
    (b.record t).Restarted value := by
  unfold record
  generalize b.live t.now = live at h ⊢
  cases h with
  | create hintent hzero =>
      simp only [Option.map_none, hintent, plan]
      cases hpolicy : t.policy.on .create with
      | none => exact restarted_stage (.inl rfl)
      | some duration =>
          simp only [Ttl.touch_some, hzero duration hpolicy, Bool.false_eq_true, if_false]
          exact restarted_stage (.inl rfl)
  | update hintent hpolicy hzero =>
      simp only [Option.map_some, hintent, plan, hpolicy, Ttl.touch_some, hzero, Bool.false_eq_true,
        if_false]
      exact restarted_stage (.inr (.inl (by simp [hpolicy])))
  | access hintent hpolicy hzero hother =>
      simp only [Option.map_some, hintent, plan, hpolicy, Ttl.touch_some, hzero, Bool.false_eq_true,
        if_false, hother]
      exact restarted_stage (.inr (.inl (by simp [hpolicy])))

/-- A touch that takes away a value that is seen leaves nothing staged. -/
theorem staged_record_of_takes {value : V} {ttl : Ttl} (hlive : b.live t.now = some (value, ttl))
    (h : t.Takes value) : (b.record t).staged = none := by
  unfold record
  simp only [hlive, Option.map_some]
  rcases h with hremove | ⟨kind, duration, hkind, hpolicy, hzero⟩
  · simp only [hremove, plan, stage]
  · cases hintent : t.intent (some value) with
    | write next =>
        rw [hintent] at hkind
        cases hkind
        have hupdate : t.policy.on .update = some duration := hpolicy
        simp only [plan, hupdate, Ttl.touch_some, hzero, if_true, stage]
    | read =>
        rw [hintent] at hkind
        cases hkind
        simp only [plan, hpolicy, Ttl.touch_some, hzero, if_true, stage]
    | remove | ignore =>
        rw [hintent] at hkind
        cases hkind

/-- A touch that does not take the value away leaves it, or the value that it writes, under a lifetime
that starts at the commit. -/
theorem Restarted.record {value : V} (h : b.Restarted value) (ht : ¬t.Takes value) :
    (b.record t).Restarted (t.written value) := by
  obtain ⟨ttl, hlive⟩ : ∃ ttl, b.live t.now = some (value, ttl) := by
    obtain ⟨⟨_, ttl⟩, hlive, rfl⟩ := Option.map_eq_some_iff.1 (h.live t.now)
    exact ⟨ttl, hlive⟩
  obtain ⟨span, hspan⟩ : ∃ span, b.commitTtl = .restart span := by
    obtain ⟨-, span, -, hcommit⟩ := h
    exact ⟨span, hcommit⟩
  -- A duration of zero would take the value away.
  have htouch : ∀ kind, (t.intent (some value)).touch? true = some kind → kind ≠ .create →
      ∃ next, ttl.touch kind (t.policy.on kind) t.now = .retain next := by
    intro kind hkind hne
    cases hpolicy : t.policy.on kind with
    | none =>
        cases kind with
        | create => exact absurd rfl hne
        | update | access => exact ⟨_, rfl⟩
    | some duration =>
        have hzero : ¬duration.isZero = true := fun hzero =>
          ht (.inr ⟨kind, duration, hkind, hpolicy, hzero⟩)
        exact ⟨_, by rw [Ttl.touch_some, if_neg hzero]⟩
  unfold Binding.record Staging.written
  simp only [hlive, Option.map_some]
  cases hintent : t.intent (some value) with
  | write next =>
      rw [hintent] at htouch
      obtain ⟨kept, hkept⟩ := htouch .update rfl (by simp)
      simp only [plan, hkept]
      exact restarted_stage (.inr (.inr ⟨span, hspan⟩))
  | read =>
      rw [hintent] at htouch
      obtain ⟨kept, hkept⟩ := htouch .access rfl (by simp)
      simp only [plan, hkept]
      split
      · exact h
      · exact restarted_stage (.inr (.inr ⟨span, hspan⟩))
  | remove => exact absurd (.inl hintent) ht
  | ignore => exact h

theorem Restarted.foldl {value : V} {touches : List (Staging V)} (h : b.Restarted value)
    (hstays : Staging.Stays value touches) :
    (touches.foldl Binding.record b).Restarted (touches.foldl Staging.written value) := by
  induction touches generalizing b value with
  | nil => exact h
  | cons t rest ih => exact ih (h.record hstays.1) hstays.2

theorem live_of_none (h : b.staged = none) (now : Millis) : b.live now = none := by
  unfold Binding.live
  rw [h]
  cases b.commitTtl <;> rfl

/-- A touch that writes nothing leaves an absent key alone. -/
theorem record_of_none (h : b.staged = none) (ht : ∀ value, t.intent none ≠ .write value) :
    b.record t = b := by
  have hplan : plan none (t.intent none) t.policy t.now = .unchanged := by
    cases hintent : t.intent none with
    | write value => exact absurd hintent (ht value)
    | read | remove | ignore => rfl
  unfold Binding.record
  simp only [live_of_none h, Option.map_none, hplan, stage]

theorem staged_foldl_of_none {touches : List (Staging V)} (h : b.staged = none)
    (htouches : ∀ t ∈ touches, ∀ value, t.intent none ≠ .write value) :
    (touches.foldl Binding.record b).staged = none := by
  refine List.foldlRecOn (motive := fun b => b.staged = none) touches Binding.record h ?_
  intro b hb t ht
  rw [record_of_none hb (htouches t ht)]
  exact hb

/-- The binding but for the version that it is checked against at the commit. -/
def unversioned (b : Binding V) : Binding V := { b with base := none }

theorem record_unversioned (b : Binding V) (t : Staging V) :
    (b.record t).unversioned = b.unversioned.record t := by
  have hlive : b.unversioned.live t.now = b.live t.now := rfl
  unfold record
  simp only [hlive]
  generalize plan (b.live t.now) _ t.policy t.now = planned
  cases planned <;> rfl

end Binding

/-! ## Transactions that hold the same -/

namespace Transaction

variable {κ : Type u} {V : Type v} {ρ : Type w} [Ord κ] [TransOrd κ]

/-- Both transactions hold the same of every key, but for the versions that they found. -/
def Alike (tx tx' : Transaction κ V) : Prop :=
  ∀ key : κ, tx.bindings[key]?.map Binding.unversioned = tx'.bindings[key]?.map Binding.unversioned

/-- A touch of the key would find the same value and lifetime on both clusters, if the key is not bound
yet. -/
def FindsSame (tx : Transaction κ V) (c c' : Cluster κ V) (now : Millis) (key : κ) :
    Prop :=
  tx.bindings[key]? = none →
    (c.live? key now).map (·.content) = (c'.live? key now).map (·.content)

/-- Two transactions are left alike, and are given the same. -/
structure AlikeAfter (x x' : Transaction κ V × ρ) : Prop where
  alike : x.1.Alike x'.1
  result : x.2 = x'.2

theorem AlikeAfter.map {α : Type w'} {x x' : Transaction κ V × ρ} (h : AlikeAfter x x') (f : ρ → α) :
    AlikeAfter (x.map id f) (x'.map id f) :=
  ⟨h.alike, congrArg f h.result⟩

variable {tx tx' : Transaction κ V}

theorem Alike.stagedTtl (h : tx.Alike tx') (key : κ) : tx.stagedTtl key = tx'.stagedTtl key := by
  have hbind : ∀ b : Option (Binding V),
      b.bind (·.stagedTtl) = (b.map Binding.unversioned).bind (·.stagedTtl) := by
    intro b
    cases b <;> rfl
  unfold Transaction.stagedTtl
  rw [hbind, h key, ← hbind]

/-- The first touch of a key binds both alike if it finds the same value and lifetime. -/
theorem Alike.touch (h : tx.Alike tx') {key : κ} {found found' : Option (Entry V)}
    (hfound : tx.bindings[key]? = none → found.map (·.content) = found'.map (·.content)) :
    (tx.bindings.touch key found).unversioned = (tx'.bindings.touch key found').unversioned := by
  have hkey := h key
  unfold Bindings.touch
  cases hb : tx.bindings[key]? with
  | some b =>
      obtain ⟨b', hb', hsame⟩ :
          ∃ b', tx'.bindings[key]? = some b' ∧ b'.unversioned = b.unversioned := by
        rw [hb] at hkey
        exact Option.map_eq_some_iff.1 hkey.symm
      rw [hb']
      exact hsame.symm
  | none =>
      have hb' : tx'.bindings[key]? = none := by
        rw [hb] at hkey
        exact Option.map_eq_none_iff.1 hkey.symm
      have hcontent := hfound hb
      rw [hb']
      simp only [Option.getD_none, Binding.ofEntry, Binding.unversioned, hcontent]

variable {c c' : Cluster κ V} {policy : Policy} {now : Millis}

/-- A touch of both gives the same result, and leaves both alike. -/
theorem Alike.stage (h : tx.Alike tx') {key : κ} (decide : Decision V ρ)
    (hfound : tx.FindsSame c c' now key) :
    AlikeAfter (tx.stage c policy now key decide) (tx'.stage c' policy now key decide) := by
  have htouch := h.touch hfound
  have hlive : (tx.bindings.touch key (c.live? key now)).unversioned.live now =
      (tx'.bindings.touch key (c'.live? key now)).unversioned.live now := by
    rw [htouch]
  refine ⟨fun other => ?_, ?_⟩
  · rw [getElem?_stage, getElem?_stage]
    split
    · simp only [Option.map_some, Binding.record_unversioned, htouch]
      rfl
    · exact h other
  · exact congrArg (fun live => (decide (live.map (·.1))).2) hlive

/-- A key that is not bound after a touch was not bound before. -/
theorem not_bound_of_stage {key other : κ} {decide : Decision V ρ}
    (h : (tx.stage c policy now key decide).1.bindings[other]? = none) :
    tx.bindings[other]? = none := by
  rw [getElem?_stage] at h
  split at h
  · cases h
  · exact h

theorem Alike.stageAll {items : List (κ × Decision V ρ)} (h : tx.Alike tx')
    (hfound : ∀ item ∈ items, tx.FindsSame c c' now item.1) :
    AlikeAfter (stageAll c policy now items tx) (stageAll c' policy now items tx') := by
  induction items generalizing tx tx' with
  | nil => exact ⟨h, rfl⟩
  | cons item rest ih =>
      obtain ⟨key, decide⟩ := item
      have hfirst :
          AlikeAfter (tx.stage c policy now key decide) (tx'.stage c' policy now key decide) :=
        h.stage decide (hfound _ List.mem_cons_self)
      obtain ⟨hlast, hresults⟩ := ih hfirst.alike fun later hlater hnone =>
        hfound later (List.mem_cons_of_mem _ hlater) (not_bound_of_stage hnone)
      exact ⟨hlast, congrArg₂ List.cons hfirst.result hresults⟩

variable [Append V] [Inhabited V]

/-- An operation of both gives the same answer, and leaves both alike, if the keys that it touches first
are found with the same value and lifetime. -/
theorem Alike.perform (h : tx.Alike tx') {scope scope' : Option Policy}
    (hpolicy : Policy.effective tx.policy scope = Policy.effective tx'.policy scope')
    (operation : Operation κ V)
    (hfound : ∀ touch ∈ operation.touches, tx.FindsSame c c' now touch.1) :
    AlikeAfter (tx.perform c scope now operation) (tx'.perform c' scope' now operation) := by
  have hone : ∀ touch : κ × (Option V → Intent V), operation.touches = [touch] →
      tx.FindsSame c c' now touch.1 :=
    fun touch htouches => hfound touch (htouches ▸ List.mem_singleton.2 rfl)
  cases operation with
  | get key =>
      simp only [Transaction.perform, hpolicy]
      exact .map (h.stage .get (hone _ rfl)) _
  | put key value =>
      simp only [Transaction.perform, hpolicy]
      exact .map (h.stage (.put value) (hone _ rfl)) _
  | remove key =>
      simp only [Transaction.perform, hpolicy]
      exact .map (h.stage .remove (hone _ rfl)) _
  | invoke key script =>
      simp only [Transaction.perform, hpolicy]
      exact .map (h.stage (.invoke script) (hone _ rfl)) _
  | getAll keys =>
      have hkeys : ∀ key ∈ keys, tx.FindsSame c c' now key :=
        fun key hkey => hfound (key, _) (List.mem_map_of_mem hkey)
      simp only [Transaction.perform, hpolicy]
      exact .map (h.stageAll (List.forall_mem_map.2 hkeys)) _
  | putAll entries =>
      have hentries : ∀ entry ∈ entries, tx.FindsSame c c' now entry.1 :=
        fun entry hentry => hfound (entry.1, _) (List.mem_map_of_mem hentry)
      simp only [Transaction.perform, hpolicy]
      exact .map (h.stageAll (List.forall_mem_map.2 hentries)) _
  | removeAll keys =>
      have hkeys : ∀ key ∈ keys, tx.FindsSame c c' now key :=
        fun key hkey => hfound (key, _) (List.mem_map_of_mem hkey)
      simp only [Transaction.perform, hpolicy]
      exact .map (h.stageAll (List.forall_mem_map.2 hkeys)) _

end Transaction

/-! ## Two runs of one transaction -/

/-- What a transaction asks for: an operation, with the policy in effect and the reading of the clock. -/
structure Attempt (κ : Type u) (V : Type v) where
  policy : Policy
  now : Millis
  operation : Transaction.Operation κ V
  deriving DecidableEq, Repr

namespace System

variable {κ : Type u} {V : Type v} [Ord κ] [TransOrd κ] [Hashable κ]
variable [DecidableEq V] [Append V] [Inhabited V]

omit [TransOrd κ] [Hashable κ] [DecidableEq V] [Append V] [Inhabited V] in
/-- What a transaction asks for with a move, if it is open and the move is its own. -/
def attempt? (tx : Nat) (s : System κ V) : Move κ V → Option (Attempt κ V)
  | .stage n scope operation =>
    if n = tx then
      s.transactions[n]?.map fun opened =>
        { policy := .effective opened.policy scope, now := s.clock, operation }
    else none
  | _ => none

/-- What a transaction asks for in a run, in order, each with what came of it. -/
def dealings (tx : Nat) : List (Move κ V) → System κ V → List (Attempt κ V × Outcome κ V)
  | [], _ => []
  | move :: rest, s =>
    ((s.attempt? tx move).map (·, (s.step move).2)).toList ++ dealings tx rest (s.step move).1

omit [Hashable κ] [DecidableEq V] [Append V] [Inhabited V] in
/-- The lifetime that an open transaction reports for a key. -/
def stagedTtl? (tx : Nat) (key : κ) (s : System κ V) : Option Ttl :=
  s.transactions[tx]?.bind (·.stagedTtl key)

omit [Hashable κ] [DecidableEq V] in
/-- What a move stages is what the transaction asks for with it. -/
theorem staged_eq (tx : Nat) (key : κ) (s : System κ V) (move : Move κ V) :
    s.staged tx key move = (s.attempt? tx move).toList.flatMap fun a =>
      Transaction.stagings a.operation.touches a.policy a.now (s.cluster.live? key s.clock) key := by
  cases move with
  | stage n scope operation =>
      simp only [staged, attempt?]
      split
      · cases s.transactions[n]? with
        | none => rfl
        | some opened => exact (List.append_nil _).symm
      · rfl
  | call | begin | commit | rollback | sweep | deliver | setClock => rfl

/-- What is staged for a key is a touch of it by some operation that the transaction asks for. -/
theorem exists_touch_of_stagings {tx : Nat} {moves : List (Move κ V)} {s : System κ V} {key : κ}
    {t : Staging V} (h : t ∈ stagings tx key moves s) :
    ∃ dealing ∈ dealings tx moves s, ∃ touch ∈ dealing.1.operation.touches,
      compare touch.1 key = .eq := by
  induction moves generalizing s with
  | nil => cases h
  | cons move rest ih =>
      rw [stagings, staged_eq] at h
      rcases List.mem_append.1 h with hfirst | hrest
      · obtain ⟨a, ha, hstaged⟩ := List.mem_flatMap.1 hfirst
        obtain ⟨touch, htouch, -⟩ := List.mem_map.1 hstaged
        obtain ⟨hmem, hkey⟩ := List.mem_filter.1 htouch
        refine ⟨(a, (s.step move).2), List.mem_append_left _ ?_, touch, hmem, by simpa using hkey⟩
        rw [Option.mem_toList.1 ha]
        exact List.mem_singleton.2 rfl
      · obtain ⟨dealing, hdealing, htouch⟩ := ih hrest
        exact ⟨dealing, List.mem_append_right _ hdealing, htouch⟩

theorem stagings_eq_nil {tx : Nat} {moves : List (Move κ V)} {s : System κ V}
    (h : dealings tx moves s = []) (key : κ) : stagings tx key moves s = [] := by
  refine List.eq_nil_iff_forall_not_mem.2 fun t ht => ?_
  obtain ⟨dealing, hdealing, -⟩ := exists_touch_of_stagings ht
  rw [h] at hdealing
  cases hdealing

/-- The first dealing of a run is that of some move, before which there is none. -/
theorem dealings_eq_cons {tx : Nat} {moves : List (Move κ V)} {s : System κ V}
    {a : Attempt κ V} {outcome : Outcome κ V} {rest : List (Attempt κ V × Outcome κ V)}
    (h : dealings tx moves s = (a, outcome) :: rest) :
    ∃ pre move post, moves = pre ++ move :: post ∧ dealings tx pre s = [] ∧
      (run pre s).1.attempt? tx move = some a ∧ ((run pre s).1.step move).2 = outcome ∧
      dealings tx post ((run pre s).1.step move).1 = rest := by
  induction moves generalizing s with
  | nil => cases h
  | cons move later ih =>
      rw [dealings] at h
      cases hattempt : s.attempt? tx move with
      | some b =>
          rw [hattempt] at h
          cases h
          exact ⟨[], move, later, rfl, rfl, hattempt, rfl, rfl⟩
      | none =>
          rw [hattempt] at h
          obtain ⟨pre, next, post, rfl, hidle, hnext⟩ := ih h
          refine ⟨move :: pre, next, post, rfl, ?_, hnext⟩
          rw [dealings, hattempt]
          exact hidle

omit [TransOrd κ] [Hashable κ] [DecidableEq V] [Append V] [Inhabited V] in
theorem attempt?_eq_some {tx : Nat} {s : System κ V} {move : Move κ V} {a : Attempt κ V}
    (h : s.attempt? tx move = some a) :
    ∃ scope opened, move = .stage tx scope a.operation ∧ s.transactions[tx]? = some opened ∧
      a.policy = .effective opened.policy scope ∧ a.now = s.clock := by
  unfold attempt? at h
  split at h
  next n scope operation =>
    split at h
    next heq =>
      obtain ⟨opened, hopened, rfl⟩ := Option.map_eq_some_iff.1 h
      subst heq
      exact ⟨scope, opened, rfl, hopened, rfl, rfl⟩
    next => cases h
  next => cases h

theorem step_stage {tx : Nat} {s : System κ V} {opened : Transaction κ V}
    (h : s.transactions[tx]? = some opened) (scope : Option Policy)
    (operation : Transaction.Operation κ V) :
    s.step (.stage tx scope operation) =
      ({ s with
          transactions :=
            s.transactions.insert tx (opened.perform s.cluster scope s.clock operation).1 },
        .answer (opened.perform s.cluster scope s.clock operation).2) := by
  simp only [step, h]

/-- A first touch is the first one of a longer run if there is none before. -/
theorem TouchesFirst.extend {tx : Nat} {key : κ} {pre post : List (Move κ V)} {move : Move κ V}
    {s r : System κ V} (h : TouchesFirst tx key post ((run pre s).1.step move).1 r)
    (hbefore : stagings tx key pre s = []) (hmove : (run pre s).1.staged tx key move = []) :
    TouchesFirst tx key (pre ++ move :: post) s r := by
  obtain ⟨early, next, late, rfl, hearly, rfl, htouched⟩ := h
  refine ⟨pre ++ move :: early, next, late, by simp, ?_, run_append _ _ _, htouched⟩
  rw [stagings_append, hbefore, stagings, hmove, hearly]
  rfl

theorem TouchesFirst.append {tx : Nat} {key : κ} {pre : List (Move κ V)} {s r : System κ V}
    (h : TouchesFirst tx key pre s r) (post : List (Move κ V)) :
    TouchesFirst tx key (pre ++ post) s r := by
  obtain ⟨early, move, late, rfl, hfirst⟩ := h
  exact ⟨early, move, late ++ post, by simp, hfirst⟩

/-- A key that a transaction sees with a value, whatever the clock shows. -/
theorem run_get_of_bound {s : System κ V} {tx : Nat} {opened : Transaction κ V} {key : κ}
    {b : Binding V} {seen : Option V} (h : s.transactions[tx]? = some opened)
    (hb : opened.bindings[key]? = some b) (now : Millis)
    (hlive : (b.live now).map (·.1) = seen) (scope : Option Policy) :
    (run [.setClock now, .stage tx scope (.get key)] s).2 = [.done, .answer (.value seen)] := by
  have hanswer : (opened.perform s.cluster scope now (.get key)).2 =
      .value (((opened.bindings.touch key (s.cluster.live? key now)).live now).map (·.1)) := rfl
  have hopened : (s.step (.setClock now)).1.transactions[tx]? = some opened := h
  simp only [run, step_stage hopened]
  simp only [step, hanswer, Bindings.touch, hb, Option.getD_some, hlive]

variable [LawfulEqOrd κ]

omit [Hashable κ] [DecidableEq V] in
/-- An operation stages a touch of every key that it names. -/
theorem staged_ne_nil {tx : Nat} {s : System κ V} {move : Move κ V} {a : Attempt κ V}
    (h : s.attempt? tx move = some a) {touch : κ × (Option V → Intent V)}
    (htouch : touch ∈ a.operation.touches) : s.staged tx touch.1 move ≠ [] := by
  have hmem : touch ∈ a.operation.touches.filter fun other => compare other.1 touch.1 = .eq :=
    List.mem_filter.2 ⟨htouch, by simp⟩
  rw [staged_eq, h]
  simp only [Option.toList_some, List.flatMap_cons, List.flatMap_nil, List.append_nil, ne_eq,
    Transaction.stagings, List.map_eq_nil_iff]
  exact List.ne_nil_of_mem hmem

/-- A key that is not bound after a move was not bound before, and the move does not touch it. -/
theorem not_bound_of_step {tx : Nat} {key : κ} {s : System κ V} {move : Move κ V}
    {opened next : Transaction κ V} (h : s.transactions[tx]? = some opened) (hmove : ¬move.Ends tx)
    (hnext : (s.step move).1.transactions[tx]? = some next) (hnone : next.bindings[key]? = none) :
    opened.bindings[key]? = none ∧ s.staged tx key move = [] := by
  obtain ⟨_, hsame, hbindings⟩ := bindings_step h hmove
  cases hnext.symm.trans hsame
  exact Binding.after_eq_none.1 ((hbindings key).symm.trans hnone)

omit [LawfulEqOrd κ] in
/-- Two open transactions that hold the same, and ask for the same, are given the same. -/
theorem alike_step {tx tx' : Nat} {s s' : System κ V} {opened opened' : Transaction κ V}
    (h : s.transactions[tx]? = some opened) (h' : s'.transactions[tx']? = some opened')
    (halike : opened.Alike opened') {move move' : Move κ V} {a : Attempt κ V}
    (ha : s.attempt? tx move = some a) (ha' : s'.attempt? tx' move' = some a)
    (hfound : ∀ touch ∈ a.operation.touches, opened.bindings[touch.1]? = none →
      (s.cluster.live? touch.1 s.clock).map (·.content) =
        (s'.cluster.live? touch.1 s'.clock).map (·.content)) :
    (s.step move).2 = (s'.step move').2 ∧
      ∃ next next', (s.step move).1.transactions[tx]? = some next ∧
        (s'.step move').1.transactions[tx']? = some next' ∧ next.Alike next' := by
  obtain ⟨scope, _, rfl, hopened, hpolicy, hnow⟩ := attempt?_eq_some ha
  obtain ⟨scope', _, rfl, hopened', hpolicy', hnow'⟩ := attempt?_eq_some ha'
  cases h.symm.trans hopened
  cases h'.symm.trans hopened'
  rw [← hnow, ← hnow'] at hfound
  obtain ⟨hnext, hanswer⟩ := halike.perform (hpolicy.symm.trans hpolicy') a.operation hfound
  rw [step_stage h, step_stage h', ← hnow, ← hnow', hanswer]
  exact ⟨rfl, _, _, ExtTreeMap.getElem?_insert_self, ExtTreeMap.getElem?_insert_self, hnext⟩

/-- Two open transactions that hold the same, and that ask for the same from then on, are given the same
and hold the same at the end, if each key that they touch first is found with the same value and
lifetime. -/
theorem alike_run {tx tx' : Nat} {moves moves' : List (Move κ V)} {s s' : System κ V}
    {opened opened' : Transaction κ V} (h : s.transactions[tx]? = some opened)
    (h' : s'.transactions[tx']? = some opened') (hstays : ∀ move ∈ moves, ¬move.Ends tx)
    (hstays' : ∀ move ∈ moves', ¬move.Ends tx') (halike : opened.Alike opened')
    (hattempts : (dealings tx moves s).map (·.1) = (dealings tx' moves' s').map (·.1))
    (hfound : ∀ key r r', TouchesFirst tx key moves s r → TouchesFirst tx' key moves' s' r' →
      opened.bindings[key]? = none →
      (r.cluster.live? key r.clock).map (·.content) =
        (r'.cluster.live? key r'.clock).map (·.content)) :
    dealings tx moves s = dealings tx' moves' s' ∧
      ∃ last last', (run moves s).1.transactions[tx]? = some last ∧
        (run moves' s').1.transactions[tx']? = some last' ∧ last.Alike last' := by
  -- By induction on what is asked for. Up to the next attempt neither run changes what is held.
  generalize hdealings : dealings tx moves s = list at hattempts ⊢
  generalize hdealings' : dealings tx' moves' s' = list' at hattempts ⊢
  induction list generalizing moves moves' s s' opened opened' list' with
  | nil =>
      obtain rfl : list' = [] := List.map_eq_nil_iff.1 hattempts.symm
      obtain ⟨last, hlast, hsame⟩ := bindings_run h hstays
      obtain ⟨last', hlast', hsame'⟩ := bindings_run h' hstays'
      refine ⟨rfl, last, last', hlast, hlast', fun key => ?_⟩
      rw [hsame, hsame', stagings_eq_nil hdealings, stagings_eq_nil hdealings']
      exact halike key
  | cons dealing list ih =>
      obtain ⟨a, outcome⟩ := dealing
      cases list' with
      | nil => cases hattempts
      | cons dealing' list' =>
      obtain ⟨a', outcome'⟩ := dealing'
      obtain ⟨rfl, htail⟩ : a = a' ∧ list.map (·.1) = list'.map (·.1) := List.cons.inj hattempts
      obtain ⟨pre, move, post, rfl, hidle, ha, rfl, hrest⟩ := dealings_eq_cons hdealings
      obtain ⟨pre', move', post', rfl, hidle', ha', rfl, hrest'⟩ := dealings_eq_cons hdealings'
      simp only [List.mem_append, List.mem_cons] at hstays hstays'
      obtain ⟨middle, hmiddle, hsame⟩ := bindings_run h fun m hm => hstays m (.inl hm)
      obtain ⟨middle', hmiddle', hsame'⟩ := bindings_run h' fun m hm => hstays' m (.inl hm)
      simp only [stagings_eq_nil hidle, stagings_eq_nil hidle'] at hsame hsame'
      have hmiddleAlike : middle.Alike middle' := fun key => by
        rw [hsame, hsame']
        exact halike key
      -- The keys that the attempt touches first are touched first from here.
      obtain ⟨houtcome, next, next', hnext, hnext', hnextAlike⟩ :=
        alike_step hmiddle hmiddle' hmiddleAlike ha ha' fun touch htouch hnone =>
          hfound touch.1 _ _
            ⟨pre, move, post, rfl, stagings_eq_nil hidle _, rfl, staged_ne_nil ha htouch⟩
            ⟨pre', move', post', rfl, stagings_eq_nil hidle' _, rfl, staged_ne_nil ha' htouch⟩
            ((hsame touch.1).symm.trans hnone)
      -- Those that are touched first later were not touched by it.
      have hrestFound : ∀ key q q', TouchesFirst tx key post ((run pre s).1.step move).1 q →
          TouchesFirst tx' key post' ((run pre' s').1.step move').1 q' → next.bindings[key]? = none →
          (q.cluster.live? key q.clock).map (·.content) =
            (q'.cluster.live? key q'.clock).map (·.content) := by
        intro key q q' hq hq' hnone
        have hnone' : next'.bindings[key]? = none := by
          have hkey := hnextAlike key
          rw [hnone] at hkey
          exact Option.map_eq_none_iff.1 hkey.symm
        obtain ⟨hunbound, huntouched⟩ :=
          not_bound_of_step hmiddle (hstays move (.inr (.inl rfl))) hnext hnone
        obtain ⟨-, huntouched'⟩ :=
          not_bound_of_step hmiddle' (hstays' move' (.inr (.inl rfl))) hnext' hnone'
        exact hfound key q q' (hq.extend (stagings_eq_nil hidle _) huntouched)
          (hq'.extend (stagings_eq_nil hidle' _) huntouched') ((hsame key).symm.trans hunbound)
      obtain ⟨rfl, last, last', hlast, hlast', hlastAlike⟩ := ih hnext hnext'
        (fun m hm => hstays m (.inr (.inr hm))) (fun m hm => hstays' m (.inr (.inr hm))) hnextAlike
        hrestFound hrest list' hrest' htail
      refine ⟨by rw [houtcome], last, last', ?_, ?_, hlastAlike⟩
      · rw [run_append]
        exact hlast
      · rw [run_append]
        exact hlast'

/-- Transactions are isolated. Take two runs, from whatever systems, in each of which a transaction is
opened and asks for the same operations, under the same policies and at the same readings of the
clock. If each key that it touches first is found with the same live value and lifetime in both, the
transaction is given the same throughout and reports the same lifetimes, whatever else is done in
between. Within one run, a value whose lifetime it has restarted is seen by it, as it last wrote it, at
any reading of the clock, as long as it does not take the value away; a key that it has taken away is
absent to it until it writes the key anew. -/
theorem transactions_isolated {s₀ s t : System κ V} {history moves : List (Move κ V)} {tx : Nat}
    (h : Transacts s₀ history tx moves s t) :
    (∀ (s₀' s' t' : System κ V) (history' moves' : List (Move κ V)) (tx' : Nat),
      Transacts s₀' history' tx' moves' s' t' →
      (dealings tx moves s).map (·.1) = (dealings tx' moves' s').map (·.1) →
      (∀ key r r', TouchesFirst tx key moves s r → TouchesFirst tx' key moves' s' r' →
        (r.cluster.live? key r.clock).map (·.content) =
          (r'.cluster.live? key r'.clock).map (·.content)) →
      dealings tx moves s = dealings tx' moves' s' ∧
        ∀ pre post pre' post', moves = pre ++ post → moves' = pre' ++ post' →
          (dealings tx pre s).map (·.1) = (dealings tx' pre' s').map (·.1) →
          ∀ key, (run pre s).1.stagedTtl? tx key = (run pre' s').1.stagedTtl? tx' key) ∧
    ∀ (key : κ) (earlier later : List (Staging V)) (touch : Staging V),
      stagings tx key moves s = earlier ++ touch :: later →
      (∀ value, touch.Restarts (touch.seen earlier) value → Staging.Stays value later →
        ∀ now scope, (run [.setClock now, .stage tx scope (.get key)] t).2 =
          [.done, .answer (.value (some (later.foldl Staging.written value)))]) ∧
      (∀ value ttl, touch.seen earlier = some (value, ttl) → touch.Takes value →
        (∀ u ∈ later, ∀ next, u.intent none ≠ .write next) →
        ∀ now scope, (run [.setClock now, .stage tx scope (.get key)] t).2 =
          [.done, .answer (.value none)]) := by
  constructor
  · intro s₀' s' t' history' moves' tx' h' hattempts hfound
    obtain ⟨_, _, _, -, hbegin⟩ := h.opened
    obtain ⟨_, _, _, -, hbegin'⟩ := h'.opened
    obtain ⟨empty, hopened, hempty⟩ := begin_done hbegin
    obtain ⟨empty', hopened', hempty'⟩ := begin_done hbegin'
    have halike : empty.Alike empty' := fun key => by rw [hempty, hempty']
    refine ⟨(alike_run hopened hopened' h.stays h'.stays halike hattempts
      fun key r r' hr hr' _ => hfound key r r' hr hr').1, ?_⟩
    rintro pre post pre' post' rfl rfl hpre key
    obtain ⟨-, last, last', hlast, hlast', hsame⟩ := alike_run hopened hopened'
      (fun m hm => h.stays m (List.mem_append_left _ hm))
      (fun m hm => h'.stays m (List.mem_append_left _ hm)) halike hpre
      fun key r r' hr hr' _ => hfound key r r' (hr.append post) (hr'.append post')
    unfold stagedTtl?
    rw [hlast, hlast']
    exact hsame.stagedTtl key
  · intro key earlier later touch htouches
    obtain ⟨opened, hopened, hbindings⟩ := h.bindings
    let b : Binding V := (Binding.after none earlier).getD (.ofEntry touch.found)
    have hb : opened.bindings[key]? = some (later.foldl Binding.record (b.record touch)) := by
      rw [hbindings, htouches, Binding.after_append]
      exact Binding.after_some (b.record touch) later
    constructor
    · intro value hrestarts hstays now scope
      have hrestarted : (b.record touch).Restarted value := Binding.restarted_record hrestarts
      exact run_get_of_bound hopened hb now ((hrestarted.foldl hstays).live now) scope
    · intro value ttl hseen htakes habsent now scope
      have hstaged := Binding.staged_foldl_of_none
        (Binding.staged_record_of_takes (b := b) hseen htakes) habsent
      refine run_get_of_bound hopened hb now ?_ scope
      rw [Binding.live_of_none hstaged]
      rfl

/-- An entry is replaced for some time and read again much later. Another one is removed. -/
def undisturbed : List (Move Nat (List Nat)) :=
  [.stage 1 (some (.custom { update := some (.millis 50) })) (.put 0 [8]), .setClock 900,
    .stage 1 none (.get 0), .stage 1 none (.remove 1)]

/-- The same, while another client removes the first entry, and later the second one. -/
def disturbed : List (Move Nat (List Nat)) :=
  [.stage 1 (some (.custom { update := some (.millis 50) })) (.put 0 [8]), .call 1 none (.remove 0),
    .setClock 900, .sweep 0, .stage 1 none (.get 0), .stage 1 none (.remove 1),
    .call 2 none (.put 1 [5])]

/-- Three nodes with two entries in stock, and a transaction open. -/
def stocked : System Nat (List Nat) :=
  ((run stockUp { cluster :=
    { config := { atomicity := .transactional }, affinity := trio, nodes := .empty 3 true } }).1.step
      (.begin 1 0 none)).1

/-- The transaction is told the same with and without the other client, and goes on to see the value
that it has stored, and not the entry that it has removed. -/
theorem transactions_isolated_disturbed :
    ∃ (c₀ : Cluster Nat (List Nat)) (t t' : System Nat (List Nat)),
      Cluster.start { atomicity := .transactional } 3 trio = .ok c₀ ∧
      Transacts { cluster := c₀ } (stockUp ++ .begin 1 0 none :: undisturbed) 1 undisturbed stocked t ∧
      Transacts { cluster := c₀ } (stockUp ++ .begin 1 0 none :: disturbed) 1 disturbed stocked t' ∧
      dealings 1 undisturbed stocked = dealings 1 disturbed stocked ∧
      (∀ key, t.stagedTtl? 1 key = t'.stagedTtl? 1 key) ∧
      (run [.setClock 5000, .stage 1 none (.get 0)] t').2 = [.done, .answer (.value (some [8]))] ∧
      (run [.setClock 5000, .stage 1 none (.get 1)] t').2 = [.done, .answer (.value none)] := by
  let c₀ : Cluster Nat (List Nat) :=
    { config := { atomicity := .transactional }, affinity := trio, nodes := .empty 3 true }
  let t := (run undisturbed stocked).1
  let t' := (run disturbed stocked).1
  have hstart : Cluster.start { atomicity := .transactional } 3 trio = .ok c₀ := rfl
  have hbegin : (run stockUp { cluster := c₀ }).1.step (.begin 1 0 none) = (stocked, .done) :=
    step_begin (by decide +kernel) (by decide +kernel) 1 none
  have hone : Transacts { cluster := c₀ } (stockUp ++ .begin 1 0 none :: undisturbed) 1 undisturbed
      stocked t :=
    ⟨⟨stockUp, 0, none, rfl, hbegin⟩, by simp [undisturbed, Move.Ends], rfl⟩
  have htwo : Transacts { cluster := c₀ } (stockUp ++ .begin 1 0 none :: disturbed) 1 disturbed
      stocked t' :=
    ⟨⟨stockUp, 0, none, rfl, hbegin⟩, by simp [disturbed, Move.Ends], rfl⟩
  have hattempts : (dealings 1 undisturbed stocked).map (·.1) =
      (dealings 1 disturbed stocked).map (·.1) := by
    decide +kernel
  have hkeys : ∀ a ∈ (dealings 1 undisturbed stocked).map (·.1), ∀ touch ∈ a.operation.touches,
      touch.1 = 0 ∨ touch.1 = 1 := by
    decide +kernel
  have hreplaced : (stagings 1 0 disturbed stocked).map
      (fun t => (t.seen [], t.intent (some [7]), t.intent (some [8]), t.policy)) =
        [(some ([7], .eternal), .write [8], .write [8], .custom { update := some (.millis 50) }),
          (none, .read, .read, .unset)] := by
    decide +kernel
  have hremoved : (stagings 1 1 disturbed stocked).map (fun t => (t.intent (some [9]), t.seen [])) =
      [(.remove, some ([9], .eternal))] := by
    decide +kernel
  have hsame : ∀ key r r', TouchesFirst 1 key undisturbed stocked r →
      TouchesFirst 1 key disturbed stocked r' →
      (r.cluster.live? key r.clock).map (·.content) =
        (r'.cluster.live? key r'.clock).map (·.content) := by
    intro key r r' hr hr'
    obtain ⟨first, later, hfirst, -, hfound⟩ := hr.stagings_eq
    obtain ⟨first', later', hfirst', -, hfound'⟩ := hr'.stagings_eq
    obtain ⟨dealing, hdealing, touch, htouch, hkey⟩ :=
      exists_touch_of_stagings (hfirst ▸ List.mem_cons_self)
    obtain rfl : touch.1 = key := by simpa using hkey
    rw [← hfound, ← hfound']
    have hheads : ∀ key ∈ [0, 1], (stagings 1 key undisturbed stocked).head?.map (·.found) =
        (stagings 1 key disturbed stocked).head?.map (·.found) := by
      decide +kernel
    have hhead := hheads touch.1 (by simpa using hkeys _ (List.mem_map_of_mem hdealing) touch htouch)
    rw [hfirst, hfirst'] at hhead
    exact congrArg (Option.map (·.content)) (Option.some.inj hhead)
  obtain ⟨htold, -⟩ := transactions_isolated hone
  obtain ⟨hdealings, hlifetimes⟩ := htold _ _ _ _ _ _ htwo hattempts hsame
  obtain ⟨-, hown⟩ := transactions_isolated htwo
  refine ⟨c₀, t, t', hstart, hone, htwo, hdealings, fun key => ?_, ?_, ?_⟩
  · exact hlifetimes undisturbed [] disturbed [] (by simp) (by simp) hattempts key
  · obtain ⟨stored, more, htouches, hstored, hmore⟩ := List.map_eq_cons_iff.1 hreplaced
    obtain ⟨read, last, rfl, hread, hlast⟩ := List.map_eq_cons_iff.1 hmore
    obtain rfl : last = [] := List.map_eq_nil_iff.1 hlast
    simp only [Prod.mk.injEq] at hstored hread
    obtain ⟨hseen, hwrite, -, hpolicy⟩ := hstored
    obtain ⟨-, -, hread, hunset⟩ := hread
    have hrestarts : stored.Restarts (stored.seen []) [8] := by
      rw [hseen]
      exact .update hwrite (d := .millis 50) (by rw [hpolicy]; rfl) rfl
    have hstays : Staging.Stays [8] [read] := by
      refine ⟨?_, trivial⟩
      rintro (hremove | ⟨kind, d, hkind, hgiven, -⟩)
      · cases hread.symm.trans hremove
      · rw [hread] at hkind
        cases hkind
        rw [hunset] at hgiven
        cases hgiven
    have hlast : [read].foldl Staging.written [8] = [8] := by simp [Staging.written, hread]
    rw [← hlast]
    exact (hown 0 [] [read] stored htouches).1 [8] hrestarts hstays 5000 none
  · obtain ⟨removed, last, htouches, hfirst, hlast⟩ := List.map_eq_cons_iff.1 hremoved
    obtain rfl : last = [] := List.map_eq_nil_iff.1 hlast
    obtain ⟨hintent, hseen⟩ := Prod.mk.inj hfirst
    exact (hown 1 [] [] removed htouches).2 [9] .eternal hseen (.inl hintent) (by simp) 5000 none

end System

end Ephemera
