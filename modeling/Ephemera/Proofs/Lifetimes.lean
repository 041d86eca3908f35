import Ephemera.Proofs.Commit
import Ephemera.Proofs.Provenance

/-! # Lifetimes and the clock

A lifetime is a span together with the reading at which it ends. The two are decided together and then
only copied, so they fit wherever they are found: either both are zero, or the lifetime has begun at
some reading that the clock has shown while a move was made, and ends its span after it, at the latest
reading at the most. A lifetime with a limit never ends at zero, not even one that begins at zero.

Nothing is asked of the affinity, of versions or of the clock, which may go back.
-/

namespace Ephemera

open Std

universe u v w

/-! ## Lifetimes that fit -/

/-- The lifetime is not that of a removed key, and has no limit, or has begun at one of the readings
that were shown. -/
def Ttl.Timed (shown : Millis → Prop) (t : Ttl) : Prop :=
  t.deleted = false ∧
    (t.span = 0 ∧ t.expireTime = 0 ∨
      t.span ≠ 0 ∧ ∃ now, shown now ∧
        t.expireTime.toNat = min (now.toNat + t.span.toNat) (2 ^ 64 - 1))

section Lifetimes

variable {V : Type v} {shown : Millis → Prop} {now : Millis}

namespace Ttl

theorem timed_eternal : eternal.Timed shown :=
  ⟨rfl, .inl ⟨rfl, rfl⟩⟩

theorem timed_lasting (span : Millis) (hnow : shown now) : (lasting span now).Timed shown := by
  unfold lasting
  split
  · exact timed_eternal
  next hspan => exact ⟨rfl, .inr ⟨hspan, now, hnow, Millis.toNat_after now span⟩⟩

/-- The end of a lifetime tells whether it has a limit. -/
theorem Timed.expireTime_eq_zero_iff {t : Ttl} (h : t.Timed shown) :
    t.expireTime = 0 ↔ t.span = 0 := by
  obtain ⟨-, ⟨hspan, hexpire⟩ | ⟨hspan, now, -, hexpire⟩⟩ := h
  · simp [hspan, hexpire]
  · have hpos : t.span.toNat ≠ 0 := fun hzero => hspan (UInt64.toNat_inj.1 hzero)
    have hnever : t.expireTime ≠ 0 := by
      intro hzero
      rw [hzero, UInt64.toNat_zero] at hexpire
      omega
    simp [hspan, hnever]

/-- A touch that is no creation may leave the lifetime that there was; any other is new. -/
theorem Timed.touch {t next : Ttl} {kind : Touch} {duration : Option Duration} (hnow : shown now)
    (ht : kind ≠ .create → t.Timed shown) (h : t.touch kind duration now = .retain next) :
    next.Timed shown := by
  cases duration with
  | some d =>
      rw [touch_some] at h
      split at h
      · cases h
      · cases h
        exact timed_lasting _ hnow
  | none =>
      cases kind with
      | create =>
          cases h
          exact timed_eternal
      | update | access =>
          have hold := ht (by simp)
          rw [touch_none hold.1 (by simp)] at h
          cases h
          exact hold

end Ttl

theorem timed_of_plan {live : Option (V × Ttl)} {intent : Intent V} {policy : Policy} {value : V}
    {ttl : Ttl} {kind : Touch} (hnow : shown now)
    (hlive : ∀ pair, live = some pair → pair.2.Timed shown)
    (h : plan live intent policy now = .put value ttl kind) : ttl.Timed shown := by
  obtain ⟨old, htouch, hold⟩ := touch_of_plan h
  refine Ttl.Timed.touch hnow (fun hkind => ?_) htouch
  obtain ⟨pair, hpair, rfl⟩ := Option.map_eq_some_iff.1 (hold hkind)
  exact hlive pair hpair

/-- A commit starts a lifetime, or keeps the one on the primary. -/
theorem CommitTtl.timed_resolve (staged : CommitTtl) {current : Option Ttl} (hnow : shown now)
    (hcurrent : ∀ t, current = some t → t.Timed shown) : (staged.resolve current now).Timed shown := by
  cases staged with
  | restart span => exact Ttl.timed_lasting span hnow
  | keep =>
      cases current with
      | none => exact Ttl.timed_eternal
      | some t => exact hcurrent t rfl

end Lifetimes

/-! ## Copies and messages -/

/-- A lifetime that the change writes fits. -/
def Change.Timed {κ : Type u} {V : Type v} (shown : Millis → Prop) : Change κ V → Prop
  | .write _ _ _ ttl => ttl.Timed shown
  | .count .. | .remove .. | .share .. | .note .. | .drop .. | .deliver _ => True

namespace Cluster

variable {κ : Type u} {V : Type v} {ρ : Type w} [Ord κ] [TransOrd κ]

/-- All lifetimes of copies and of values under way fit. -/
structure Timed (shown : Millis → Prop) (c : Cluster κ V) : Prop where
  running : c.Running
  carried : ∀ {key entry}, c.Carries key entry → entry.ttl.Timed shown

variable {c : Cluster κ V} {shown : Millis → Prop} {now : Millis}

namespace Timed

theorem stored (h : c.Timed shown) {key : κ} {entry : Entry V} (hstored : c.stored? key = some entry) :
    entry.ttl.Timed shown :=
  h.carried (carries_of_stored hstored)

/-- What a touch writes fits, as the lifetime that it finds does. -/
theorem touchTrace (h : c.Timed shown) (hnow : shown now) (policy : Policy) (via : Option Nat)
    (key : κ) (decide : Decision V ρ) :
    ∀ x ∈ c.touchTrace policy via now key decide, x.Timed shown := by
  refine c.forall_touchTrace policy via now key decide (fun _ => trivial) ?_ (fun _ _ => trivial)
    fun _ _ => trivial
  intro intent value ttl heffect
  obtain ⟨kind, hplan⟩ := Effect.plan_of_write heffect
  refine timed_of_plan hnow ?_ hplan
  rintro pair hpair
  obtain ⟨entry, hentry, rfl⟩ := Option.map_eq_some_iff.1 hpair
  exact h.stored (stored?_of_live? hentry)

/-- So does what a commit puts in place for a key. -/
theorem installTrace (h : c.Timed shown) (hnow : shown now) (key : κ)
    (staged : Option (V × CommitTtl)) : (c.installTrace key staged now).Timed shown := by
  cases staged with
  | none => trivial
  | some pair =>
      refine pair.2.timed_resolve hnow fun t ht => ?_
      obtain ⟨entry, hentry, rfl⟩ := Option.map_eq_some_iff.1 ht
      exact h.stored hentry

variable [LawfulEqOrd κ] [Hashable κ]

theorem change (h : c.Timed shown) {x : Change κ V} (hx : x.Timed shown) :
    (c.change x).Timed shown where
  running := h.running.change x
  carried := by
    intro key entry hcarries
    rcases hcarries.change h.running with hbefore | ⟨⟨via, rfl⟩, -⟩
    · exact h.carried hbefore
    · exact hx

theorem follow (h : c.Timed shown) {trace : List (Change κ V)} (htrace : ∀ x ∈ trace, x.Timed shown) :
    (c.follow trace).Timed shown :=
  follow_induction trace (fun _ x hx hd => hd.change (htrace x hx)) c h

/-- One touch after the other. -/
theorem touchAllTrace (h : c.Timed shown) (hnow : shown now) (policy : Policy) (via : Option Nat)
    (decisions : List (κ × Decision V ρ)) :
    (c.follow (touchAllTrace policy via now decisions c)).Timed shown := by
  induction decisions generalizing c with
  | nil => exact h
  | cons head rest ih =>
      rw [Cluster.touchAllTrace, follow_append]
      exact ih (h.follow (h.touchTrace hnow policy via head.1 head.2))

/-- A node that answers itself writes nothing. -/
theorem readLocalTrace (h : c.Timed shown) (node : Nat) (key : κ) (now : Millis) :
    (c.follow (c.readLocalTrace node key now)).Timed shown :=
  h.follow (c.forall_readLocalTrace node key now (fun _ _ _ => trivial) fun _ => trivial)

theorem getTrace (h : c.Timed shown) {call : Call} (hnow : shown call.now) (key : κ) :
    (c.follow (c.getTrace call key)).Timed shown := by
  unfold Cluster.getTrace
  split
  · rw [follow_append]
    have hlooked := h.readLocalTrace call.node key call.now
    split
    · exact hlooked
    · exact hlooked.follow (hlooked.touchTrace hnow _ _ _ _)
  · exact h.follow (h.touchTrace hnow _ _ _ _)

theorem getEachTrace (h : c.Timed shown) {call : Call} (hnow : shown call.now) (keys : List κ) :
    (c.follow (getEachTrace call keys c)).Timed shown := by
  induction keys generalizing c with
  | nil => exact h
  | cons key rest ih =>
      rw [Cluster.getEachTrace, follow_append]
      exact ih (h.getTrace hnow key)

theorem performTrace [DecidableEq V] [Append V] [Inhabited V] (h : c.Timed shown) {call : Call}
    (hnow : shown call.now) (operation : Operation κ V) :
    (c.follow (c.performTrace call operation)).Timed shown := by
  cases operation with
  | put | putIfAbsent | remove | removeIfEquals | replace | replaceIfEquals | invoke =>
      exact h.follow (h.touchTrace hnow _ _ _ _)
  | putAll | removeAll | entries => exact h.touchAllTrace hnow _ _ _
  | get key => exact h.getTrace hnow key
  | getAll keys => exact h.getEachTrace hnow keys
  | localPeek | peekTtl | ttl => exact h

/-- A sweep writes nothing. -/
theorem sweepTrace (h : c.Timed shown) (node : Nat) (now : Millis) :
    (c.follow (c.sweepTrace node now)).Timed shown :=
  h.follow (forall_sweepTrace c fun d target deadline =>
    d.forall_reclaimTrace node target deadline now (fun _ _ _ => trivial) trivial)

theorem commitTrace (h : c.Timed shown) (hnow : shown now) (bindings : List (κ × Binding V)) :
    (c.follow (commitTrace now bindings c)).Timed shown := by
  induction bindings generalizing c with
  | nil => exact h
  | cons head rest ih => exact ih (h.change (h.installTrace hnow head.1 head.2.outcome))

end Timed

theorem timed_start {config : CacheConfig} {nodes : Nat} {affinity : Affinity κ}
    (h : start config nodes affinity = .ok c) : c.Timed shown where
  running := running_start h
  carried hcarries := absurd hcarries.mentions (not_mentions_start h _)

end Cluster

/-! ## Staged values -/

namespace Binding

variable {V : Type v} {shown : Millis → Prop}

/-- The lifetime of a staged value fits. -/
def Timed (shown : Millis → Prop) (b : Binding V) : Prop :=
  ∀ value ttl, b.staged = some (value, ttl) → ttl.Timed shown

theorem timed_ofEntry {found : Option (Entry V)}
    (hfound : ∀ entry, found = some entry → entry.ttl.Timed shown) : (ofEntry found).Timed shown := by
  intro value ttl hstaged
  obtain ⟨entry, hentry, heq⟩ := Option.map_eq_some_iff.1 hstaged
  cases heq
  exact hfound entry hentry

theorem Timed.record {b : Binding V} (h : b.Timed shown) {t : Staging V} (hnow : shown t.now) :
    (b.record t).Timed shown := by
  unfold Binding.record
  simp only
  cases hplan : plan (b.live t.now) (t.intent ((b.live t.now).map (·.1))) t.policy t.now with
  | unchanged => exact h
  | remove => exact nofun
  | put value ttl kind =>
      rintro _ _ ⟨⟩
      exact timed_of_plan hnow (fun pair hpair => h pair.1 pair.2 (staged_of_live hpair)) hplan

end Binding

namespace Transaction

variable {κ : Type u} {V : Type v} [Ord κ] [TransOrd κ] {shown : Millis → Prop}

/-- All lifetimes of staged values fit. -/
def Timed (shown : Millis → Prop) (tx : Transaction κ V) : Prop :=
  ∀ (key : κ) (b : Binding V), tx.bindings[key]? = some b → b.Timed shown

theorem timed_begin {c : Cluster κ V} {policy : Policy} {opened : Transaction κ V}
    (h : begin c policy = .ok opened) : opened.Timed shown := by
  intro key b hb
  simp [bindings_begin h] at hb

theorem Timed.perform [LawfulEqOrd κ] [Append V] [Inhabited V] {tx : Transaction κ V}
    (h : tx.Timed shown) {c : Cluster κ V} (hc : c.Timed shown) (scope : Option Policy) {now : Millis}
    (hnow : shown now) (operation : Operation κ V) :
    (tx.perform c scope now operation).1.Timed shown := by
  intro key b hb
  rw [after_perform] at hb
  refine Binding.after_induction (fun t ht => ?_) (fun t ht b htimed => ?_) (h key) hb
  · obtain ⟨touch, -, rfl⟩ := List.mem_map.1 ht
    exact Binding.timed_ofEntry fun entry hentry => hc.stored (Cluster.stored?_of_live? hentry)
  · obtain ⟨touch, -, rfl⟩ := List.mem_map.1 ht
    exact htimed.record hnow

end Transaction

/-! ## Runs -/

namespace System

variable {κ : Type u} {V : Type v} [Ord κ] [TransOrd κ] {shown : Millis → Prop}

/-- All lifetimes in the cluster and in the open transactions fit. -/
structure Timed (shown : Millis → Prop) (s : System κ V) : Prop where
  cluster : s.cluster.Timed shown
  staged : ∀ {tx : Nat} {opened : Transaction κ V}, s.transactions[tx]? = some opened →
    opened.Timed shown

namespace Timed

variable {s : System κ V}

theorem insert (h : s.Timed shown) (tx : Nat) {added : Transaction κ V} (hadded : added.Timed shown) :
    Timed shown { s with transactions := s.transactions.insert tx added } where
  cluster := h.cluster
  staged hopened := forall_insert (fun _ _ => h.staged) tx hadded hopened

theorem erase (h : s.Timed shown) (tx : Nat) :
    Timed shown { s with transactions := s.transactions.erase tx } where
  cluster := h.cluster
  staged hopened := forall_erase (fun _ _ => h.staged) hopened

variable [LawfulEqOrd κ] [Hashable κ] [DecidableEq V] [Append V] [Inhabited V]

/-- A move made while the clock shows one of the readings keeps all lifetimes fitting. -/
theorem step (h : s.Timed shown) (hclock : shown s.clock) (move : Move κ V) :
    (s.step move).1.Timed shown := by
  cases move with
  | call node scope operation =>
      simp only [System.step]
      split
      · exact h
      next call hcall =>
        obtain ⟨-, rfl⟩ := Cluster.call_ok hcall
        refine ⟨?_, h.staged⟩
        rw [Cluster.perform_fst]
        exact h.cluster.performTrace hclock operation
  | begin tx node scope =>
      simp only [System.step]
      split
      · exact h
      · split
        · exact h
        next opened hopened => exact h.insert tx (Transaction.timed_begin hopened)
  | stage tx scope operation =>
      simp only [System.step]
      split
      · exact h
      next opened hopened =>
        exact h.insert tx ((h.staged hopened).perform h.cluster scope hclock operation)
  | commit tx =>
      simp only [System.step]
      split
      · exact h
      next opened hopened =>
        split
        · exact h.erase tx
        next d hcommit =>
          obtain ⟨-, rfl⟩ := Cluster.commit_ok hcommit
          exact ⟨h.cluster.commitTrace hclock _, (h.erase tx).staged⟩
  | rollback tx =>
      simp only [System.step]
      split
      · exact h
      · exact h.erase tx
  | sweep node =>
      refine ⟨?_, h.staged⟩
      change (s.cluster.sweep node s.clock).1.Timed shown
      rw [Cluster.sweep_fst]
      exact h.cluster.sweepTrace node s.clock
  | deliver node => exact ⟨h.cluster.change (x := .deliver node) trivial, h.staged⟩
  | setClock now => exact ⟨h.cluster, h.staged⟩

/-- So does a run, with whatever readings the clock shows when its moves are made. -/
theorem run (h : s.Timed shown) {moves : List (Move κ V)}
    (hclock : ∀ pre move post, moves = pre ++ move :: post → shown (System.run pre s).1.clock) :
    (System.run moves s).1.Timed shown := by
  induction moves generalizing s with
  | nil => exact h
  | cons move rest ih =>
      refine ih (h.step (hclock [] move rest rfl) move) fun pre next post hsplit => ?_
      exact hclock (move :: pre) next post (congrArg (move :: ·) hsplit)

end Timed

variable [LawfulEqOrd κ] [Hashable κ] [DecidableEq V] [Append V] [Inhabited V]

/-- Whatever moves are made, and wherever the clock is set, the lifetime of every copy, of every value
on its way to a replica and of every value staged in an open transaction is not marked as removed, and
either has no limit, with a span and an expire time of zero, or has a span, and the expire time is a
reading that the clock has shown when one of the moves was made, plus that span, at the latest reading
at the most. So the expire time is zero exactly if the span is. -/
theorem lifetimes_timed {config : CacheConfig} {nodes : Nat} {affinity : Affinity κ}
    {c₀ : Cluster κ V} (hstart : Cluster.start config nodes affinity = .ok c₀) (now : Millis)
    (moves : List (Move κ V)) {s : System κ V}
    (hrun : (run moves { cluster := c₀, clock := now }).1 = s) (ttl : Ttl)
    (hfound : (∃ key entry, s.cluster.Carries key entry ∧ entry.ttl = ttl) ∨
      ∃ (tx : Nat) (opened : Transaction κ V) (key : κ) (b : Binding V) (value : V),
        s.transactions[tx]? = some opened ∧ opened.bindings[key]? = some b ∧
          b.staged = some (value, ttl)) :
    ttl.deleted = false ∧ (ttl.expireTime = 0 ↔ ttl.span = 0) ∧
      (ttl.span = 0 ∧ ttl.expireTime = 0 ∨
        ttl.span ≠ 0 ∧ ∃ pre move post, moves = pre ++ move :: post ∧
          ttl.expireTime.toNat = min ((run pre { cluster := c₀, clock := now }).1.clock.toNat +
            ttl.span.toNat) (2 ^ 64 - 1)) := by
  let shown : Millis → Prop := fun t => ∃ pre move post, moves = pre ++ move :: post ∧
    (run pre { cluster := c₀, clock := now }).1.clock = t
  have hopened : Timed shown { cluster := c₀, clock := now } :=
    ⟨Cluster.timed_start hstart, fun hopened => by simp at hopened⟩
  have hs : s.Timed shown :=
    hrun ▸ hopened.run fun pre move post hsplit => ⟨pre, move, post, hsplit, rfl⟩
  have httl : ttl.Timed shown := by
    rcases hfound with ⟨key, entry, hcarries, rfl⟩ |
      ⟨tx, opened, key, b, value, hopened, hb, hstaged⟩
    · exact hs.cluster.carried hcarries
    · exact hs.staged hopened key b hb value ttl hstaged
  refine ⟨httl.1, httl.expireTime_eq_zero_iff, httl.2.imp_right ?_⟩
  rintro ⟨hspan, _, ⟨pre, move, post, hsplit, rfl⟩, hexpire⟩
  exact ⟨hspan, pre, move, post, hsplit, hexpire⟩

/-- An entry is written just before the end of the clock and is on its way to the backup. The clock is
set back to zero, where a transaction accesses the entry, which is to live longer. -/
def nearTheEnd : List (Move Nat (List Nat)) :=
  [.setClock 18446744073709551610,
    .call 0 (some (.custom { create := some (.millis 100) })) (.put 0 [7]),
    .setClock 0, .begin 4 0 none,
    .stage 4 (some (.custom { access := some (.millis 250) })) (.get 0)]

theorem lifetimes_timed_nearTheEnd :
    ∃ (c₀ : Cluster Nat (List Nat)) (s : System Nat (List Nat)),
      Cluster.start { atomicity := .transactional } 3 trio = .ok c₀ ∧
      (run nearTheEnd { cluster := c₀ }).1 = s ∧
      (∃ entry : Entry (List Nat), (∃ m ∈ s.cluster.queue 1, m.update = .put 0 entry) ∧
        entry.ttl = { span := 100, expireTime := 18446744073709551615 } ∧
        ∃ pre move post, nearTheEnd = pre ++ move :: post ∧
          entry.ttl.expireTime.toNat = min ((run pre { cluster := c₀ }).1.clock.toNat +
            entry.ttl.span.toNat) (2 ^ 64 - 1)) ∧
      ∃ (opened : Transaction Nat (List Nat)) (b : Binding (List Nat)),
        s.transactions[4]? = some opened ∧ opened.bindings[0]? = some b ∧
        b.staged = some ([7], { span := 250, expireTime := 250 }) ∧
        ∃ pre move post, nearTheEnd = pre ++ move :: post ∧
          250 = min ((run pre { cluster := c₀ }).1.clock.toNat + 250) (2 ^ 64 - 1) := by
  let c₀ : Cluster Nat (List Nat) :=
    { config := { atomicity := .transactional }, affinity := trio, nodes := .empty 3 true }
  let s := (run nearTheEnd { cluster := c₀ }).1
  have hstart : Cluster.start { atomicity := .transactional } 3 trio = .ok c₀ := rfl
  have htimed := lifetimes_timed hstart 0 nearTheEnd (s := s) rfl
  let entry : Entry (List Nat) :=
    { value := [7], version := 1, ttl := { span := 100, expireTime := 18446744073709551615 } }
  have hmessage : ∃ m ∈ s.cluster.queue 1, m.update = .put 0 entry := by decide +kernel
  obtain ⟨m, hm, hput⟩ := hmessage
  have hbound : ((s.transactions[4]?.bind fun opened => opened.bindings[0]?).bind (·.staged)) =
      some ([7], { span := 250, expireTime := 250 }) := by
    decide +kernel
  obtain ⟨b, hb, hstaged⟩ := Option.bind_eq_some_iff.1 hbound
  obtain ⟨opened, hopened, hb⟩ := Option.bind_eq_some_iff.1 hb
  obtain ⟨-, -, hnone | ⟨-, hlater⟩⟩ := htimed _ (.inl ⟨0, entry, .message hm hput, rfl⟩)
  · cases hnone.1
  obtain ⟨-, -, hnone | ⟨-, hsooner⟩⟩ := htimed _ (.inr ⟨4, opened, 0, b, [7], hopened, hb, hstaged⟩)
  · cases hnone.1
  exact ⟨c₀, s, hstart, rfl, ⟨entry, ⟨m, hm, hput⟩, rfl, hlater⟩, opened, b, hopened, hb, hstaged,
    hsooner⟩

end System

end Ephemera
