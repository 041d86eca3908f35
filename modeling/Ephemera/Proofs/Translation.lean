import Ephemera.Proofs.Commit
import Ephemera.Proofs.Placement
import Ephemera.Proofs.ShiftCluster

/-! # Time translation

Nothing depends on when the clock was started. Two runs of the same moves, of which one reads a clock
that is ahead by some gap, give the same results and reach the same state, but for the expire times:
those that are not zero are later by the gap. This needs no more than that both runs stay within the
clock, so that no sum of a reading and a span is held at the latest reading.
-/

namespace Ephemera

open Std

universe u v w

/-! ## Maps -/

section Map

variable {α : Type u} {β : Type v} [Ord α] [TransOrd α] [LawfulEqOrd α]

/-- What is put into a map and then mapped may be mapped first. -/
theorem map_insert (m : ExtTreeMap α β) (key : α) (value : β) (f : β → β) :
    (m.insert key value).map (fun _ => f) = (m.map fun _ => f).insert key (f value) := by
  refine ExtTreeMap.ext_getElem? fun other => ?_
  rw [ExtTreeMap.getElem?_map, ExtTreeMap.getElem?_insert, ExtTreeMap.getElem?_insert,
    ExtTreeMap.getElem?_map]
  split <;> rfl

theorem map_erase (m : ExtTreeMap α β) (key : α) (f : β → β) :
    (m.erase key).map (fun _ => f) = (m.map fun _ => f).erase key := by
  refine ExtTreeMap.ext_getElem? fun other => ?_
  rw [ExtTreeMap.getElem?_map, ExtTreeMap.getElem?_erase, ExtTreeMap.getElem?_erase,
    ExtTreeMap.getElem?_map]
  split <;> rfl

end Map

/-! ## Bindings -/

namespace CommitTtl

variable {gap now : Millis}

/-- Counted from `now`, and from a reading that is ahead by the gap, a lifetime that is to be restarted
ends before the clock does. -/
def Fits (gap now : Millis) (c : CommitTtl) : Prop :=
  ∀ span, c = .restart span → span ≠ 0 → now.toNat + gap.toNat + span.toNat < Millis.latest.toNat

theorem resolve_shift {c : CommitTtl} {current : Option Ttl} (hfits : c.Fits gap now)
    (hnow : Millis.RoomFor gap now) :
    c.resolve (current.map (·.shift gap)) (now + gap) = (c.resolve current now).shift gap := by
  cases c with
  | keep => cases current <;> rfl
  | restart span => exact Ttl.lasting_shift (hfits span rfl) hnow

theorem roomFor_resolve {c : CommitTtl} {current : Option Ttl} (hfits : c.Fits gap now)
    (hcurrent : ∀ ttl, current = some ttl → ttl.RoomFor gap) : (c.resolve current now).RoomFor gap := by
  cases c with
  | keep =>
      cases current with
      | none => exact Ttl.roomFor_eternal gap
      | some ttl => exact hcurrent ttl rfl
  | restart span => exact Ttl.roomFor_lasting (hfits span rfl)

end CommitTtl

namespace Binding

variable {V : Type v} {gap now : Millis}

/-- The binding with the staged lifetime moved. -/
def shift (b : Binding V) (gap : Millis) : Binding V :=
  { b with staged := b.staged.map (shiftPair gap) }

/-- The staged lifetime can be moved. -/
def RoomFor (gap : Millis) (b : Binding V) : Prop :=
  ∀ pair, b.staged = some pair → pair.2.RoomFor gap

theorem ofEntry_shift (found : Option (Entry V)) :
    ofEntry (found.map (·.shift gap)) = (ofEntry found).shift gap := by
  cases found <;> rfl

theorem roomFor_ofEntry {found : Option (Entry V)}
    (h : ∀ entry, found = some entry → entry.ttl.RoomFor gap) : (ofEntry found).RoomFor gap := by
  intro pair hpair
  obtain ⟨entry, hentry, rfl⟩ := Option.map_eq_some_iff.1 hpair
  exact h entry hentry

theorem outcome_shift (b : Binding V) : (b.shift gap).outcome = b.outcome := by
  unfold outcome shift
  rw [Option.map_map]
  rfl

theorem stage_shift (b : Binding V) (p : Plan V) (policy : Policy) :
    (b.shift gap).stage (p.shift gap) policy = (b.stage p policy).shift gap := by
  cases p <;> rfl

theorem live_shift {b : Binding V} (h : b.RoomFor gap) (hnow : Millis.RoomFor gap now) :
    (b.shift gap).live (now + gap) = (b.live now).map (shiftPair gap) := by
  obtain ⟨base, staged, commitTtl, dirty⟩ := b
  cases commitTtl with
  | restart => rfl
  | keep =>
      cases staged with
      | none => rfl
      | some pair =>
          have hexpired := Ttl.expiredAt_shift (h pair rfl) hnow
          simp only [live, shift, Option.map_some, Option.filter_some, shiftPair, hexpired]
          split <;> rfl

theorem RoomFor.stage {b : Binding V} (h : b.RoomFor gap) {p : Plan V} {policy : Policy}
    (hplan : ∀ value ttl kind, p = .put value ttl kind → ttl.RoomFor gap) :
    (b.stage p policy).RoomFor gap := by
  intro pair hpair
  cases p with
  | unchanged => exact h pair hpair
  | put value ttl kind => cases hpair; exact hplan value ttl kind rfl
  | remove => cases hpair

theorem RoomFor.live {b : Binding V} (h : b.RoomFor gap) {pair : V × Ttl}
    (hlive : b.live now = some pair) : pair.2.RoomFor gap :=
  h pair (staged_of_live hlive)

end Binding

/-! ## Transactions -/

namespace Transaction

variable {κ : Type u} {V : Type v} {ρ : Type w} [Ord κ] [TransOrd κ] [LawfulEqOrd κ]
variable {gap now : Millis} {tx : Transaction κ V}

omit [LawfulEqOrd κ] in
/-- The transaction with all staged lifetimes moved. -/
def shift (tx : Transaction κ V) (gap : Millis) : Transaction κ V :=
  { tx with bindings := tx.bindings.map fun _ b => b.shift gap }

omit [LawfulEqOrd κ] in
/-- All staged lifetimes can be moved. -/
def RoomFor (gap : Millis) (tx : Transaction κ V) : Prop :=
  ∀ (key : κ) (b : Binding V), tx.bindings[key]? = some b → b.RoomFor gap

theorem getElem?_shift (tx : Transaction κ V) (key : κ) :
    (tx.shift gap).bindings[key]? = tx.bindings[key]?.map (·.shift gap) :=
  ExtTreeMap.getElem?_map

omit [LawfulEqOrd κ] in
theorem dirty_shift (tx : Transaction κ V) :
    (tx.shift gap).bindings.dirty = tx.bindings.dirty.map fun (key, b) => (key, b.shift gap) := by
  simp only [Bindings.dirty, shift, ExtTreeMap.toList_map, List.filter_map]
  rfl

omit [LawfulEqOrd κ] in
/-- There is nothing to move in a transaction that begins. -/
theorem shift_begin {c : Cluster κ V} {policy : Policy} {opened : Transaction κ V}
    (h : begin c policy = .ok opened) : opened.shift gap = opened ∧ opened.RoomFor gap := by
  have hbindings := bindings_begin h
  refine ⟨?_, fun key b hb => ?_⟩
  · refine congrArg (Transaction.mk opened.policy) ?_
    rw [hbindings]
    exact ExtTreeMap.map_eq_empty_iff.2 rfl
  · simp [hbindings] at hb

section Staging

variable {c d : Cluster κ V} {policy : Policy}

/-- An operation staged at the moved reading. -/
theorem RoomFor.stage_shift (htx : tx.RoomFor gap) (h : Cluster.Ahead gap c d)
    (hnow : Millis.RoomFor gap now) (hfits : policy.Fits gap now) (key : κ) (decide : Decision V ρ) :
    (tx.stage c policy now key decide).1.RoomFor gap ∧
      (tx.shift gap).stage d policy (now + gap) key decide =
        ((tx.stage c policy now key decide).1.shift gap, (tx.stage c policy now key decide).2) := by
  -- The binding is what the first touch finds, or what earlier touches have staged.
  let b := tx.bindings.touch key (c.live? key now)
  have hb : b.RoomFor gap := by
    cases hbound : tx.bindings[key]? with
    | none =>
        simp only [b, Bindings.touch, hbound, Option.getD_none]
        exact Binding.roomFor_ofEntry fun _ => h.roomFor_live
    | some bound =>
        simp only [b, Bindings.touch, hbound, Option.getD_some]
        exact htx key bound hbound
  have htouch : (tx.shift gap).bindings.touch key (d.live? key (now + gap)) = b.shift gap := by
    simp only [b, Bindings.touch, getElem?_shift, h.live? key hnow, Binding.ofEntry_shift]
    cases tx.bindings[key]? <;> rfl
  have hvalue : ((b.shift gap).live (now + gap)).map (·.1) = (b.live now).map (·.1) := by
    rw [Binding.live_shift hb hnow, Option.map_map]
    rfl
  let intent := (decide ((b.live now).map (·.1))).1
  have hplan : plan ((b.shift gap).live (now + gap)) intent policy (now + gap) =
      (plan (b.live now) intent policy now).shift gap := by
    rw [Binding.live_shift hb hnow]
    exact plan_shift (fun _ => hb.live) hfits hnow intent
  have hresult : (tx.shift gap).stage d policy (now + gap) key decide =
      ({ tx.shift gap with
        bindings := (tx.shift gap).bindings.insert key
          ((b.shift gap).stage ((plan (b.live now) intent policy now).shift gap) policy) },
        (decide ((b.live now).map (·.1))).2) := by
    unfold stage
    simp only
    rw [htouch, hvalue, hplan]
  refine ⟨fun other bound hbound => ?_, hresult.trans ?_⟩
  · have hstaged : (b.stage (plan (b.live now) intent policy now) policy).RoomFor gap :=
      hb.stage fun _ _ _ => roomFor_of_plan (fun _ => hb.live) hfits
    exact forall_insert htx key hstaged hbound
  · refine Prod.ext (congrArg (Transaction.mk tx.policy) ?_) rfl
    rw [Binding.stage_shift]
    exact (map_insert tx.bindings key _ (·.shift gap)).symm

theorem RoomFor.stageAll_shift (htx : tx.RoomFor gap) (h : Cluster.Ahead gap c d)
    (hnow : Millis.RoomFor gap now) (hfits : policy.Fits gap now)
    (decisions : List (κ × Decision V ρ)) :
    (stageAll c policy now decisions tx).1.RoomFor gap ∧
      stageAll d policy (now + gap) decisions (tx.shift gap) =
        ((stageAll c policy now decisions tx).1.shift gap, (stageAll c policy now decisions tx).2) := by
  induction decisions generalizing tx with
  | nil => exact ⟨htx, rfl⟩
  | cons head rest ih =>
      obtain ⟨key, decide⟩ := head
      obtain ⟨hroom, hstage⟩ := htx.stage_shift h hnow hfits key decide
      obtain ⟨hrest, hstages⟩ := ih hroom
      refine ⟨hrest, ?_⟩
      simp only [stageAll, hstage, hstages]

omit [LawfulEqOrd κ] in
/-- What is staged for an answer. -/
theorem map_shift {p q : Transaction κ V × ρ} (answer : ρ → Answer κ V)
    (h : p.1.RoomFor gap ∧ q = (p.1.shift gap, p.2)) :
    (p.map id answer).1.RoomFor gap ∧
      q.map id answer = ((p.map id answer).1.shift gap, (p.map id answer).2) := by
  obtain ⟨hroom, rfl⟩ := h
  exact ⟨hroom, rfl⟩

variable [Append V] [Inhabited V]

/-- An operation of a transaction staged at the moved reading. -/
theorem RoomFor.perform_shift (htx : tx.RoomFor gap) (h : Cluster.Ahead gap c d)
    (hnow : Millis.RoomFor gap now) {scope : Option Policy}
    (hfits : (Policy.effective tx.policy scope).Fits gap now) (operation : Operation κ V) :
    (tx.perform c scope now operation).1.RoomFor gap ∧
      (tx.shift gap).perform d scope (now + gap) operation =
        ((tx.perform c scope now operation).1.shift gap, (tx.perform c scope now operation).2) := by
  cases operation with
  | get key => exact map_shift _ (htx.stage_shift h hnow hfits key .get)
  | put key value => exact map_shift _ (htx.stage_shift h hnow hfits key (.put value))
  | remove key => exact map_shift _ (htx.stage_shift h hnow hfits key .remove)
  | invoke key script => exact map_shift _ (htx.stage_shift h hnow hfits key (.invoke script))
  | getAll keys =>
      exact map_shift _ (htx.stageAll_shift h hnow hfits (keys.map fun key => (key, .get)))
  | putAll entries =>
      exact map_shift _
        (htx.stageAll_shift h hnow hfits (entries.map fun entry => (entry.1, .put entry.2)))
  | removeAll keys =>
      exact map_shift _ (htx.stageAll_shift h hnow hfits (keys.map fun key => (key, .remove)))

omit [LawfulEqOrd κ] in
/-- No answer of a transaction tells a lifetime. -/
theorem perform_ne_ttl (tx : Transaction κ V) (c : Cluster κ V) (scope : Option Policy)
    (now : Millis) (operation : Operation κ V) (found : Option Ttl) :
    (tx.perform c scope now operation).2 ≠ .ttl found := by
  cases operation <;> exact nofun

end Staging

end Transaction

/-! ## Commits -/

namespace Cluster.Ahead

variable {κ : Type u} {V : Type v} [Ord κ] [TransOrd κ] [LawfulEqOrd κ] {gap now : Millis}
variable {c d : Cluster κ V}

theorem conflict? (h : Ahead gap c d) (hnow : Millis.RoomFor gap now) (tx : Transaction κ V) :
    d.conflict? (tx.shift gap) (now + gap) = c.conflict? tx now := by
  have hversion : ∀ key, (d.live? key (now + gap)).map (·.version) =
      (c.live? key now).map (·.version) := by
    intro key
    rw [h.live? key hnow, Option.map_map]
    rfl
  unfold Cluster.conflict?
  rw [tx.dirty_shift, List.find?_map, Option.map_map]
  simp only [Function.comp_def, hversion]
  rfl

variable [Hashable κ]

/-- What is staged is put in place at the moved commit. -/
theorem applyStaged (h : Ahead gap c d) (hnow : Millis.RoomFor gap now) (key : κ)
    {staged : Option (V × CommitTtl)} (hfits : ∀ pair, staged = some pair → pair.2.Fits gap now) :
    Ahead gap (c.applyStaged key staged now) (d.applyStaged key staged (now + gap)) := by
  unfold Cluster.applyStaged
  rw [h.stored?]
  cases staged with
  | none =>
      cases c.stored? key with
      | none => exact h
      | some entry =>
          simp only [Option.map_some, h.config]
          exact h.removePrimary key entry.version .removal _
  | some pair =>
      obtain ⟨value, commitTtl⟩ := pair
      -- A lifetime that is kept is the moved one, a restarted one starts at the moved commit.
      have hcurrent : ((c.stored? key).map (·.shift gap)).map (·.ttl) =
          ((c.stored? key).map (·.ttl)).map (·.shift gap) := by
        rw [Option.map_map, Option.map_map]
        rfl
      have hroom : ∀ ttl, (c.stored? key).map (·.ttl) = some ttl → ttl.RoomFor gap := by
        intro ttl httl
        obtain ⟨entry, hentry, rfl⟩ := Option.map_eq_some_iff.1 httl
        exact h.roomFor_stored hentry
      have hfits' : commitTtl.Fits gap now := hfits _ rfl
      simp only [hcurrent, CommitTtl.resolve_shift hfits' hnow]
      exact h.putPrimary key value (CommitTtl.roomFor_resolve hfits' hroom)

theorem applyAll (h : Ahead gap c d) (hnow : Millis.RoomFor gap now) (bindings : List (κ × Binding V))
    (hfits : ∀ p ∈ bindings, p.2.commitTtl.Fits gap now) :
    Ahead gap (bindings.foldl (fun c (key, b) => c.applyStaged key b.outcome now) c)
      (bindings.foldl (fun d (key, b) => d.applyStaged key (b.shift gap).outcome (now + gap)) d) := by
  induction bindings generalizing c d with
  | nil => exact h
  | cons head rest ih =>
      obtain ⟨key, b⟩ := head
      refine ih ?_ fun p hp => hfits p (List.mem_cons_of_mem _ hp)
      simp only [Binding.outcome_shift]
      refine h.applyStaged hnow key fun pair hpair => ?_
      obtain ⟨staged, -, rfl⟩ := Option.map_eq_some_iff.1 hpair
      exact hfits (key, b) List.mem_cons_self

/-- A commit at the moved reading fails for the same key, or does the same. -/
theorem commit (h : Ahead gap c d) (hnow : Millis.RoomFor gap now) {tx : Transaction κ V}
    (hfits : ∀ (key : κ) (b : Binding V), tx.bindings[key]? = some b → b.commitTtl.Fits gap now) :
    (∀ key, c.commit tx now = .error key → d.commit (tx.shift gap) (now + gap) = .error key) ∧
    ∀ c', c.commit tx now = .ok c' →
      ∃ d', d.commit (tx.shift gap) (now + gap) = .ok d' ∧ Ahead gap c' d' := by
  unfold Cluster.commit
  rw [h.conflict? hnow tx]
  cases c.conflict? tx now with
  | some key =>
      refine ⟨fun _ hfailed => hfailed, ?_⟩
      rintro _ ⟨⟩
  | none =>
      refine ⟨?_, ?_⟩ <;> rintro _ ⟨⟩
      refine ⟨_, rfl, ?_⟩
      rw [tx.dirty_shift, List.foldl_map]
      refine h.applyAll hnow tx.bindings.dirty fun p hp => ?_
      exact hfits p.1 p.2 ((tx.bindings.mem_dirty_iff p.1 p.2).1 hp).1

end Cluster.Ahead

/-! ## Runs -/

namespace Move

variable {κ : Type u} {V : Type v}

/-- The move in the run that is ahead: the clock is set to a reading that is ahead as well. -/
def shift (gap : Millis) : Move κ V → Move κ V
  | setClock now => setClock (now + gap)
  | move => move

end Move

/-- The outcome with expire times moved. -/
def Outcome.shift {κ : Type u} {V : Type v} [Ord κ] (gap : Millis) : Outcome κ V → Outcome κ V
  | answer found => answer (found.shift gap)
  | outcome => outcome

namespace System

variable {κ : Type u} {V : Type v} [Ord κ] [TransOrd κ] {gap : Millis}

/-- In both runs the move stays within the clock: it sets it to a reading that there is, and no sum that
it may form of the reading and a span is held at the latest reading. -/
def Fits (gap : Millis) (s : System κ V) : Move κ V → Prop
  | .call _ scope _ => (Policy.effective s.cluster.config.policy scope).Fits gap s.clock
  | .stage tx scope _ => ∀ opened, s.transactions[tx]? = some opened →
      (Policy.effective opened.policy scope).Fits gap s.clock
  | .commit tx => ∀ opened, s.transactions[tx]? = some opened →
      ∀ (key : κ) (b : Binding V), opened.bindings[key]? = some b → b.commitTtl.Fits gap s.clock
  | .setClock now => Millis.RoomFor gap now
  | .begin .. | .rollback _ | .sweep _ | .deliver _ => True

/-- The system with all expire times moved, under a clock that is ahead. -/
def shift (s : System κ V) (gap : Millis) : System κ V where
  cluster := s.cluster.shift gap
  clock := s.clock + gap
  transactions := s.transactions.map fun _ tx => tx.shift gap

@[simp]
theorem clock_shift (s : System κ V) (gap : Millis) : (s.shift gap).clock = s.clock + gap := rfl

/-- One system is the other with all expire times moved, for which there is room. -/
structure Ahead (gap : Millis) (s t : System κ V) : Prop where
  cluster : Cluster.Ahead gap s.cluster t.cluster
  clock : t.clock = s.clock + gap
  room : Millis.RoomFor gap s.clock
  transactions : t.transactions = s.transactions.map fun _ tx => tx.shift gap
  staged : ∀ (tx : Nat) (opened : Transaction κ V), s.transactions[tx]? = some opened →
    opened.RoomFor gap

namespace Ahead

variable {s t : System κ V}

theorem eq_shift (h : Ahead gap s t) : t = s.shift gap := by
  obtain ⟨cluster, clock, transactions⟩ := t
  obtain ⟨hcluster, rfl, -, rfl, -⟩ := h
  exact congrArg (System.mk · _ _) hcluster.eq

theorem getElem?_transactions (h : Ahead gap s t) (tx : Nat) :
    t.transactions[tx]? = s.transactions[tx]?.map (·.shift gap) := by
  rw [h.transactions]
  exact ExtTreeMap.getElem?_map

theorem insert (h : Ahead gap s t) (tx : Nat) {opened : Transaction κ V}
    (hopened : opened.RoomFor gap) :
    Ahead gap { s with transactions := s.transactions.insert tx opened }
      { t with transactions := t.transactions.insert tx (opened.shift gap) } where
  cluster := h.cluster
  clock := h.clock
  room := h.room
  transactions := by
    rw [h.transactions]
    exact (map_insert s.transactions tx opened (·.shift gap)).symm
  staged _ _ hfound := forall_insert h.staged tx hopened hfound

theorem erase (h : Ahead gap s t) (tx : Nat) :
    Ahead gap { s with transactions := s.transactions.erase tx }
      { t with transactions := t.transactions.erase tx } where
  cluster := h.cluster
  clock := h.clock
  room := h.room
  transactions := by
    rw [h.transactions]
    exact (map_erase s.transactions tx (·.shift gap)).symm
  staged _ _ hfound := forall_erase h.staged hfound

theorem withCluster (h : Ahead gap s t) {c d : Cluster κ V} (hcluster : Cluster.Ahead gap c d) :
    Ahead gap { s with cluster := c } { t with cluster := d } :=
  ⟨hcluster, h.clock, h.room, h.transactions, h.staged⟩

variable [LawfulEqOrd κ] [Hashable κ] [DecidableEq V] [Append V] [Inhabited V]

/-- A move in the run that is ahead. -/
theorem step (h : Ahead gap s t) {move : Move κ V} (hfits : s.Fits gap move) :
    Ahead gap (s.step move).1 (t.step (move.shift gap)).1 ∧
      (t.step (move.shift gap)).2 = (s.step move).2.shift gap := by
  obtain ⟨d, clock, transactions⟩ := t
  obtain rfl : clock = s.clock + gap := h.clock
  cases move with
  | call node scope operation =>
      have hcall : d.call node scope (s.clock + gap) = _ := h.cluster.call node scope s.clock
      simp only [Move.shift, System.step, hcall]
      cases hcalled : s.cluster.call node scope s.clock with
      | error e => exact ⟨h, rfl⟩
      | ok call =>
          obtain ⟨-, hcall⟩ := Cluster.call_ok hcalled
          have hroom : Millis.RoomFor gap call.now := hcall ▸ h.room
          have hfits' : call.policy.Fits gap call.now := hcall ▸ hfits
          obtain ⟨hcluster, hanswer⟩ := h.cluster.perform hroom hfits' operation
          exact ⟨h.withCluster hcluster, congrArg Outcome.answer hanswer⟩
  | begin tx node scope =>
      have hcall : d.call node scope (s.clock + gap) = _ := h.cluster.call node scope s.clock
      simp only [Move.shift, System.step, hcall]
      cases hcalled : s.cluster.call node scope s.clock with
      | error e => exact ⟨h, rfl⟩
      | ok call =>
          have hbegin : Transaction.begin d call.policy = Transaction.begin s.cluster call.policy := by
            unfold Transaction.begin
            rw [h.cluster.config]
          simp only [Except.map, hbegin]
          cases hbegun : Transaction.begin s.cluster call.policy with
          | error e => exact ⟨h, rfl⟩
          | ok opened =>
              obtain ⟨hshift, hroom⟩ : opened.shift gap = opened ∧ opened.RoomFor gap :=
                Transaction.shift_begin hbegun
              have hinsert := h.insert tx hroom
              rw [hshift] at hinsert
              exact ⟨hinsert, rfl⟩
  | stage tx scope operation =>
      have hopen : transactions[tx]? = _ := h.getElem?_transactions tx
      simp only [Move.shift, System.step, hopen]
      cases hopened : s.transactions[tx]? with
      | none => exact ⟨h, rfl⟩
      | some opened =>
          obtain ⟨hroom, heq⟩ := (h.staged tx opened hopened).perform_shift h.cluster h.room
            (hfits opened hopened) operation
          simp only [Option.map_some, heq]
          refine ⟨h.insert tx hroom, congrArg Outcome.answer ?_⟩
          exact (Answer.shift_of_ne (opened.perform_ne_ttl s.cluster scope s.clock operation)).symm
  | commit tx =>
      have hopen : transactions[tx]? = _ := h.getElem?_transactions tx
      simp only [Move.shift, System.step, hopen]
      cases hopened : s.transactions[tx]? with
      | none => exact ⟨h, rfl⟩
      | some opened =>
          obtain ⟨hfails, hdone⟩ := h.cluster.commit h.room (hfits opened hopened)
          cases hcommit : s.cluster.commit opened s.clock with
          | error key =>
              simp only [Option.map_some, hfails key hcommit, hcommit]
              exact ⟨h.erase tx, rfl⟩
          | ok c =>
              obtain ⟨d', hcommit', hcluster⟩ := hdone c hcommit
              simp only [Option.map_some, hcommit', hcommit]
              exact ⟨(h.erase tx).withCluster hcluster, rfl⟩
  | rollback tx =>
      have hopen : transactions[tx]? = _ := h.getElem?_transactions tx
      simp only [Move.shift, System.step, hopen]
      cases s.transactions[tx]? with
      | none => exact ⟨h, rfl⟩
      | some opened => exact ⟨h.erase tx, rfl⟩
  | sweep node =>
      obtain ⟨hcluster, hcount⟩ := h.cluster.sweep node h.room
      exact ⟨h.withCluster hcluster, congrArg Outcome.swept hcount⟩
  | deliver node => exact ⟨h.withCluster (h.cluster.deliver node), rfl⟩
  | setClock now => exact ⟨⟨h.cluster, rfl, hfits, h.transactions, h.staged⟩, rfl⟩

omit [LawfulEqOrd κ] in
/-- The lifetimes that a move is answered with can be moved. -/
theorem roomFor_step (h : Ahead gap s t) {move : Move κ V} {found : Ttl}
    (hanswer : (s.step move).2 = .answer (.ttl (some found))) : found.RoomFor gap := by
  cases move with
  | call node scope operation =>
      simp only [System.step] at hanswer
      cases hcalled : s.cluster.call node scope s.clock with
      | error e => simp [hcalled] at hanswer
      | ok call =>
          simp only [hcalled] at hanswer
          exact h.cluster.roomFor_answer (Outcome.answer.inj hanswer)
  | stage tx scope operation =>
      simp only [System.step] at hanswer
      split at hanswer
      · cases hanswer
      · exact absurd (Outcome.answer.inj hanswer) (Transaction.perform_ne_ttl _ _ _ _ _ _)
  | begin tx node scope | commit tx | rollback tx =>
      simp only [System.step] at hanswer
      repeat' split at hanswer
      all_goals cases hanswer
  | sweep | deliver | setClock => cases hanswer

end Ahead

variable [Hashable κ] [DecidableEq V] [Append V] [Inhabited V]

/-- In both runs every move stays within the clock. -/
def FitsThroughout (gap : Millis) : List (Move κ V) → System κ V → Prop
  | [], _ => True
  | move :: rest, s => s.Fits gap move ∧ FitsThroughout gap rest (s.step move).1

variable [LawfulEqOrd κ]

theorem Ahead.run {s t : System κ V} (h : Ahead gap s t) {moves : List (Move κ V)}
    (hfits : FitsThroughout gap moves s) :
    Ahead gap (run moves s).1 (run (moves.map (·.shift gap)) t).1 ∧
      (run (moves.map (·.shift gap)) t).2 = (run moves s).2.map (·.shift gap) ∧
      ∀ found, .answer (.ttl (some found)) ∈ (run moves s).2 → found.RoomFor gap := by
  induction moves generalizing s t with
  | nil => exact ⟨h, rfl, nofun⟩
  | cons move rest ih =>
      obtain ⟨hstep, houtcome⟩ := h.step hfits.1
      obtain ⟨hrest, houtcomes, hfound⟩ := ih hstep hfits.2
      refine ⟨hrest, congrArg₂ List.cons houtcome houtcomes, fun found hmem => ?_⟩
      rcases List.mem_cons.1 hmem with hhead | htail
      · exact h.roomFor_step hhead.symm
      · exact hfound found htail

omit [Hashable κ] [DecidableEq V] [Append V] [Inhabited V] in
/-- A cluster without entries looks the same at any time. -/
theorem ahead_start {config : CacheConfig} {nodes : Nat} {affinity : Affinity κ} {c₀ : Cluster κ V}
    (hstart : Cluster.start config nodes affinity = .ok c₀) {now : Millis}
    (hnow : Millis.RoomFor gap now) :
    Ahead gap { cluster := c₀, clock := now } { cluster := c₀, clock := now + gap } where
  cluster := by
    obtain ⟨-, rfl⟩ := Cluster.start_ok hstart
    refine ⟨fun node n hn => ?_, ?_⟩
    · rw [List.eq_of_mem_replicate (List.mem_of_getElem? hn)]
      refine ⟨fun target => ?_, nofun⟩
      cases target with
      | owned | near => exact Store.roomFor_empty config.eager
    · have hempty : (Node.empty config.eager : Node κ V).shift gap = .empty config.eager := by
        simp only [Node.shift, Node.empty, Store.shift_empty, List.map_nil]
      simp only [Cluster.shift, Network.empty, List.map_replicate, hempty]
  clock := rfl
  room := hnow
  transactions := (ExtTreeMap.map_eq_empty_iff.2 rfl).symm
  staged tx opened hopened := by simp at hopened

/-- Time translation. Take a run of a cluster, and the run of the same moves under a clock that is ahead
by some gap, both of which stay within the clock. Every move has the same result in both, but that the
expire times that are told are later by the gap. They end in the same state, but that all expire times in
it are later by the gap: copies with the same values, versions and spans, the same messages and readers,
and the same statistics. An expire time of zero, which stands for no limit, is zero in both. -/
theorem time_translation {config : CacheConfig} {nodes : Nat} {affinity : Affinity κ}
    {c₀ : Cluster κ V} (hstart : Cluster.start config nodes affinity = .ok c₀) {now gap : Millis}
    (hnow : Millis.RoomFor gap now) {moves : List (Move κ V)}
    (hfits : FitsThroughout gap moves { cluster := c₀, clock := now }) {s t : System κ V}
    {outcomes outcomes' : List (Outcome κ V)}
    (hrun : run moves { cluster := c₀, clock := now } = (s, outcomes))
    (hahead : run (moves.map (·.shift gap)) { cluster := c₀, clock := now + gap } = (t, outcomes')) :
    outcomes' = outcomes.map (·.shift gap) ∧ t = s.shift gap ∧
    (∀ found, .answer (.ttl (some found)) ∈ outcomes → found.Later gap (found.shift gap)) ∧
    (∀ node target key,
      t.cluster.copy? node target key = (s.cluster.copy? node target key).map (·.shift gap)) ∧
    (∀ node target key entry, s.cluster.copy? node target key = some entry →
      entry.ttl.Later gap (entry.shift gap).ttl) ∧
    (∀ node, t.cluster.queue node = (s.cluster.queue node).map (·.shift gap)) ∧
    (∀ node m key entry, m ∈ s.cluster.queue node → m.update = .put key entry →
      entry.ttl.Later gap (entry.shift gap).ttl) ∧
    (∀ node key, t.cluster.readers? node key = s.cluster.readers? node key) ∧
    t.cluster.nodes.map (·.stats) = s.cluster.nodes.map (·.stats) ∧
    t.cluster.stats = s.cluster.stats ∧ t.cluster.version = s.cluster.version := by
  obtain ⟨h, houtcomes, hfound⟩ := (ahead_start hstart hnow).run hfits
  rw [hrun] at h houtcomes hfound
  rw [hahead] at h houtcomes
  refine ⟨houtcomes, h.eq_shift, fun found hmem => Ttl.later_shift (hfound found hmem),
    h.cluster.copy?, fun node target key entry hcopy => Ttl.later_shift (h.cluster.roomFor_copy hcopy),
    h.cluster.queue, ?_, h.cluster.readers?, h.cluster.stats_nodes,
    congrArg Stats.total h.cluster.stats_nodes, h.cluster.version⟩
  intro node m key entry hmem hput
  have hroom := h.cluster.roomFor_queue hmem
  rw [hput] at hroom
  exact Ttl.later_shift hroom

/-- An entry is stored to live for 30 milliseconds, reaches its backup, and is asked for its lifetime
a little later. -/
def aging : List (Move Nat (List Nat)) :=
  [.call 0 (some (.custom (.created (.millis 30)))) (.put 0 [7]), .deliver 1, .setClock 2,
    .call 1 none (.ttl 0)]

theorem time_translation_aging :
    ∃ (c₀ : Cluster Nat (List Nat)) (s t : System Nat (List Nat))
      (outcomes outcomes' : List (Outcome Nat (List Nat))),
      Cluster.start { near := true } 3 trio = .ok c₀ ∧
      FitsThroughout 1000 aging { cluster := c₀, clock := 0 } ∧
      run aging { cluster := c₀, clock := 0 } = (s, outcomes) ∧
      run (aging.map (·.shift 1000)) { cluster := c₀, clock := 0 + 1000 } = (t, outcomes') ∧
      outcomes' = outcomes.map (·.shift 1000) ∧ t.clock = 1002 ∧
      s.cluster.copy? 1 .owned 0 = some { value := [7], version := 1, ttl := .lasting 30 0 } ∧
      t.cluster.copy? 1 .owned 0 = some { value := [7], version := 1, ttl := .lasting 30 1000 } := by
  let c₀ : Cluster Nat (List Nat) :=
    { config := { near := true }, affinity := trio, nodes := .empty 3 true }
  have hstart : Cluster.start { near := true } 3 trio = .ok c₀ := rfl
  have hnow : Millis.RoomFor 1000 0 := by
    unfold Millis.RoomFor
    decide
  have hclock : Millis.RoomFor 1000 2 := by
    unfold Millis.RoomFor
    decide
  have hput : (Policy.custom (.created (.millis 30))).Fits 1000 0 := by
    intro kind span h hspan
    cases kind <;> cases h
    decide
  have hread : Policy.unset.Fits 1000 2 := by
    intro kind span h hspan
    cases kind <;> cases h
  have hfits : FitsThroughout 1000 aging { cluster := c₀, clock := 0 } :=
    ⟨hput, trivial, hclock, hread, trivial⟩
  have hreading : (run aging { cluster := c₀, clock := 0 }).1.clock = 2 := by decide +kernel
  have hcopy : (run aging { cluster := c₀, clock := 0 }).1.cluster.copy? 1 .owned 0 =
      some { value := [7], version := 1, ttl := .lasting 30 0 } := by decide +kernel
  obtain ⟨⟨s, outcomes⟩, hrun⟩ : ∃ result, run aging { cluster := c₀, clock := 0 } = result := ⟨_, rfl⟩
  obtain ⟨⟨t, outcomes'⟩, hahead⟩ :
      ∃ result, run (aging.map (·.shift 1000)) { cluster := c₀, clock := 0 + 1000 } = result := ⟨_, rfl⟩
  rw [hrun] at hreading hcopy
  obtain ⟨houtcomes, hstate, -, hcopies, -⟩ := time_translation hstart hnow hfits hrun hahead
  refine ⟨c₀, s, t, outcomes, outcomes', hstart, hfits, hrun, hahead, houtcomes, ?_, hcopy, ?_⟩
  · rw [hstate, clock_shift, hreading]
    decide
  · rw [hcopies, hcopy]
    decide

end System

end Ephemera
