import Ephemera.Proofs.Trace

/-! # Touches staged and touches made at once

What a transaction stages for a key is compared with what comes of making the same touches, one after
the other, at the commit. Both always keep the same value. The lifetimes agree as well, but for one
case: a read that is to restart the lifetime of the entry, and is staged at the very reading of the
clock at which that lifetime had begun, is planned as no change at all. What it decided is forgotten,
and the old lifetime runs on.
-/

namespace Ephemera

open Std

universe u v

/-- The kind of touch that an intent makes on a key that is or is not present, if it makes one that
has a duration. -/
def Intent.touch? {V : Type u} (present : Bool) : Intent V → Option Touch
  | write _ => some (if present then .update else .create)
  | read => if present then some .access else none
  | remove | ignore => none

/-- One touch of a key by a transaction. -/
structure Staging (V : Type v) where
  policy : Policy
  /-- When it is staged. -/
  now : Millis
  /-- What it intends when it sees a value, or none. -/
  intent : Option V → Intent V
  /-- The live copy on the primary when it is staged. -/
  found : Option (Entry V)

namespace Staging

variable {V : Type v}

/-- What becomes of value and lifetime when the touch is made at `now`. -/
def direct (now : Millis) (live : Option (V × Ttl)) (t : Staging V) : Option (V × Ttl) :=
  (plan live (t.intent (live.map (·.1))) t.policy now).outcome live

/-- The duration that the policy gives for what the touch does. -/
def duration? (live : Option (V × Ttl)) (t : Staging V) : Option Duration :=
  ((t.intent (live.map (·.1))).touch? live.isSome).bind t.policy.on

/-- Counted from `now`, every duration of the policy ends before the clock does. -/
def Fits (now : Millis) (t : Staging V) : Prop :=
  ∀ kind span, t.policy.on kind = some (.millis span) →
    now.toNat + span.toNat < Millis.latest.toNat

/-- Of two pairs with one value, the lifetimes tell whether they are the same. -/
theorem ttl_eq_iff {p q : Option (V × Ttl)} (hvalue : p.map (·.1) = q.map (·.1)) :
    p.map (·.2) = q.map (·.2) ↔ p = q := by
  cases p with
  | none => simp [Option.map_eq_none_iff.1 hvalue.symm]
  | some pair =>
      obtain ⟨pair', rfl, hsame⟩ := Option.map_eq_some_iff.1 hvalue.symm
      simp only [Option.map_some, Option.some.injEq, Prod.ext_iff, hsame, true_and]

/-- Made at `now`, the touches leave the key present throughout and give no duration. -/
def Keeps (now : Millis) : List (Staging V) → Option (V × Ttl) → Prop
  | [], live => live.isSome
  | t :: rest, live => live.isSome ∧ t.duration? live = none ∧ Keeps now rest (t.direct now live)

end Staging

namespace Binding

variable {V : Type v}

/-- Stage a touch. -/
def record (b : Binding V) (t : Staging V) : Binding V :=
  let live := b.live t.now
  b.stage (plan live (t.intent (live.map (·.1))) t.policy t.now) t.policy

/-- What a commit at `now` makes of a key whose primary copy has not changed. -/
def committed (b : Binding V) (now : Millis) : Option (V × Ttl) :=
  b.staged.map fun (value, ttl) => (value, b.commitTtl.resolve (some ttl) now)

/-- The touch is a read that should restart the lifetime, and finds that it would be the lifetime
that there is. By the time of a commit at `now` it would be another. -/
def Overlooks (now : Millis) (b : Binding V) (t : Staging V) : Prop :=
  ∃ value ttl span, b.live t.now = some (value, ttl) ∧ t.intent (some value) = .read ∧
    t.policy.on .access = some (.millis span) ∧ span ≠ 0 ∧ ttl = .lasting span t.now ∧ t.now ≠ now

/-- One of the touches is overlooked. -/
def OverlooksAny (now : Millis) : Binding V → List (Staging V) → Prop
  | _, [] => False
  | b, t :: rest => b.Overlooks now t ∨ OverlooksAny now (b.record t) rest

/-- A restart is overlooked, and no later touch settles the lifetime anew or removes the key. -/
structure LosesRestart (now : Millis) (b : Binding V) (touches : List (Staging V)) : Prop where
  overlooks : OverlooksAny now b touches
  present : (touches.foldl record b).staged.isSome
  kept : (touches.foldl record b).commitTtl = .keep

/-- The record of a key beside what its touches would do if they were made at `now`: the pair that
they would leave, the staged pair, and what is to become of its lifetime. The transaction has `found`
the key with a pair or without, and a touch has been overlooked if `lost`. -/
inductive Tracks (now : Millis) (found : Option (V × Ttl)) (lost : Prop) :
    Option (V × Ttl) → Option (V × Ttl) → CommitTtl → Prop where
  | absent : Tracks now found lost none none .keep
  | kept {value : V} {ttl direct : Ttl} (hfound : found.map (·.2) = some ttl)
      (hsame : ¬lost → direct = ttl)
      (hlost : lost → direct = .lasting ttl.span now ∧ direct ≠ ttl) :
      Tracks now found lost (some (value, direct)) (some (value, ttl)) .keep
  | restarted {value : V} {ttl : Ttl} {span : Millis} (hspan : ttl.span = span)
      (hplain : ttl.deleted = false) (hlive : (Ttl.lasting span now).expiredAt now = false) :
      Tracks now found lost (some (value, .lasting span now)) (some (value, ttl)) (.restart span)

/-- The pair that was found is one of the cluster, and is live at the commit. -/
def Visible (now : Millis) (found : Option (V × Ttl)) : Prop :=
  ∀ pair, found = some pair → pair.2.deleted = false ∧ pair.2.expiredAt now = false

namespace Tracks

variable {now : Millis} {found d staged : Option (V × Ttl)} {lost lost' : Prop}
  {commitTtl : CommitTtl}

theorem congr (h : Tracks now found lost d staged commitTtl) (hlost : lost' ↔ lost) :
    Tracks now found lost' d staged commitTtl := by
  rw [propext hlost]
  exact h

/-- Another value with the same lifetimes. -/
theorem replace {value next : V} {ttl direct : Ttl}
    (h : Tracks now found lost (some (value, direct)) (some (value, ttl)) commitTtl) :
    Tracks now found lost (some (next, direct)) (some (next, ttl)) commitTtl := by
  cases h with
  | kept hfound hsame hlost => exact .kept hfound hsame hlost
  | restarted hspan hplain hlive => exact .restarted hspan hplain hlive

/-- Where the record has a pair, the touches would leave one with the same value. -/
theorem present {value : V} {ttl : Ttl} (hvisible : Visible now found)
    (h : Tracks now found lost d (some (value, ttl)) commitTtl) :
    ∃ direct, d = some (value, direct) ∧ ttl.deleted = false ∧ direct.deleted = false := by
  cases h with
  | @kept _ _ direct hfound hsame hlost =>
      obtain ⟨pair, hpair, rfl⟩ := Option.map_eq_some_iff.1 hfound
      have hplain := (hvisible pair hpair).1
      refine ⟨direct, rfl, hplain, ?_⟩
      by_cases h : lost
      · rw [(hlost h).1]
        exact Ttl.deleted_lasting _ _
      · rw [hsame h]
        exact hplain
  | @restarted _ _ span _ hplain _ =>
      exact ⟨.lasting span now, rfl, hplain, Ttl.deleted_lasting _ _⟩

/-- What is staged for a key that was live at the commit is seen at any time before. -/
theorem live_eq {b : Binding V} (hvisible : Visible now found)
    (h : Tracks now found lost d b.staged b.commitTtl) {earlier : Millis} (hle : earlier ≤ now) :
    b.live earlier = b.staged := by
  obtain ⟨base, staged, commitTtl, dirty⟩ := b
  cases h with
  | absent => rfl
  | kept hfound _ _ =>
      obtain ⟨pair, hpair, rfl⟩ := Option.map_eq_some_iff.1 hfound
      simp [live, Ttl.not_expiredAt_of_le hle (hvisible pair hpair).2]
  | restarted => rfl

/-- A lifetime that starts at the commit. -/
theorem restart {t : Staging V} {kind : Touch} {duration : Duration} (value : V) {ttl : Ttl}
    (hpolicy : t.policy.on kind = some duration) (hfits : t.Fits now)
    (hspan : ttl.span = duration.span) (hplain : ttl.deleted = false) :
    Tracks now found lost (some (value, .lasting duration.span now)) (some (value, ttl))
      (.restart duration.span) := by
  refine .restarted hspan hplain (Ttl.expiredAt_lasting fun hne => ?_)
  cases duration with
  | eternal => exact absurd rfl hne
  | millis ms => exact hfits kind ms hpolicy

variable {b : Binding V} {t : Staging V}

/-- A touch of a key that is absent to the transaction. -/
theorem record_absent (h : Tracks now found lost d b.staged b.commitTtl) (hstaged : b.staged = none)
    (hlive : b.live t.now = none)
    (hfits : t.Fits now) :
    Tracks now found lost (t.direct now d) (b.record t).staged (b.record t).commitTtl := by
  obtain ⟨base, staged, commitTtl, dirty⟩ := b
  cases hstaged
  obtain ⟨rfl, rfl⟩ : d = none ∧ commitTtl = .keep := by
    cases h
    exact ⟨rfl, rfl⟩
  unfold record Staging.direct
  simp only [hlive, Option.map_none]
  cases t.intent none with
  | write value =>
      simp only [plan]
      cases hpolicy : t.policy.on .create with
      | none =>
          simp only [Ttl.touch, Plan.outcome, stage, CommitTtl.ofTouch, hpolicy, Option.getD_some]
          exact @restarted _ now found lost value .eternal 0 rfl rfl rfl
      | some duration =>
          simp only [Ttl.touch_some]
          by_cases hzero : duration.isZero
          · simp only [hzero, if_true, Plan.outcome, stage]
            exact .absent
          · simp only [hzero, Bool.false_eq_true, if_false, Plan.outcome, stage,
              CommitTtl.ofTouch_some hpolicy, Option.getD_some]
            exact restart value hpolicy hfits (by simp) (by simp)
  | read | remove | ignore => exact .absent

/-- A touch that replaces the value of a key. -/
theorem record_write {value next : V} {ttl direct : Ttl}
    (h : Tracks now found lost (some (value, direct)) b.staged b.commitTtl)
    (hstaged : b.staged = some (value, ttl)) (hlive : b.live t.now = some (value, ttl))
    (hplain : ttl.deleted = false) (hdirect : direct.deleted = false)
    (hintent : t.intent (some value) = .write next)
    (hfits : t.Fits now) :
    Tracks now found lost (t.direct now (some (value, direct))) (b.record t).staged
      (b.record t).commitTtl := by
  unfold record Staging.direct
  simp only [hlive, Option.map_some, hintent, plan]
  cases hpolicy : t.policy.on .update with
  | none =>
      have hupdate : Touch.update ≠ .create := by simp
      simp only [Ttl.touch_none hplain hupdate, Ttl.touch_none hdirect hupdate, Plan.outcome, stage,
        CommitTtl.ofTouch_none hpolicy hupdate, Option.getD_none]
      rw [hstaged] at h
      exact h.replace
  | some duration =>
      simp only [Ttl.touch_some]
      by_cases hzero : duration.isZero
      · simp only [hzero, if_true, Plan.outcome, stage]
        exact .absent
      · simp only [hzero, Bool.false_eq_true, if_false, Plan.outcome, stage,
          CommitTtl.ofTouch_some hpolicy, Option.getD_some]
        exact restart next hpolicy hfits (by simp) (by simp)

/-- A read that gives the lifetime that there is already. If that was staged before the commit the
restart is overlooked, unless one has been recorded. -/
theorem restart_unchanged {value : V} {ttl direct : Ttl} {duration : Duration}
    (h : Tracks now found lost (some (value, direct)) b.staged b.commitTtl)
    (hstaged : b.staged = some (value, ttl)) (hlive : b.live t.now = some (value, ttl))
    (hintent : t.intent (some value) = .read) (hpolicy : t.policy.on .access = some duration)
    (hzero : duration.isZero = false) (hsame : Ttl.lasting duration.span t.now = ttl)
    (hnow : t.now ≤ now)
    (hfits : t.Fits now) :
    Tracks now found (lost ∨ b.Overlooks now t) (some (value, .lasting duration.span now)) b.staged
      b.commitTtl := by
  have hspan : ttl.span = duration.span := by
    rw [← hsame, Ttl.span_lasting]
  have hplain : ttl.deleted = false := by
    rw [← hsame, Ttl.deleted_lasting]
  have hoverlooks : b.Overlooks now t ↔ ttl ≠ .lasting duration.span now := by
    constructor
    · rintro ⟨value', ttl', span, hlive', -, hpolicy', hspan', rfl, hne⟩ heq
      cases hlive.symm.trans hlive'
      cases hpolicy.symm.trans hpolicy'
      exact hne (Ttl.lasting_inj hspan' hnow (hfits .access span hpolicy') heq)
    · intro hne
      cases duration with
      | eternal => exact absurd hsame.symm hne
      | millis span =>
          refine ⟨value, ttl, span, hlive, hintent, hpolicy, ?_, hsame.symm, ?_⟩
          · rintro rfl
            exact hne hsame.symm
          · rintro hcommit
            rw [hcommit] at hsame
            exact hne hsame.symm
  rw [hstaged] at h ⊢
  generalize b.commitTtl = commitTtl at h
  cases h with
  | kept hfound hstays hlost =>
      refine .kept hfound ?_ ?_
      · intro hkept
        rw [not_or, hoverlooks, Classical.not_not] at hkept
        exact hkept.2.symm
      · rintro (hlost' | hover)
        · obtain ⟨rfl, hne⟩ := hlost hlost'
          rw [hspan] at hne ⊢
          exact ⟨rfl, hne⟩
        · rw [hspan]
          exact ⟨rfl, Ne.symm (hoverlooks.1 hover)⟩
  | @restarted _ _ span hspan' _ hlive' =>
      obtain rfl : span = duration.span := hspan'.symm.trans hspan
      exact .restarted hspan hplain hlive'

/-- A touch that reads the value of a key. -/
theorem record_read {value : V} {ttl direct : Ttl}
    (h : Tracks now found lost (some (value, direct)) b.staged b.commitTtl)
    (hstaged : b.staged = some (value, ttl)) (hlive : b.live t.now = some (value, ttl))
    (hplain : ttl.deleted = false) (hdirect : direct.deleted = false)
    (hintent : t.intent (some value) = .read) (hnow : t.now ≤ now)
    (hfits : t.Fits now) :
    Tracks now found (lost ∨ b.Overlooks now t) (t.direct now (some (value, direct)))
      (b.record t).staged (b.record t).commitTtl := by
  have houtcome : ∀ next, (if next = direct then Plan.unchanged
      else .put value next .access).outcome (some (value, direct)) = some (value, next) := by
    intro next
    split
    next heq => rw [heq]; rfl
    next => rfl
  cases hpolicy : t.policy.on .access with
  | none =>
      have hoverlooks : ¬b.Overlooks now t := by
        rintro ⟨_, _, _, _, _, hpolicy', _⟩
        cases hpolicy.symm.trans hpolicy'
      have hrecord : b.record t = b := by
        simp [record, hlive, hintent, plan, hpolicy, Ttl.touch_none hplain, stage]
      have hstays : t.direct now (some (value, direct)) = some (value, direct) := by
        simp [Staging.direct, hintent, plan, hpolicy, Ttl.touch_none hdirect, Plan.outcome]
      rw [hrecord, hstays]
      exact h.congr (or_iff_left hoverlooks)
  | some duration =>
      unfold Staging.direct
      simp only [Option.map_some, hintent, plan, hpolicy, Ttl.touch_some]
      cases hzero : duration.isZero with
      | true =>
          simp only [record, hlive, Option.map_some, hintent, plan, hpolicy, Ttl.touch_some, hzero,
            if_true, Plan.outcome, stage]
          exact .absent
      | false =>
          simp only [Bool.false_eq_true, if_false, houtcome]
          by_cases hsame : Ttl.lasting duration.span t.now = ttl
          · have hrecord : b.record t = b := by
              simp [record, hlive, hintent, plan, hpolicy, Ttl.touch_some, hzero, hsame, stage]
            rw [hrecord]
            exact h.restart_unchanged hstaged hlive hintent hpolicy hzero hsame hnow hfits
          · simp only [record, hlive, Option.map_some, hintent, plan, hpolicy, Ttl.touch_some, hzero,
              Bool.false_eq_true, if_false, hsame, stage, CommitTtl.ofTouch_some hpolicy,
              Option.getD_some]
            exact restart value hpolicy hfits (by simp) (by simp)

theorem not_overlooks {value : V} {ttl : Ttl} (now : Millis) (hlive : b.live t.now = some (value, ttl))
    (hintent : t.intent (some value) ≠ .read) : ¬b.Overlooks now t := by
  rintro ⟨value', ttl', span, hlive', hintent', -⟩
  cases hlive.symm.trans hlive'
  exact hintent hintent'

/-- Each touch keeps the record beside what the touches would do at the commit. -/
theorem record (hvisible : Visible now found) (h : Tracks now found lost d b.staged b.commitTtl)
    (hnow : t.now ≤ now) (hfits : t.Fits now) :
    Tracks now found (lost ∨ b.Overlooks now t) (t.direct now d) (b.record t).staged
      (b.record t).commitTtl := by
  have hlive := h.live_eq hvisible hnow
  cases hstaged : b.staged with
  | none =>
      rw [hstaged] at hlive
      have hoverlooks : ¬b.Overlooks now t := by
        rintro ⟨_, _, _, hlive', -⟩
        cases hlive.symm.trans hlive'
      exact (h.record_absent hstaged hlive hfits).congr (or_iff_left hoverlooks)
  | some pair =>
      obtain ⟨value, ttl⟩ := pair
      rw [hstaged] at hlive
      obtain ⟨direct, rfl, hplain, hdirect⟩ := (hstaged ▸ h).present hvisible
      cases hintent : t.intent (some value) with
      | write next =>
          have hoverlooks := not_overlooks now hlive (by simp [hintent])
          exact (h.record_write hstaged hlive hplain hdirect hintent hfits).congr
            (or_iff_left hoverlooks)
      | read => exact h.record_read hstaged hlive hplain hdirect hintent hnow hfits
      | remove =>
          simp only [Binding.record, Staging.direct, hlive, Option.map_some, hintent, plan,
            Plan.outcome, stage]
          exact .absent
      | ignore =>
          have hoverlooks := not_overlooks now hlive (by simp [hintent])
          simp only [Binding.record, Staging.direct, hlive, Option.map_some, hintent, plan,
            Plan.outcome, stage]
          exact h.congr (or_iff_left hoverlooks)

/-- All touches together keep it so. -/
theorem follow (hvisible : Visible now found) (touches : List (Staging V)) {lost : Prop}
    {d : Option (V × Ttl)} {b : Binding V} (h : Tracks now found lost d b.staged b.commitTtl)
    (htouches : ∀ t ∈ touches, t.now ≤ now ∧ t.Fits now) :
    Tracks now found (lost ∨ OverlooksAny now b touches) (touches.foldl (Staging.direct now) d)
      (touches.foldl Binding.record b).staged (touches.foldl Binding.record b).commitTtl := by
  induction touches generalizing lost d b with
  | nil => exact h.congr (or_iff_left id)
  | cons t rest ih =>
      obtain ⟨hnow, hfits⟩ := htouches t List.mem_cons_self
      have hstep := h.record hvisible hnow hfits
      refine (ih hstep fun u hu => htouches u (List.mem_cons_of_mem t hu)).congr ?_
      exact or_assoc.symm

theorem start (now : Millis) (found : Option (V × Ttl)) : Tracks now found False found found .keep := by
  cases found with
  | none => exact .absent
  | some pair => exact .kept rfl (fun _ => rfl) False.elim

end Tracks

/-- Staging nothing new leaves a record as it is. -/
theorem stage_of_clean {b : Binding V} {p : Plan V} {policy : Policy}
    (h : (b.stage p policy).dirty = false) : b.stage p policy = b := by
  cases p with
  | unchanged => rfl
  | put | remove => cases h

theorem foldl_record_of_clean {b : Binding V} (touches : List (Staging V))
    (h : (touches.foldl record b).dirty = false) : touches.foldl record b = b := by
  induction touches generalizing b with
  | nil => rfl
  | cons t rest ih =>
      have hrest : rest.foldl record (b.record t) = b.record t := ih h
      have hclean : (b.record t).dirty = false := by
        rw [← hrest]
        exact h
      rw [List.foldl_cons, hrest]
      exact stage_of_clean hclean

section Commit

variable {now : Millis} {b : Binding V} {touches : List (Staging V)}

/-- What comes of a key at a commit, beside what its touches would do if all were made then. The
value is the same, and the lifetime is the same unless the restart of it was lost. -/
theorem committed_eq_direct_iff (hvisible : Visible now b.staged) (hkeep : b.commitTtl = .keep)
    (htouches : ∀ t ∈ touches, t.now ≤ now ∧ t.Fits now) :
    ((touches.foldl record b).committed now).map (·.1) =
      (touches.foldl (Staging.direct now) b.staged).map (·.1) ∧
    ((touches.foldl record b).committed now = touches.foldl (Staging.direct now) b.staged ↔
      ¬b.LosesRestart now touches) := by
  have htracks := Tracks.follow hvisible touches (b := b)
    (hkeep ▸ Tracks.start now b.staged) htouches
  have hlost : b.LosesRestart now touches ↔ (False ∨ OverlooksAny now b touches) ∧
      (touches.foldl record b).staged.isSome ∧ (touches.foldl record b).commitTtl = .keep := by
    rw [false_or]
    exact ⟨fun h => ⟨h.overlooks, h.present, h.kept⟩, fun h => ⟨h.1, h.2.1, h.2.2⟩⟩
  rw [hlost]
  unfold committed
  generalize touches.foldl (Staging.direct now) b.staged = d at htracks ⊢
  generalize (touches.foldl record b).staged = staged at htracks ⊢
  generalize (touches.foldl record b).commitTtl = commitTtl at htracks ⊢
  generalize (False ∨ OverlooksAny now b touches) = lost at htracks ⊢
  cases htracks with
  | absent => simp
  | @kept value ttl direct _ hsame hlost =>
      refine ⟨rfl, ?_⟩
      have hequal : ttl = direct ↔ ¬lost :=
        ⟨fun heq h => (hlost h).2 heq.symm, fun h => (hsame h).symm⟩
      simpa [CommitTtl.resolve] using hequal
  | restarted => simp [CommitTtl.resolve]

/-- What is committed is live. -/
theorem live_of_committed (hvisible : Visible now b.staged) (hkeep : b.commitTtl = .keep)
    (htouches : ∀ t ∈ touches, t.now ≤ now ∧ t.Fits now) {pair : V × Ttl}
    (hpair : (touches.foldl record b).committed now = some pair) :
    pair.2.expiredAt now = false := by
  have htracks := Tracks.follow hvisible touches (b := b)
    (hkeep ▸ Tracks.start now b.staged) htouches
  unfold committed at hpair
  generalize touches.foldl (Staging.direct now) b.staged = d at htracks
  generalize (touches.foldl record b).staged = staged at htracks hpair
  generalize (touches.foldl record b).commitTtl = commitTtl at htracks hpair
  cases htracks with
  | absent => cases hpair
  | kept hfound _ _ =>
      cases hpair
      obtain ⟨found, hstaged, rfl⟩ := Option.map_eq_some_iff.1 hfound
      exact (hvisible found hstaged).2
  | restarted _ _ hlive =>
      cases hpair
      exact hlive

/-- What is put in place of the copy found is what is committed. -/
theorem resolve_eq_committed (hvisible : Visible now b.staged) (hkeep : b.commitTtl = .keep)
    (htouches : ∀ t ∈ touches, t.now ≤ now ∧ t.Fits now) {current : Option Ttl}
    (hcurrent : ∀ ttl, b.staged.map (·.2) = some ttl → current = some ttl) :
    ((touches.foldl record b).outcome.map fun pair => (pair.1, pair.2.resolve current now)) =
      (touches.foldl record b).committed now := by
  have htracks := Tracks.follow hvisible touches (b := b)
    (hkeep ▸ Tracks.start now b.staged) htouches
  unfold committed outcome
  generalize touches.foldl (Staging.direct now) b.staged = d at htracks
  generalize (touches.foldl record b).staged = staged at htracks ⊢
  generalize (touches.foldl record b).commitTtl = commitTtl at htracks ⊢
  cases htracks with
  | absent => rfl
  | @kept value ttl _ hfound _ _ =>
      rw [hcurrent ttl hfound]
      rfl
  | restarted => rfl

end Commit

end Binding

namespace Staging

variable {V : Type v}

/-- Touches without a duration keep the lifetime. -/
theorem Keeps.ttl_eq {now : Millis} {touches : List (Staging V)} {value : V} {ttl : Ttl}
    (h : Keeps now touches (some (value, ttl))) (hplain : ttl.deleted = false) :
    (touches.foldl (direct now) (some (value, ttl))).map (·.2) = some ttl := by
  induction touches generalizing value with
  | nil => rfl
  | cons t rest ih =>
      obtain ⟨-, hduration, hrest⟩ := h
      obtain ⟨next, hnext⟩ : ∃ next, t.direct now (some (value, ttl)) = some (next, ttl) := by
        unfold duration? at hduration
        unfold direct at hrest ⊢
        simp only [Option.map_some, Option.isSome_some] at hduration hrest ⊢
        cases hintent : t.intent (some value) with
        | write next =>
            rw [hintent] at hduration
            have hnone : t.policy.on .update = none := hduration
            have hupdate : Touch.update ≠ .create := by simp
            exact ⟨next, by simp [plan, hnone, Ttl.touch_none hplain hupdate, Plan.outcome]⟩
        | read =>
            rw [hintent] at hduration
            have hnone : t.policy.on .access = none := hduration
            have haccess : Touch.access ≠ .create := by simp
            exact ⟨value, by simp [plan, hnone, Ttl.touch_none hplain haccess, Plan.outcome]⟩
        | remove =>
            rw [hintent] at hrest
            cases rest with
            | nil => cases hrest
            | cons => cases hrest.1
        | ignore => exact ⟨value, rfl⟩
      rw [List.foldl_cons, hnext]
      rw [hnext] at hrest
      exact ih hrest

/-- A touch whose duration is a span of time starts a lifetime of that span. -/
theorem direct_of_duration (now : Millis) {live : Option (V × Ttl)} {t : Staging V} {span : Millis}
    (h : t.duration? live = some (.millis span)) (hspan : span ≠ 0) :
    ∃ value, t.direct now live = some (value, .lasting span now) := by
  have hzero : (Duration.millis span).isZero = false := by simpa [Duration.isZero] using hspan
  unfold duration? at h
  unfold direct
  cases live with
  | none =>
      simp only [Option.map_none, Option.isSome_none] at h ⊢
      cases hintent : t.intent none with
      | write value =>
          rw [hintent] at h
          have hcreate : t.policy.on .create = some (.millis span) := h
          exact ⟨value, by simp [plan, hcreate, Ttl.touch_some, hzero, Plan.outcome, Duration.span]⟩
      | read | remove | ignore =>
          rw [hintent] at h
          cases h
  | some pair =>
      obtain ⟨value, ttl⟩ := pair
      simp only [Option.map_some, Option.isSome_some] at h ⊢
      cases hintent : t.intent (some value) with
      | write next =>
          rw [hintent] at h
          have hupdate : t.policy.on .update = some (.millis span) := h
          exact ⟨next, by simp [plan, hupdate, Ttl.touch_some, hzero, Plan.outcome, Duration.span]⟩
      | read =>
          rw [hintent] at h
          have haccess : t.policy.on .access = some (.millis span) := h
          refine ⟨value, ?_⟩
          simp only [plan, haccess, Ttl.touch_some, hzero, Duration.span, Bool.false_eq_true, if_false]
          split
          next hsame => rw [hsame]; rfl
          next => rfl
      | remove | ignore =>
          rw [hintent] at h
          cases h

/-- The last touch with a duration decides the lifetime, if the key is kept after it. -/
theorem ttl_of_last_duration {now : Millis} {live : Option (V × Ttl)} {pre post : List (Staging V)}
    {t : Staging V} {span : Millis}
    (h : t.duration? (pre.foldl (direct now) live) = some (.millis span)) (hspan : span ≠ 0)
    (hkeeps : Keeps now post (t.direct now (pre.foldl (direct now) live))) :
    ((pre ++ t :: post).foldl (direct now) live).map (·.2) = some (.lasting span now) := by
  obtain ⟨value, hvalue⟩ := direct_of_duration now h hspan
  rw [hvalue] at hkeeps
  rw [List.foldl_append, List.foldl_cons, hvalue]
  exact hkeeps.ttl_eq (Ttl.deleted_lasting span now)

end Staging

end Ephemera
