import Ephemera.Proofs.Script
import Ephemera.Proofs.Trace

/-! # The reference cache

What clients believe they are talking to: one map from keys to values with lifetimes. It has no nodes,
no replicas and no sweeps, keeps a pair until it is replaced or removed, and passes over a pair that has
expired. Each operation is written out on the map: what it stores, removes or only accesses, which of the
durations of the policy the pair gets by it, and what it answers.

A primary acts on the plan for a decision. That every operation of the reference is such a decision, and
that the plan leaves visible what the reference has then, is said once for all operations
(`visible?_touch`).
-/

namespace Ephemera

open Std

universe u v w

/-- One map from keys to values with lifetimes. -/
structure Reference (κ : Type u) (V : Type v) [Ord κ] where
  pairs : ExtTreeMap κ (V × Ttl) := ∅

namespace Reference

variable {κ : Type u} {V : Type v} {ρ : Type w}

/-! ## Lifetimes -/

/-- The lifetime of a pair that has the duration from now on, if it is kept at all. No expire time is
past the last reading of the clock. -/
def lifetime (now : Millis) : Duration → Option Ttl
  | .eternal => some {}
  | .millis span =>
    if span = 0 then none
    else some { span, expireTime := .ofNat (min (now.toNat + span.toNat) Millis.latest.toNat) }

/-- The lifetime of a pair that has that duration from now on, or, if there is none, the one that
stays. -/
def renewed (now : Millis) (duration : Option Duration) (stays : Ttl) : Option Ttl :=
  duration.elim (some stays) (lifetime now)

/-- The lifetime of a pair that is created: eternal, unless the policy says otherwise. -/
def created (policy : Policy) (now : Millis) : Option Ttl :=
  match policy with
  | .unset => some {}
  | .custom durations => renewed now durations.create {}

/-- The lifetime of a pair that is updated: the one it has, unless the policy says otherwise. -/
def updated (policy : Policy) (now : Millis) (ttl : Ttl) : Option Ttl :=
  match policy with
  | .unset => some ttl
  | .custom durations => renewed now durations.update ttl

/-- The lifetime of a pair that is accessed: the one it has, unless the policy says otherwise. -/
def accessed (policy : Policy) (now : Millis) (ttl : Ttl) : Option Ttl :=
  match policy with
  | .unset => some ttl
  | .custom durations => renewed now durations.access ttl

/-! ## Operations -/

variable [Ord κ] [TransOrd κ]

/-- The pair of a key, as long as the clock has not reached its expire time. -/
def visible? (r : Reference κ V) (key : κ) (now : Millis) : Option (V × Ttl) :=
  r.pairs[key]?.filter fun (_, ttl) => ttl.expireTime = 0 ∨ now < ttl.expireTime

/-- The map with the value under the given lifetime, or without the key. -/
def keep (r : Reference κ V) (key : κ) (value : V) : Option Ttl → Reference κ V
  | some ttl => { pairs := r.pairs.insert key (value, ttl) }
  | none => { pairs := r.pairs.erase key }

/-- Store a value. -/
def put (r : Reference κ V) (policy : Policy) (now : Millis) (key : κ) (value : V) :
    Reference κ V :=
  match r.visible? key now with
  | none => r.keep key value (created policy now)
  | some (_, ttl) => r.keep key value (updated policy now ttl)

/-- Access a pair, if there is one. -/
def access (r : Reference κ V) (policy : Policy) (now : Millis) (key : κ) : Reference κ V :=
  match r.visible? key now with
  | none => r
  | some (value, ttl) => r.keep key value (accessed policy now ttl)

/-- Store a value if there is none, and tell whether it was stored. To find one is an access. -/
def putIfAbsent (r : Reference κ V) (policy : Policy) (now : Millis) (key : κ) (value : V) :
    Reference κ V × Bool :=
  match r.visible? key now with
  | none => (r.put policy now key value, true)
  | some _ => (r.access policy now key, false)

/-- Read a value. -/
def get (r : Reference κ V) (policy : Policy) (now : Millis) (key : κ) :
    Reference κ V × Option V :=
  (r.access policy now key, (r.visible? key now).map (·.1))

/-- Remove a pair, and tell whether there was one. -/
def remove (r : Reference κ V) (now : Millis) (key : κ) : Reference κ V × Bool :=
  match r.visible? key now with
  | none => (r, false)
  | some _ => ({ pairs := r.pairs.erase key }, true)

/-- Remove a pair that has the value `expected`, and tell whether it had. To find another value is an
access. -/
def removeIfEquals [DecidableEq V] (r : Reference κ V) (policy : Policy) (now : Millis) (key : κ)
    (expected : V) : Reference κ V × Bool :=
  match r.visible? key now with
  | none => (r, false)
  | some (value, _) =>
    if value = expected then ({ pairs := r.pairs.erase key }, true)
    else (r.access policy now key, false)

/-- Replace a value, and tell whether there was one. -/
def replace (r : Reference κ V) (policy : Policy) (now : Millis) (key : κ) (value : V) :
    Reference κ V × Bool :=
  match r.visible? key now with
  | none => (r, false)
  | some _ => (r.put policy now key value, true)

/-- Replace the value `expected`, and tell whether it was there. To find another value is an access. -/
def replaceIfEquals [DecidableEq V] (r : Reference κ V) (policy : Policy) (now : Millis) (key : κ)
    (expected value : V) : Reference κ V × Bool :=
  match r.visible? key now with
  | none => (r, false)
  | some (current, _) =>
    if current = expected then (r.put policy now key value, true)
    else (r.access policy now key, false)

/-- Run an entry processor on the value. What it has changed is put, or removed if no value is left; if
it has changed nothing, to have read the value is an access. -/
def invoke [Append V] [Inhabited V] (r : Reference κ V) (policy : Policy) (now : Millis) (key : κ)
    (script : List (Command V)) : Reference κ V × List (Reply V) :=
  let (final, replies) := Command.evaluate script ((r.visible? key now).map (·.1))
  let r :=
    if script.any (·.changes) then
      match final with
      | some value => r.put policy now key value
      | none => (r.remove now key).1
    else if script.any (·.reads) then r.access policy now key
    else r
  (r, replies)

/-- Store several values, in turn. -/
def putAll (policy : Policy) (now : Millis) : List (κ × V) → Reference κ V → Reference κ V
  | [], r => r
  | (key, value) :: rest, r => putAll policy now rest (r.put policy now key value)

/-- Read several keys, in turn. The pairs found are told in that order. -/
def getEach (policy : Policy) (now : Millis) :
    List κ → Reference κ V → Reference κ V × List (κ × V)
  | [], r => (r, [])
  | key :: rest, r =>
    let (s, value) := r.get policy now key
    let (s, pairs) := getEach policy now rest s
    (s, match value with
      | none => pairs
      | some value => (key, value) :: pairs)

/-- Remove several keys, in turn, and tell how many of them had a value. -/
def removeAll (now : Millis) : List κ → Reference κ V → Reference κ V × Nat
  | [], r => (r, 0)
  | key :: rest, r =>
    let (s, removed) := r.remove now key
    let (s, count) := removeAll now rest s
    (s, if removed then count + 1 else count)

/-- The keys of the visible pairs, in order. -/
def keys (r : Reference κ V) (now : Millis) : List κ :=
  r.pairs.keys.filter fun key => (r.visible? key now).isSome

/-- Perform an operation of the cache. -/
def perform [DecidableEq V] [Append V] [Inhabited V] (r : Reference κ V) (policy : Policy)
    (now : Millis) : Operation κ V → Reference κ V × Answer κ V
  | .put key value => (r.put policy now key value, .done)
  | .putAll entries => (putAll policy now entries r, .done)
  | .putIfAbsent key value => (r.putIfAbsent policy now key value).map id .flag
  | .get key => (r.get policy now key).map id .value
  | .getAll keys => (getEach policy now keys r).map id fun pairs => .values (.ofList pairs)
  | .remove key => (r.remove now key).map id .flag
  | .removeAll keys => (removeAll now keys r).map id .count
  | .removeIfEquals key expected => (r.removeIfEquals policy now key expected).map id .flag
  | .replace key value => (r.replace policy now key value).map id .flag
  | .replaceIfEquals key expected value =>
    (r.replaceIfEquals policy now key expected value).map id .flag
  | .invoke key script => (r.invoke policy now key script).map id .replies
  | .entries => (getEach policy now (r.keys now) r).map id .entries
  | .localPeek key => (r, .value ((r.visible? key now).map (·.1)))
  | .peekTtl key | .ttl key => (r, .ttl ((r.visible? key now).map (·.2)))

/-- The answers to the operations among the moves. A call without a policy has that of the cache. -/
def answers [DecidableEq V] [Append V] [Inhabited V] (default : Policy) :
    List (Move κ V) → Millis → Reference κ V → List (Answer κ V)
  | [], _, _ => []
  | .call _ scope operation :: rest, now, r =>
    let (r, answer) := r.perform (scope.getD default) now operation
    answer :: answers default rest now r
  | .setClock now :: rest, _, r => answers default rest now r
  | _ :: rest, now, r => answers default rest now r

/-! ## Operations as decisions -/

/-- Carry out an intent on a key. -/
def touch (r : Reference κ V) (policy : Policy) (now : Millis) (key : κ) : Intent V → Reference κ V
  | .write value => r.put policy now key value
  | .read => r.access policy now key
  | .remove => (r.remove now key).1
  | .ignore => r

/-- Run a decision on a key. -/
def run (r : Reference κ V) (policy : Policy) (now : Millis) (key : κ) (decide : Decision V ρ) :
    Reference κ V × ρ :=
  let (intent, result) := decide ((r.visible? key now).map (·.1))
  (r.touch policy now key intent, result)

/-- Run a decision on each key, in turn. -/
def runAll (policy : Policy) (now : Millis) :
    List (κ × Decision V ρ) → Reference κ V → Reference κ V × List ρ
  | [], r => (r, [])
  | (key, decide) :: rest, r =>
    let (r, result) := r.run policy now key decide
    let (r, results) := runAll policy now rest r
    (r, result :: results)

section Decisions

variable (r : Reference κ V) (policy : Policy) (now : Millis) (key : κ)

theorem run_get : r.run policy now key .get = r.get policy now key :=
  rfl

theorem run_putIfAbsent (value : V) :
    r.run policy now key (.putIfAbsent value) = r.putIfAbsent policy now key value := by
  unfold run putIfAbsent
  cases r.visible? key now <;> rfl

theorem run_remove : r.run policy now key .remove = r.remove now key := by
  cases hvisible : r.visible? key now <;>
    simp only [run, hvisible, Option.map, Decision.remove, touch, remove]

theorem run_removeIfEquals [DecidableEq V] (expected : V) :
    r.run policy now key (.removeIfEquals expected) = r.removeIfEquals policy now key expected := by
  cases hvisible : r.visible? key now with
  | none => simp only [run, hvisible, Option.map, Decision.removeIfEquals, touch, removeIfEquals]
  | some pair =>
      simp only [run, hvisible, Option.map, Decision.removeIfEquals, removeIfEquals]
      split <;> simp only [touch, remove, hvisible]

theorem run_replace (value : V) :
    r.run policy now key (.replace value) = r.replace policy now key value := by
  unfold run replace
  cases r.visible? key now <;> rfl

theorem run_replaceIfEquals [DecidableEq V] (expected value : V) :
    r.run policy now key (.replaceIfEquals expected value) =
      r.replaceIfEquals policy now key expected value := by
  unfold run replaceIfEquals
  cases r.visible? key now with
  | none => rfl
  | some pair =>
      simp only [Option.map, Decision.replaceIfEquals]
      split <;> rfl

theorem run_invoke [Append V] [Inhabited V] (script : List (Command V)) :
    r.run policy now key (.invoke script) = r.invoke policy now key script := by
  let live := (r.visible? key now).map (·.1)
  have hbecame := (Decision.intent_invoke script live).map (r.touch policy now key)
  have hremove : r.touch policy now key (Decision.remove live).1 = (r.remove now key).1 :=
    congrArg (·.1) (r.run_remove policy now key)
  refine Prod.ext ?_ (Decision.replies_invoke script live)
  change r.touch policy now key (Decision.invoke script live).1 = _
  unfold Command.ComesTo at hbecame
  simp only [invoke, Command.any_changes]
  cases hlast : Command.lastChange? script with
  | none =>
      simp only [hlast] at hbecame
      exact hbecame
  | some last =>
      rw [if_pos Option.isSome_some]
      cases last with
      | remove =>
          simp only [hlast] at hbecame
          rw [Command.evaluate_of_remove hlast]
          exact hbecame.trans hremove
      | probe | value | set | append =>
          simp only [hlast] at hbecame
          obtain ⟨final, hfinal, hput⟩ := hbecame
          rw [hfinal]
          exact hput

theorem runAll_put (entries : List (κ × V)) :
    (runAll policy now (entries.map fun (key, value) => (key, Decision.put value)) r).1 =
      putAll policy now entries r := by
  induction entries generalizing r with
  | nil => rfl
  | cons entry rest ih => exact ih (r.put policy now entry.1 entry.2)

theorem runAll_get (keys : List κ) :
    (runAll policy now (keys.map fun key => (key, Decision.get)) r).map id (Cluster.found keys) =
      getEach policy now keys r := by
  induction keys generalizing r with
  | nil => rfl
  | cons key rest ih =>
      have hrest := ih (r.get policy now key).1
      simp only [List.map_cons, runAll, run_get, getEach, ← hrest]
      cases (r.get policy now key).2 <;> rfl

theorem runAll_remove (keys : List κ) :
    (runAll policy now (keys.map fun key => (key, Decision.remove)) r).map id (·.countP id) =
      removeAll now keys r := by
  induction keys generalizing r with
  | nil => rfl
  | cons key rest ih =>
      have hrest := ih (r.remove now key).1
      simp only [List.map_cons, runAll, run_remove, removeAll, ← hrest]
      cases (r.remove now key).2 <;> simp [Prod.map]

end Decisions

/-! ## Lifetimes and plans -/

/-- What a touch does to an entry that is kept under a lifetime, or not at all. -/
def verdict : Option Ttl → Ttl.Verdict
  | some ttl => .retain ttl
  | none => .expire

theorem touch_some (t : Ttl) (kind : Touch) (duration : Duration) (now : Millis) :
    t.touch kind (some duration) now = verdict (lifetime now duration) := by
  rw [Ttl.touch_some]
  cases duration with
  | eternal => rfl
  | millis span =>
      have hexpire : UInt64.ofNat (min (now.toNat + span.toNat) Millis.latest.toNat) =
          now.after span := by
        rw [← UInt64.toNat_inj, Millis.toNat_after, Millis.toNat_latest, UInt64.toNat_ofNat']
        omega
      by_cases hspan : span = 0
      · simp [Duration.isZero, lifetime, verdict, hspan]
      · rw [lifetime, if_neg hspan, hexpire]
        simp [Duration.isZero, Duration.span, verdict, Ttl.lasting, hspan]

/-- A touch renews what it leaves without a duration. -/
theorem touch_renewed {t stays : Ttl} {kind : Touch} {now : Millis}
    (hstays : t.touch kind none now = .retain stays) (duration : Option Duration) :
    t.touch kind duration now = verdict (renewed now duration stays) := by
  cases duration with
  | none => exact hstays
  | some duration => exact touch_some t kind duration now

theorem touch_create (policy : Policy) (now : Millis) :
    Ttl.eternal.touch .create (policy.on .create) now = verdict (created policy now) := by
  cases policy with
  | unset => rfl
  | custom durations => exact touch_renewed rfl durations.create

theorem touch_update {ttl : Ttl} (h : ttl.deleted = false) (policy : Policy) (now : Millis) :
    ttl.touch .update (policy.on .update) now = verdict (updated policy now ttl) := by
  have hstays : ttl.touch .update none now = .retain ttl := ttl.touch_none h (by decide) now
  cases policy with
  | unset => exact hstays
  | custom durations => exact touch_renewed hstays durations.update

theorem touch_access {ttl : Ttl} (h : ttl.deleted = false) (policy : Policy) (now : Millis) :
    ttl.touch .access (policy.on .access) now = verdict (accessed policy now ttl) := by
  have hstays : ttl.touch .access none now = .retain ttl := ttl.touch_none h (by decide) now
  cases policy with
  | unset => exact hstays
  | custom durations => exact touch_renewed hstays durations.access

theorem not_deleted_of_verdict {t ttl : Ttl} {kind : Touch} {duration : Option Duration}
    {now : Millis} {kept : Option Ttl} (h : t.touch kind duration now = verdict kept)
    (hkept : kept = some ttl) : ttl.deleted = false := by
  rw [hkept] at h
  exact Ttl.not_deleted_of_touch h

theorem outcome_create (policy : Policy) (now : Millis) (value : V) :
    (plan none (.write value) policy now).outcome none =
      (created policy now).map fun ttl => (value, ttl) := by
  simp only [plan, touch_create]
  cases created policy now <;> rfl

theorem outcome_update {ttl : Ttl} (h : ttl.deleted = false) (policy : Policy) (now : Millis)
    (old value : V) :
    (plan (some (old, ttl)) (.write value) policy now).outcome (some (old, ttl)) =
      (updated policy now ttl).map fun ttl => (value, ttl) := by
  simp only [plan, touch_update h]
  cases updated policy now ttl <;> rfl

theorem outcome_access {ttl : Ttl} (h : ttl.deleted = false) (policy : Policy) (now : Millis)
    (value : V) :
    (plan (some (value, ttl)) .read policy now).outcome (some (value, ttl)) =
      (accessed policy now ttl).map fun ttl => (value, ttl) := by
  simp only [plan, touch_access h]
  cases accessed policy now ttl with
  | none => rfl
  | some stays =>
      -- An access that leaves the lifetime as it is changes nothing.
      by_cases hstays : stays = ttl <;> simp [verdict, hstays, Plan.outcome]

/-! ## Touching a key -/

/-- Only a transaction reports the lifetime of a removed key; no pair has one. -/
def Plain (r : Reference κ V) : Prop :=
  ∀ (key : κ) (pair : V × Ttl), r.pairs[key]? = some pair → pair.2.deleted = false

/-- A pair is visible until it has expired. -/
theorem visible?_eq (r : Reference κ V) (key : κ) (now : Millis) :
    r.visible? key now = r.pairs[key]?.filter fun pair => !pair.2.expiredAt now := by
  unfold visible?
  congr 1
  funext pair
  rw [Bool.eq_iff_iff, Bool.not_eq_true', ← Bool.not_eq_true, Ttl.expiredAt_iff, decide_eq_true_iff,
    Decidable.not_and_iff_not_or_not, Decidable.not_not, UInt64.not_le]

theorem visible?_eq_some {r : Reference κ V} {key : κ} {now : Millis} {pair : V × Ttl}
    (h : r.visible? key now = some pair) :
    r.pairs[key]? = some pair ∧ pair.2.expiredAt now = false := by
  rw [visible?_eq] at h
  obtain ⟨hpair, hlive⟩ := Option.filter_eq_some_iff.1 h
  exact ⟨hpair, by simpa using hlive⟩

/-- What is visible stays visible for as long as it has not expired. -/
theorem filter_visible? (r : Reference κ V) (key : κ) (now : Millis) :
    (r.visible? key now).filter (fun pair => !pair.2.expiredAt now) = r.visible? key now := by
  simp [visible?_eq, Option.filter_filter]

theorem visible?_keep (r : Reference κ V) (key other : κ) (value : V) (ttl : Option Ttl)
    (now : Millis) :
    (r.keep key value ttl).visible? other now =
      if compare key other = .eq then
        (ttl.map fun ttl => (value, ttl)).filter fun pair => !pair.2.expiredAt now
      else r.visible? other now := by
  cases ttl with
  | none =>
      simp only [visible?_eq, keep, ExtTreeMap.getElem?_erase]
      split <;> rfl
  | some ttl =>
      simp only [visible?_eq, keep, ExtTreeMap.getElem?_insert]
      split <;> rfl

theorem plain_keep {r : Reference κ V} (h : r.Plain) (key : κ) (value : V)
    {ttl : Option Ttl} (httl : ∀ t, ttl = some t → t.deleted = false) :
    (r.keep key value ttl).Plain := by
  cases ttl with
  | none => exact fun _ _ hpair => forall_erase h hpair
  | some t =>
      exact fun _ _ hpair =>
        forall_insert (p := fun pair : V × Ttl => pair.2.deleted = false) h key (httl t rfl) hpair

/-- What becomes visible when an intent is carried out is what the plan for it says, unless that has
expired already. Nothing becomes of other keys. -/
theorem visible?_touch {r : Reference κ V} (h : r.Plain) (policy : Policy) (now : Millis)
    (key other : κ) (intent : Intent V) :
    (r.touch policy now key intent).visible? other now =
      if compare key other = .eq then
        ((plan (r.visible? key now) intent policy now).outcome (r.visible? key now)).filter
          fun pair => !pair.2.expiredAt now
      else r.visible? other now := by
  have hsame : r.visible? other now =
      if compare key other = .eq then
        (r.visible? key now).filter fun pair => !pair.2.expiredAt now
      else r.visible? other now := by
    split
    next hkey => rw [filter_visible?, visible?, visible?, ExtTreeMap.getElem?_congr hkey]
    next => rfl
  cases hvisible : r.visible? key now with
  | none =>
      rw [hvisible] at hsame
      cases intent with
      | write value => simp only [touch, put, hvisible, visible?_keep, outcome_create]
      | read | remove | ignore =>
          simp only [touch, access, remove, hvisible, plan]
          exact hsame
  | some pair =>
      obtain ⟨value, ttl⟩ := pair
      have hplain : ttl.deleted = false := h key _ (visible?_eq_some hvisible).1
      rw [hvisible] at hsame
      cases intent with
      | write next => simp only [touch, put, hvisible, visible?_keep, outcome_update hplain]
      | read => simp only [touch, access, hvisible, visible?_keep, outcome_access hplain]
      | remove =>
          have herase : r.touch policy now key .remove = r.keep key value none := by
            simp only [touch, remove, hvisible, keep]
          simp only [herase, visible?_keep, plan]
          rfl
      | ignore =>
          simp only [touch, plan]
          exact hsame

/-- A read without a duration shows what was there. -/
theorem visible?_touch_read {r : Reference κ V} (h : r.Plain) {policy : Policy}
    (hpolicy : policy.on .access = none) (now : Millis) (key other : κ) :
    (r.touch policy now key .read).visible? other now = r.visible? other now := by
  rw [visible?_touch h]
  split
  next hkey =>
    have houtcome : (plan (r.visible? key now) .read policy now).outcome (r.visible? key now) =
        r.visible? key now := by
      cases hvisible : r.visible? key now with
      | none => rfl
      | some pair =>
          have hplain : pair.2.deleted = false := h key _ (visible?_eq_some hvisible).1
          have hstays : pair.2.touch .access none now = .retain pair.2 :=
            pair.2.touch_none hplain (by decide) now
          simp only [plan, hpolicy, hstays, if_true, Plan.outcome]
    rw [houtcome, filter_visible?, visible?, visible?, ExtTreeMap.getElem?_congr hkey]
  next => rfl

theorem plain_touch {r : Reference κ V} (h : r.Plain) (policy : Policy) (now : Millis)
    (key : κ) (intent : Intent V) : (r.touch policy now key intent).Plain := by
  cases intent with
  | write value =>
      simp only [touch, put]
      split
      next => exact plain_keep h key value fun _ => not_deleted_of_verdict (touch_create policy now)
      next hvisible =>
        exact plain_keep h key value fun _ =>
          not_deleted_of_verdict (touch_update (h key _ (visible?_eq_some hvisible).1) policy now)
  | read =>
      simp only [touch, access]
      split
      next => exact h
      next hvisible =>
        exact plain_keep h key _ fun _ =>
          not_deleted_of_verdict (touch_access (h key _ (visible?_eq_some hvisible).1) policy now)
  | remove =>
      simp only [touch, remove]
      split
      next => exact h
      next => exact fun _ _ hpair => forall_erase h hpair
  | ignore => exact h

end Reference

end Ephemera
