import Ephemera.Expiry.Ttl

/-! # From intents to changes

An operation looks at the live value of a key and states an intent. The plan turns the intent into
a change of value and lifetime under a policy. The primary of a key and the staging of a
transaction share this one rule, so a transaction decides what a direct call would decide.
-/

namespace Ephemera

universe u

variable {V : Type u}

/-- What an operation decided after it looked at the live value of a key. -/
inductive Intent (V : Type u) where
  /-- The value was read, which is an access if there is one. -/
  | read
  /-- Store a value: a creation if the key is absent, an update otherwise. -/
  | write (value : V)
  /-- Remove the entry. -/
  | remove
  /-- Leave the entry alone. -/
  | ignore
  deriving DecidableEq, Repr

/-- The change that an intent amounts to. -/
inductive Plan (V : Type u) where
  /-- Value and lifetime stay. -/
  | unchanged
  /-- Store the value with the lifetime; `kind` is the touch that decided it. -/
  | put (value : V) (ttl : Ttl) (kind : Touch)
  /-- Remove the entry. -/
  | remove
  deriving DecidableEq, Repr

/-- The change for an intent on the live value and lifetime of a key, if it has one. A creation
that expires at once never becomes visible; an update or access that expires at once removes the
entry; an access that leaves the lifetime as it is changes nothing. -/
def plan (live : Option (V × Ttl)) (intent : Intent V) (policy : Policy) (now : Millis) : Plan V :=
  match live, intent with
  | none, .write value =>
      match Ttl.eternal.touch .create (policy.on .create) now with
      | .retain ttl => .put value ttl .create
      | .expire => .unchanged
  | none, _ => .unchanged
  | some (_, ttl), .write value =>
      match ttl.touch .update (policy.on .update) now with
      | .retain next => .put value next .update
      | .expire => .remove
  | some _, .remove => .remove
  | some (value, ttl), .read =>
      match ttl.touch .access (policy.on .access) now with
      | .retain next => if next = ttl then .unchanged else .put value next .access
      | .expire => .remove
  | some _, .ignore => .unchanged

/-- The lifetime that is planned is one that a touch leaves or gives: the touch of no entry for a
creation, of the live one otherwise. -/
theorem touch_of_plan {live : Option (V × Ttl)} {intent : Intent V} {policy : Policy} {now : Millis}
    {value : V} {ttl : Ttl} {kind : Touch} (h : plan live intent policy now = .put value ttl kind) :
    ∃ old : Ttl, old.touch kind (policy.on kind) now = .retain ttl ∧
      (kind ≠ .create → live.map (·.2) = some old) := by
  unfold plan at h
  split at h
  next =>
    split at h
    next htouch => cases h; exact ⟨_, htouch, fun hkind => absurd rfl hkind⟩
    next => cases h
  next => cases h
  next =>
    split at h
    next htouch => cases h; exact ⟨_, htouch, fun _ => rfl⟩
    next => cases h
  next => cases h
  next =>
    split at h
    next htouch =>
      split at h
      · cases h
      · cases h
        exact ⟨_, htouch, fun _ => rfl⟩
    next => cases h
  next => cases h

theorem not_deleted_of_plan {live : Option (V × Ttl)} {intent : Intent V}
    {policy : Policy} {now : Millis} {value : V} {ttl : Ttl} {kind : Touch}
    (h : plan live intent policy now = .put value ttl kind) : ttl.deleted = false := by
  obtain ⟨old, htouch, -⟩ := touch_of_plan h
  exact Ttl.not_deleted_of_touch htouch

end Ephemera
