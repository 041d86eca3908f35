import Ephemera.Error
import Ephemera.Time

/-! # Expiry policies

A policy says how long an entry lives after each kind of touch. It has up to three durations, one
for the creation of an entry, one for an update and one for an access; a missing duration makes a
created entry eternal and leaves the lifetime of an updated or accessed entry alone. A policy given
with a call replaces the default of the cache entirely: durations of the two are never mixed.
-/

namespace Ephemera

/-- What an operation does to the entry of a key. -/
inductive Touch where
  /-- The key was absent and a value is stored. -/
  | create
  /-- The key was present and its value is replaced. -/
  | update
  /-- The value is read: by a get, an iteration, a processor or a condition that failed. -/
  | access
  deriving DecidableEq, Repr

/-- How long an entry lives after a touch. -/
inductive Duration where
  /-- For ever. -/
  | eternal
  /-- For that many milliseconds; with none the entry expires at once. -/
  | millis (ms : Millis)
  deriving DecidableEq, Repr

namespace Duration

/-- A count of milliseconds that may be negative, which no duration is. -/
def ofInt (ms : Int) : Except CacheError Duration :=
  if 0 ≤ ms then .ok (.millis (UInt64.ofNat ms.toNat)) else .error (.negativeDuration ms)

/-- Exactly the negative counts are refused, and the refusal names the count. -/
theorem ofInt_eq_error_iff (ms : Int) (e : CacheError) :
    ofInt ms = .error e ↔ ms < 0 ∧ e = .negativeDuration ms := by
  unfold ofInt
  split
  · rename_i h
    constructor
    · intro h'
      cases h'
    · rintro ⟨hlt, -⟩
      omega
  · rename_i h
    constructor
    · intro h'
      cases h'
      exact ⟨by omega, rfl⟩
    · rintro ⟨-, rfl⟩
      rfl

/-- A span of seconds and nanoseconds in whole milliseconds, rounded down; the longest duration
when the span has more milliseconds than that. -/
def ofSpan (seconds nanoseconds : Nat) : Duration :=
  .millis (UInt64.ofNat (min (seconds * 1000 + nanoseconds / 1000000) Millis.latest.toNat))

/-- Whether the entry expires at once. -/
def isZero : Duration → Bool
  | millis ms => ms == 0
  | eternal => false

/-- The span of a lifetime of that duration, zero if it has no limit. -/
def span : Duration → Millis
  | eternal => 0
  | millis ms => ms

end Duration

/-- The durations of a policy, one for each kind of touch. -/
structure Durations where
  create : Option Duration := none
  update : Option Duration := none
  access : Option Duration := none
  deriving DecidableEq, Repr

namespace Durations

/-- The duration for one kind of touch. -/
def on (d : Durations) : Touch → Option Duration
  | .create => d.create
  | .update => d.update
  | .access => d.access

/-- Entries never expire; later touches keep the lifetime they find. -/
def eternal : Durations where
  create := some .eternal

/-- Expiry at a fixed time after the creation. -/
def created (d : Duration) : Durations where
  create := some d

/-- Expiry at a fixed time after the creation or the last update. -/
def modified (d : Duration) : Durations where
  create := some d
  update := some d

/-- Expiry at a fixed time after the creation or the last access. -/
def accessed (d : Duration) : Durations where
  create := some d
  access := some d

/-- Expiry at a fixed time after the last touch of any kind. -/
def touched (d : Duration) : Durations where
  create := some d
  update := some d
  access := some d

/-- Durations from counts of milliseconds. Of several negative counts the first one is refused, in
the order create, update, access. -/
def ofInts (create update access : Option Int) : Except CacheError Durations := do
  let create ← create.mapM Duration.ofInt
  let update ← update.mapM Duration.ofInt
  let access ← access.mapM Duration.ofInt
  return { create, update, access }

end Durations

/-- The policy of a cache or of a single call. -/
inductive Policy where
  /-- No policy was configured: nothing ever expires. -/
  | unset
  /-- The given durations. -/
  | custom (durations : Durations)
  deriving DecidableEq, Repr

namespace Policy

/-- The durations a policy stands for. -/
def durations : Policy → Durations
  | unset => .eternal
  | custom d => d

/-- The duration for one kind of touch. -/
def on (p : Policy) (touch : Touch) : Option Duration :=
  p.durations.on touch

/-- The policy in effect: that of the call if it has one, else the default. -/
def effective (default : Policy) (override : Option Policy) : Policy :=
  override.getD default

@[simp]
theorem effective_none (default : Policy) : effective default none = default := rfl

@[simp]
theorem effective_some (default policy : Policy) : effective default (some policy) = policy := rfl

end Policy

/-- The ways to ask for a policy. -/
inductive PolicySpec where
  /-- No policy. -/
  | unset
  /-- The given durations. -/
  | durations (durations : Durations)
  /-- Counts of milliseconds, of which none may be negative. -/
  | millis (create update access : Option Int)
  /-- Expiry after the creation. -/
  | created (seconds nanoseconds : Nat)
  /-- Expiry after the creation or the last update. -/
  | modified (seconds nanoseconds : Nat)
  /-- Expiry after the creation or the last access. -/
  | accessed (seconds nanoseconds : Nat)
  /-- Expiry after the last touch. -/
  | touched (seconds nanoseconds : Nat)
  /-- No expiry. -/
  | eternal
  deriving DecidableEq, Repr

namespace PolicySpec

/-- The policy asked for. -/
def policy : PolicySpec → Except CacheError Policy
  | unset => .ok .unset
  | durations d => .ok (.custom d)
  | millis create update access => (Durations.ofInts create update access).map .custom
  | created seconds nanoseconds => .ok (.custom (.created (.ofSpan seconds nanoseconds)))
  | modified seconds nanoseconds => .ok (.custom (.modified (.ofSpan seconds nanoseconds)))
  | accessed seconds nanoseconds => .ok (.custom (.accessed (.ofSpan seconds nanoseconds)))
  | touched seconds nanoseconds => .ok (.custom (.touched (.ofSpan seconds nanoseconds)))
  | eternal => .ok (.custom .eternal)

end PolicySpec

end Ephemera
