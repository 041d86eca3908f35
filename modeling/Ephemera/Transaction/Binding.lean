import Std.Data.ExtTreeMap
import Ephemera.Expiry.Plan
import Ephemera.Store.Basic

/-! # What a transaction holds of its keys

A transaction binds each key it touches. The binding remembers the version of the live copy that
was found at the first touch, the value and lifetime as the transaction sees them, and what becomes
of the lifetime at the commit: a lifetime that the transaction restarted starts to run only at the
commit, one that it left alone runs on.
-/

namespace Ephemera

open Std

universe u v

/-- What becomes of the lifetime of a staged value at the commit. -/
inductive CommitTtl where
  /-- It stays as it was before the transaction. -/
  | keep
  /-- It starts at the commit, without limit when `span` is zero. -/
  | restart (span : Millis)
  deriving DecidableEq, Repr

namespace CommitTtl

/-- What a touch that kept the entry decides, or nothing if it left the lifetime alone. -/
def ofTouch (policy : Policy) (touch : Touch) : Option CommitTtl :=
  match policy.on touch, touch with
  | some (.millis span), _ => some (.restart span)
  | some .eternal, _ => some (.restart 0)
  | none, .create => some (.restart 0)
  | none, _ => none

/-- The lifetime at the commit, given that of the copy on the primary. -/
def resolve (c : CommitTtl) (current : Option Ttl) (now : Millis) : Ttl :=
  match c with
  | .keep => current.getD .eternal
  | .restart span => .lasting span now

theorem ofTouch_some {policy : Policy} {kind : Touch} {duration : Duration}
    (h : policy.on kind = some duration) :
    ofTouch policy kind = some (.restart duration.span) := by
  cases duration <;> simp [ofTouch, h, Duration.span]

theorem ofTouch_none {policy : Policy} {kind : Touch} (h : policy.on kind = none)
    (hkind : kind ≠ .create) : ofTouch policy kind = none := by
  cases kind with
  | create => exact absurd rfl hkind
  | update | access => simp [ofTouch, h]

/-- A touch either leaves the lifetime alone and decides nothing, or what it decides for the commit has
the span of the lifetime that it gives. -/
theorem ofTouch_of_touch {policy : Policy} {kind : Touch} {ttl next : Ttl} {now : Millis}
    (h : ttl.touch kind (policy.on kind) now = .retain next) :
    ofTouch policy kind = some (.restart next.span) ∨
      ofTouch policy kind = none ∧ kind ≠ .create ∧ next = { ttl with deleted := false } := by
  cases hpolicy : policy.on kind with
  | some duration =>
      rw [hpolicy, Ttl.touch_some] at h
      split at h
      · cases h
      · cases h
        rw [Ttl.span_lasting]
        exact .inl (ofTouch_some hpolicy)
  | none =>
      rw [hpolicy] at h
      cases kind with
      | create =>
          cases h
          left
          simp [ofTouch, hpolicy, Ttl.eternal]
      | update | access =>
          cases h
          right
          exact ⟨ofTouch_none hpolicy (by simp), by simp, rfl⟩

end CommitTtl

/-- What a transaction holds of one key. -/
structure Binding (V : Type v) where
  /-- The version of the live copy at the first touch, if there was one. -/
  base : Option UInt64
  /-- Value and lifetime as the transaction sees them, nothing if the key is absent to it. -/
  staged : Option (V × Ttl)
  /-- What becomes of the lifetime at the commit. -/
  commitTtl : CommitTtl := .keep
  /-- Whether any touch changed value or lifetime. -/
  dirty : Bool := false
  deriving DecidableEq, Repr

namespace Binding

variable {V : Type v}

/-- The binding at the first touch of a key. -/
def ofEntry (found : Option (Entry V)) : Binding V where
  base := found.map (·.version)
  staged := found.map (·.content)

/-- What the transaction sees at `now`. A lifetime that was restarted does not run before the
commit, however long the transaction takes. -/
def live (b : Binding V) (now : Millis) : Option (V × Ttl) :=
  match b.commitTtl with
  | .keep => b.staged.filter fun (_, ttl) => !ttl.expiredAt now
  | .restart _ => b.staged

/-- What the transaction sees is what is staged. -/
theorem staged_of_live {b : Binding V} {now : Millis} {pair : V × Ttl} (h : b.live now = some pair) :
    b.staged = some pair := by
  unfold live at h
  split at h
  · exact (Option.filter_eq_some_iff.1 h).1
  · exact h

/-- Record what was planned under `policy`. The last touch wins. -/
def stage (b : Binding V) (planned : Plan V) (policy : Policy) : Binding V :=
  match planned with
  | .unchanged => b
  | .put value ttl touch =>
    { b with
      staged := some (value, ttl)
      commitTtl := (CommitTtl.ofTouch policy touch).getD b.commitTtl
      dirty := true }
  | .remove => { b with staged := none, commitTtl := .keep, dirty := true }

/-- The lifetime as of the last touch; a tombstone for a key that will be removed. -/
def stagedTtl (b : Binding V) : Option Ttl :=
  match b.staged with
  | some (_, ttl) => some ttl
  | none => if b.dirty then some .tombstone else none

/-- What to store at the commit; nothing for a key that will be removed. -/
def outcome (b : Binding V) : Option (V × CommitTtl) :=
  b.staged.map fun (value, _) => (value, b.commitTtl)

end Binding

/-- The bindings of a transaction. -/
abbrev Bindings (κ : Type u) (V : Type v) [Ord κ] := ExtTreeMap κ (Binding V)

namespace Bindings

variable {κ : Type u} {V : Type v} [Ord κ] [TransOrd κ]

/-- The binding of a key: the one there is, or else that of the copy found now. -/
def touch (bs : Bindings κ V) (key : κ) (found : Option (Entry V)) : Binding V :=
  bs[key]?.getD (.ofEntry found)

/-- The bindings that change something, in the order of their keys. -/
def dirty (bs : Bindings κ V) : List (κ × Binding V) :=
  bs.toList.filter fun (_, b) => b.dirty

end Bindings

end Ephemera
