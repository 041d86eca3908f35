import Ephemera.Expiry.Index
import Ephemera.Expiry.Ttl
import Ephemera.Store.Stats

/-! # Stores of copies

A store holds one node's copies of some keys: each a value with its version and lifetime. Every
change goes through `write`, which changes the copies and the expiration index together, so the two
never disagree. A store without eager reclamation has no index and is otherwise the same.

Removals are counted by the operation that removes, because only it knows whether the copy was
removed, had expired, or was swept.
-/

namespace Ephemera

open Std

universe u v w

/-- One stored copy of a key. Value, version and lifetime are always replaced together. -/
structure Entry (V : Type v) where
  value : V
  /-- The version that the primary drew for the change that produced this copy. -/
  version : UInt64
  ttl : Ttl
  deriving DecidableEq, Repr

namespace Entry

/-- Whether the copy has expired. -/
def expiredAt {V : Type v} (e : Entry V) (now : Millis) : Bool :=
  e.ttl.expiredAt now

/-- The value with its lifetime. -/
def content {V : Type v} (e : Entry V) : V × Ttl :=
  (e.value, e.ttl)

end Entry

/-- What to do with the copy of a key. -/
inductive Write (V : Type v) where
  | keep
  | put (entry : Entry V)
  | remove
  deriving DecidableEq, Repr

/-- The copies that one node holds. -/
structure Store (κ : Type u) (V : Type v) [Ord κ] where
  copies : ExtTreeMap κ (Entry V) := ∅
  /-- The expiration index, if expired copies are reclaimed eagerly. -/
  index : Option (Index κ)
  counters : Counters := {}

namespace Store

variable {κ : Type u} {V : Type v} {ρ : Type w} [Ord κ] [TransOrd κ] [Hashable κ]

omit [TransOrd κ] [Hashable κ] in
/-- The empty store. -/
def empty (eager : Bool) : Store κ V where
  index := if eager then some .empty else none

omit [Hashable κ] in
/-- The stored copy, expired or not. -/
def get? (s : Store κ V) (key : κ) : Option (Entry V) :=
  s.copies[key]?

omit [Hashable κ] in
@[simp]
theorem get?_empty (eager : Bool) (key : κ) : (empty eager : Store κ V).get? key = none := by
  simp [empty, get?]

omit [Hashable κ] in
/-- The stored copy unless it has expired. -/
def live? (s : Store κ V) (key : κ) (now : Millis) : Option (Entry V) :=
  (s.get? key).filter (!·.expiredAt now)

omit [TransOrd κ] [Hashable κ] in
/-- Count an event. -/
def record (s : Store κ V) (event : StoreEvent) : Store κ V :=
  { s with counters := s.counters.record event }

omit [Hashable κ] in
@[simp]
theorem get?_record (s : Store κ V) (event : StoreEvent) (key : κ) :
    (s.record event).get? key = s.get? key := rfl

/-- Change the copy of a key and its position in the index. A put is counted. -/
def write (s : Store κ V) (key : κ) : Write V → Store κ V
  | .keep => s
  | .put entry =>
    { copies := s.copies.insert key entry
      index := s.index.map (·.upsert key entry.ttl.expireTime)
      counters := s.counters.record .put }
  | .remove =>
    if key ∈ s.copies then
      { s with copies := s.copies.erase key, index := s.index.map (·.erase key) }
    else s

@[simp]
theorem write_keep (s : Store κ V) (key : κ) : s.write key .keep = s := rfl

/-- A put changes the copy of its key and no other. -/
theorem get?_write_put (s : Store κ V) (key other : κ) (entry : Entry V) :
    (s.write key (.put entry)).get? other =
      if compare key other = .eq then some entry else s.get? other :=
  ExtTreeMap.getElem?_insert

/-- A removal drops the copy of its key and no other. -/
theorem get?_write_remove (s : Store κ V) (key other : κ) :
    (s.write key .remove).get? other =
      if compare key other = .eq then none else s.get? other := by
  by_cases h : key ∈ s.copies
  · simp only [write, h, if_true]
    exact ExtTreeMap.getElem?_erase
  · simp only [write, h, if_false]
    split
    · rename_i hk
      rw [ExtTreeMap.mem_congr hk] at h
      exact ExtTreeMap.getElem?_eq_none h
    · rfl

/-- Let `decide` look at the stored copy, and change it as decided. -/
def update (s : Store κ V) (key : κ) (decide : Option (Entry V) → Write V × ρ) :
    Store κ V × ρ :=
  let (change, result) := decide (s.get? key)
  (s.write key change, result)

/-- Accept a copy from the primary, unless the stored one is newer. Returns whether it was
accepted. -/
def install (s : Store κ V) (key : κ) (entry : Entry V) : Store κ V × Bool :=
  s.update key fun current =>
    if current.any (entry.version < ·.version) then (.keep, false) else (.put entry, true)

/-- Remove a copy that is not newer than `version`. Returns whether there was one. -/
def removeVersion (s : Store κ V) (key : κ) (version : UInt64) : Store κ V × Bool :=
  let (s, removed) := s.update key fun current =>
    if current.any (·.version ≤ version) then (.remove, true) else (.keep, false)
  (if removed then s.record .removal else s, removed)

/-- Remove whatever copy there is, and return it. -/
def remove (s : Store κ V) (key : κ) : Store κ V × Option (Entry V) :=
  let (s, removed) := s.update key fun current =>
    (if current.isSome then .remove else .keep, current)
  (if removed.isSome then s.record .removal else s, removed)

/-- Remove the copy if it still has the given expire time and has expired. The event is left to the
caller to count. -/
def reclaim (s : Store κ V) (key : κ) (expireTime now : Millis) : Store κ V × Bool :=
  s.update key fun current =>
    if current.any fun e => e.ttl.expireTime = expireTime && e.expiredAt now then (.remove, true)
    else (.keep, false)

/-- Read the copy if it is live. A copy that has expired is dropped, and counts as a miss. -/
def read (s : Store κ V) (key : κ) (now : Millis) : Store κ V × Option (Entry V) :=
  match s.get? key with
  | none => (s.record .miss, none)
  | some entry =>
    if entry.expiredAt now then
      let (s, dropped) := s.reclaim key entry.ttl.expireTime now
      ((if dropped then s.record .expired else s).record .miss, none)
    else (s.record .hit, some entry)

omit [Hashable κ] in
/-- The keys with a copy, in order. -/
def keys (s : Store κ V) : List κ :=
  s.copies.keys

omit [Hashable κ] in
/-- How many copies there are. -/
def size (s : Store κ V) : Nat :=
  s.copies.size

omit [TransOrd κ] [Hashable κ] in
/-- The counters and the number of copies. -/
def stats (s : Store κ V) : Stats where
  toCounters := s.counters
  entries := UInt64.ofNat s.copies.size

end Store

end Ephemera
