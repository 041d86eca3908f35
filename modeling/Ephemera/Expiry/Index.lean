import Std.Data.ExtTreeMap
import Std.Data.ExtTreeSet
import Ephemera.Time

/-! # The expiration index

The index answers "which keys have expired by now" in the order of their expire times, without a
look at the stored values. Keys are spread over stripes by their hash; any hash will do. A stripe
keeps the set of its deadlines in order, and beside it a map from a key to the time it is indexed
at, so that a key is indexed at most once.

A scan lists the expired keys one by one. It holds a cursor and no copy of the index, so the index
may change between two steps of a scan.
-/

namespace Ephemera

open Std

universe u

/-- A key and the clock reading at which it expires. -/
structure Deadline (κ : Type u) where
  time : Millis
  key : κ
  deriving DecidableEq, Repr

namespace Deadline

variable {κ : Type u} [Ord κ]

/-- Deadlines are ordered by time, those of one time by key. -/
instance : Ord (Deadline κ) where
  compare := compareLex (compareOn time) (compareOn key)

instance [TransOrd κ] : TransOrd (Deadline κ) :=
  inferInstanceAs (TransCmp (compareLex (compareOn (time (κ := κ))) (compareOn key)))

theorem compare_def (a b : Deadline κ) :
    compare a b = (compare a.time b.time).then (compare a.key b.key) := rfl

instance [LawfulEqOrd κ] : LawfulEqOrd (Deadline κ) where
  compare_self := by
    intro a
    simp [compare_def]
  eq_of_compare := by
    intro a b h
    rw [compare_def, Ordering.then_eq_eq, Std.compare_eq_iff_eq, Std.compare_eq_iff_eq] at h
    cases a
    cases b
    simp_all

/-- The earlier of two deadlines, either of which may be missing. -/
def earlier : Option (Deadline κ) → Option (Deadline κ) → Option (Deadline κ)
  | none, b => b
  | a, none => a
  | some a, some b => if compare b a = .lt then some b else some a

/-- The earliest of some deadlines. -/
def earliest (ds : List (Deadline κ)) : Option (Deadline κ) :=
  ds.foldl (fun best d => earlier best (some d)) none

end Deadline

variable {κ : Type u} [Ord κ] [TransOrd κ]

/-- One stripe of the index. -/
structure Stripe (κ : Type u) [Ord κ] where
  /-- The deadlines in order. -/
  byTime : ExtTreeSet (Deadline κ) := ∅
  /-- The time each key is indexed at. -/
  byKey : ExtTreeMap κ Millis := ∅

namespace Stripe

/-- The stripe without the key. -/
def erase (s : Stripe κ) (key : κ) : Stripe κ :=
  match s.byKey[key]? with
  | none => s
  | some time => { byTime := s.byTime.erase ⟨time, key⟩, byKey := s.byKey.erase key }

theorem getElem?_byKey_erase (s : Stripe κ) (key other : κ) :
    (s.erase key).byKey[other]? = if compare key other = .eq then none else s.byKey[other]? := by
  unfold erase
  split
  · rename_i h
    split
    · rename_i hk
      rw [← ExtTreeMap.getElem?_congr hk, h]
    · rfl
  · exact ExtTreeMap.getElem?_erase

/-- The stripe with the key at `time`; a key that never expires is not indexed. -/
def upsert (s : Stripe κ) (key : κ) (time : Millis) : Stripe κ :=
  let s := s.erase key
  if time = 0 then s
  else { byTime := s.byTime.insert ⟨time, key⟩, byKey := s.byKey.insert key time }

theorem getElem?_byKey_upsert (s : Stripe κ) (key other : κ) (time : Millis) :
    (s.upsert key time).byKey[other]? =
      if compare key other = .eq then (if time = 0 then none else some time)
      else s.byKey[other]? := by
  unfold upsert
  by_cases ht : time = 0
  · simp only [ht, if_true, getElem?_byKey_erase]
  · simp only [ht, if_false, ExtTreeMap.getElem?_insert, getElem?_byKey_erase]
    split <;> rfl

/-- The first deadline after the cursor, or the first of all. -/
def next (s : Stripe κ) (cursor : Option (Deadline κ)) : Option (Deadline κ) :=
  match cursor with
  | none => s.byTime.min?
  | some c => (s.byTime.filter fun d => compare c d = .lt).min?

end Stripe

/-- Keys by expire time. -/
structure Index (κ : Type u) [Ord κ] where
  stripes : List (Stripe κ)

namespace Index

/-- The number of stripes of an index, unless another is asked for. -/
def defaultStripes : Nat := 16

/-- The empty index; it has at least one stripe. -/
def empty (stripes : Nat := defaultStripes) : Index κ where
  stripes := List.replicate (max stripes 1) {}

omit [TransOrd κ] in
theorem stripes_empty_ne_nil (stripes : Nat) : (empty stripes : Index κ).stripes ≠ [] := by
  simp [empty, List.replicate_eq_nil_iff]

variable [Hashable κ]

/-- The stripe that a key belongs to. -/
def slot (index : Index κ) (key : κ) : Nat :=
  (hash key).toNat % index.stripes.length

omit [TransOrd κ] in
theorem slot_lt (index : Index κ) (key : κ) (h : index.stripes ≠ []) :
    index.slot key < index.stripes.length :=
  Nat.mod_lt _ (List.length_pos_iff.2 h)

/-- Index `key` at `time` in place of any earlier position; zero takes it out. -/
def upsert (index : Index κ) (key : κ) (time : Millis) : Index κ where
  stripes := index.stripes.modify (index.slot key) (·.upsert key time)

/-- Take `key` out. -/
def erase (index : Index κ) (key : κ) : Index κ where
  stripes := index.stripes.modify (index.slot key) (·.erase key)

/-- The time that `key` is indexed at. -/
def expireTime? (index : Index κ) (key : κ) : Option Millis :=
  index.stripes[index.slot key]?.bind (·.byKey[key]?)

@[simp]
theorem slot_upsert (index : Index κ) (key other : κ) (time : Millis) :
    (index.upsert key time).slot other = index.slot other := by
  simp [slot, upsert]

@[simp]
theorem slot_erase (index : Index κ) (key other : κ) :
    (index.erase key).slot other = index.slot other := by
  simp [slot, erase]

/-- To index a key changes its own position and no other. -/
theorem expireTime?_upsert [LawfulEqOrd κ] (index : Index κ) (key other : κ) (time : Millis)
    (h : index.stripes ≠ []) :
    (index.upsert key time).expireTime? other =
      if compare key other = .eq then (if time = 0 then none else some time)
      else index.expireTime? other := by
  simp only [expireTime?, slot_upsert]
  simp only [upsert, List.getElem?_modify]
  by_cases hs : index.slot key = index.slot other
  · have hlt := index.slot_lt other h
    simp [hs, List.getElem?_eq_getElem hlt, Stripe.getElem?_byKey_upsert]
  · have hk : key ≠ other := fun hk => hs (hk ▸ rfl)
    simp [hs, hk]

/-- To take a key out changes its own position and no other. -/
theorem expireTime?_erase [LawfulEqOrd κ] (index : Index κ) (key other : κ) :
    (index.erase key).expireTime? other =
      if compare key other = .eq then none else index.expireTime? other := by
  simp only [expireTime?, slot_erase]
  simp only [erase, List.getElem?_modify]
  by_cases hs : index.slot key = index.slot other
  · cases index.stripes[index.slot other]? <;> simp [hs, Stripe.getElem?_byKey_erase]
  · have hk : key ≠ other := fun hk => hs (hk ▸ rfl)
    simp [hs, hk]

omit [Hashable κ] in
/-- How many keys are indexed. -/
def size (index : Index κ) : Nat :=
  index.stripes.foldr (fun s size => s.byKey.size + size) 0

omit [Hashable κ] in
/-- Whether no key is indexed. -/
def isEmpty (index : Index κ) : Bool :=
  index.stripes.all (·.byKey.isEmpty)

end Index

/-- A scan of the keys that have expired by `now`. -/
structure Scan (κ : Type u) where
  now : Millis
  /-- The deadline listed last; none at the start, and again after the end. -/
  cursor : Option (Deadline κ) := none
  deriving DecidableEq, Repr

namespace Scan

/-- The next expired deadline: the earliest after the cursor over all stripes. After the end a scan
starts over. -/
def next (scan : Scan κ) (index : Index κ) : Option (Deadline κ) × Scan κ :=
  let heads := index.stripes.filterMap (·.next scan.cursor)
  let best := Deadline.earliest (heads.filter (·.time ≤ scan.now))
  (best, { scan with cursor := best })

/-- The deadlines of at most `fuel` further steps, up to the end of the scan. -/
def list (index : Index κ) : Nat → Scan κ → List (Deadline κ)
  | 0, _ => []
  | fuel + 1, scan =>
    match scan.next index with
    | (none, _) => []
    | (some d, scan) => d :: list index fuel scan

/-- The scan that takes every listed key out of the index before its next step. -/
def drain [Hashable κ] : Nat → Scan κ → Index κ → List (Deadline κ) × Index κ
  | 0, _, index => ([], index)
  | fuel + 1, scan, index =>
    match scan.next index with
    | (none, _) => ([], index)
    | (some d, scan) =>
      let (rest, index) := drain fuel scan (index.erase d.key)
      (d :: rest, index)

end Scan

namespace Index

/-- All deadlines up to `now`, in order. -/
def expired (index : Index κ) (now : Millis) : List (Deadline κ) :=
  Scan.list index index.size { now }

/-- Take out all keys that have expired by `now`, in order, while the scan runs. -/
def drain [Hashable κ] (index : Index κ) (now : Millis) : List (Deadline κ) × Index κ :=
  Scan.drain index.size { now } index

end Index

end Ephemera
