import Ephemera.Proofs.View

/-! # Changes that commute

Changes of different keys in one store leave the same copies, the same expiration index and the same
counters in either order. So the delivery of the oldest message at a node may be moved past anything
that a primary does on that node in the meantime: it appends to the inbox, counts, registers readers,
and writes to keys that no message is about.
-/

namespace Ephemera

open Std

universe u v

section Index

variable {κ : Type u} [Ord κ] [TransOrd κ] [LawfulEqOrd κ]

namespace Stripe

omit [TransOrd κ] [LawfulEqOrd κ] in
theorem ext_of {s t : Stripe κ} (htime : s.byTime = t.byTime) (hkey : s.byKey = t.byKey) :
    s = t := by
  cases s
  cases t
  cases htime
  cases hkey
  rfl

theorem mem_byTime_erase (s : Stripe κ) (key : κ) (d : Deadline κ) :
    d ∈ (s.erase key).byTime ↔ d ∈ s.byTime ∧ ¬(d.key = key ∧ s.byKey[key]? = some d.time) := by
  unfold erase
  cases htime : s.byKey[key]? with
  | none => simp
  | some time =>
      rw [ExtTreeSet.mem_erase, ne_eq, Std.compare_eq_iff_eq, and_comm]
      refine and_congr_right fun _ => not_congr ?_
      constructor
      · rintro rfl
        exact ⟨rfl, rfl⟩
      · rintro ⟨rfl, h⟩
        cases h
        rfl

/-- A key is indexed at one time at most. -/
theorem mem_byTime_upsert (s : Stripe κ) (key : κ) (time : Millis) (d : Deadline κ) :
    d ∈ (s.upsert key time).byTime ↔
      (time ≠ 0 ∧ d = ⟨time, key⟩) ∨
        d ∈ s.byTime ∧ ¬(d.key = key ∧ s.byKey[key]? = some d.time) := by
  unfold upsert
  by_cases htime : time = 0
  · simp [htime, mem_byTime_erase]
  · simp only [htime, if_false, ExtTreeSet.mem_insert, Std.compare_eq_iff_eq, mem_byTime_erase,
      ne_eq, not_false_eq_true, true_and, eq_comm (a := d)]

omit [LawfulEqOrd κ] in
theorem erase_eq_upsert (s : Stripe κ) (key : κ) : s.erase key = s.upsert key 0 := by
  simp [upsert]

/-- Different keys are indexed independently. -/
theorem upsert_comm (s : Stripe κ) {a b : κ} (h : a ≠ b) (t u : Millis) :
    (s.upsert a t).upsert b u = (s.upsert b u).upsert a t := by
  have hab : compare a b ≠ .eq := by simpa using h
  have hba : compare b a ≠ .eq := by simpa using h.symm
  refine ext_of (ExtTreeSet.ext_mem fun d => ?_) (ExtTreeMap.ext_getElem? fun key => ?_)
  · simp only [mem_byTime_upsert, getElem?_byKey_upsert, hab, hba, if_false]
    by_cases hda : d.key = a
    · have hdb : d.key ≠ b := hda ▸ h
      have hne : ∀ u, d ≠ ⟨u, b⟩ := fun u hd => hdb (hd ▸ rfl)
      simp [hda, h, hne]
    · have hne : ∀ t, d ≠ ⟨t, a⟩ := fun t hd => hda (hd ▸ rfl)
      simp [hda, hne]
  · simp only [getElem?_byKey_upsert]
    by_cases hkey : compare a key = .eq
    · obtain rfl : a = key := by simpa using hkey
      simp [hba]
    · simp [hkey]

end Stripe

namespace Index

variable [Hashable κ]

theorem upsert_comm (index : Index κ) {a b : κ} (h : a ≠ b) (t u : Millis) :
    (index.upsert a t).upsert b u = (index.upsert b u).upsert a t := by
  unfold upsert
  congr 1
  change (index.stripes.modify (index.slot a) _).modify ((index.upsert a t).slot b) _ =
    (index.stripes.modify (index.slot b) _).modify ((index.upsert b u).slot a) _
  rw [slot_upsert, slot_upsert]
  by_cases hslot : index.slot a = index.slot b
  · rw [hslot, List.modify_modify_eq, List.modify_modify_eq]
    congr 1
    funext s
    exact s.upsert_comm h t u
  · exact List.modify_modify_ne _ _ _ hslot

omit [LawfulEqOrd κ] in
theorem erase_eq_upsert (index : Index κ) (key : κ) : index.erase key = index.upsert key 0 := by
  simp only [erase, upsert, Stripe.erase_eq_upsert]

/-- The index of a store, if it has one, after the position of a key has changed, if it has. -/
def moved (index : Option (Index κ)) (key : κ) (time : Option Millis) : Option (Index κ) :=
  time.elim index fun time => index.map (·.upsert key time)

omit [LawfulEqOrd κ] in
theorem moved_none (index : Option (Index κ)) (key : κ) : moved index key none = index := rfl

omit [LawfulEqOrd κ] in
theorem moved_some (index : Option (Index κ)) (key : κ) (time : Millis) :
    moved index key (some time) = index.map (·.upsert key time) := rfl

theorem moved_comm (index : Option (Index κ)) {a b : κ} (h : a ≠ b) (t u : Option Millis) :
    moved (moved index a t) b u = moved (moved index b u) a t := by
  cases t with
  | none => rw [moved_none, moved_none]
  | some t =>
      cases u with
      | none => rw [moved_none, moved_none]
      | some u =>
          have hcomm : ∀ i : Index κ, (i.upsert a t).upsert b u = (i.upsert b u).upsert a t :=
            fun i => i.upsert_comm h t u
          simp only [moved_some, Option.map_map, Function.comp_def, hcomm]

end Index

end Index

namespace Counters

theorem record_comm (c : Counters) (a b : StoreEvent) :
    (c.record a).record b = (c.record b).record a := by
  cases a <;> cases b <;> rfl

end Counters

namespace Store

variable {κ : Type u} {V : Type v} [Ord κ] [TransOrd κ] [LawfulEqOrd κ] [Hashable κ]

omit [Hashable κ] in
theorem ext_of {s t : Store κ V} (hcopies : ∀ key, s.get? key = t.get? key)
    (hindex : s.index = t.index) (hcounters : s.counters = t.counters) : s = t := by
  have hsame : s.copies = t.copies := ExtTreeMap.ext_getElem? (fun {key} => hcopies key)
  cases s
  cases t
  cases hsame
  cases hindex
  cases hcounters
  rfl

omit [TransOrd κ] [LawfulEqOrd κ] [Hashable κ] in
theorem record_comm (s : Store κ V) (a b : StoreEvent) :
    (s.record a).record b = (s.record b).record a := by
  simp only [record, Counters.record_comm]

omit [LawfulEqOrd κ] in
theorem write_record (s : Store κ V) (key : κ) (change : Write V) (event : StoreEvent) :
    (s.record event).write key change = (s.write key change).record event := by
  cases change with
  | keep => rfl
  | put entry => simp only [write, record, Counters.record_comm]
  | remove =>
      by_cases hkey : key ∈ s.copies <;> simp [write, record, hkey]

/-- What becomes of the position of a key in the index, if anything; zero takes it out. -/
def reindexed (s : Store κ V) (key : κ) : Write V → Option Millis
  | .keep => none
  | .put entry => some entry.ttl.expireTime
  | .remove => if (s.get? key).isSome then some 0 else none

omit [LawfulEqOrd κ] in
theorem index_write (s : Store κ V) (key : κ) (change : Write V) :
    (s.write key change).index = Index.moved s.index key (s.reindexed key change) := by
  cases change with
  | keep => rfl
  | put entry => rfl
  | remove =>
      by_cases hkey : key ∈ s.copies
      · simp [write, reindexed, hkey, get?, Index.moved, Index.erase_eq_upsert]
      · simp [write, reindexed, hkey, get?, Index.moved]

omit [LawfulEqOrd κ] in
theorem counters_write (s : Store κ V) (key : κ) (change : Write V) :
    (s.write key change).counters =
      match change with
      | .put _ => s.counters.record .put
      | .keep | .remove => s.counters := by
  cases change with
  | keep => rfl
  | put entry => rfl
  | remove =>
      simp only [write]
      split <;> rfl

omit [LawfulEqOrd κ] in
theorem get?_write (s : Store κ V) (key other : κ) (change : Write V) :
    (s.write key change).get? other =
      if compare key other = .eq then
        match change with
        | .keep => s.get? other
        | .put entry => some entry
        | .remove => none
      else s.get? other := by
  cases change with
  | keep => simp
  | put entry => exact s.get?_write_put key other entry
  | remove => exact s.get?_write_remove key other

/-- Changes of different keys in one store commute. -/
theorem write_comm (s : Store κ V) {a b : κ} (h : a ≠ b) (x y : Write V) :
    (s.write a x).write b y = (s.write b y).write a x := by
  have hab : compare a b ≠ .eq := by simpa using h
  have hba : compare b a ≠ .eq := by simpa using h.symm
  refine ext_of (fun key => ?_) ?_ ?_
  · by_cases hkey : compare a key = .eq
    · obtain rfl : a = key := by simpa using hkey
      simp only [get?_write, hba, if_false]
    · simp only [get?_write, hkey, if_false]
  · have hb : (s.write a x).reindexed b y = s.reindexed b y := by
      cases y <;> simp [reindexed, get?_write, hab]
    have ha : (s.write b y).reindexed a x = s.reindexed a x := by
      cases x <;> simp [reindexed, get?_write, hba]
    rw [index_write, index_write, index_write, index_write, hb, ha]
    exact Index.moved_comm s.index h _ _
  · simp only [counters_write]
    cases x <;> cases y <;> rfl

/-- The store after it has accepted a change that was decided elsewhere. -/
def accept (s : Store κ V) : Update κ V → Store κ V
  | .put key entry => (s.install key entry).1
  | .remove key version => (s.removeVersion key version).1

omit [LawfulEqOrd κ] in
theorem accept_record (s : Store κ V) (update : Update κ V) (event : StoreEvent) :
    (s.record event).accept update = (s.accept update).record event := by
  cases update with
  | put key entry =>
      simp only [accept, install, Store.update, get?_record, write_record]
      rfl
  | remove key version =>
      by_cases hold : (s.get? key).any (·.version ≤ version)
      · simp [accept, removeVersion, Store.update, hold, write_record, record_comm]
      · simp [accept, removeVersion, Store.update, hold]

/-- A store may change its copy of one key before or after it accepts a change of another. -/
theorem accept_write (s : Store κ V) (update : Update κ V) {key : κ} (h : update.key ≠ key)
    (change : Write V) :
    (s.write key change).accept update = (s.accept update).write key change := by
  have hget : (s.write key change).get? update.key = s.get? update.key := by
    have hne : compare key update.key ≠ .eq := by simpa using h.symm
    rw [get?_write, if_neg hne]
  cases update with
  | put other entry =>
      simp only [Update.key] at hget
      simp only [accept, install, Store.update, hget]
      exact (s.write_comm h _ _).symm
  | remove other version =>
      have hne : other ≠ key := h
      simp only [Update.key] at hget
      by_cases hold : (s.get? other).any (·.version ≤ version)
      · simp only [accept, removeVersion, Store.update, hget, hold, if_true, write_record]
        rw [s.write_comm hne]
      · simp [accept, removeVersion, Store.update, hget, hold]

end Store

namespace Node

variable {κ : Type u} {V : Type v} [Ord κ] [TransOrd κ] [Hashable κ]

theorem apply_eq (n : Node κ V) (target : Target) (update : Update κ V) :
    (n.apply target update).1 = n.withStore target ((n.store target).accept update) := by
  cases update <;> rfl

/-- What a primary does on its node while messages wait there: it may append to the inbox, and does
not interfere with the delivery of the oldest message, unless that is about an owned key that it
`touches`. -/
structure Apart (touches : κ → Prop) (f : Node κ V → Node κ V) : Prop where
  service : ∀ n, (f n).inbox.service = n.inbox.service
  queue : ∀ n, ∃ added, (f n).inbox.queue = n.inbox.queue ++ added
  deliver : ∀ n m rest, n.inbox.service = .running → n.inbox.queue = m :: rest →
    (m.target = .owned → ¬touches m.update.key) → (f n).deliver.1 = f n.deliver.1

theorem apart_push (m : Message κ V) : Apart (fun _ => False) (·.push m) where
  service n := n.service_push m
  queue n := by
    unfold push Inbox.push
    split
    · exact ⟨[m], rfl⟩
    · exact ⟨[], by simp⟩
  deliver n first rest hrunning hqueue _ := by
    have hpushed : (n.push m).inbox.queue = first :: (rest ++ [m]) := by
      rw [queue_push hrunning, hqueue, List.cons_append]
    rw [deliver_of_queue (by rw [service_push, hrunning]) hpushed, deliver_of_queue hrunning hqueue]
    simp only [apply_eq, store_setInbox]
    cases first.target <;> simp [withStore, push, Inbox.push, Inbox.accepts, store, hrunning]

/-- A change of the owned copies alone goes past every delivery that it commutes with. -/
theorem apart_owned {touches : κ → Prop} {g : Store κ V → Store κ V}
    (h : ∀ s update, ¬touches update.key → (g s).accept update = g (s.accept update)) :
    Apart touches fun n : Node κ V => { n with owned := g n.owned } where
  service _ := rfl
  queue n := ⟨[], by simp⟩
  deliver n m rest hrunning hqueue haway := by
    rw [deliver_of_queue (n := { n with owned := g n.owned }) hrunning hqueue,
      deliver_of_queue hrunning hqueue]
    simp only [apply_eq, store_setInbox]
    cases htarget : m.target with
    | owned => simp [withStore, store, h _ _ (haway htarget)]
    | near => simp [withStore, store]

theorem apart_record (event : StoreEvent) :
    Apart (fun _ => False) fun n : Node κ V => { n with owned := n.owned.record event } :=
  apart_owned fun s update _ => s.accept_record update event

theorem apart_write [LawfulEqOrd κ] (key : κ) (change : Write V) :
    Apart (· = key) fun n : Node κ V => { n with owned := n.owned.write key change } :=
  apart_owned fun s update h => s.accept_write update h change

/-- The registry has no part in deliveries. -/
theorem apart_readers (g : ExtTreeMap κ (ExtTreeSet Nat) → ExtTreeMap κ (ExtTreeSet Nat)) :
    Apart (fun _ => False) fun n : Node κ V => { n with readers := g n.readers } where
  service _ := rfl
  queue n := ⟨[], by simp⟩
  deliver n m rest hrunning hqueue _ := by
    rw [deliver_of_queue (n := { n with readers := g n.readers }) hrunning hqueue,
      deliver_of_queue hrunning hqueue]
    simp only [apply_eq, store_setInbox]
    cases m.target <;> rfl

end Node

end Ephemera
