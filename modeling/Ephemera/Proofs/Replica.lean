import Ephemera.Node

/-! # Following a primary

A replica of a key holds a copy, and has changes of the key under way to it. It follows the primary
when the versions it has and will have ascend up to that of the primary, and what it will hold in the
end, unless it drops it first, is what the primary holds now. Delivery then never meets a change that
is out of date, and carries out just what was ahead.
-/

namespace Ephemera

open Std

universe u v

namespace Update

variable {κ : Type u} {V : Type v}

/-- What a store holds of the key once the change has been applied. -/
def outcome : Update κ V → Option (Entry V)
  | put _ entry => some entry
  | remove .. => none

/-- What a store makes of its copy when the change is delivered: one that is out of date is
ignored. -/
def onto (copy : Option (Entry V)) : Update κ V → Option (Entry V)
  | put _ entry => if copy.any (entry.version < ·.version) then copy else some entry
  | remove _ version => if copy.any (·.version ≤ version) then none else copy

theorem of_outcome {update : Update κ V} {entry : Entry V} (h : update.outcome = some entry) :
    entry.version = update.version ∧ update.isRemove = false := by
  cases update with
  | put key next =>
      cases h
      exact ⟨rfl, rfl⟩
  | remove key version => cases h

/-- A change that is not older than the copy is applied. -/
theorem onto_eq_outcome (update : Update κ V) (copy : Option (Entry V))
    (h : ∀ entry, copy = some entry → entry.version ≤ update.version) :
    update.onto copy = update.outcome := by
  cases copy with
  | none => cases update <;> rfl
  | some entry =>
      have hle : entry.version ≤ update.version := h entry rfl
      cases update with
      | put key next =>
          have hnot : ¬next.version < entry.version := UInt64.not_lt.2 hle
          simp [onto, outcome, hnot]
      | remove key version =>
          have hle' : entry.version ≤ version := hle
          simp [onto, outcome, hle']

end Update

/-! ## One replica -/

section Replica

variable {κ : Type u} {V : Type v}

/-- What a replica will hold when all that is under way to it has been delivered. -/
def ahead (copy : Option (Entry V)) (queue : List (Update κ V)) : Option (Entry V) :=
  queue.getLast?.elim copy Update.outcome

@[simp]
theorem ahead_nil (copy : Option (Entry V)) : ahead copy ([] : List (Update κ V)) = copy := rfl

@[simp]
theorem ahead_append_replicate (copy : Option (Entry V)) (queue : List (Update κ V)) (n : Nat)
    (update : Update κ V) :
    ahead copy (queue ++ List.replicate n update) =
      if n = 0 then ahead copy queue else update.outcome := by
  cases n with
  | zero => simp
  | succ n => simp [ahead, List.replicate_succ']

/-- The versions that a replica has and will have. -/
def versions (copy : Option (Entry V)) (queue : List (Update κ V)) : List Nat :=
  copy.toList.map (·.version.toNat) ++ queue.map (·.version.toNat)

/-- A replica follows a primary that holds `stored` and has not gone beyond the version `ceiling`. -/
structure Follows (ceiling : Nat) (stored copy : Option (Entry V)) (queue : List (Update κ V)) :
    Prop where
  ascending : (versions copy queue ++ [ceiling]).Pairwise (· ≤ ·)
  ahead_eq : ∀ entry, ahead copy queue = some entry → stored = some entry

namespace Follows

variable {ceiling : Nat} {stored copy : Option (Entry V)} {queue : List (Update κ V)}

/-- A replica that holds nothing follows any primary. -/
theorem empty (ceiling : Nat) (stored : Option (Entry V)) :
    Follows ceiling stored none ([] : List (Update κ V)) :=
  ⟨by simp [versions], by simp⟩

/-- Nothing that a replica has or will have is beyond the ceiling. -/
theorem le_ceiling (h : Follows ceiling stored copy queue) :
    ∀ version ∈ versions copy queue, version ≤ ceiling := by
  intro version hversion
  exact (List.pairwise_append.1 h.ascending).2.2 version hversion ceiling (by simp)

/-- A primary that goes on to a higher version is followed as before. -/
theorem raise {ceiling' : Nat} (h : Follows ceiling stored copy queue) (hle : ceiling ≤ ceiling') :
    Follows ceiling' stored copy queue := by
  refine ⟨?_, h.ahead_eq⟩
  rw [List.pairwise_append]
  refine ⟨(List.pairwise_append.1 h.ascending).1, by simp, ?_⟩
  intro version hversion next hnext
  rw [List.mem_singleton.1 hnext]
  exact Nat.le_trans (h.le_ceiling version hversion) hle

/-- A primary may go on to a higher version. What it then holds and ships is of that version, and
unless it is shipped to the replica, the replica must be about to hold nothing. -/
theorem push {ceiling' : Nat} {stored' : Option (Entry V)} {update : Update κ V} (n : Nat)
    (h : Follows ceiling stored copy queue) (hversion : ceiling ≤ update.version.toNat)
    (hceiling : update.version.toNat ≤ ceiling')
    (hstored : ∀ entry, update.outcome = some entry → stored' = some entry)
    (hn : n = 0 → ahead copy queue = none) :
    Follows ceiling' stored' copy (queue ++ List.replicate n update) := by
  refine ⟨?_, ?_⟩
  · have hversions : versions copy (queue ++ List.replicate n update) =
        versions copy queue ++ List.replicate n update.version.toNat := by
      simp [versions]
    rw [hversions, List.append_assoc, List.pairwise_append]
    refine ⟨(List.pairwise_append.1 h.ascending).1, ?_, ?_⟩
    · rw [List.pairwise_append]
      refine ⟨List.pairwise_replicate.2 (.inr (Nat.le_refl _)), by simp, ?_⟩
      simp only [List.mem_replicate, List.mem_singleton, forall_eq]
      rintro version ⟨-, rfl⟩
      exact hceiling
    · intro version hmem next hnext
      have hle := h.le_ceiling version hmem
      simp only [List.mem_append, List.mem_replicate, List.mem_singleton] at hnext
      omega
  · intro entry
    rw [ahead_append_replicate]
    split
    next hzero => simp [hn hzero]
    next => exact hstored entry

/-- A replica that drops its copy goes on to follow the primary. -/
theorem drop (h : Follows ceiling stored copy queue) : Follows ceiling stored none queue := by
  refine ⟨?_, ?_⟩
  · refine h.ascending.sublist (List.Sublist.append ?_ (List.Sublist.refl _))
    exact List.sublist_append_right _ _
  · intro entry hentry
    apply h.ahead_eq entry
    cases hlast : queue.getLast? with
    | none => simp [ahead, hlast] at hentry
    | some update => simpa [ahead, hlast] using hentry

/-- Delivery carries out what was ahead. -/
theorem ahead_onto {update : Update κ V} (h : Follows ceiling stored copy (update :: queue)) :
    ahead (update.onto copy) queue = ahead copy (update :: queue) := by
  have hle : ∀ entry, copy = some entry → entry.version ≤ update.version := by
    rintro entry rfl
    have hpair := (List.pairwise_append.1 h.ascending).1
    rw [UInt64.le_iff_toNat_le]
    simpa [versions] using (List.pairwise_cons.1 hpair).1 update.version.toNat (by simp)
  rw [update.onto_eq_outcome copy hle]
  unfold ahead
  cases queue with
  | nil => rfl
  | cons next rest =>
      rw [List.getLast?_cons_cons]
      cases hlast : (next :: rest).getLast? with
      | none => simp at hlast
      | some last => rfl

theorem deliver {update : Update κ V} (h : Follows ceiling stored copy (update :: queue)) :
    Follows ceiling stored (update.onto copy) queue := by
  refine ⟨?_, fun entry hentry => h.ahead_eq entry (h.ahead_onto ▸ hentry)⟩
  -- The copy there is afterwards has a version that was there before, no later in the order.
  refine h.ascending.sublist (List.Sublist.append ?_ (List.Sublist.refl _))
  cases update with
  | put key next =>
      simp only [Update.onto]
      split
      · exact List.Sublist.append (List.Sublist.refl _) (List.sublist_cons_self ..)
      · exact List.sublist_append_right _ _
  | remove key version =>
      simp only [Update.onto]
      split
      · exact (List.sublist_cons_self ..).trans (List.sublist_append_right _ _)
      · exact List.Sublist.append (List.Sublist.refl _) (List.sublist_cons_self ..)

end Follows

end Replica

end Ephemera
