import Ephemera.Proofs.View

/-! # One change, one slot

A slot is one store of a node together with what is under way to it, seen for one key. Whatever a
change does to a cluster, to a slot it does little: it ships one decision to it, delivers the oldest
change that was under way, takes the copy away, or, on the primary, puts a new one in its place.
-/

namespace Ephemera

open Std

universe u v

namespace Cluster

variable {κ : Type u} {V : Type v} [Ord κ] [TransOrd κ]

/-- What a change ships of a key: a decision that it makes on the primary, or the copy that is there. -/
def decision? (c : Cluster κ V) (key : κ) : Change κ V → Option (Update κ V)
  | .write other _ value ttl =>
    if compare other key = .eq then some (.put other { value, version := c.version + 1, ttl })
    else none
  | .remove other _ _ =>
    if compare other key = .eq then
      (c.stored? other).map fun entry => .remove other entry.version
    else none
  | .share other _ =>
    if compare other key = .eq then (c.stored? other).map (.put other) else none
  | .count .. | .note .. | .drop .. | .deliver _ => none

section Decision

variable [LawfulEqOrd κ] {c : Cluster κ V} {key : κ} {x : Change κ V} {u : Update κ V}

theorem decision?_eq_some (h : c.decision? key x = some u) :
    (∃ via value ttl, x = .write key via value ttl ∧
      u = .put key { value, version := c.version + 1, ttl }) ∨
    (∃ event awaited entry, x = .remove key event awaited ∧ c.stored? key = some entry ∧
      u = .remove key entry.version) ∨
    (∃ via entry, x = .share key via ∧ c.stored? key = some entry ∧ u = .put key entry) := by
  cases x with
  | write other via value ttl =>
      simp only [decision?] at h
      split at h
      next hkey =>
        obtain rfl : other = key := by simpa using hkey
        exact .inl ⟨via, value, ttl, rfl, (Option.some.inj h).symm⟩
      next => cases h
  | remove other event awaited =>
      simp only [decision?] at h
      split at h
      next hkey =>
        obtain rfl : other = key := by simpa using hkey
        obtain ⟨entry, hentry, rfl⟩ := Option.map_eq_some_iff.1 h
        exact .inr (.inl ⟨event, awaited, entry, rfl, hentry, rfl⟩)
      next => cases h
  | share other via =>
      simp only [decision?] at h
      split at h
      next hkey =>
        obtain rfl : other = key := by simpa using hkey
        obtain ⟨entry, hentry, rfl⟩ := Option.map_eq_some_iff.1 h
        exact .inr (.inr ⟨via, entry, rfl, hentry, rfl⟩)
      next => cases h
  | count | note | drop | deliver => cases h

/-- A decision is about its key, and of the next version or that of the copy on the primary. -/
theorem version_of_decision? (h : c.decision? key x = some u) :
    u.key = key ∧ (x.draws = true ∧ u.version = c.version + 1 ∨
      ∃ entry, c.stored? key = some entry ∧ u.version = entry.version) := by
  rcases decision?_eq_some h with ⟨via, value, ttl, rfl, rfl⟩ |
    ⟨event, awaited, entry, rfl, hentry, rfl⟩ | ⟨via, entry, rfl, hentry, rfl⟩
  · exact ⟨rfl, .inl ⟨rfl, rfl⟩⟩
  · exact ⟨rfl, .inr ⟨entry, hentry, rfl⟩⟩
  · exact ⟨rfl, .inr ⟨entry, hentry, rfl⟩⟩

end Decision

variable [Hashable κ]

/-! ## A primary that is not a node -/

/-- If the primary of a key is not a node, nothing is stored there. -/
theorem writePrimary_of_size_le {c : Cluster κ V} {key : κ}
    (h : c.nodes.length ≤ c.affinity.primary key) (change : Write V) :
    c.writePrimary key change = c :=
  modifyNode_of_none (List.getElem?_eq_none_iff.2 h) _

theorem copy?_putPrimary_of_size_le {c : Cluster κ V} {key : κ}
    (h : c.nodes.length ≤ c.affinity.primary key) (value : V) (ttl : Ttl) (node : Nat)
    (target : Target) (other : κ) :
    (c.putPrimary key value ttl).copy? node target other = c.copy? node target other := by
  have hlayout := SameLayout.fanOut { c with version := c.version + 1 }
    (.put key { value, version := c.version + 1, ttl }) c.config.synchronous
  unfold putPrimary
  rw [writePrimary_of_size_le (by rw [hlayout.affinity, hlayout.size]; exact h), copy?_fanOut]
  rfl

theorem copy?_removePrimary_of_size_le {c : Cluster κ V} {key : κ}
    (h : c.nodes.length ≤ c.affinity.primary key) (version : UInt64) (event : StoreEvent)
    (awaited : Bool) (node : Nat) (target : Target) (other : κ) :
    (c.removePrimary key version event awaited).copy? node target other =
      c.copy? node target other := by
  have hlayout : SameLayout c
      ((c.recordPrimary key event).fanOut (.remove key version) awaited) :=
    (SameLayout.modifyNode c _ _).trans (SameLayout.fanOut _ _ _)
  unfold removePrimary
  rw [writePrimary_of_size_le (by rw [hlayout.affinity, hlayout.size]; exact h), copy?_fanOut,
    copy?_recordPrimary]

/-! ## What becomes of a slot -/

section Slot

variable {c : Cluster κ V}

/-- A change leaves what is under way to a slot alone, ships one decision there, any number of times,
or delivers the oldest change. -/
theorem inflight_change (hc : c.Running) (x : Change κ V) (node : Nat) (target : Target) (key : κ) :
    (c.change x).inflight node target key = c.inflight node target key ∨
    (∃ n u, c.decision? key x = some u ∧ (c.change x).inflight node target key =
      c.inflight node target key ++ List.replicate n u) ∨
    (x = .deliver node ∧
      ∃ u, c.inflight node target key = u :: (c.change x).inflight node target key) := by
  -- Whether a decision reaches this slot depends on its node, store and key.
  have hshipped : ∀ (p : Prop) [Decidable p] (n : Nat) (u : Update κ V),
      (p → c.decision? key x = some u) →
      (c.change x).inflight node target key =
        c.inflight node target key ++ (if p then List.replicate n u else []) →
      (c.change x).inflight node target key = c.inflight node target key ∨
      ∃ n u, c.decision? key x = some u ∧ (c.change x).inflight node target key =
        c.inflight node target key ++ List.replicate n u := by
    intro p _ n u hdecision hinflight
    split at hinflight
    next hp => exact .inr ⟨n, u, hdecision hp, hinflight⟩
    next => exact .inl (hinflight.trans (List.append_nil _))
  rw [← or_assoc]
  cases x with
  | count other event => exact .inl (.inl (c.inflight_recordPrimary other event node target key))
  | write other via value ttl =>
      obtain ⟨d, hd, hchange⟩ := c.exists_change_write other via value ttl
      have hinflight : (c.change (.write other via value ttl)).inflight node target key =
          c.inflight node target key ++ if node < c.nodes.length ∧ compare other key = .eq then
            List.replicate ((d.recipients other target).count node)
              (.put other { value, version := c.version + 1, ttl }) else [] := by
        rw [hchange, inflight_putPrimary (hd.running hc), hd.inflight, hd.version, hd.layout.size]
      exact .inl (hshipped _ _ _ (fun hslot => if_pos hslot.2) hinflight)
  | remove other event awaited =>
      cases hstored : c.stored? other with
      | none =>
          simp only [change, hstored]
          exact .inl (.inl trivial)
      | some entry =>
          refine .inl (hshipped (node < c.nodes.length ∧ compare other key = .eq)
            ((c.recipients other target).count node) (.remove other entry.version) ?_ ?_)
          · rintro ⟨-, hkey⟩
            simp only [decision?, hkey, if_true, hstored, Option.map_some]
          · simp only [change, hstored]
            exact inflight_removePrimary hc other entry.version event awaited node target key
  | share other via =>
      cases hstored : c.stored? other with
      | none =>
          simp only [change, hstored]
          exact .inl (.inl trivial)
      | some entry =>
          cases hreader : c.nearReader via other with
          | none =>
              simp only [change, hstored, hreader]
              exact .inl (.inl trivial)
          | some reader =>
              refine .inl (hshipped (reader = node ∧ node < c.nodes.length ∧ Target.near = target ∧
                compare other key = .eq) 1 (.put other entry) ?_ ?_)
              · rintro ⟨-, -, -, hkey⟩
                simp only [decision?, hkey, if_true, hstored, Option.map_some]
              · have hsize : (c.register other reader).nodes.length = c.nodes.length :=
                  (SameLayout.modifyNode c _ _).size
                simp only [change, hstored, hreader]
                rw [inflight_ship (hc.register other reader), inflight_register, hsize]
                rfl
  | note other t event => exact .inl (.inl (c.inflight_note other t event node target key))
  | drop other t k event now =>
      exact .inl (.inl (c.inflight_drop other t k event now node target key))
  | deliver other =>
      cases hqueue : c.queue other with
      | nil =>
          simp only [change, deliver_of_nil hqueue]
          exact .inl (.inl trivial)
      | cons m rest =>
          have hinflight := inflight_deliver hc hqueue node target key
          simp only [change]
          split at hinflight
          next hslot =>
            obtain ⟨rfl, -⟩ := hslot
            exact .inr ⟨rfl, m.update, hinflight⟩
          next => exact .inl (.inl hinflight.symm)

variable [LawfulEqOrd κ]

/-- The copy in a slot stays or goes, or a change that was under way to the slot is applied to it, or,
on the primary, a new copy takes its place. -/
theorem copy?_change (hc : c.Running) (x : Change κ V) (node : Nat) (target : Target) (key : κ) :
    (c.change x).copy? node target key = c.copy? node target key ∨
    (c.change x).copy? node target key = none ∨
    (∃ u ∈ c.inflight node target key,
      (c.change x).copy? node target key = u.onto (c.copy? node target key)) ∨
    (∃ via value ttl, x = .write key via value ttl ∧ (c.change x).copy? node target key =
      some { value, version := c.version + 1, ttl }) := by
  cases x with
  | count other event => exact .inl (c.copy?_recordPrimary other event node target key)
  | write other via value ttl =>
      obtain ⟨d, hd, hchange⟩ := c.exists_change_write other via value ttl
      rw [hchange, ← hd.version, ← hd.copies]
      rcases Nat.lt_or_ge (d.affinity.primary other) d.nodes.length with hlt | hle
      · rw [copy?_putPrimary _ _ _ _ _ _ _ hlt]
        split
        next hslot =>
          obtain rfl : other = key := by simpa using hslot.2.2
          exact .inr (.inr (.inr ⟨via, value, ttl, rfl, rfl⟩))
        next => exact .inl rfl
      · exact .inl (copy?_putPrimary_of_size_le hle value ttl node target key)
  | remove other event awaited =>
      simp only [change]
      split
      next entry _ =>
        rcases Nat.lt_or_ge (c.affinity.primary other) c.nodes.length with hlt | hle
        · rw [copy?_removePrimary _ _ _ _ _ _ _ _ hlt]
          split
          · exact .inr (.inl rfl)
          · exact .inl rfl
        · exact .inl (copy?_removePrimary_of_size_le hle _ event awaited node target key)
      next => exact .inl rfl
  | share other via =>
      left
      simp only [change]
      split
      · rw [copy?_ship, copy?_register]
      · rfl
  | note other t event => exact .inl (c.copy?_note other t event node target key)
  | drop other t k event now => exact (c.copy?_drop other t k event now node target key).imp_right .inl
  | deliver other =>
      cases hqueue : c.queue other with
      | nil =>
          simp only [change, deliver_of_nil hqueue]
          exact .inl trivial
      | cons m rest =>
          have hinflight := inflight_deliver hc hqueue node target key
          simp only [change]
          rw [copy?_deliver hc hqueue]
          split
          next hslot =>
            rw [if_pos hslot] at hinflight
            refine .inr (.inr (.inl ⟨m.update, ?_, rfl⟩))
            rw [hinflight]
            exact List.mem_cons_self
          next => exact .inl rfl

omit [LawfulEqOrd κ] in
/-- What is under way to a slot after a change was under way before, or has been decided by it. -/
theorem mem_inflight_change (hc : c.Running) {x : Change κ V} {node : Nat} {target : Target} {key : κ}
    {u : Update κ V} (h : u ∈ (c.change x).inflight node target key) :
    u ∈ c.inflight node target key ∨ c.decision? key x = some u := by
  rcases inflight_change hc x node target key with hsame | ⟨n, v, hdecision, hinflight⟩ |
    ⟨-, v, hinflight⟩
  · exact .inl (hsame ▸ h)
  · rw [hinflight] at h
    rcases List.mem_append.1 h with h | h
    · exact .inl h
    · exact .inr (List.eq_of_mem_replicate h ▸ hdecision)
  · rw [hinflight]
    exact .inl (List.mem_cons_of_mem v h)

/-- The copy in a slot after a change was there before, was under way, or has been written by it. -/
theorem copy?_change_eq_some (hc : c.Running) {x : Change κ V} {node : Nat} {target : Target} {key : κ}
    {entry : Entry V} (h : (c.change x).copy? node target key = some entry) :
    c.copy? node target key = some entry ∨
    (∃ other, .put other entry ∈ c.inflight node target key) ∨
    ∃ via, x = .write key via entry.value entry.ttl ∧ entry.version = c.version + 1 := by
  rcases copy?_change hc x node target key with hsame | hnone | ⟨u, hu, honto⟩ |
    ⟨via, value, ttl, rfl, hwritten⟩
  · exact .inl (hsame ▸ h)
  · cases hnone.symm.trans h
  · rw [honto] at h
    cases u with
    | put other next =>
        simp only [Update.onto] at h
        split at h
        · exact .inl h
        · cases h
          exact .inr (.inl ⟨other, hu⟩)
    | remove other version =>
        simp only [Update.onto] at h
        split at h
        · cases h
        · exact .inl h
  · cases hwritten.symm.trans h
    exact .inr (.inr ⟨via, rfl, rfl⟩)

end Slot

end Cluster

end Ephemera
