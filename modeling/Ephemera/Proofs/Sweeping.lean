import Ephemera.Proofs.Slice

/-! # What a sweep does to one key

A sweep of a store follows an index that it changes while it goes on. As the index lists the copies that
will expire, and the sweep comes to every one of them that has, its changes are: each expired copy is
taken away, once. For a single key this can be told from its copy, whatever other keys are swept.
-/

namespace Ephemera

open Std

universe u v

namespace Cluster

variable {κ : Type u} {V : Type v} [Ord κ]

/-- The change by which a sweep of a node takes an expired copy away: on the primary of its key it is
removed everywhere, on other nodes it is dropped. -/
def reclamation (c : Cluster κ V) (node : Nat) (target : Target) (key : κ) (now : Millis) :
    Change κ V :=
  if target = .owned ∧ c.affinity.primary key = node then .remove key .swept false
  else .drop node target key .swept now

theorem concerns_reclamation (c : Cluster κ V) (node : Nat) (target : Target) (other key : κ)
    (now : Millis) :
    (c.reclamation node target other now).concerns key = decide (compare other key = .eq) := by
  unfold reclamation
  split <;> rfl

theorem SameLayout.reclamation_eq {c d : Cluster κ V} (h : SameLayout c d) (node : Nat)
    (target : Target) (key : κ) (now : Millis) :
    d.reclamation node target key now = c.reclamation node target key now := by
  unfold reclamation
  rw [h.affinity]

variable [TransOrd κ] [Hashable κ]

section Reclaim

variable {c : Cluster κ V} {node : Nat} {target : Target} {now : Millis}

omit [Hashable κ] in
theorem reclaimTrace_of_expired {d : Deadline κ} {entry : Entry V}
    (hcopy : c.copy? node target d.key = some entry) (htime : entry.ttl.expireTime = d.time)
    (hexpired : entry.expiredAt now = true) :
    c.reclaimTrace node target d now = [c.reclamation node target d.key now] := by
  unfold reclaimTrace reclamation
  rw [hcopy, if_pos (by simp [htime, hexpired])]
  split <;> rfl

/-- The copy is gone from the store, and the others are as before. -/
theorem copy?_reclamation (hc : c.Orderly) {key : κ} {entry : Entry V}
    (hcopy : c.copy? node target key = some entry) (hexpired : entry.expiredAt now = true) (other : κ) :
    (c.change (c.reclamation node target key now)).copy? node target other =
      if compare key other = .eq then none else c.copy? node target other := by
  unfold reclamation
  by_cases hprimary : target = .owned ∧ c.affinity.primary key = node
  · obtain ⟨rfl, rfl⟩ := hprimary
    rw [copy?_primary] at hcopy
    simp only [and_self, if_true, change, hcopy]
    rw [copy?_removePrimary _ _ _ _ _ _ _ _ (hc.primary_lt key)]
    simp
  · simp only [hprimary, if_false, change, not_false_eq_true, hcopy, Option.any_some, hexpired,
      and_self, if_true]
    rw [copy?_dropped]
    simp

end Reclaim

/-! ## Scans of a store in lock step -/

section Scans

variable [LawfulEqOrd κ] {c : Cluster κ V} {node : Nat} {target : Target} {eager : Bool}

omit [LawfulEqOrd κ] [Hashable κ] in
/-- An index of a cluster is that of one of its stores. -/
theorem AllStores.of_index? {holds : Store κ V → Prop} (h : c.AllStores holds) {index : Index κ}
    (hindex : c.index? node target = some index) :
    ∃ s : Store κ V, holds s ∧ s.index = some index ∧ ∀ key, c.copy? node target key = s.get? key := by
  obtain ⟨n, hn, hstore⟩ := Option.bind_eq_some_iff.1 hindex
  exact ⟨n.store target, h node n hn target, hstore, copy?_of_some hn target⟩

/-- The deadlines of an index are those of the copies in its store. -/
theorem AllStores.mem_deadlines_iff (h : c.AllStores (Store.LockStep eager)) {index : Index κ}
    (hindex : c.index? node target = some index) (d : Deadline κ) :
    d ∈ index.deadlines ↔
      d.time ≠ 0 ∧ ∃ entry, c.copy? node target d.key = some entry ∧ entry.ttl.expireTime = d.time := by
  obtain ⟨s, hs, hstore, hcopy⟩ := h.of_index? hindex
  rw [hs.mem_deadlines_iff hstore, hcopy]

/-- Where no deadline has passed, no copy has expired that should have been reclaimed. -/
theorem AllStores.none_expired (h : c.AllStores (Store.LockStep eager)) {key : κ} {now : Millis}
    (hnone : ∀ index, c.index? node target = some index → ∀ d ∈ index.deadlines, ¬d.time ≤ now) :
    ¬(eager = true ∧ (c.copy? node target key).any (·.expiredAt now) = true) := by
  rintro ⟨rfl, hexpired⟩
  cases hcopy : c.copy? node target key with
  | none =>
      rw [hcopy] at hexpired
      cases hexpired
  | some entry =>
      rw [hcopy] at hexpired
      obtain ⟨hlimit, hdue⟩ := (entry.ttl.expiredAt_iff now).1 hexpired
      obtain ⟨n, hn, -⟩ := Option.bind_eq_some_iff.1 hcopy
      obtain ⟨index, hstore⟩ := Option.isSome_iff_exists.1 (h node n hn target).indexed
      have hindex : c.index? node target = some index := by rw [index?, hn]; exact hstore
      have hlisted := (h.mem_deadlines_iff hindex ⟨entry.ttl.expireTime, key⟩).2
        ⟨hlimit, entry, hcopy, rfl⟩
      exact hnone index hindex _ hlisted hdue

theorem AllStores.size_eq_length (h : c.AllStores (Store.LockStep eager)) {index : Index κ}
    (hindex : c.index? node target = some index) : index.size = index.deadlines.length := by
  obtain ⟨s, hs, hstore, -⟩ := h.of_index? hindex
  exact (hs.agrees index hstore).size_eq_length

theorem AllStores.nodup_deadlines (h : c.AllStores (Store.LockStep eager)) {index : Index κ}
    (hindex : c.index? node target = some index) : index.deadlines.Nodup := by
  obtain ⟨s, hs, hstore, -⟩ := h.of_index? hindex
  exact (hs.agrees index hstore).nodup_keys.of_map _

/-- Where a sweep stands: no expired deadline is behind its cursor, and it has as many steps left as
there are deadlines. -/
structure Sweeps (c : Cluster κ V) (node : Nat) (target : Target) (now : Millis) (fuel : Nat)
    (scan : Scan κ) : Prop where
  now_eq : scan.now = now
  size_le : ∀ index, c.index? node target = some index → index.size ≤ fuel
  after : ∀ index, c.index? node target = some index → ∀ d ∈ index.deadlines, d.time ≤ now →
    Deadline.After scan.cursor d

namespace Sweeps

variable {now : Millis} {fuel : Nat} {scan next : Scan κ}

omit [LawfulEqOrd κ] [Hashable κ] in
theorem start (c : Cluster κ V) (node : Nat) (target : Target) (now : Millis) :
    c.Sweeps node target now (((c.index? node target).map Index.size).getD 0) { now } where
  now_eq := rfl
  size_le index hindex := by
    rw [hindex]
    exact Nat.le_refl _
  after index _ d _ _ := nofun

/-- A sweep takes the copy of the deadline that is listed next. -/
theorem reclaims (h : c.Sweeps node target now fuel scan)
    (hlock : c.AllStores (Store.LockStep eager)) {index : Index κ}
    (hindex : c.index? node target = some index) {d : Deadline κ}
    (hnext : scan.next index = (some d, next)) :
    ∃ entry, c.copy? node target d.key = some entry ∧ entry.ttl.expireTime = d.time ∧
      entry.expiredAt now = true := by
  obtain ⟨hd, hdue, -, -⟩ := Scan.next_eq_some (congrArg Prod.fst hnext)
  obtain ⟨hlimit, entry, hcopy, htime⟩ := (hlock.mem_deadlines_iff hindex d).1 hd
  refine ⟨entry, hcopy, htime, ?_⟩
  rw [Entry.expiredAt, Ttl.expiredAt_iff, htime]
  exact ⟨hlimit, h.now_eq ▸ hdue⟩

/-- Once it is gone, the sweep has one deadline less before it, and none of the others behind it. -/
theorem step (h : c.Sweeps node target now (fuel + 1) scan) (hc : c.Orderly)
    (hlock : c.AllStores (Store.LockStep eager)) {index : Index κ}
    (hindex : c.index? node target = some index) {d : Deadline κ}
    (hnext : scan.next index = (some d, next)) :
    (c.change (c.reclamation node target d.key now)).Sweeps node target now fuel next := by
  obtain ⟨entry, hcopy, -, hexpired⟩ := h.reclaims hlock hindex hnext
  obtain ⟨hd, -, -, hleast⟩ := Scan.next_eq_some (congrArg Prod.fst hnext)
  obtain rfl : { scan with cursor := some d } = next := by
    have hbest : (scan.next index).1 = some d := congrArg Prod.fst hnext
    have hscan : (scan.next index).2 = next := congrArg Prod.snd hnext
    rw [← hscan, ← hbest]
    rfl
  have hlock' := hlock.change (Store.stable_lockStep eager) (c.reclamation node target d.key now)
  have hremain : ∀ i, (c.change (c.reclamation node target d.key now)).index? node target = some i →
      ∀ e ∈ i.deadlines, e ∈ index.deadlines ∧ e ≠ d := by
    intro i hi e he
    obtain ⟨hlimit, other, hother, htime⟩ := (hlock'.mem_deadlines_iff hi e).1 he
    rw [copy?_reclamation hc hcopy hexpired] at hother
    split at hother
    next => cases hother
    next hne =>
      refine ⟨(hlock.mem_deadlines_iff hindex e).2 ⟨hlimit, other, hother, htime⟩, ?_⟩
      rintro rfl
      exact hne ReflCmp.compare_self
  refine ⟨h.now_eq, fun i hi => ?_, fun i hi e he hdue => ?_⟩
  · -- Each of the deadlines that are left was there before, and the one taken away as well.
    have hnodup : (d :: i.deadlines).Nodup :=
      List.nodup_cons.2 ⟨fun hmem => (hremain i hi d hmem).2 rfl, hlock'.nodup_deadlines hi⟩
    have hsubset : d :: i.deadlines ⊆ index.deadlines :=
      List.cons_subset.2 ⟨hd, fun e he => (hremain i hi e he).1⟩
    have hlength := (List.subperm_of_subset hnodup hsubset).length_le
    rw [List.length_cons, ← hlock'.size_eq_length hi, ← hlock.size_eq_length hindex] at hlength
    exact Nat.le_of_succ_le_succ (Nat.le_trans hlength (h.size_le index hindex))
  · rintro _ ⟨⟩
    obtain ⟨hbefore, hne⟩ := hremain i hi e he
    have hle := hleast e hbefore (h.now_eq ▸ hdue) (h.after index hindex e hbefore hdue)
    exact Deadline.lt_of_isLE hle (Ne.symm hne)

end Sweeps

/-- A sweep of a store takes the copy of a key away if it has expired, and does nothing else to it. -/
theorem filter_sweepFromTrace (key : κ) (fuel : Nat) (scan : Scan κ) {now : Millis} (hc : c.Orderly)
    (hlock : c.AllStores (Store.LockStep eager)) (hsweeps : c.Sweeps node target now fuel scan) :
    (sweepFromTrace node target now fuel scan c).filter (·.concerns key) =
      if eager ∧ (c.copy? node target key).any (·.expiredAt now) then
        [c.reclamation node target key now]
      else [] := by
  induction fuel generalizing scan c with
  | zero =>
      refine (if_neg (hlock.none_expired fun index hindex d hd => ?_)).symm
      have hsize := hsweeps.size_le index hindex
      rw [hlock.size_eq_length hindex, Nat.le_zero, List.length_eq_zero_iff] at hsize
      rw [hsize] at hd
      cases hd
  | succ fuel ih =>
      unfold sweepFromTrace
      cases hindex : c.index? node target with
      | none =>
          refine (if_neg (hlock.none_expired fun index hsome => ?_)).symm
          cases hindex.symm.trans hsome
      | some index =>
          rw [Option.map_some]
          cases hnext : scan.next index with
          | mk listed next =>
              cases listed with
              | none =>
                  refine (if_neg (hlock.none_expired fun index' hindex' d hd hdue => ?_)).symm
                  cases hindex.symm.trans hindex'
                  exact Scan.next_eq_none (congrArg Prod.fst hnext) hd (hsweeps.now_eq ▸ hdue)
                    (hsweeps.after index hindex d hd hdue)
              | some d =>
                  obtain ⟨entry, hcopy, htime, hexpired⟩ := hsweeps.reclaims hlock hindex hnext
                  have hrest := ih next (hc.change _)
                    (hlock.change (Store.stable_lockStep eager) _) (hsweeps.step hc hlock hindex hnext)
                  rw [(sameLayout_change c _).reclamation_eq] at hrest
                  simp only [reclaimTrace_of_expired hcopy htime hexpired, follow_cons, follow_nil,
                    List.filter_append, hrest, copy?_reclamation hc hcopy hexpired]
                  by_cases hkey : d.key = key
                  · subst hkey
                    obtain ⟨s, hs, hstore, -⟩ := hlock.of_index? hindex
                    have heager : eager = true := by rw [← hs.indexed, hstore]; rfl
                    simp [concerns_reclamation, heager, hcopy, hexpired]
                  · simp [concerns_reclamation, hkey]

/-- What a sweep of one store changes of a key. -/
theorem filter_sweepStoreTrace (hc : c.Orderly) (hlock : c.AllStores (Store.LockStep eager))
    (node : Nat) (target : Target) (key : κ) (now : Millis) :
    (c.sweepStoreTrace node target now).filter (·.concerns key) =
      if eager ∧ (c.copy? node target key).any (·.expiredAt now) then
        [c.reclamation node target key now]
      else [] :=
  filter_sweepFromTrace key _ _ hc hlock (Sweeps.start c node target now)

end Scans

end Cluster

end Ephemera
