import Ephemera.Proofs.Slice

/-! # Recipients are abreast

The primary of a key ships every copy it makes to all that follow the key, and a reader that comes later
is shipped the copy that is there. So for each of them the last change under way is that copy, or, when
nothing is under way, it holds the copy, has dropped it, or holds a newer one. This is so however many
versions are drawn, also after the counter has gone round.
-/

namespace Ephemera

open Std

universe u v

namespace Cluster

variable {κ : Type u} {V : Type v} [Ord κ] [TransOrd κ]

/-- The stores that the primary of a key ships to are abreast of it. -/
def Abreast (key : κ) (c : Cluster κ V) : Prop :=
  ∀ node target entry, node ∈ c.recipients key target → c.stored? key = some entry →
    (c.inflight node target key).getLast? = some (.put key entry) ∨
      c.inflight node target key = [] ∧
        ∀ copy, c.copy? node target key = some copy → copy = entry ∨ entry.version < copy.version

namespace SameSlice

variable {key : κ} {c d : Cluster κ V}

theorem recipients (h : SameSlice key c d) (target : Target) :
    d.recipients key target = c.recipients key target :=
  recipients_congr h.layout.affinity (h.readers _) target

theorem stored? (h : SameSlice key c d) : d.stored? key = c.stored? key := by
  rw [← copy?_primary, ← copy?_primary, h.layout.affinity, h.copies]

theorem abreast (h : SameSlice key c d) (hc : c.Abreast key) : d.Abreast key := by
  intro node target entry hnode hstored
  rw [h.recipients] at hnode
  rw [h.stored?] at hstored
  rw [h.inflight, h.copies]
  exact hc node target entry hnode hstored

end SameSlice

namespace Abreast

/-- A node that is not there holds nothing, and nothing is under way to it. -/
theorem of_size_le {c : Cluster κ V} {node : Nat} (h : c.nodes.length ≤ node) (target : Target)
    (key : κ) : c.inflight node target key = [] ∧ ∀ copy, c.copy? node target key ≠ some copy := by
  refine ⟨inflight_of_size_le h target key, fun copy hcopy => ?_⟩
  cases (copy?_of_size_le h target key).symm.trans hcopy

variable [LawfulEqOrd κ] [Hashable κ] {key : κ} {c : Cluster κ V}

/-- A new copy is shipped to all recipients. -/
theorem putPrimary (hrunning : c.Running) (hprimary : c.affinity.primary key < c.nodes.length)
    (value : V) (ttl : Ttl) : (c.putPrimary key value ttl).Abreast key := by
  intro node target entry hnode hstored
  have hlayout := sameLayout_putPrimary c key value ttl
  have hrecipients : (c.putPrimary key value ttl).recipients key target = c.recipients key target :=
    recipients_congr hlayout.affinity (readers?_putPrimary c key value ttl _ key) target
  rw [hrecipients] at hnode
  rw [← copy?_primary, hlayout.affinity, copy?_putPrimary _ _ _ _ _ _ _ hprimary,
    if_pos ⟨rfl, rfl, ReflCmp.compare_self⟩] at hstored
  rcases Nat.lt_or_ge node c.nodes.length with hlt | hle
  · left
    obtain ⟨n, hn⟩ := Nat.exists_eq_succ_of_ne_zero (Nat.ne_of_gt (List.count_pos_iff.2 hnode))
    cases hstored
    rw [inflight_putPrimary hrunning, if_pos ⟨hlt, ReflCmp.compare_self⟩, hn]
    simp [List.replicate_succ']
  · obtain ⟨hnothing, hnone⟩ := of_size_le (hlayout.size ▸ hle) target key
    exact .inr ⟨hnothing, fun copy hcopy => absurd hcopy (hnone copy)⟩

/-- A node that asks for the copy is shipped it. -/
theorem share (h : c.Abreast key) (hc : c.Orderly) (via : Nat) :
    (c.change (.share key via)).Abreast key := by
  simp only [Cluster.change]
  split
  next entry reader hentry _ =>
    have hrunning := hc.running.register key reader
    have hprimary := hc.primary_lt key
    have hsize : (c.register key reader).nodes.length = c.nodes.length :=
      (SameLayout.modifyNode c _ _).size
    intro node target other hnode hstored
    rw [← copy?_primary, copy?_ship, copy?_register] at hstored
    cases hentry.symm.trans hstored
    rw [mem_recipients_iff, registered_ship, registered_register _ _ _ _ _ hprimary] at hnode
    rw [inflight_ship hrunning, inflight_register, hsize, copy?_ship, copy?_register]
    by_cases hreader : reader = node ∧ Target.near = target
    · obtain ⟨rfl, rfl⟩ := hreader
      rcases Nat.lt_or_ge reader c.nodes.length with hlt | hle
      · left
        rw [if_pos ⟨rfl, hlt, rfl, ReflCmp.compare_self⟩]
        simp
      · obtain ⟨hnothing, hnone⟩ := of_size_le hle .near key
        rw [hnothing, if_neg fun hslot => Nat.not_lt.2 hle hslot.2.1]
        exact .inr ⟨rfl, fun copy hcopy => absurd hcopy (hnone copy)⟩
    · rw [if_neg fun hslot => hreader ⟨hslot.1, hslot.2.2.1⟩, List.append_nil]
      refine h node target entry ((c.mem_recipients_iff node target key).2 ?_) hentry
      rcases hnode with hbackup | ⟨htarget, ⟨-, hnode⟩ | hregistered, howner⟩
      · exact .inl hbackup
      · exact absurd ⟨hnode.symm, htarget.symm⟩ hreader
      · exact .inr ⟨htarget, hregistered, howner⟩
  next => exact h

/-- A copy that is dropped was on no primary. -/
theorem drop (h : c.Abreast key) (node : Nat) (target : Target) (event : StoreEvent) (now : Millis) :
    (c.change (.drop node target key event now)).Abreast key := by
  intro other t entry hother hstored
  rw [c.stored?_drop node target key event now] at hstored
  rw [c.inflight_drop node target key event now]
  rw [recipients_congr (sameLayout_change c _).affinity
    (c.readers?_drop node target key event now _ key) t] at hother
  refine (h other t entry hother hstored).imp_right fun hquiet => ⟨hquiet.1, fun copy hcopy => ?_⟩
  rcases c.copy?_drop node target key event now other t key with hsame | hnone
  · exact hquiet.2 copy (hsame ▸ hcopy)
  · cases hnone.symm.trans hcopy

/-- The last change under way is the copy of the primary, and so is what it leaves in the store, unless
there is a newer copy. -/
theorem deliver (h : c.Abreast key) (hc : c.Orderly) (node : Nat) : (c.deliver node).Abreast key := by
  cases hqueue : c.queue node with
  | nil => rwa [deliver_of_nil hqueue]
  | cons m rest =>
      intro other target entry hother hstored
      rw [recipients_deliver] at hother
      rw [hc.stored?_deliver] at hstored
      have hbefore := h other target entry hother hstored
      have hinflight := inflight_deliver hc.running hqueue other target key
      rw [copy?_deliver hc.running hqueue]
      split at hinflight
      next hslot =>
        rw [if_pos hslot]
        rw [hinflight] at hbefore
        rcases hbefore with hlast | ⟨hnothing, -⟩
        · cases hafter : (c.deliver node).inflight other target key with
          | nil =>
              rw [hafter] at hlast
              obtain hput : m.update = .put key entry := by simpa using hlast
              refine .inr ⟨rfl, fun copy hcopy => ?_⟩
              rw [hput, Update.onto] at hcopy
              split at hcopy
              next hnewer =>
                rw [hcopy] at hnewer
                exact .inr (by simpa using hnewer)
              next => exact .inl (Option.some.inj hcopy).symm
          | cons u more =>
              rw [hafter] at hlast
              exact .inl (by simpa using hlast)
        · simp at hnothing
      next hslot =>
        rw [if_neg hslot]
        rw [hinflight, List.nil_append] at hbefore
        exact hbefore

/-- Every change leaves the recipients abreast. -/
theorem change (h : c.Abreast key) (hc : c.Orderly) (x : Change κ V) : (c.change x).Abreast key := by
  by_cases hx : x.concerns key = false ∧ x.isDelivery = false
  · exact (SameSlice.change hc hx.1 hx.2).abreast h
  · have hsame : ∀ other : κ, (compare other key = .eq → (c.change x).Abreast key) →
        (x.isDelivery = false) → x.concerns key = decide (compare other key = .eq) →
        (c.change x).Abreast key := by
      intro other hkey hdelivery hconcerns
      refine hkey (Decidable.byContradiction fun hne => hx ⟨?_, hdelivery⟩)
      rw [hconcerns, decide_eq_false hne]
    cases x with
    | count | note => exact absurd ⟨rfl, rfl⟩ hx
    | write other via value ttl =>
        refine hsame other (fun hkey => ?_) rfl rfl
        obtain rfl : other = key := by simpa using hkey
        obtain ⟨d, hd, hchange⟩ := c.exists_change_write other via value ttl
        rw [hchange]
        exact putPrimary (hd.running hc.running) (hd.layout.primary_lt (hc.primary_lt other)) value ttl
    | remove other event awaited =>
        refine hsame other (fun hkey => ?_) rfl rfl
        obtain rfl : other = key := by simpa using hkey
        intro node target entry _ hstored
        cases (hc.stored?_remove other event awaited).symm.trans hstored
    | share other via =>
        refine hsame other (fun hkey => ?_) rfl rfl
        obtain rfl : other = key := by simpa using hkey
        exact h.share hc via
    | drop node target other event now =>
        refine hsame other (fun hkey => ?_) rfl rfl
        obtain rfl : other = key := by simpa using hkey
        exact h.drop node target event now
    | deliver node => exact h.deliver hc node

theorem follow (h : c.Abreast key) (hc : c.Orderly) (trace : List (Change κ V)) :
    (c.follow trace).Abreast key := by
  refine (follow_induction (motive := fun d => d.Orderly ∧ d.Abreast key) trace ?_ c ⟨hc, h⟩).2
  rintro d x - ⟨hd, habreast⟩
  exact ⟨hd.change x, habreast.change hd x⟩

omit [LawfulEqOrd κ] [Hashable κ] in
theorem start {config : CacheConfig} {nodes : Nat} {affinity : Affinity κ}
    (hstart : Cluster.start config nodes affinity = .ok c) (key : κ) : c.Abreast key := by
  intro node target entry _ hstored
  cases (copy?_start hstart _ .owned key).symm.trans hstored

end Abreast

end Cluster

end Ephemera
