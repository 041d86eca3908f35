import Ephemera.Proofs.Sweeping

/-! # Sweeps as lists of reclamations

A sweep of a node comes down to the keys of its expired copies, for each of the two stores. One after
the other these copies are taken away and counted, and where the node is the primary of the key the
removal is shipped to whoever follows it. Nothing else changes.
-/

namespace Ephemera

open Std

universe u v

namespace Store

variable {κ : Type u} {V : Type v} [Ord κ] [TransOrd κ] [Hashable κ]

/-- The store without its copies of some keys, each of them counted as swept. -/
def sweepOut (s : Store κ V) (keys : List κ) : Store κ V :=
  keys.foldl (fun s key => (s.write key .remove).record .swept) s

theorem get?_sweepOut_of_not_mem [LawfulEqOrd κ] (s : Store κ V) {keys : List κ} {key : κ}
    (h : key ∉ keys) : (s.sweepOut keys).get? key = s.get? key := by
  induction keys generalizing s with
  | nil => rfl
  | cons head rest ih =>
      obtain ⟨hhead, hrest⟩ := not_or.1 (mt List.mem_cons.2 h)
      refine (ih ((s.write head .remove).record .swept) hrest).trans ?_
      rw [get?_record, get?_write_remove, if_neg (by simpa using Ne.symm hhead)]

theorem get?_sweepOut_of_mem [LawfulEqOrd κ] (s : Store κ V) {keys : List κ} {key : κ}
    (h : key ∈ keys) : (s.sweepOut keys).get? key = none := by
  induction keys generalizing s with
  | nil => cases h
  | cons head rest ih =>
      by_cases hrest : key ∈ rest
      · exact ih ((s.write head .remove).record .swept) hrest
      · obtain rfl := (List.mem_cons.1 h).resolve_right hrest
        refine (get?_sweepOut_of_not_mem _ hrest).trans ?_
        rw [get?_record, get?_write_remove, if_pos ReflCmp.compare_self]

/-- A removal is not counted by the store itself, so each key is counted once. -/
theorem counters_sweepOut (s : Store κ V) (keys : List κ) :
    (s.sweepOut keys).counters =
      { s.counters with swept := s.counters.swept + UInt64.ofNat keys.length } := by
  induction keys generalizing s with
  | nil => simp [sweepOut]
  | cons head rest ih =>
      change (((s.write head .remove).record .swept).sweepOut rest).counters = _
      rw [ih]
      simp only [record, counters_write, Counters.record, List.length_cons]
      congr 1
      rw [UInt64.ofNat_add, UInt64.add_assoc, UInt64.add_comm (UInt64.ofNat rest.length)]
      rfl

end Store

namespace Cluster

variable {κ : Type u} {V : Type v} [Ord κ]

/-! ## The stores of a cluster -/

/-- One store of a node. -/
def store? (c : Cluster κ V) (node : Nat) (target : Target) : Option (Store κ V) :=
  c.nodes[node]?.map (·.store target)

theorem store?_modifyNode (c : Cluster κ V) (node other : Nat) (target : Target)
    {f : Node κ V → Node κ V} (hf : ∀ n, (f n).store target = n.store target) :
    (c.modifyNode node f).store? other target = c.store? other target := by
  simp only [store?, getElem?_modifyNode, Option.map_map]
  congr 1
  funext n
  simp only [Function.comp_apply]
  split
  · rw [hf]
  · rfl

theorem store?_modifyStore (c : Cluster κ V) (node other : Nat) (target t : Target)
    (f : Store κ V → Store κ V) :
    (c.modifyNode node fun n => n.withStore target (f (n.store target))).store? other t =
      if other = node ∧ t = target then (c.store? other t).map f else c.store? other t := by
  simp only [store?, getElem?_modifyNode]
  cases c.nodes[other]? with
  | none => simp
  | some n =>
      by_cases hnode : other = node
      · by_cases htarget : t = target
        · simp [hnode, htarget]
        · simp [hnode, htarget, Ne.symm htarget]
      · simp [hnode, Ne.symm hnode]

theorem store?_shipAll (c : Cluster κ V) (nodes : List Nat) (m : Message κ V) (other : Nat)
    (target : Target) : (c.shipAll nodes m).store? other target = c.store? other target := by
  induction nodes generalizing c with
  | nil => rfl
  | cons node rest ih =>
      exact (ih (c.ship node m)).trans
        (c.store?_modifyNode node other target fun n => n.store_push m target)

variable [TransOrd κ]

theorem copy?_eq (c : Cluster κ V) (node : Nat) (target : Target) (key : κ) :
    c.copy? node target key = (c.store? node target).bind (·.get? key) := by
  rw [copy?, store?, Option.bind_map]
  rfl

/-- Shipping leaves all stores alone. -/
theorem store?_fanOut (c : Cluster κ V) (update : Update κ V) (awaited : Bool) (other : Nat)
    (target : Target) : (c.fanOut update awaited).store? other target = c.store? other target := by
  rw [fanOut_eq, store?_shipAll]
  unfold dismiss
  split
  · exact (store?_modifyNode _ _ _ _ fun n => by cases target <;> rfl).trans (c.store?_shipAll _ _ _ _)
  · exact c.store?_shipAll _ _ _ _

theorem queue_fanOut {c : Cluster κ V} (hc : c.Running) (update : Update κ V) (awaited : Bool)
    (node : Nat) :
    (c.fanOut update awaited).queue node = c.queue node ++ if node < c.nodes.length then
      List.replicate ((c.recipients update.key .owned).count node)
          { target := .owned, update, awaited } ++
        List.replicate ((c.recipients update.key .near).count node)
          { target := .near, update, awaited }
      else [] := by
  have hshipped := hc.shipAll (c.recipients update.key .owned) { target := .owned, update, awaited }
  have hsize := (SameLayout.shipAll c (c.recipients update.key .owned)
    { target := .owned, update, awaited }).size
  rw [fanOut_eq, queue_shipAll (hshipped.dismiss update), queue_dismiss, queue_shipAll hc,
    size_dismiss, hsize, List.append_assoc]
  congr 1
  split <;> rfl

/-! ## Copies taken away -/

variable [Hashable κ]

theorem store?_removePrimary (c : Cluster κ V) (key : κ) (version : UInt64) (event : StoreEvent)
    (awaited : Bool) (other : Nat) (target : Target) :
    (c.removePrimary key version event awaited).store? other target =
      if other = c.affinity.primary key ∧ target = .owned then
        (c.store? other target).map fun s => (s.write key .remove).record event
      else c.store? other target := by
  have hlayout : SameLayout c ((c.recordPrimary key event).fanOut (.remove key version) awaited) :=
    (SameLayout.modifyNode c _ _).trans (SameLayout.fanOut _ _ _)
  have hwritten := ((c.recordPrimary key event).fanOut (.remove key version) awaited).store?_modifyStore
    (c.affinity.primary key) other .owned target fun s => s.write key .remove
  have hrecorded := c.store?_modifyStore (c.affinity.primary key) other .owned target
    fun s => s.record event
  rw [store?_fanOut] at hwritten
  unfold removePrimary writePrimary modifyPrimary
  rw [hlayout.affinity]
  refine hwritten.trans ?_
  unfold recordPrimary modifyPrimary
  refine (congrArg (fun s => if other = c.affinity.primary key ∧ target = .owned then
    Option.map (fun s => Store.write s key .remove) s else s) hrecorded).trans ?_
  split
  · rw [Option.map_map]
    congr 1
    funext s
    exact s.write_record key .remove event
  · rfl

theorem queue_removePrimary {c : Cluster κ V} (hc : c.Running) (key : κ) (version : UInt64)
    (event : StoreEvent) (awaited : Bool) (node : Nat) :
    (c.removePrimary key version event awaited).queue node =
      c.queue node ++ if node < c.nodes.length then
        List.replicate ((c.recipients key .owned).count node)
          { target := .owned, update := .remove key version, awaited } ++
        List.replicate ((c.recipients key .near).count node)
          { target := .near, update := .remove key version, awaited }
      else [] := by
  have hqueue : (c.recordPrimary key event).queue node = c.queue node :=
    c.queue_modifyNode _ node fun _ => rfl
  have hrecipients : ∀ target, (c.recordPrimary key event).recipients key target =
      c.recipients key target := fun target => c.recipients_modifyNode _ key target fun _ => rfl
  have hsize : (c.recordPrimary key event).nodes.length = c.nodes.length :=
    (SameLayout.modifyNode c _ _).size
  rw [removePrimary, queue_writePrimary, queue_fanOut (hc.recordPrimary key event), hqueue, hsize]
  simp only [Update.key, hrecipients]

/-- What is shipped to a node when a copy is removed from its primary and nobody waits for it. -/
def notices (c : Cluster κ V) (key : κ) (version : UInt64) (node : Nat) : List (Message κ V) :=
  if node < c.nodes.length then
    [Target.owned, .near].flatMap fun target =>
      List.replicate ((c.recipients key target).count node)
        { target, update := .remove key version, awaited := false }
  else []

section Reclaim

variable {c : Cluster κ V} {node : Nat} {target : Target} {key : κ} {now : Millis} {entry : Entry V}

/-- An expired copy is taken away, on its primary as a removal, elsewhere from the one store. -/
theorem change_reclamation (hcopy : c.copy? node target key = some entry)
    (hexpired : entry.expiredAt now) :
    c.change (c.reclamation node target key now) =
      if target = .owned ∧ c.affinity.primary key = node then
        c.removePrimary key entry.version .swept false
      else c.modifyNode node fun n =>
        n.withStore target (((n.store target).write key .remove).record .swept) := by
  unfold reclamation
  split
  next hprimary =>
    obtain ⟨rfl, rfl⟩ := hprimary
    rw [copy?_primary] at hcopy
    simp only [change, hcopy]
  next hreplica =>
    simp only [change, hreplica, not_false_eq_true, hcopy, Option.any_some, hexpired, and_self, if_true]

theorem store?_reclamation (hcopy : c.copy? node target key = some entry)
    (hexpired : entry.expiredAt now) (other : Nat) (t : Target) :
    (c.change (c.reclamation node target key now)).store? other t =
      if other = node ∧ t = target then
        (c.store? other t).map fun s => (s.write key .remove).record .swept
      else c.store? other t := by
  rw [change_reclamation hcopy hexpired]
  split
  next hprimary =>
    obtain ⟨rfl, rfl⟩ := hprimary
    exact store?_removePrimary ..
  next => exact c.store?_modifyStore node other target t fun s => (s.write key .remove).record .swept

/-- A node announces a removal only of keys that it is primary of. -/
theorem queue_reclamation (hc : c.Running) (hcopy : c.copy? node target key = some entry)
    (hexpired : entry.expiredAt now) (other : Nat) :
    (c.change (c.reclamation node target key now)).queue other = c.queue other ++
      if target = .owned ∧ c.affinity.primary key = node then c.notices key entry.version other
      else [] := by
  rw [change_reclamation hcopy hexpired]
  split
  next =>
    rw [queue_removePrimary hc]
    simp only [notices, List.flatMap_cons, List.flatMap_nil, List.append_nil]
  next =>
    rw [List.append_nil]
    exact c.queue_modifyNode node other fun n => n.inbox_withStore target _

theorem readers?_reclamation [LawfulEqOrd κ] (hcopy : c.copy? node target key = some entry)
    (hexpired : entry.expiredAt now) (other : Nat) (k : κ) :
    (c.change (c.reclamation node target key now)).readers? other k =
      if (target = .owned ∧ c.affinity.primary key = node) ∧ other = node ∧ compare key k = .eq
      then none
      else c.readers? other k := by
  rw [change_reclamation hcopy hexpired]
  split
  next hprimary =>
    obtain ⟨rfl, rfl⟩ := hprimary
    rw [readers?_removePrimary]
    simp only [and_self, true_and]
  next hreplica =>
    rw [if_neg fun h => hreplica h.1]
    exact c.readers?_modifyNode node other k fun n => by cases target <;> rfl

end Reclaim

/-! ## Which copies a sweep takes -/

omit [Hashable κ] in
/-- A list of the keys whose copies in one store of a node have expired. -/
structure ExpiredKeys (c : Cluster κ V) (node : Nat) (target : Target) (now : Millis)
    (keys : List κ) : Prop where
  nodup : keys.Nodup
  mem_iff : ∀ key, key ∈ keys ↔ ∃ entry, c.copy? node target key = some entry ∧ entry.expiredAt now

section Plan

variable [LawfulEqOrd κ] {c : Cluster κ V}

/-- A sweep of a store is a list of reclamations, one for each copy that has expired. -/
theorem Sound.sweepStoreTrace_eq (h : c.Sound) (heager : c.config.eager = true) (node : Nat)
    (target : Target) (now : Millis) :
    ∃ keys, c.ExpiredKeys node target now keys ∧
      c.sweepStoreTrace node target now = keys.map (c.reclamation node target · now) := by
  have hfilter := fun key =>
    filter_sweepStoreTrace h.orderly h.lockStep node target key now
  simp only [heager, true_and] at hfilter
  -- Every change of the sweep concerns some key, and is the one that the sweep makes for it.
  have hconcerns : ∀ x ∈ c.sweepStoreTrace node target now, ∃ key, x.concerns key = true :=
    forall_sweepFromTrace _ _ c fun d deadline => d.forall_reclaimTrace node target deadline now
      (fun _ _ _ => ⟨deadline.key, by simp [Change.concerns]⟩)
      ⟨deadline.key, by simp [Change.concerns]⟩
  have hreclamation : ∀ x ∈ c.sweepStoreTrace node target now,
      x ∈ Set.range (c.reclamation node target · now) := by
    intro x hx
    obtain ⟨key, hkey⟩ := hconcerns x hx
    have hmem := List.mem_filter.2 ⟨hx, hkey⟩
    rw [hfilter] at hmem
    split at hmem
    · exact ⟨key, (List.mem_singleton.1 hmem).symm⟩
    · cases hmem
  obtain ⟨keys, hkeys⟩ : c.sweepStoreTrace node target now ∈
      Set.range (List.map (c.reclamation node target · now)) := by
    rw [Set.range_list_map]
    exact hreclamation
  have hof : ∀ key, (keys.filter (compare · key = .eq)).map (c.reclamation node target · now) =
      if (c.copy? node target key).any (·.expiredAt now) then [c.reclamation node target key now]
      else [] := by
    intro key
    rw [← hfilter, ← hkeys, List.filter_map]
    simp only [Function.comp_def, concerns_reclamation]
  refine ⟨keys, ⟨?_, ?_⟩, hkeys.symm⟩
  · rw [List.nodup_iff_sublist]
    intro key hsublist
    have hlength := (hsublist.filter (compare · key = .eq)).length_le
    have hcount := congrArg List.length (hof key)
    rw [List.length_map] at hcount
    simp only [List.filter_cons, ReflCmp.compare_self, decide_true, if_true, List.filter_nil,
      List.length_cons, List.length_nil, hcount] at hlength
    split at hlength <;> simp at hlength
  · intro key
    have hmem : key ∈ keys ↔ keys.filter (compare · key = .eq) ≠ [] := by
      rw [Ne, List.filter_eq_nil_iff]
      constructor
      · intro hkey hnone
        exact hnone key hkey (by simp)
      · intro hsome
        obtain ⟨other, hother, hkey⟩ : ∃ other ∈ keys, compare other key = .eq := by
          simpa using hsome
        obtain rfl : other = key := by simpa using hkey
        exact hother
    have hempty := congrArg (· = []) (hof key)
    simp only [List.map_eq_nil_iff, eq_iff_iff] at hempty
    rw [hmem, Ne, hempty]
    cases c.copy? node target key with
    | none => simp
    | some entry => simp

end Plan

/-! ## What a sweep leaves behind -/

/-- What a node ships to another when it takes its copy of a key away. -/
def announcement (c : Cluster κ V) (node : Nat) (target : Target) (key : κ) (other : Nat) :
    List (Message κ V) :=
  if target = .owned ∧ c.affinity.primary key = node then
    (c.stored? key).elim [] fun entry => c.notices key entry.version other
  else []

/-- A cluster after the copies of some keys have been taken out of one store of a node, and before. -/
structure SweptOut (c d : Cluster κ V) (node : Nat) (target : Target) (keys : List κ) : Prop where
  layout : SameLayout c d
  version : d.version = c.version
  stores : ∀ other t, d.store? other t =
    if other = node ∧ t = target then (c.store? other t).map (·.sweepOut keys) else c.store? other t
  queue : ∀ other, d.queue other = c.queue other ++ keys.flatMap (c.announcement node target · other)
  forgotten : ∀ key ∈ keys, target = .owned → c.affinity.primary key = node →
    d.readers? node key = none
  readers : ∀ other key,
    ¬(target = .owned ∧ c.affinity.primary key = node ∧ other = node ∧ key ∈ keys) →
      d.readers? other key = c.readers? other key

namespace SweptOut

variable {c d e : Cluster κ V} {node : Nat} {target : Target} {keys : List κ} {key : κ} {now : Millis}

theorem nil (c : Cluster κ V) (node : Nat) (target : Target) : c.SweptOut c node target [] where
  layout := SameLayout.refl c
  version := rfl
  stores other t := by
    have hnothing : (fun s : Store κ V => s.sweepOut []) = id := rfl
    simp [hnothing]
  queue other := by simp
  forgotten key hkey := by cases hkey
  readers _ _ _ := rfl

variable [LawfulEqOrd κ]

theorem copy?_of_not_mem (h : c.SweptOut d node target keys) (hkey : key ∉ keys) (other : Nat)
    (t : Target) : d.copy? other t key = c.copy? other t key := by
  rw [copy?_eq, copy?_eq, h.stores]
  split
  · cases c.store? other t with
    | none => rfl
    | some s => exact s.get?_sweepOut_of_not_mem hkey
  · rfl

theorem copy?_of_mem (h : c.SweptOut d node target keys) (hkey : key ∈ keys) :
    d.copy? node target key = none := by
  rw [copy?_eq, h.stores, if_pos ⟨rfl, rfl⟩]
  cases c.store? node target with
  | none => rfl
  | some s => exact s.get?_sweepOut_of_mem hkey

omit [LawfulEqOrd κ] in
theorem copy?_of_ne (h : c.SweptOut d node target keys) {other : Nat} {t : Target}
    (hne : ¬(other = node ∧ t = target)) (key : κ) : d.copy? other t key = c.copy? other t key := by
  rw [copy?_eq, copy?_eq, h.stores, if_neg hne]

omit [LawfulEqOrd κ] in
theorem recipients_of_not_mem (h : c.SweptOut d node target keys) (hkey : key ∉ keys) (t : Target) :
    d.recipients key t = c.recipients key t :=
  recipients_congr h.layout.affinity (h.readers _ key fun hslot => hkey hslot.2.2.2) t

/-- What is announced of a key does not depend on the keys swept before. -/
theorem announcement_of_not_mem (h : c.SweptOut d node target keys) (hkey : key ∉ keys) (other : Nat) :
    d.announcement node target key other = c.announcement node target key other := by
  have hstored : d.stored? key = c.stored? key := by
    rw [← copy?_primary, ← copy?_primary, h.layout.affinity, h.copy?_of_not_mem hkey]
  simp only [announcement, notices, hstored, h.recipients_of_not_mem hkey, h.layout.affinity,
    h.layout.size]

theorem of_reclamation (hc : c.Running) {entry : Entry V} (hcopy : c.copy? node target key = some entry)
    (hexpired : entry.expiredAt now) :
    c.SweptOut (c.change (c.reclamation node target key now)) node target [key] where
  layout := sameLayout_change c _
  version := by
    rw [version_change]
    unfold reclamation
    split <;> rfl
  stores other t := store?_reclamation hcopy hexpired other t
  queue other := by
    rw [queue_reclamation hc hcopy hexpired, List.flatMap_singleton, announcement]
    split
    next hprimary =>
      obtain ⟨rfl, rfl⟩ := hprimary
      rw [← copy?_primary, hcopy]
      rfl
    next => rfl
  forgotten other hother htarget hprimary := by
    obtain rfl := List.mem_singleton.1 hother
    rw [readers?_reclamation hcopy hexpired, if_pos ⟨⟨htarget, hprimary⟩, rfl, ReflCmp.compare_self⟩]
  readers other k hslot := by
    rw [readers?_reclamation hcopy hexpired, if_neg]
    rintro ⟨⟨htarget, hprimary⟩, hother, hkey⟩
    obtain rfl : key = k := by simpa using hkey
    exact hslot ⟨htarget, hprimary, hother, List.mem_cons_self⟩

/-- One key after the other. -/
theorem cons (h : c.SweptOut d node target [key]) (hrest : d.SweptOut e node target keys)
    (hkey : key ∉ keys) : c.SweptOut e node target (key :: keys) where
  layout := h.layout.trans hrest.layout
  version := hrest.version.trans h.version
  stores other t := by
    rw [hrest.stores, h.stores]
    split
    · rw [Option.map_map]
      rfl
    · rfl
  queue other := by
    have hannounced : keys.flatMap (d.announcement node target · other) =
        keys.flatMap (c.announcement node target · other) := by
      refine List.flatMap_congr fun k hk => h.announcement_of_not_mem ?_ other
      rw [List.mem_singleton]
      rintro rfl
      exact hkey hk
    rw [hrest.queue, h.queue, hannounced, List.flatMap_singleton, List.flatMap_cons, List.append_assoc]
  forgotten k hk htarget hprimary := by
    rcases List.mem_cons.1 hk with rfl | hk
    · rw [hrest.readers _ _ fun hslot => hkey hslot.2.2.2]
      exact h.forgotten k List.mem_cons_self htarget hprimary
    · exact hrest.forgotten k hk htarget (h.layout.affinity ▸ hprimary)
  readers other k hslot := by
    rw [hrest.readers, h.readers]
    · rintro ⟨htarget, hprimary, hother, hk⟩
      exact hslot ⟨htarget, hprimary, hother, List.mem_cons.2 (.inl (List.mem_singleton.1 hk))⟩
    · rw [h.layout.affinity]
      rintro ⟨htarget, hprimary, hother, hk⟩
      exact hslot ⟨htarget, hprimary, hother, List.mem_cons_of_mem key hk⟩

/-- Reclamations of different keys whose copies have expired. -/
theorem of_reclamations {keys : List κ} (hc : c.Orderly) (hkeys : keys.Nodup)
    (hexpired : ∀ key ∈ keys, ∃ entry, c.copy? node target key = some entry ∧ entry.expiredAt now) :
    c.SweptOut (c.follow (keys.map (c.reclamation node target · now))) node target keys := by
  induction keys generalizing c with
  | nil => exact nil c node target
  | cons key rest ih =>
      obtain ⟨hkey, hrest⟩ := List.nodup_cons.1 hkeys
      obtain ⟨entry, hcopy, hentry⟩ := hexpired key List.mem_cons_self
      have hfirst := of_reclamation hc.running hcopy hentry
      refine hfirst.cons ?_ hkey
      rw [List.map_cons, follow_cons,
        List.map_congr_left fun k _ => (hfirst.layout.reclamation_eq node target k now).symm]
      refine ih (hc.change _) hrest fun k hk => ?_
      have hne : k ∉ [key] := by
        rw [List.mem_singleton]
        rintro rfl
        exact hkey hk
      rw [hfirst.copy?_of_not_mem hne]
      exact hexpired k (List.mem_cons_of_mem key hk)

end SweptOut

/-- A sweep of a store takes its expired copies out, and returns their number. -/
theorem Sound.sweepStore [LawfulEqOrd κ] {c : Cluster κ V} (h : c.Sound)
    (heager : c.config.eager = true) (node : Nat) (target : Target) (now : Millis) :
    ∃ keys, c.ExpiredKeys node target now keys ∧
      c.SweptOut (c.sweepStore node target now).1 node target keys ∧
      (c.sweepStore node target now).2 = keys.length := by
  obtain ⟨keys, hkeys, htrace⟩ := h.sweepStoreTrace_eq heager node target now
  rw [sweepStore_eq, htrace]
  refine ⟨keys, hkeys, ?_, List.length_map _⟩
  exact SweptOut.of_reclamations h.orderly hkeys.nodup fun key hkey => (hkeys.mem_iff key).1 hkey

/-- A sweep of a node takes the expired copies out of both of its stores. -/
theorem Sound.sweep [LawfulEqOrd κ] {c : Cluster κ V} (h : c.Sound) (heager : c.config.eager = true)
    (node : Nat) (now : Millis) :
    ∃ (d : Cluster κ V) (swept : Target → List κ),
      (∀ target, c.ExpiredKeys node target now (swept target)) ∧
      c.SweptOut d node .owned (swept .owned) ∧
      d.SweptOut (c.sweep node now).1 node .near (swept .near) ∧
      (c.sweep node now).2 = (swept .owned).length + (swept .near).length := by
  obtain ⟨owned, howned, hout, hlength⟩ := h.sweepStore heager node .owned now
  have hsound : (c.sweepStore node .owned now).1.Sound := by
    rw [sweepStore_eq]
    exact h.follow _
  obtain ⟨near, hnear, hout', hlength'⟩ :=
    hsound.sweepStore (by rw [hout.layout.config, heager]) node .near now
  refine ⟨_, fun target => target.casesOn owned near, ?_, hout, hout', ?_⟩
  · rintro (_ | _)
    · exact howned
    · refine ⟨hnear.nodup, fun key => ?_⟩
      rw [hnear.mem_iff, hout.copy?_of_ne (by simp)]
  · simp only [← hlength, ← hlength']
    rfl

theorem Sound.sweepStore_of_none_expired [LawfulEqOrd κ] {c : Cluster κ V} (h : c.Sound)
    (heager : c.config.eager = true) {node : Nat} {target : Target} {now : Millis}
    (hnone : ∀ key entry, c.copy? node target key = some entry → ¬entry.expiredAt now) :
    c.sweepStore node target now = (c, 0) := by
  obtain ⟨keys, hkeys, htrace⟩ := h.sweepStoreTrace_eq heager node target now
  have hnil : keys = [] := by
    rw [List.eq_nil_iff_forall_not_mem]
    intro key hkey
    obtain ⟨entry, hcopy, hexpired⟩ := (hkeys.mem_iff key).1 hkey
    exact hnone key entry hcopy hexpired
  rw [sweepStore_eq, htrace, hnil]
  rfl

/-- Where nothing has expired there is nothing to sweep. -/
theorem Sound.sweep_of_none_expired [LawfulEqOrd κ] {c : Cluster κ V} (h : c.Sound)
    (heager : c.config.eager = true) {node : Nat} {now : Millis}
    (hnone : ∀ target key entry, c.copy? node target key = some entry → ¬entry.expiredAt now) :
    c.sweep node now = (c, 0) := by
  simp only [Cluster.sweep, h.sweepStore_of_none_expired heager (hnone .owned),
    h.sweepStore_of_none_expired heager (hnone .near), Nat.add_zero]

end Cluster

end Ephemera
