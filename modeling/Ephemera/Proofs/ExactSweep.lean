import Mathlib.Data.List.Permutation
import Ephemera.Proofs.Reclamation

/-! # Sweeps are exact

What a sweep takes away, and what it ships: as a decision reaches each backup and each registered reader
once, so does the removal of a swept key. Readers are nodes that were called through, so each of them is
there to receive it.
-/

namespace Ephemera

open Std

universe u v

namespace Cluster

variable {κ : Type u} {V : Type v} [Ord κ] [TransOrd κ] [Hashable κ]

/-! ## Whom a removal is announced to -/

/-- The registered readers of all keys are nodes of the cluster. -/
def Seated (c : Cluster κ V) : Prop :=
  ∀ key reader, c.Registered key reader → reader < c.nodes.length

namespace Seated

variable [LawfulEqOrd κ] {c : Cluster κ V}

/-- Whoever comes to be registered has been called through. -/
theorem change (h : c.Seated) (horderly : c.Orderly) {lapsed : Entry V → Prop} {x : Change κ V}
    (hx : x.Allowed c.nodes.length lapsed) : (c.change x).Seated := by
  have hregister : ∀ other reader via, via < c.nodes.length → c.nearReader via other = some reader →
      ∀ key r, (c.register other reader).Registered key r → r < c.nodes.length := by
    intro other reader via hvia hreader key r hr
    rw [registered_register _ _ _ _ _ (horderly.primary_lt other)] at hr
    rcases hr with ⟨-, rfl⟩ | hr
    · exact (Coherent.of_nearReader hvia hreader).1
    · exact h key r hr
  intro key reader hregistered
  rw [(sameLayout_change c x).size]
  cases x with
  | count other event =>
      exact h key reader ((c.registered_recordPrimary other event key reader).1 hregistered)
  | write other via value ttl =>
      simp only [Cluster.change, registered_putPrimary] at hregistered
      cases hreader : via.bind (c.nearReader · other) with
      | none =>
          rw [hreader] at hregistered
          exact h key reader hregistered
      | some r =>
          obtain ⟨node, hvia, hnode⟩ := Option.bind_eq_some_iff.1 hreader
          rw [hreader] at hregistered
          exact hregister other r node (hx node hvia) hnode key reader hregistered
  | remove other event awaited =>
      simp only [Cluster.change] at hregistered
      split at hregistered
      · exact h key reader ((registered_removePrimary ..).1 hregistered).2
      · exact h key reader hregistered
  | share other via =>
      simp only [Cluster.change] at hregistered
      split at hregistered
      next entry r _ hreader =>
        rw [registered_ship] at hregistered
        exact hregister other r via hx hreader key reader hregistered
      next => exact h key reader hregistered
  | note node target event =>
      exact h key reader
        ((c.registered_modifyNode node key reader fun n => by cases target <;> rfl).1 hregistered)
  | drop node target other event now =>
      simp only [Cluster.change] at hregistered
      split at hregistered
      · exact h key reader
          ((c.registered_modifyNode node key reader fun n => by cases target <;> rfl).1 hregistered)
      · exact h key reader hregistered
  | deliver node => exact h key reader ((c.registered_deliver node key reader).1 hregistered)

theorem follow (h : c.Seated) (horderly : c.Orderly) {lapsed : Entry V → Prop}
    {trace : List (Change κ V)} (htrace : ∀ x ∈ trace, x.Allowed c.nodes.length lapsed) :
    (c.follow trace).Seated := by
  refine (follow_induction (motive := fun d => SameLayout c d ∧ d.Orderly ∧ d.Seated) trace ?_ c
    ⟨SameLayout.refl c, horderly, h⟩).2.2
  rintro d x hx ⟨hlayout, horderly, hseated⟩
  have hallowed := htrace x hx
  rw [← hlayout.size] at hallowed
  exact ⟨hlayout.trans (sameLayout_change d x), horderly.change x, hseated.change horderly hallowed⟩

end Seated

section Announcements

variable {c : Cluster κ V} {node : Nat} {key : κ} {m : Message κ V} {other : Nat}

omit [Hashable κ]

theorem announcement_near (c : Cluster κ V) (node : Nat) (key : κ) (other : Nat) :
    c.announcement node .near key other = [] :=
  if_neg fun h => by cases h.1

theorem mem_announcement_iff :
    m ∈ c.announcement node .owned key other ↔ c.affinity.primary key = node ∧
      ∃ entry, c.stored? key = some entry ∧ m.update = .remove key entry.version ∧ m.awaited = false ∧
        other < c.nodes.length ∧ other ∈ c.recipients key m.target := by
  obtain ⟨target, update, awaited⟩ := m
  simp only [announcement, true_and]
  split
  next hprimary =>
    simp only [hprimary, true_and]
    cases c.stored? key with
    | none => simp
    | some entry =>
        simp only [Option.elim_some, notices, Option.some.injEq, exists_eq_left']
        split
        next hother =>
          cases target <;> simp [List.mem_replicate, List.count_eq_zero, hother] <;> tauto
        next hother => simp [hother]
  next hprimary => simp [hprimary]

/-- Nobody is told twice. -/
theorem nodup_announcement (hbackups : (c.affinity.backups key).Nodup) :
    (c.announcement node .owned key other).Nodup := by
  have hrecipients : ∀ target, (c.recipients key target).Nodup := by
    intro target
    cases target with
    | owned => exact hbackups
    | near =>
        simp only [recipients, readersOf_eq]
        refine List.Nodup.filter _ (ExtTreeSet.distinct_toList.imp ?_)
        rintro a b hne rfl
        exact hne ReflCmp.compare_self
  unfold announcement
  split
  · cases c.stored? key with
    | none => exact List.nodup_nil
    | some entry =>
        simp only [Option.elim_some, notices]
        split
        · rw [List.nodup_flatMap]
          refine ⟨fun target _ => ?_, ?_⟩
          · exact List.nodup_replicate.2 (List.nodup_iff_count_le_one.1 (hrecipients target) other)
          · rw [List.pairwise_pair]
            intro m hm hm'
            rw [List.eq_of_mem_replicate hm] at hm'
            cases List.eq_of_mem_replicate hm'
        · exact List.nodup_nil
  · exact List.nodup_nil

end Announcements

/-! ## Both stores of a node -/

/-- A cluster after the copies of some keys have been taken out of each store of a node, and before. -/
structure SweptNode (c d : Cluster κ V) (node : Nat) (swept : Target → List κ) : Prop where
  layout : SameLayout c d
  version : d.version = c.version
  stores : ∀ other target, d.store? other target =
    if other = node then (c.store? other target).map (·.sweepOut (swept target))
    else c.store? other target
  queue : ∀ other,
    d.queue other = c.queue other ++ (swept .owned).flatMap (c.announcement node .owned · other)
  forgotten : ∀ key ∈ swept .owned, c.affinity.primary key = node → d.readers? node key = none
  readers : ∀ other key, ¬(other = node ∧ c.affinity.primary key = node ∧ key ∈ swept .owned) →
    d.readers? other key = c.readers? other key

/-- Copies that readers hold are taken out without telling anyone. -/
theorem SweptOut.sweptNode {c d e : Cluster κ V} {node : Nat} {swept : Target → List κ}
    (h : c.SweptOut d node .owned (swept .owned)) (h' : d.SweptOut e node .near (swept .near)) :
    c.SweptNode e node swept where
  layout := h.layout.trans h'.layout
  version := h'.version.trans h.version
  stores other target := by
    rw [h'.stores, h.stores]
    cases target <;> simp
  queue other := by
    rw [h'.queue, h.queue]
    simp [announcement_near]
  forgotten key hkey hprimary := by
    rw [h'.readers _ _ (by simp)]
    exact h.forgotten key hkey rfl hprimary
  readers other key hslot := by
    rw [h'.readers _ _ (by simp), h.readers]
    rintro ⟨-, hprimary, hother, hkey⟩
    exact hslot ⟨hother, hprimary, hkey⟩

namespace SweptNode

variable {c d : Cluster κ V} {node : Nat} {swept : Target → List κ} {target : Target} {key : κ}

theorem store?_self (h : c.SweptNode d node swept) (target : Target) :
    d.store? node target = (c.store? node target).map (·.sweepOut (swept target)) := by
  rw [h.stores, if_pos rfl]

variable [LawfulEqOrd κ]

theorem copy?_of_mem (h : c.SweptNode d node swept) (hkey : key ∈ swept target) :
    d.copy? node target key = none := by
  rw [copy?_eq, h.store?_self]
  cases c.store? node target with
  | none => rfl
  | some s => exact s.get?_sweepOut_of_mem hkey

theorem copy?_of_not_mem (h : c.SweptNode d node swept) (hkey : key ∉ swept target) :
    d.copy? node target key = c.copy? node target key := by
  rw [copy?_eq, copy?_eq, h.store?_self]
  cases c.store? node target with
  | none => rfl
  | some s => exact s.get?_sweepOut_of_not_mem hkey

omit [LawfulEqOrd κ] in
theorem counters (h : c.SweptNode d node swept) (target : Target) :
    (d.store? node target).map (·.counters) = (c.store? node target).map fun store =>
      { store.counters with
        swept := store.counters.swept + UInt64.ofNat (swept target).length } := by
  rw [h.store?_self, Option.map_map]
  congr 1
  funext store
  exact store.counters_sweepOut (swept target)

end SweptNode

omit [Hashable κ] in
theorem seated_start {config : CacheConfig} {nodes : Nat} {affinity : Affinity κ} {c : Cluster κ V}
    (h : start config nodes affinity = .ok c) : c.Seated := by
  intro key reader hregistered
  obtain ⟨readers, hreaders, -⟩ := (c.registered_iff key reader).1 hregistered
  cases (readers?_start h _ key).symm.trans hreaders

end Cluster

namespace System

variable {κ : Type u} {V : Type v} [Ord κ] [TransOrd κ] [LawfulEqOrd κ] [Hashable κ]
variable [DecidableEq V] [Append V] [Inhabited V]

/-- What every run from the start keeps, whatever versions it draws. -/
structure Established (config : CacheConfig) (affinity : Affinity κ) (c : Cluster κ V) : Prop where
  config_eq : c.config = config
  affinity_eq : c.affinity = affinity
  sound : c.Sound
  placed : c.Placed
  held : c.Held
  seated : c.Seated

theorem established_run {config : CacheConfig} {nodes : Nat} {affinity : Affinity κ}
    {c₀ : Cluster κ V} (hstart : Cluster.start config nodes affinity = .ok c₀)
    (hlawful : affinity.Lawful) (now : Millis) (moves : List (Move κ V)) :
    Established config affinity (run moves { cluster := c₀, clock := now }).1.cluster := by
  obtain ⟨-, hc₀⟩ := Cluster.start_ok hstart
  obtain ⟨hplaced, hheld⟩ := Cluster.placed_start hstart
  have hsound := Cluster.Sound.start hstart hlawful
  have hlayout := Cluster.sameLayout_follow c₀ (trace moves { cluster := c₀, clock := now })
  rw [run_cluster]
  refine ⟨by rw [hlayout.config, hc₀], by rw [hlayout.affinity, hc₀], hsound.follow _,
    (hplaced.follow hheld hsound.orderly _).1, (hplaced.follow hheld hsound.orderly _).2, ?_⟩
  have hallowed : ∀ x ∈ trace moves { cluster := c₀, clock := now },
      x.Allowed c₀.nodes.length fun _ : Entry V => True :=
    allowed_trace moves _ fun _ _ _ _ => trivial
  exact (Cluster.seated_start hstart).follow hsound.orderly hallowed

section Announcements

omit [LawfulEqOrd κ] [DecidableEq V] [Append V] [Inhabited V]

variable {config : CacheConfig} {affinity : Affinity κ} {c : Cluster κ V} {node other : Nat}
  {keys : List κ}

/-- Keys are announced independently. -/
theorem Established.nodup_announcements (h : Established config affinity c)
    (hbackups : ∀ key, (affinity.backups key).Nodup) (hkeys : keys.Nodup) :
    (keys.flatMap (c.announcement node .owned · other)).Nodup := by
  rw [List.nodup_flatMap]
  refine ⟨fun key _ => Cluster.nodup_announcement (h.affinity_eq ▸ hbackups key), hkeys.imp ?_⟩
  intro a b hne m ha hb
  obtain ⟨-, _, -, ha, -⟩ := Cluster.mem_announcement_iff.1 ha
  obtain ⟨-, _, -, hb, -⟩ := Cluster.mem_announcement_iff.1 hb
  exact hne (congrArg Update.key (ha.symm.trans hb))

/-- A removal reaches each backup and each registered reader of its key. -/
theorem Established.mem_announcements_iff (h : Established config affinity c) (m : Message κ V) :
    m ∈ keys.flatMap (c.announcement node .owned · other) ↔
      m.update.key ∈ keys ∧ affinity.primary m.update.key = node ∧
      (∃ entry, c.copy? node .owned m.update.key = some entry ∧
        m.update = .remove m.update.key entry.version) ∧ m.awaited = false ∧
      (m.target = .owned ∧ other ∈ affinity.backups m.update.key ∨
        m.target = .near ∧ c.Registered m.update.key other) := by
  rw [List.mem_flatMap]
  constructor
  · rintro ⟨key, hkey, hm⟩
    obtain ⟨hprimary, entry, hstored, hupdate, hawaited, -, hrecipient⟩ :=
      Cluster.mem_announcement_iff.1 hm
    obtain rfl : m.update.key = key := by rw [hupdate]; rfl
    rw [h.affinity_eq] at hprimary
    refine ⟨hkey, hprimary, ⟨entry, ?_, hupdate⟩, hawaited, ?_⟩
    · rw [← hprimary, ← h.affinity_eq, Cluster.copy?_primary, hstored]
    · rw [Cluster.mem_recipients_iff, h.affinity_eq] at hrecipient
      exact hrecipient.imp_right fun h => ⟨h.1, h.2.1⟩
  · rintro ⟨hkey, hprimary, ⟨entry, hcopy, hupdate⟩, hawaited, hfollows⟩
    refine ⟨m.update.key, hkey, Cluster.mem_announcement_iff.2 ⟨?_, entry, ?_, hupdate, hawaited, ?_⟩⟩
    · rw [h.affinity_eq, hprimary]
    · rw [← Cluster.copy?_primary, h.affinity_eq, hprimary, hcopy]
    · rw [Cluster.mem_recipients_iff, h.affinity_eq]
      rcases hfollows with ⟨htarget, hbackup⟩ | ⟨htarget, hregistered⟩
      · refine ⟨?_, .inl ⟨htarget, hbackup⟩⟩
        rw [h.sound.orderly.size]
        exact h.sound.orderly.lawful.backups_lt m.update.key other (h.affinity_eq.symm ▸ hbackup)
      · obtain ⟨readers, hreaders, hreader⟩ := (Cluster.registered_iff ..).1 hregistered
        refine ⟨h.seated m.update.key other hregistered, .inr ⟨htarget, hregistered, ?_⟩⟩
        rw [← h.affinity_eq]
        exact (h.placed.readers hreaders hreader).2

end Announcements

/-- Sweeps are exact. In every state of every run with eager reclamation, whatever is under way, a sweep
of a node at any reading of the clock takes away the copies on the node that have expired and no others,
leaves the stores of all other nodes alone, and counts each copy taken once, on the store it was in. It
returns their number. For each of them that the node was primary of, it ships one removal, with the
version of the copy, to each backup and each registered reader, ends the registrations, and does nothing
else. A second sweep of the node, no later than the first, finds nothing. -/
theorem sweep_exact {config : CacheConfig} {nodes : Nat} {affinity : Affinity κ}
    {c₀ : Cluster κ V} (hstart : Cluster.start config nodes affinity = .ok c₀)
    (hlawful : affinity.Lawful) (hbackups : ∀ key, (affinity.backups key).Nodup)
    (heager : config.eager = true) (clock : Millis) (moves : List (Move κ V)) {s : System κ V}
    (hrun : (run moves { cluster := c₀, clock }).1 = s) (node : Nat) (now : Millis)
    {d : Cluster κ V} {count : Nat} (hsweep : s.cluster.sweep node now = (d, count)) :
    ∃ swept : Target → List κ,
      (∀ target, (swept target).Nodup ∧ ∀ key, key ∈ swept target ↔
        ∃ entry, s.cluster.copy? node target key = some entry ∧
          entry.ttl.expireTime ≠ 0 ∧ entry.ttl.expireTime ≤ now) ∧
      (∀ target key, (key ∈ swept target → d.copy? node target key = none) ∧
        (key ∉ swept target → d.copy? node target key = s.cluster.copy? node target key)) ∧
      (∀ other, other ≠ node → ∀ target, d.store? other target = s.cluster.store? other target) ∧
      count = (swept .owned).length + (swept .near).length ∧
      (∀ target, (d.store? node target).map (·.counters) =
        (s.cluster.store? node target).map fun store =>
          { store.counters with
            swept := store.counters.swept + UInt64.ofNat (swept target).length }) ∧
      (∀ other, ∃ added, d.queue other = s.cluster.queue other ++ added ∧ added.Nodup ∧
        ∀ m, m ∈ added ↔ m.update.key ∈ swept .owned ∧ affinity.primary m.update.key = node ∧
          (∃ entry, s.cluster.copy? node .owned m.update.key = some entry ∧
            m.update = .remove m.update.key entry.version) ∧ m.awaited = false ∧
          (m.target = .owned ∧ other ∈ affinity.backups m.update.key ∨
            m.target = .near ∧ s.cluster.Registered m.update.key other)) ∧
      (Cluster.SameLayout s.cluster d ∧ d.version = s.cluster.version ∧
        (∀ key ∈ swept .owned, affinity.primary key = node → d.readers? node key = none) ∧
        ∀ other key, ¬(other = node ∧ affinity.primary key = node ∧ key ∈ swept .owned) →
          d.readers? other key = s.cluster.readers? other key) ∧
      ∀ earlier ≤ now, d.sweep node earlier = (d, 0) := by
  have hs : Established config affinity s.cluster := hrun ▸ established_run hstart hlawful clock moves
  clear hrun
  obtain ⟨c, swept, hswept, howned, hnear, hlength⟩ :=
    hs.sound.sweep (hs.config_eq ▸ heager) node now
  rw [hsweep] at hnear hlength
  have hnode : s.cluster.SweptNode d node swept := howned.sweptNode hnear
  have hkeys : ∀ target, (swept target).Nodup ∧ ∀ key, key ∈ swept target ↔
      ∃ entry, s.cluster.copy? node target key = some entry ∧
        entry.ttl.expireTime ≠ 0 ∧ entry.ttl.expireTime ≤ now := by
    intro target
    refine ⟨(hswept target).nodup, fun key => ?_⟩
    simp only [(hswept target).mem_iff, Entry.expiredAt, Ttl.expiredAt_iff]
  refine ⟨swept, hkeys, fun target key => ⟨hnode.copy?_of_mem, hnode.copy?_of_not_mem⟩, ?_, hlength,
    hnode.counters, ?_, ⟨hnode.layout, hnode.version, ?_, ?_⟩, ?_⟩
  · intro other hother target
    rw [hnode.stores, if_neg hother]
  · intro other
    exact ⟨_, hnode.queue other, hs.nodup_announcements hbackups (hswept .owned).nodup,
      hs.mem_announcements_iff⟩
  · exact hs.affinity_eq ▸ hnode.forgotten
  · exact hs.affinity_eq ▸ hnode.readers
  · intro earlier hearlier
    have hd : d = s.cluster.follow (s.cluster.sweepTrace node now) := by
      rw [← Cluster.sweep_fst, hsweep]
    have hsound : d.Sound := hd ▸ hs.sound.follow _
    refine hsound.sweep_of_none_expired ?_ ?_
    · rw [hnode.layout.config, hs.config_eq, heager]
    · intro target key entry hcopy hexpired
      -- A copy that is left was there before and not among those that had expired.
      have hkey : key ∉ swept target := by
        intro hkey
        rw [hnode.copy?_of_mem hkey] at hcopy
        cases hcopy
      rw [hnode.copy?_of_not_mem hkey] at hcopy
      obtain ⟨hlimit, hdue⟩ := (entry.ttl.expiredAt_iff earlier).1 hexpired
      exact hkey (((hkeys target).2 key).2 ⟨entry, hcopy, hlimit, UInt64.le_trans hdue hearlier⟩)

/-- A key is written through node 2, for a short time, and everything is delivered. -/
def lapsing : List (Move Nat (List Nat)) :=
  [.call 2 (some (.custom (.created (.millis 3)))) (.put 0 [7]), .deliver 1, .deliver 2]

theorem sweep_exact_lapsing :
    ∃ (c₀ d : Cluster Nat (List Nat)) (s : System Nat (List Nat)),
      Cluster.start { near := true } 3 trio = .ok c₀ ∧ (run lapsing { cluster := c₀ }).1 = s ∧
      s.cluster.sweep 0 5 = (d, 1) ∧ d.copy? 0 .owned 0 = none ∧
      d.copy? 1 .owned 0 = s.cluster.copy? 1 .owned 0 ∧
      { target := .near, update := .remove 0 1, awaited := false } ∈ d.queue 2 ∧
      d.sweep 0 4 = (d, 0) := by
  let c₀ : Cluster Nat (List Nat) :=
    { config := { near := true }, affinity := trio, nodes := .empty 3 true }
  have hstart : Cluster.start { near := true } 3 trio = .ok c₀ := rfl
  have hcopy : (run lapsing { cluster := c₀ }).1.cluster.copy? 0 .owned 0 =
      some { value := [7], version := 1, ttl := .lasting 3 0 } := by decide +kernel
  have hreader : 2 ∈ (run lapsing { cluster := c₀ }).1.cluster.readersOf 0 := by decide +kernel
  have hcount : ((run lapsing { cluster := c₀ }).1.cluster.sweep 0 5).2 = 1 := by cbv
  have hsweep : (run lapsing { cluster := c₀ }).1.cluster.sweep 0 5 =
      (((run lapsing { cluster := c₀ }).1.cluster.sweep 0 5).1, 1) := by rw [← hcount]
  obtain ⟨swept, hswept, hcopies, hothers, -, -, hqueue, -, hagain⟩ :=
    sweep_exact hstart lawful_trio (fun _ => List.nodup_singleton 1) rfl 0 lapsing rfl 0 5 hsweep
  have hkey : 0 ∈ swept .owned := ((hswept .owned).2 0).2 ⟨_, hcopy, by decide, by decide⟩
  obtain ⟨added, hadded, -, hmem⟩ := hqueue 2
  refine ⟨c₀, _, _, hstart, rfl, hsweep, (hcopies .owned 0).1 hkey, ?_, ?_,
    hagain 4 (by decide)⟩
  · rw [Cluster.copy?_eq, hothers 1 (by decide), ← Cluster.copy?_eq]
  · rw [hadded, List.mem_append]
    refine .inr ((hmem _).2 ⟨hkey, rfl, ⟨_, hcopy, rfl⟩, rfl, .inr ⟨rfl, ?_⟩⟩)
    exact ((Cluster.mem_readersOf_iff ..).1 hreader).1

end System

end Ephemera
