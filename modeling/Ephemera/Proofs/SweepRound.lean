import Ephemera.Proofs.Abreast
import Ephemera.Proofs.ExactSweep
import Ephemera.Proofs.KeyIsolation

/-! # A round of sweeps

When every node of a cluster at rest is swept at one reading of the clock, in any order and with
deliveries in between, a copy that has expired may be reclaimed by the sweep of its own node or by the
removal that the primary ships. Whichever comes first, once everything is delivered the copies that had
not expired are there as before, with their places in the indexes and their readers, and the others are
gone.
-/

namespace Ephemera

open Std

universe u v

namespace Cluster

variable {κ : Type u} {V : Type v} [Ord κ] [TransOrd κ]

/-! ## Copies that are left -/

/-- The second cluster holds no copies but those of the first. -/
def Fewer (c d : Cluster κ V) : Prop :=
  ∀ {node target key entry}, d.copy? node target key = some entry → c.copy? node target key = some entry

/-- No copy on the node has expired. -/
def Clean (now : Millis) (node : Nat) (c : Cluster κ V) : Prop :=
  ∀ target key entry, c.copy? node target key = some entry → ¬entry.expiredAt now

theorem Clean.of_fewer {now : Millis} {node : Nat} {c d : Cluster κ V} (h : c.Clean now node)
    (hfewer : c.Fewer d) : d.Clean now node :=
  fun target key entry hentry => h target key entry (hfewer hentry)

theorem clean_of_size_le {c : Cluster κ V} {node : Nat} (h : c.nodes.length ≤ node) (now : Millis) :
    c.Clean now node := by
  intro target key entry hentry
  cases (copy?_of_size_le h target key).symm.trans hentry

omit [TransOrd κ] in
theorem exists_message_of_mem_inflight {c : Cluster κ V} {node : Nat} {target : Target} {key : κ}
    {u : Update κ V} (h : u ∈ c.inflight node target key) :
    ∃ m ∈ c.queue node, m.target = target ∧ m.update = u := by
  obtain ⟨m, hm, hu⟩ := List.mem_map.1 h
  obtain ⟨hqueue, hslot⟩ := List.mem_filter.1 hm
  exact ⟨m, hqueue, (of_decide_eq_true hslot).1, hu⟩

/-- What sweeps and deliveries at one reading of the clock make of a cluster at rest: only expired
copies go, only their removals are under way, to those that followed them, and readers are forgotten
with the copy on the primary. -/
structure Reaped (now : Millis) (c d : Cluster κ V) : Prop where
  layout : SameLayout c d
  fewer : c.Fewer d
  live : ∀ {node target key entry}, c.copy? node target key = some entry → ¬entry.expiredAt now →
    d.copy? node target key = some entry
  underway : ∀ {node target key u}, u ∈ d.inflight node target key →
    node ∈ c.recipients key target ∧ ∃ entry, c.stored? key = some entry ∧ entry.expiredAt now ∧
      u = .remove key entry.version
  readers : ∀ node key, d.readers? node key = c.readers? node key ∨
    d.readers? node key = none ∧ node = c.affinity.primary key ∧ d.stored? key = none

variable [LawfulEqOrd κ] [Hashable κ]

namespace Reaped

variable {now : Millis} {c d e : Cluster κ V} {node : Nat} {target : Target} {keys : List κ}

omit [LawfulEqOrd κ] [Hashable κ] in
theorem refl (hquiet : c.Quiet) : Reaped now c c where
  layout := SameLayout.refl c
  fewer h := h
  live h _ := h
  underway hu := by
    rw [inflight_of_quiet hquiet] at hu
    cases hu
  readers _ _ := .inl rfl

omit [LawfulEqOrd κ] [Hashable κ] in
/-- Nobody has begun to follow a key meanwhile. -/
theorem mem_recipients (h : Reaped now c d) {key : κ} (hnode : node ∈ d.recipients key target) :
    node ∈ c.recipients key target := by
  refine mem_recipients_of_registered h.layout.affinity.symm (fun hregistered => ?_) hnode
  obtain ⟨readers, hreaders, hreader⟩ := (d.registered_iff key node).1 hregistered
  rw [h.layout.affinity] at hreaders
  rcases h.readers (c.affinity.primary key) key with hsame | ⟨hnone, -⟩
  · exact (c.registered_iff key node).2 ⟨readers, hsame ▸ hreaders, hreader⟩
  · cases hnone.symm.trans hreaders

/-- Another sweep of a store. -/
theorem sweptOut (h : Reaped now c d) (hkeys : d.ExpiredKeys node target now keys)
    (hout : d.SweptOut e node target keys) : Reaped now c e ∧ d.Fewer e := by
  have hfewer : d.Fewer e := by
    intro other t key entry hentry
    by_cases hkey : key ∈ keys
    · by_cases hslot : other = node ∧ t = target
      · obtain ⟨rfl, rfl⟩ := hslot
        cases (hout.copy?_of_mem hkey).symm.trans hentry
      · rwa [hout.copy?_of_ne hslot] at hentry
    · rwa [hout.copy?_of_not_mem hkey] at hentry
  have hstored : ∀ key, d.stored? key = none → e.stored? key = none := by
    intro key hnone
    rw [← Option.not_isSome_iff_eq_none, Option.isSome_iff_exists]
    rintro ⟨entry, hentry⟩
    rw [← copy?_primary, hout.layout.affinity] at hentry
    cases hnone.symm.trans (hfewer hentry)
  refine ⟨⟨h.layout.trans hout.layout, fun hentry => h.fewer (hfewer hentry), ?_, ?_, ?_⟩, hfewer⟩
  · intro other t key entry hentry hlive
    have hbefore := h.live hentry hlive
    by_cases hslot : (other = node ∧ t = target) ∧ key ∈ keys
    · obtain ⟨⟨rfl, rfl⟩, hkey⟩ := hslot
      obtain ⟨copy, hcopy, hexpired⟩ := (hkeys.mem_iff key).1 hkey
      cases hbefore.symm.trans hcopy
      exact absurd hexpired hlive
    · rcases not_and_or.1 hslot with hne | hkey
      · rw [hout.copy?_of_ne hne, hbefore]
      · rw [hout.copy?_of_not_mem hkey, hbefore]
  · intro other t key u hu
    obtain rfl : u.key = key := key_of_mem_inflight hu
    obtain ⟨m, hm, rfl, rfl⟩ := exists_message_of_mem_inflight hu
    rw [hout.queue, List.mem_append, List.mem_flatMap] at hm
    rcases hm with hm | ⟨k, hk, hm⟩
    · exact h.underway (mem_inflight_of_mem_queue hm)
    · cases target with
      | near =>
          rw [announcement_near] at hm
          cases hm
      | owned =>
          obtain ⟨hprimary, entry, hentry, hupdate, -, -, hrecipient⟩ := mem_announcement_iff.1 hm
          obtain ⟨copy, hcopy, hexpired⟩ := (hkeys.mem_iff k).1 hk
          rw [← hprimary, copy?_primary] at hcopy
          cases hcopy.symm.trans hentry
          obtain rfl : m.update.key = k := by rw [hupdate]; rfl
          refine ⟨h.mem_recipients hrecipient, entry, ?_, hexpired, hupdate⟩
          rw [← copy?_primary, h.layout.affinity] at hentry
          exact h.fewer hentry
  · intro other key
    by_cases hslot : target = .owned ∧ d.affinity.primary key = node ∧ other = node ∧ key ∈ keys
    · obtain ⟨rfl, rfl, rfl, hkey⟩ := hslot
      refine .inr ⟨hout.forgotten key hkey rfl rfl, h.layout.affinity ▸ rfl, ?_⟩
      rw [← copy?_primary, hout.layout.affinity, hout.copy?_of_mem hkey]
    · rw [hout.readers other key hslot]
      exact (h.readers other key).imp_right fun hgone => ⟨hgone.1, hgone.2.1, hstored key hgone.2.2⟩

/-- Another sweep of a node, which leaves it without expired copies. -/
theorem sweep (h : Reaped now c d) (hd : d.Sound) (heager : d.config.eager = true) (node : Nat) :
    Reaped now c (d.sweep node now).1 ∧ d.Fewer (d.sweep node now).1 ∧
      (d.sweep node now).1.Clean now node := by
  obtain ⟨b, swept, hswept, hout, hout', -⟩ := hd.sweep heager node now
  obtain ⟨hb, hfewer⟩ := h.sweptOut (hswept .owned) hout
  have hnear : b.ExpiredKeys node .near now (swept .near) := by
    refine ⟨(hswept .near).nodup, fun key => ?_⟩
    rw [(hswept .near).mem_iff, hout.copy?_of_ne (by simp)]
  obtain ⟨hreaped, hfewer'⟩ := hb.sweptOut hnear hout'
  have hall : d.Fewer (d.sweep node now).1 := fun hentry => hfewer (hfewer' hentry)
  refine ⟨hreaped, hall, ?_⟩
  rintro (_ | _) key entry hentry hexpired
  · have hkey := ((hswept .owned).mem_iff key).2 ⟨entry, hall hentry, hexpired⟩
    cases (hout.copy?_of_mem hkey).symm.trans (hfewer' hentry)
  · have hkey := ((hswept .near).mem_iff key).2 ⟨entry, hall hentry, hexpired⟩
    cases (hout'.copy?_of_mem hkey).symm.trans hentry

omit [Hashable κ] in
/-- What the removal that is delivered next takes away is the copy that the primary held, which has
expired: a newer one is not touched. -/
theorem onto_of_queue (h : Reaped now c d) (hquiet : c.Quiet) (habreast : ∀ key, c.Abreast key)
    {node : Nat} {m : Message κ V} {rest : List (Message κ V)} (hqueue : d.queue node = m :: rest)
    {key : κ} (hkey : compare m.update.key key = .eq) {entry : Entry V}
    (hentry : d.copy? node m.target key = some entry) :
    m.update.onto (some entry) = some entry ∨
      m.update.onto (some entry) = none ∧ entry.expiredAt now := by
  obtain rfl : m.update.key = key := by simpa using hkey
  have hmem : m ∈ d.queue node := hqueue ▸ List.mem_cons_self
  obtain ⟨hnode, primary, hstored, hexpired, hu⟩ := h.underway (mem_inflight_of_mem_queue hmem)
  rw [hu, Update.onto]
  split
  next hle =>
    refine .inr ⟨rfl, ?_⟩
    rcases habreast _ node m.target primary hnode hstored with hlast | ⟨-, hcopies⟩
    · rw [inflight_of_quiet hquiet] at hlast
      cases hlast
    · rcases hcopies entry (h.fewer hentry) with rfl | hnewer
      · exact hexpired
      · exact absurd hnewer (UInt64.not_lt.2 (by simpa using hle))
  next => exact .inl rfl

/-- Only removals are under way, so a delivery brings nothing. -/
theorem fewer_deliver (h : Reaped now c d) (hd : d.Orderly) (hquiet : c.Quiet)
    (habreast : ∀ key, c.Abreast key) (node : Nat) : d.Fewer (d.deliver node) := by
  cases hqueue : d.queue node with
  | nil =>
      rw [deliver_of_nil hqueue]
      exact fun hentry => hentry
  | cons m rest =>
      intro other target key entry hentry
      rw [copy?_deliver hd.running hqueue] at hentry
      split at hentry
      next hslot =>
        obtain ⟨rfl, rfl, hkey⟩ := hslot
        cases hcopy : d.copy? other m.target key with
        | none =>
            have hmem : m ∈ d.queue other := hqueue ▸ List.mem_cons_self
            obtain ⟨-, _, -, -, hu⟩ := h.underway (mem_inflight_of_mem_queue hmem)
            rw [hcopy, hu] at hentry
            cases hentry
        | some copy =>
            rw [hcopy] at hentry
            rcases h.onto_of_queue hquiet habreast hqueue hkey hcopy with hsame | ⟨hnone, -⟩
            · rwa [hsame] at hentry
            · cases hnone.symm.trans hentry
      next => exact hentry

/-- Another delivery. -/
theorem deliver (h : Reaped now c d) (hd : d.Orderly) (hquiet : c.Quiet)
    (habreast : ∀ key, c.Abreast key) (node : Nat) :
    Reaped now c (d.deliver node) ∧ d.Fewer (d.deliver node) := by
  have hfewer : d.Fewer (d.deliver node) := h.fewer_deliver hd hquiet habreast node
  refine ⟨?_, hfewer⟩
  cases hqueue : d.queue node with
  | nil =>
      rw [deliver_of_nil hqueue]
      exact h
  | cons m rest =>
      refine ⟨h.layout.trans (sameLayout_change d (.deliver node)),
        fun hentry => h.fewer (hfewer hentry), ?_, ?_, ?_⟩
      · intro other target key entry hentry hlive
        have hbefore := h.live hentry hlive
        rw [copy?_deliver hd.running hqueue]
        split
        next hslot =>
          obtain ⟨rfl, rfl, hkey⟩ := hslot
          rw [hbefore]
          rcases h.onto_of_queue hquiet habreast hqueue hkey hbefore with hsame | ⟨-, hexpired⟩
          · exact hsame
          · exact absurd hexpired hlive
        next => exact hbefore
      · intro other target key u hu
        refine h.underway ?_
        rw [inflight_deliver hd.running hqueue]
        exact List.mem_append_right _ hu
      · intro other key
        rw [readers?_deliver, hd.stored?_deliver]
        exact h.readers other key

/-- Everything is delivered. -/
theorem settle (h : Reaped now c d) (hd : d.Orderly) (hquiet : c.Quiet)
    (habreast : ∀ key, c.Abreast key) : Reaped now c d.settle ∧ d.Fewer d.settle := by
  refine (settle_induction (motive := fun e => e.Orderly ∧ Reaped now c e ∧ d.Fewer e) hd.running ?_
    ⟨hd, h, fun hentry => hentry⟩).2
  rintro e node - ⟨he, hreaped, hfewer⟩
  obtain ⟨hreaped', hfewer'⟩ := hreaped.deliver he hquiet habreast node
  exact ⟨he.deliver node, hreaped', fun hentry => hfewer (hfewer' hentry)⟩

omit [LawfulEqOrd κ] [Hashable κ] in
/-- Once all nodes are clean, just the copies that had not expired are left. -/
theorem copy?_eq (h : Reaped now c d) (hclean : ∀ node < c.nodes.length, d.Clean now node) (node : Nat)
    (target : Target) (key : κ) :
    d.copy? node target key = (c.copy? node target key).filter (!·.expiredAt now) := by
  have hall : d.Clean now node := by
    rcases Nat.lt_or_ge node c.nodes.length with hlt | hle
    · exact hclean node hlt
    · exact clean_of_size_le (h.layout.size ▸ hle) now
  cases hcopy : c.copy? node target key with
  | none =>
      cases hleft : d.copy? node target key with
      | none => rfl
      | some entry => cases hcopy.symm.trans (h.fewer hleft)
  | some entry =>
      by_cases hexpired : entry.expiredAt now
      · cases hleft : d.copy? node target key with
        | none => simp [Option.filter_some, hexpired]
        | some copy =>
            cases hcopy.symm.trans (h.fewer hleft)
            exact absurd hexpired (hall target key entry hleft)
      · simp [h.live hcopy hexpired, Option.filter_some, hexpired]

end Reaped

omit [LawfulEqOrd κ] [Hashable κ] in
/-- Where the primary holds no copy of a key, no node has registered readers of it. -/
theorem Placed.readers?_eq_none {c : Cluster κ V} (hplaced : c.Placed) (hheld : c.Held) {key : κ}
    (hstored : c.stored? key = none) (node : Nat) : c.readers? node key = none := by
  cases hreaders : c.readers? node key with
  | none => rfl
  | some readers =>
      obtain rfl := hplaced.registrar hreaders
      have hsome := hheld key (Option.isSome_of_eq_some hreaders)
      rw [hstored] at hsome
      cases hsome

theorem Orderly.stored?_settle {c : Cluster κ V} (hc : c.Orderly) (key : κ) :
    c.settle.stored? key = c.stored? key := by
  obtain ⟨nodes, hnodes, -⟩ := settle_eq_deliverAll hc.running
  rw [hnodes, hc.stored?_deliverAll]

omit [LawfulEqOrd κ] [Hashable κ] in
/-- The readers of a key are forgotten when its copy on the primary goes, and not before. -/
theorem Reaped.readers?_eq {now : Millis} {c d : Cluster κ V} (h : Reaped now c d) {key : κ}
    (hstored : d.stored? key = (c.stored? key).filter (!·.expiredAt now))
    (hc : c.stored? key = none → ∀ node, c.readers? node key = none)
    (hd : d.stored? key = none → ∀ node, d.readers? node key = none) (node : Nat) :
    d.readers? node key =
      if (c.stored? key).any (·.expiredAt now) then none else c.readers? node key := by
  cases hentry : c.stored? key with
  | none =>
      rw [hentry] at hstored
      rw [hd hstored, hc hentry]
      rfl
  | some entry =>
      rw [hentry] at hstored
      by_cases hexpired : entry.expiredAt now
      · rw [hd (by rw [hstored]; simp [Option.filter_some, hexpired])]
        simp [hexpired]
      · rw [Option.any_some, if_neg (by simpa using hexpired)]
        rcases h.readers node key with hsame | ⟨-, -, hgone⟩
        · exact hsame
        · rw [hstored] at hgone
          simp [Option.filter_some, hexpired] at hgone

/-- What two clusters hold is the same, wherever it is and whoever reads it. -/
structure SameContents (c d : Cluster κ V) : Prop where
  copies : ∀ node target key, d.copy? node target key = c.copy? node target key
  positions : ∀ node target key, d.position? node target key = c.position? node target key
  readers : ∀ node key, d.readers? node key = c.readers? node key

end Cluster

namespace Move

variable {κ : Type u} {V : Type v}

/-- Whether the move is a sweep or a delivery. -/
def Tidies : Move κ V → Prop
  | sweep _ | deliver _ => True
  | _ => False

/-- The outcome of a sweep or delivery that finds nothing. -/
def idle [Ord κ] : Move κ V → Outcome κ V
  | sweep _ => .swept 0
  | _ => .done

end Move

namespace System

variable {κ : Type u} {V : Type v} [Ord κ] [TransOrd κ] [LawfulEqOrd κ] [Hashable κ]
variable [DecidableEq V] [Append V] [Inhabited V]

/-- All of so many nodes are swept, in any order, with deliveries anywhere in between. -/
structure SweepRound (nodes : Nat) (moves : List (Move κ V)) : Prop where
  tidies : ∀ move ∈ moves, move.Tidies
  all : ∀ node < nodes, .sweep node ∈ moves

/-! ## Sweeps and deliveries in turn -/

/-- What a run of sweeps and deliveries keeps, and what every sweep in it achieves for good. -/
theorem reaped_run (moves : List (Move κ V)) (htidies : ∀ move ∈ moves, move.Tidies)
    {c : Cluster κ V} (hquiet : c.Quiet) (habreast : ∀ key, c.Abreast key) {s : System κ V}
    (h : Cluster.Reaped s.clock c s.cluster) (hs : s.cluster.Sound)
    (heager : s.cluster.config.eager = true) :
    (run moves s).1.clock = s.clock ∧ (run moves s).1.cluster.Sound ∧
      Cluster.Reaped s.clock c (run moves s).1.cluster ∧
      s.cluster.Fewer (run moves s).1.cluster ∧
      ∀ node, .sweep node ∈ moves → (run moves s).1.cluster.Clean s.clock node := by
  induction moves generalizing s with
  | nil => exact ⟨rfl, hs, h, fun hentry => hentry, fun node hnode => by cases hnode⟩
  | cons move rest ih =>
      obtain ⟨hclock, hreaped, hfewer, hclean⟩ : (s.step move).1.clock = s.clock ∧
          Cluster.Reaped s.clock c (s.step move).1.cluster ∧
          s.cluster.Fewer (s.step move).1.cluster ∧
          ∀ node, move = .sweep node → (s.step move).1.cluster.Clean s.clock node := by
        cases move with
        | sweep node =>
            obtain ⟨hreaped, hfewer, hclean⟩ := h.sweep hs heager node
            refine ⟨rfl, hreaped, hfewer, ?_⟩
            rintro other ⟨⟩
            exact hclean
        | deliver node =>
            obtain ⟨hreaped, hfewer⟩ := h.deliver hs.orderly hquiet habreast node
            refine ⟨rfl, hreaped, hfewer, ?_⟩
            rintro other ⟨⟩
        | _ => exact (htidies _ List.mem_cons_self).elim
      have hsound := sound_step hs move
      have hstill : (s.step move).1.cluster.config.eager = true := by
        rw [step_cluster, (Cluster.sameLayout_follow _ _).config, heager]
      obtain ⟨hclock', hsound', hreaped', hfewer', hclean'⟩ :=
        ih (fun move hmove => htidies move (List.mem_cons_of_mem _ hmove)) (hclock.symm ▸ hreaped)
          hsound hstill
      rw [hclock] at hclock' hreaped' hclean'
      refine ⟨hclock', hsound', hreaped', fun hentry => hfewer (hfewer' hentry), fun node hnode => ?_⟩
      rcases List.mem_cons.1 hnode with hmove | hnode
      · exact (hclean node hmove.symm).of_fewer hfewer'
      · exact hclean' node hnode

/-- Where nothing is under way and nothing has expired, sweeps and deliveries find nothing to do. -/
theorem run_of_clean (moves : List (Move κ V)) (htidies : ∀ move ∈ moves, move.Tidies)
    {s : System κ V} (hs : s.cluster.Sound) (heager : s.cluster.config.eager = true)
    (hquiet : s.cluster.Quiet) (hclean : ∀ node, s.cluster.Clean s.clock node) :
    run moves s = (s, moves.map Move.idle) := by
  induction moves with
  | nil => rfl
  | cons move rest ih =>
      have hstep : s.step move = (s, move.idle) := by
        cases move with
        | sweep node =>
            simp only [step, hs.sweep_of_none_expired heager (hclean node)]
            rfl
        | deliver node =>
            have hqueue : s.cluster.queue node = [] := by
              cases hn : s.cluster.nodes[node]? with
              | none => exact Cluster.queue_of_none hn
              | some n => rw [Cluster.queue_of_some hn, hquiet n (List.mem_of_getElem? hn)]
            simp only [step, Cluster.deliver_of_nil hqueue]
            rfl
        | _ => exact (htidies _ List.mem_cons_self).elim
      rw [run, hstep]
      simp only [ih fun move hmove => htidies move (List.mem_cons_of_mem _ hmove), List.map_cons]

/-! ## After a round -/

/-- What a round of sweeps from a state at rest leaves, once everything is delivered. -/
structure SweptClean (nodes : Nat) (s t : System κ V) : Prop where
  clock : t.clock = s.clock
  sound : t.cluster.Sound
  eager : t.cluster.config.eager = true
  quiet : t.cluster.Quiet
  clean : ∀ node, t.cluster.Clean s.clock node
  copies : ∀ node target key, t.cluster.copy? node target key =
    (s.cluster.copy? node target key).filter (!·.expiredAt s.clock)
  positions : ∀ node target key, t.cluster.position? node target key =
    if node < nodes ∧ (t.cluster.copy? node target key).isNone then some ([], none)
    else s.cluster.position? node target key
  readers : ∀ node key, t.cluster.readers? node key =
    if (s.cluster.stored? key).any (·.expiredAt s.clock) then none else s.cluster.readers? node key

theorem sweptClean_of_round {config : CacheConfig} {affinity : Affinity κ} {s : System κ V}
    {round : List (Move κ V)} (hs : Established config affinity s.cluster)
    (hrun : Established config affinity (run round s).1.cluster) (heager : config.eager = true)
    (hquiet : s.cluster.Quiet) (habreast : ∀ key, s.cluster.Abreast key)
    (hround : SweepRound s.cluster.nodes.length round) :
    SweptClean s.cluster.nodes.length s (run round s).1.settled := by
  obtain ⟨hclock, hsound, hreaped, -, hclean⟩ :=
    reaped_run round hround.tidies hquiet habreast (Cluster.Reaped.refl hquiet) hs.sound
      (hs.config_eq ▸ heager)
  obtain ⟨hsettled, hfewer⟩ := hreaped.settle hsound.orderly hquiet habreast
  have hrunning := hsound.orderly.running
  have hall : ∀ node, (run round s).1.cluster.settle.Clean s.clock node := by
    intro node
    rcases Nat.lt_or_ge node s.cluster.nodes.length with hlt | hle
    · exact (hclean node (hround.all node hlt)).of_fewer hfewer
    · exact Cluster.clean_of_size_le (hsettled.layout.size ▸ hle) s.clock
  have hcopies := hsettled.copy?_eq fun node _ => hall node
  refine ⟨hclock, hsound.settle, ?_, Cluster.quiet_settle hrunning, hall, hcopies, ?_, ?_⟩
  · change (run round s).1.cluster.settle.config.eager = true
    rw [hsettled.layout.config, hs.config_eq, heager]
  · intro node target key
    change (run round s).1.cluster.settle.position? node target key = _
    rw [hsound.settle.position?_eq, hs.sound.position?_eq, hsettled.layout.size,
      hsettled.layout.config, hs.config_eq, heager]
    change _ = if node < s.cluster.nodes.length ∧
      ((run round s).1.cluster.settle.copy? node target key).isNone then _ else _
    by_cases hnode : node < s.cluster.nodes.length
    · cases hleft : (run round s).1.cluster.settle.copy? node target key with
      | none => simp [hnode]
      | some entry => simp [hnode, hsettled.fewer hleft]
    · simp [hnode]
  · intro node key
    change (run round s).1.cluster.settle.readers? node key = _
    refine hsettled.readers?_eq ?_ (hs.placed.readers?_eq_none hs.held) (fun hstored node => ?_) node
    · rw [← Cluster.copy?_primary, hcopies, hsettled.layout.affinity, Cluster.copy?_primary]
    · rw [hsound.orderly.stored?_settle] at hstored
      rw [Cluster.readers?_settle hrunning]
      exact hrun.placed.readers?_eq_none hrun.held hstored node

/-- A round of sweeps. From every state at rest that a run with eager reclamation reaches, when all
nodes are swept at what the clock shows, in any order and with deliveries anywhere in between, and
everything is delivered in the end, just the copies that had not expired are left on all nodes,
unchanged, with their places in the indexes; the readers of a key are forgotten if its copy on the
primary had expired, and are otherwise as before. So any two rounds lead to the same contents, and
sweeps and deliveries after a round change nothing and find nothing. As long as versions last, a key
whose copy on the primary had expired has no copy left on any node. -/
theorem sweeps_converge {config : CacheConfig} {nodes : Nat} {affinity : Affinity κ}
    {c₀ : Cluster κ V} (hstart : Cluster.start config nodes affinity = .ok c₀)
    (hlawful : affinity.Lawful) (heager : config.eager = true) (now : Millis)
    (moves : List (Move κ V)) {s : System κ V}
    (hrun : (run moves { cluster := c₀, clock := now }).1 = s) (hquiet : s.cluster.Quiet)
    {round : List (Move κ V)} (hround : SweepRound nodes round) {t : System κ V}
    (ht : (run round s).1.settled = t) :
    (∀ node target key, t.cluster.copy? node target key =
      (s.cluster.copy? node target key).filter (!·.expiredAt s.clock)) ∧
    (∀ node target key, t.cluster.position? node target key =
      if node < nodes ∧ (t.cluster.copy? node target key).isNone then some ([], none)
      else s.cluster.position? node target key) ∧
    (∀ node key, t.cluster.readers? node key =
      if (s.cluster.stored? key).any (·.expiredAt s.clock) then none
      else s.cluster.readers? node key) ∧
    (∀ other : List (Move κ V), SweepRound nodes other →
      Cluster.SameContents t.cluster (run other s).1.settled.cluster) ∧
    (∀ again : List (Move κ V), (∀ move ∈ again, move.Tidies) →
      run again t = (t, again.map Move.idle)) ∧
    (drawn moves { cluster := c₀, clock := now } < 2 ^ 64 →
      ∀ key entry, s.cluster.stored? key = some entry → entry.expiredAt s.clock →
        ∀ node target, t.cluster.copy? node target key = none) := by
  obtain ⟨hnodes, hc₀⟩ := Cluster.start_ok hstart
  have hs : Established config affinity s.cluster := hrun ▸ established_run hstart hlawful now moves
  have hsize : s.cluster.nodes.length = nodes := by
    rw [hs.sound.orderly.size, hs.affinity_eq, hnodes]
  have habreast : ∀ key, s.cluster.Abreast key := by
    intro key
    rw [← hrun, run_cluster]
    exact (Cluster.Abreast.start hstart key).follow (Cluster.orderly_start hstart hlawful) _
  have hswept : ∀ other : List (Move κ V), SweepRound nodes other →
      SweptClean nodes s (run other s).1.settled := by
    intro other hother
    have hreached : Established config affinity (run other s).1.cluster := by
      rw [← hrun, ← run_append]
      exact established_run hstart hlawful now (moves ++ other)
    rw [← hsize] at hother ⊢
    exact sweptClean_of_round hs hreached heager hquiet habreast hother
  have hclean : SweptClean nodes s t := ht ▸ hswept round hround
  refine ⟨hclean.copies, hclean.positions, hclean.readers, ?_, ?_, ?_⟩
  · intro other hother
    have hsame := hswept other hother
    have hcopies : ∀ node target key, (run other s).1.settled.cluster.copy? node target key =
        t.cluster.copy? node target key := by
      intro node target key
      rw [hsame.copies, hclean.copies]
    refine ⟨hcopies, fun node target key => ?_, fun node key => ?_⟩
    · rw [hsame.positions, hclean.positions, hcopies]
    · rw [hsame.readers, hclean.readers]
  · intro again hagain
    exact run_of_clean again hagain hclean.sound hclean.eager hclean.quiet
      (hclean.clock.symm ▸ hclean.clean)
  · intro hdrawn key entry hstored hexpired node target
    have hcoherent : s.cluster.Coherent fun _ => True :=
      hrun ▸ coherent_run_of_start hstart hlawful (fun _ _ _ _ => trivial) hdrawn
    rw [hclean.copies]
    cases hcopy : s.cluster.copy? node target key with
    | none => rfl
    | some copy =>
        have hsame : s.cluster.stored? key = some copy := by
          by_cases hreplica : s.cluster.affinity.IsReplica node target key
          · exact hcoherent.stored_of_quiet hquiet hreplica hcopy
          · obtain ⟨rfl, rfl⟩ := Classical.not_not.1 hreplica
            exact hcopy
        cases hsame.symm.trans hstored
        simp [Option.filter_some, hexpired]

/-- Of two keys with copies on all three nodes one has expired. -/
def halfLapsed : List (Move Nat (List Nat)) :=
  [.call 2 (some (.custom (.created (.millis 3)))) (.put 0 [7]), .call 2 none (.put 1 [8]),
    .deliver 1, .deliver 1, .deliver 2, .deliver 2, .setClock 5]

/-- The backup is swept before the primary has told it of the removal. -/
def roundabout : List (Move Nat (List Nat)) :=
  [.sweep 1, .sweep 0, .deliver 2, .sweep 2]

/-- The reader is told of the removal last. -/
def straight : List (Move Nat (List Nat)) :=
  [.sweep 0, .deliver 1, .sweep 1, .sweep 2]

theorem sweeps_converge_halfLapsed :
    ∃ (c₀ : Cluster Nat (List Nat)) (s t : System Nat (List Nat)),
      Cluster.start { near := true } 3 trio = .ok c₀ ∧ (run halfLapsed { cluster := c₀ }).1 = s ∧
      s.cluster.Quiet ∧ (run roundabout s).1.settled = t ∧
      (s.cluster.copy? 1 .owned 0).isSome ∧ (∀ node target, t.cluster.copy? node target 0 = none) ∧
      t.cluster.copy? 2 .near 1 = some { value := [8], version := 2, ttl := .eternal } ∧
      Cluster.SameContents t.cluster (run straight s).1.settled.cluster ∧
      run straight t = (t, [.swept 0, .done, .swept 0, .swept 0]) := by
  let c₀ : Cluster Nat (List Nat) :=
    { config := { near := true }, affinity := trio, nodes := .empty 3 true }
  have hstart : Cluster.start { near := true } 3 trio = .ok c₀ := rfl
  have hquiet : (run halfLapsed { cluster := c₀ }).1.cluster.Quiet := by decide +kernel
  have hdrawn : drawn halfLapsed { cluster := c₀ } < 2 ^ 64 := by decide +kernel
  have hstored : (run halfLapsed { cluster := c₀ }).1.cluster.stored? 0 =
      some { value := [7], version := 1, ttl := .lasting 3 0 } := by decide +kernel
  have hbackup : ((run halfLapsed { cluster := c₀ }).1.cluster.copy? 1 .owned 0).isSome := by
    decide +kernel
  have hnear : (run halfLapsed { cluster := c₀ }).1.cluster.copy? 2 .near 1 =
      some { value := [8], version := 2, ttl := .eternal } := by decide +kernel
  have hround : SweepRound 3 roundabout := ⟨by simp [roundabout, Move.Tidies], by decide⟩
  obtain ⟨hcopies, -, -, hconverge, hagain, hgone⟩ :=
    sweeps_converge hstart lawful_trio rfl 0 halfLapsed rfl hquiet hround rfl
  refine ⟨c₀, _, _, hstart, rfl, hquiet, rfl, hbackup, hgone hdrawn 0 _ hstored (by decide), ?_,
    hconverge straight ⟨by simp [straight, Move.Tidies], by decide⟩,
    hagain straight (by simp [straight, Move.Tidies])⟩
  rw [hcopies, hnear]
  rfl

end System

end Ephemera
