import Ephemera.Proofs.Commit
import Ephemera.Proofs.Provenance
import Ephemera.Proofs.Sight

/-! # Succession of copies

A store that has dropped a copy keeps no trace of it. That an older copy never comes back rests on
the order of what is under way to the store: nothing there is older than what the store has held, and
whatever follows a removal was written after it.
-/

namespace Ephemera

open Std

universe u v

namespace Cluster

variable {κ : Type u} {V : Type v} [Ord κ] [TransOrd κ]

/-- A store of a node is told that all copies of a key up to a version are gone: the primary decides so,
or the message that says so is delivered. -/
inductive Removal (c : Cluster κ V) (node : Nat) (target : Target) (key : κ) (version : UInt64) :
    Change κ V → Prop where
  | decided {entry : Entry V} {event : StoreEvent} {awaited : Bool}
      (hnode : c.affinity.primary key = node) (htarget : target = .owned)
      (hentry : c.stored? key = some entry) (hversion : entry.version = version) : Removal c node target key version (.remove key event awaited)
  | delivered {m : Message κ V} {rest : List (Message κ V)} (hqueue : c.queue node = m :: rest)
      (htarget : m.target = target) (hupdate : m.update = .remove key version) :
      Removal c node target key version (.deliver node)

/-- No copy of a key that a store holds or will hold is of a version below `floor`. Nor, with
`removals`, is a removal that is under way to the store. -/
structure Beyond (floor : Nat) (removals : Bool) (c : Cluster κ V) (node : Nat) (target : Target)
    (key : κ) : Prop where
  next : floor ≤ c.version.toNat + 1
  stored : ∀ entry, c.stored? key = some entry → floor ≤ entry.version.toNat
  copy : ∀ entry, c.copy? node target key = some entry → floor ≤ entry.version.toNat
  inflight : ∀ u ∈ c.inflight node target key, (u.isRemove = true → removals = true) →
    floor ≤ u.version.toNat

/-- What is under way to a store after a removal was written after it. -/
structure Final (c : Cluster κ V) (node : Nat) (target : Target) (key : κ) : Prop where
  order : (c.inflight node target key).Pairwise fun u v =>
    u.isRemove = true → v.isRemove = false → u.version < v.version
  next : ∀ u ∈ c.inflight node target key, u.isRemove = true → u.version ≤ c.version
  stored : ∀ u ∈ c.inflight node target key, u.isRemove = true →
    ∀ entry, c.stored? key = some entry → u.version < entry.version

variable [LawfulEqOrd κ] [Hashable κ] {c : Cluster κ V} {node : Nat} {target : Target} {key : κ}

/-! ## Nothing older -/

theorem Beyond.change {floor : Nat} {removals : Bool} (h : c.Beyond floor removals node target key)
    (horderly : c.Orderly) {x : Change κ V} (hroom : c.version.toNat + x.draws.toNat < 2 ^ 64) :
    (c.change x).Beyond floor removals node target key := by
  -- Whatever is new is of the next version, and what is shipped again was on the primary.
  have hwritten : x.draws = true → floor ≤ (c.version + 1).toNat := by
    intro hdraws
    rw [hdraws, Bool.toNat_true] at hroom
    rw [toNat_next hroom]
    exact h.next
  refine ⟨?_, ?_, ?_, ?_⟩
  · rw [version_change_toNat hroom]
    exact Nat.le_trans h.next (by omega)
  · intro entry hentry
    rcases horderly.stored?_change x key with hsame | hnone | ⟨via, value, ttl, rfl, hstored⟩
    · exact h.stored entry (hsame ▸ hentry)
    · cases hnone.symm.trans hentry
    · cases hstored.symm.trans hentry
      exact hwritten rfl
  · intro entry hentry
    rcases copy?_change_eq_some horderly.running hentry with hcopy | ⟨other, hput⟩ | ⟨via, rfl, hversion⟩
    · exact h.copy entry hcopy
    · exact h.inflight _ hput fun hremove => by cases hremove
    · rw [hversion]
      exact hwritten rfl
  · intro u hu hremovals
    rcases mem_inflight_change horderly.running hu with hu | hdecision
    · exact h.inflight u hu hremovals
    · rcases (version_of_decision? hdecision).2 with ⟨hdraws, hversion⟩ | ⟨entry, hentry, hversion⟩
      · rw [hversion]
        exact hwritten hdraws
      · rw [hversion]
        exact h.stored entry hentry

theorem Beyond.follow {floor : Nat} {removals : Bool} (h : c.Beyond floor removals node target key)
    (horderly : c.Orderly) {trace : List (Change κ V)}
    (hroom : c.version.toNat + trace.countP (·.draws) < 2 ^ 64) :
    (c.follow trace).Beyond floor removals node target key := by
  refine (follow_induction_of_room
    (motive := fun d => d.Orderly ∧ d.Beyond floor removals node target key) trace ?_ c hroom
    ⟨horderly, h⟩).2
  rintro d x - hroom ⟨horderly, hbeyond⟩
  exact ⟨horderly.change x, hbeyond.change horderly hroom⟩

omit [LawfulEqOrd κ] [Hashable κ] in
/-- What is under way to a store is not older than the copy that it holds. -/
theorem Coherent.beyond {lapsed : Entry V → Prop} (h : c.Coherent lapsed) {entry : Entry V}
    (hcopy : c.copy? node target key = some entry) :
    c.Beyond entry.version.toNat true node target key := by
  have hstep := h.inStep key
  have hreached : c.reached key ≤ c.version.toNat := by
    unfold reached
    cases hstored : c.stored? key with
    | none => exact Nat.le_refl _
    | some stored => exact UInt64.le_iff_toNat_le.1 (hstep.bounded stored hstored)
  have hstored : ∀ stored, c.stored? key = some stored → c.reached key = stored.version.toNat := by
    intro stored hstored
    unfold reached
    rw [hstored]
    rfl
  have hsame : ∀ other, c.copy? node target key = some other →
      entry.version.toNat ≤ other.version.toNat := by
    intro other hother
    exact Nat.le_of_eq (by rw [Option.some.inj (hcopy.symm.trans hother)])
  -- A replica follows the primary in ascending versions; the store of the primary awaits nothing.
  by_cases hreplica : c.affinity.IsReplica node target key
  · have hfollows := hstep.follows node target hreplica
    have hle : entry.version.toNat ≤ c.reached key :=
      hfollows.le_ceiling _ (by simp [versions, hcopy])
    refine ⟨by omega, fun stored hentry => hstored stored hentry ▸ hle, hsame, ?_⟩
    intro u hu _
    have hascending := (List.pairwise_append.1 hfollows.ascending).1
    rw [versions, List.pairwise_append] at hascending
    exact hascending.2.2 _ (by simp [hcopy]) _ (List.mem_map_of_mem hu)
  · obtain ⟨rfl, rfl⟩ := Classical.not_not.1 hreplica
    have hle : entry.version.toNat ≤ c.version.toNat :=
      UInt64.le_iff_toNat_le.1 (hstep.bounded entry hcopy)
    refine ⟨by omega, hsame, hsame, ?_⟩
    rw [hstep.home]
    intro u hu
    cases hu

omit [Hashable κ] in
/-- A removal is of no version below what the store has held. -/
theorem Beyond.le_removal {floor : Nat} (h : c.Beyond floor true node target key) {version : UInt64}
    {x : Change κ V} (hremoval : c.Removal node target key version x) : floor ≤ version.toNat := by
  cases hremoval with
  | decided hnode htarget hentry hversion => exact hversion ▸ h.stored _ hentry
  | @delivered m rest hqueue htarget hupdate =>
      have hm : m ∈ c.queue node := by
        rw [hqueue]
        exact List.mem_cons_self
      have hmem := mem_inflight_of_mem_queue hm
      rw [htarget, hupdate] at hmem
      exact h.inflight (.remove key version) hmem fun _ => rfl

/-- The copies that a store comes to hold ascend in their versions. -/
theorem Coherent.version_le {lapsed : Entry V → Prop} (h : c.Coherent lapsed)
    {trace : List (Change κ V)} (hroom : c.version.toNat + trace.countP (·.draws) < 2 ^ 64)
    {earlier later : Entry V} (hearlier : c.copy? node target key = some earlier)
    (hlater : (c.follow trace).copy? node target key = some later) :
    earlier.version ≤ later.version := by
  rw [UInt64.le_iff_toNat_le]
  exact ((h.beyond hearlier).follow h.orderly hroom).copy later hlater

/-! ## Removals are final -/

theorem Final.change (h : c.Final node target key) (horderly : c.Orderly) (hbounded : c.Bounded)
    {x : Change κ V} (hroom : c.version.toNat + x.draws.toNat < 2 ^ 64) :
    (c.change x).Final node target key := by
  have hrises : c.version ≤ (c.change x).version := version_le_change hroom
  have hwritten : ∀ {version : UInt64}, x.draws = true → version ≤ c.version →
      version < c.version + 1 := by
    intro version hdraws hle
    rw [hdraws, Bool.toNat_true] at hroom
    rw [UInt64.le_iff_toNat_le] at hle
    rw [UInt64.lt_iff_toNat_lt, toNat_next hroom]
    exact Nat.lt_succ_of_le hle
  -- A removal that the change ships is one of the copy that it takes from the primary.
  have hdecided : ∀ u, c.decision? key x = some u → u.isRemove = true →
      u.version ≤ c.version ∧ (c.change x).stored? key = none := by
    intro u hdecision hremove
    rcases decision?_eq_some hdecision with ⟨via, value, ttl, rfl, rfl⟩ |
      ⟨event, awaited, entry, rfl, hentry, rfl⟩ | ⟨via, entry, rfl, hentry, rfl⟩
    · cases hremove
    · exact ⟨hbounded _ (carries_of_stored hentry).mentions, horderly.stored?_remove key event awaited⟩
    · cases hremove
  have hmem : ∀ u ∈ (c.change x).inflight node target key, u.isRemove = true →
      u.version ≤ c.version ∧ ∀ entry, (c.change x).stored? key = some entry →
        u.version < entry.version := by
    intro u hu hremove
    rcases mem_inflight_change horderly.running hu with hbefore | hdecision
    · refine ⟨h.next u hbefore hremove, fun entry hentry => ?_⟩
      rcases horderly.stored?_change x key with hsame | hnone | ⟨via, value, ttl, rfl, hstored⟩
      · exact h.stored u hbefore hremove entry (hsame ▸ hentry)
      · cases hnone.symm.trans hentry
      · cases hstored.symm.trans hentry
        exact hwritten rfl (h.next u hbefore hremove)
    · obtain ⟨hle, hnone⟩ := hdecided u hdecision hremove
      exact ⟨hle, fun entry hentry => by cases hnone.symm.trans hentry⟩
  refine ⟨?_, fun u hu hremove => UInt64.le_trans (hmem u hu hremove).1 hrises,
    fun u hu hremove => (hmem u hu hremove).2⟩
  rcases inflight_change horderly.running x node target key with hsame | ⟨n, u, hdecision, hshipped⟩ |
    ⟨-, u, hdelivered⟩
  · rw [hsame]
    exact h.order
  · rw [hshipped, List.pairwise_append]
    refine ⟨h.order, List.pairwise_replicate.2 (.inr fun hremove hput => ?_), ?_⟩
    · rw [hremove] at hput
      cases hput
    · intro v hv next hnext hremove hput
      rw [List.eq_of_mem_replicate hnext] at hput ⊢
      rcases decision?_eq_some hdecision with ⟨via, value, ttl, rfl, rfl⟩ |
        ⟨event, awaited, entry, rfl, hentry, rfl⟩ | ⟨via, entry, rfl, hentry, rfl⟩
      · exact hwritten rfl (h.next v hv hremove)
      · cases hput
      · exact h.stored v hv hremove entry hentry
  · have horder := h.order
    rw [hdelivered] at horder
    exact (List.pairwise_cons.1 horder).2

theorem Final.follow (h : c.Final node target key) (horderly : c.Orderly) (hbounded : c.Bounded)
    {trace : List (Change κ V)} (hroom : c.version.toNat + trace.countP (·.draws) < 2 ^ 64) :
    (c.follow trace).Final node target key := by
  refine (follow_induction_of_room
    (motive := fun d => d.Orderly ∧ d.Bounded ∧ d.Final node target key) trace ?_ c hroom
    ⟨horderly, hbounded, h⟩).2.2
  rintro d x - hroom ⟨horderly, hbounded, hfinal⟩
  exact ⟨horderly.change x, hbounded.change horderly.running hroom,
    hfinal.change horderly hbounded hroom⟩

/-- After a removal nothing up to its version is in the store or under way to it. -/
theorem Final.removed (h : c.Final node target key) (horderly : c.Orderly) (hbounded : c.Bounded)
    {version : UInt64} {x : Change κ V} (hremoval : c.Removal node target key version x) :
    (c.change x).Beyond (version.toNat + 1) false node target key := by
  cases hremoval with
  | @decided entry event awaited hnode htarget hentry hversion =>
      subst hnode htarget
      have hle := hbounded _ (carries_of_stored hentry).mentions
      rw [hversion, UInt64.le_iff_toNat_le] at hle
      have hstored := horderly.stored?_remove key event awaited
      have hlayout := sameLayout_change c (.remove key event awaited)
      have hhome := (horderly.change (.remove key event awaited)).home key
      rw [hlayout.affinity] at hhome
      refine ⟨?_, ?_, ?_, ?_⟩
      · rw [version_change]
        exact Nat.succ_le_succ hle
      · intro next hnext
        cases hstored.symm.trans hnext
      · intro next hnext
        rw [← hlayout.affinity, copy?_primary, hstored] at hnext
        cases hnext
      · rw [hhome]
        intro u hu
        cases hu
  | @delivered m rest hqueue htarget hupdate =>
      have hslot : node = node ∧ m.target = target ∧ compare m.update.key key = .eq := by
        refine ⟨rfl, htarget, ?_⟩
        rw [hupdate]
        exact ReflCmp.compare_self
      have hinflight := inflight_deliver horderly.running hqueue node target key
      rw [if_pos hslot, hupdate] at hinflight
      have hhead : .remove key version ∈ c.inflight node target key := by
        rw [hinflight]
        exact List.mem_cons_self
      have hlater : ∀ {other : UInt64}, version < other → version.toNat + 1 ≤ other.toNat :=
        fun hlt => UInt64.lt_iff_toNat_lt.1 hlt
      refine ⟨?_, ?_, ?_, ?_⟩
      · exact Nat.succ_le_succ (UInt64.le_iff_toNat_le.1 (h.next _ hhead rfl))
      · intro entry hentry
        rw [Cluster.change, horderly.stored?_deliver] at hentry
        exact hlater (h.stored _ hhead rfl entry hentry)
      · intro entry hentry
        rw [Cluster.change, copy?_deliver horderly.running hqueue, if_pos hslot, hupdate] at hentry
        simp only [Update.onto] at hentry
        split at hentry
        · cases hentry
        next hnot =>
          rw [hentry] at hnot
          exact hlater (UInt64.not_le.1 (by simpa using hnot))
      · intro u hu hput
        have horder := h.order
        rw [hinflight] at horder
        refine hlater ((List.pairwise_cons.1 horder).1 u hu rfl ?_)
        cases hremove : u.isRemove with
        | false => rfl
        | true => cases hput hremove

theorem Final.lt_version (h : c.Final node target key) (horderly : c.Orderly) (hbounded : c.Bounded)
    {version : UInt64} {x : Change κ V} (hremoval : c.Removal node target key version x)
    {mid : List (Change κ V)} (hroom : c.version.toNat + (x :: mid).countP (·.draws) < 2 ^ 64)
    {later : Entry V} (hlater : (c.follow (x :: mid)).copy? node target key = some later) :
    version < later.version := by
  rw [countP_draws_cons] at hroom
  have hnext : (c.change x).version.toNat = _ := version_change_toNat (by omega)
  have hbeyond := h.removed horderly hbounded hremoval
  rw [follow_cons] at hlater
  rw [UInt64.lt_iff_toNat_lt]
  exact (hbeyond.follow (horderly.change x) (by omega)).copy later hlater

omit [LawfulEqOrd κ] [Hashable κ] in
theorem final_start {config : CacheConfig} {nodes : Nat} {affinity : Affinity κ}
    (h : start config nodes affinity = .ok c) (node : Nat) (target : Target) (key : κ) :
    c.Final node target key := by
  have hinflight : c.inflight node target key = [] := by
    simp only [inflight, queue_start h, List.filter_nil, List.map_nil]
  refine ⟨?_, ?_, ?_⟩
  · rw [hinflight]
    exact .nil
  all_goals
    rw [hinflight]
    intro u hu
    cases hu

end Cluster

namespace System

variable {κ : Type u} {V : Type v} [Ord κ] [TransOrd κ] [LawfulEqOrd κ] [Hashable κ]
variable [DecidableEq V] [Append V] [Inhabited V]

/-- Reads under delayed replication. In whatever state an operation is called, its answer is computed
from copies that it finds in some store of some node, none of which has expired at the call, unless it
is a look at the lifetime of an expired copy; and what a transaction finds on a primary is live. In the
course of a run, as long as versions last, the copies of a key that a store comes to hold ascend in
their versions, those of one version are the same, and after a removal there are only later ones. -/
theorem reads_live_and_copies_ascend {config : CacheConfig} {nodes : Nat} {affinity : Affinity κ}
    {c₀ : Cluster κ V} (hstart : Cluster.start config nodes affinity = .ok c₀)
    (hlawful : affinity.Lawful) (now : Millis) (moves : List (Move κ V)) :
    let changes := trace moves { cluster := c₀, clock := now }
    (∀ (s : System κ V) node scope operation u answer,
      s.step (.call node scope operation) = (u, .answer answer) →
      ∃ call, s.cluster.call node scope s.clock = .ok call ∧
        answer = operation.answer (s.cluster.seen call operation) ∧
        ((∀ key, operation ≠ .peekTtl key) →
          ∀ key entry, (key, some entry) ∈ s.cluster.seen call operation →
            ¬(entry.ttl.expireTime ≠ 0 ∧ entry.ttl.expireTime ≤ s.clock) ∧
            s.cluster.Finds (s.cluster.performTrace call operation) s.clock key entry)) ∧
    (∀ (s : System κ V) tx key move touch entry, touch ∈ s.staged tx key move →
      touch.found = some entry → s.cluster.stored? key = some entry ∧
        ¬(entry.ttl.expireTime ≠ 0 ∧ entry.ttl.expireTime ≤ s.clock)) ∧
    (∀ pre mid post, changes = pre ++ mid ++ post → (pre ++ mid).countP (·.draws) < 2 ^ 64 →
      ∀ node target key earlier later, (c₀.follow pre).copy? node target key = some earlier →
        (c₀.follow (pre ++ mid)).copy? node target key = some later →
        earlier.version ≤ later.version ∧ (earlier.version = later.version → earlier = later)) ∧
    ∀ before pre x mid post, changes = before ++ pre ++ x :: mid ++ post →
      (before ++ pre ++ x :: mid).countP (·.draws) < 2 ^ 64 →
      ∀ node target key version, (c₀.follow (before ++ pre)).Removal node target key version x →
        (∀ earlier, (c₀.follow before).copy? node target key = some earlier →
          earlier.version ≤ version) ∧
        ∀ later, (c₀.follow (before ++ pre ++ x :: mid)).copy? node target key = some later →
          version < later.version := by
  intro changes
  have hzero : c₀.version.toNat = 0 := by
    rw [Cluster.version_start hstart]
    rfl
  have hbounded := Cluster.bounded_start hstart
  have hrunning := Cluster.running_start hstart
  have hallowed : ∀ x ∈ changes, x.Allowed c₀.nodes.length fun _ => True :=
    allowed_trace moves _ fun _ _ _ _ => trivial
  -- Where the run has come to, everything is in step, and so many versions have been drawn.
  have hat : ∀ {pre post}, changes = pre ++ post → pre.countP (·.draws) < 2 ^ 64 →
      (c₀.follow pre).Coherent (fun _ => True) ∧
        (c₀.follow pre).version.toNat = pre.countP (·.draws) := by
    intro pre post hsplit hroom
    have hroom' : c₀.version.toNat + pre.countP (·.draws) < 2 ^ 64 := by omega
    refine ⟨(Cluster.coherent_start hstart hlawful fun _ => True).follow pre ?_ hroom', ?_⟩
    · intro x hx
      exact hallowed x (hsplit ▸ List.mem_append_left post hx)
    · rw [Cluster.version_follow hroom', hzero, Nat.zero_add]
  refine ⟨fun s node scope operation u answer hstep => seen_of_step hstep, ?_, ?_, ?_⟩
  · intro s tx key move touch entry htouch hfound
    rw [(found_of_staged htouch).2] at hfound
    exact ⟨Cluster.stored?_of_live? hfound, (Cluster.Finds.of_live? hfound []).not_expired⟩
  · intro pre mid post hsplit hroom node target key earlier later hearlier hlater
    have hwhole : c₀.version.toNat + (pre ++ mid).countP (·.draws) < 2 ^ 64 := by omega
    rw [List.countP_append] at hroom
    rw [List.append_assoc] at hsplit
    obtain ⟨hcoherent, hversion⟩ := hat hsplit (by omega)
    refine ⟨?_, fun hsame => ?_⟩
    · rw [Cluster.follow_append] at hlater
      exact hcoherent.version_le (by omega) hearlier hlater
    · exact (Cluster.Carries.eq_of_version hrunning (Cluster.not_mentions_start hstart) hwhole rfl
        (List.append_nil _).symm (.copy hearlier) (.copy hlater) hsame).2
  · intro before pre x mid post hsplit hroom node target key version hremoval
    have hbefore : changes = before ++ (pre ++ x :: mid ++ post) := by
      rw [hsplit]
      simp only [List.append_assoc]
    have hpre : changes = (before ++ pre) ++ (x :: mid ++ post) := by
      rw [hsplit]
      simp only [List.append_assoc]
    rw [List.countP_append] at hroom
    obtain ⟨hcoherent, hversion⟩ := hat hpre (by omega)
    have hearly : c₀.version.toNat + (before ++ pre).countP (·.draws) < 2 ^ 64 := by omega
    refine ⟨fun earlier hearlier => ?_, fun later hlater => ?_⟩
    · rw [List.countP_append] at hroom
      obtain ⟨hcoherent', hversion'⟩ := hat hbefore (by omega)
      rw [Cluster.follow_append] at hremoval
      rw [UInt64.le_iff_toNat_le]
      exact ((hcoherent'.beyond hearlier).follow hcoherent'.orderly (by omega)).le_removal hremoval
    · have hfinal := (Cluster.final_start hstart node target key).follow
        (Cluster.orderly_start hstart hlawful) hbounded hearly
      rw [Cluster.follow_append] at hlater
      exact hfinal.lt_version hcoherent.orderly (hbounded.follow hrunning hearly) hremoval (by omega)
        hlater

/-- An entry is written through node 2, which reads a near copy of it. -/
def written : List (Move Nat (List Nat)) :=
  [.call 2 (some (.custom (.created (.millis 100)))) (.put 0 [7]), .deliver 1, .deliver 2]

/-- The entry is removed and written anew. Node 2 hears of the removal, and reads the key again. -/
def rewritten : List (Move Nat (List Nat)) :=
  [.call 0 none (.remove 0), .call 0 (some (.custom (.created (.millis 50)))) (.put 0 [8]),
    .deliver 2, .call 2 none (.get 0), .deliver 2]

theorem reads_live_and_copies_ascend_rewritten :
    ∃ (c₀ : Cluster Nat (List Nat)) (s t u : System Nat (List Nat))
        (earlier later : Entry (List Nat)),
      Cluster.start { near := true } 3 trio = .ok c₀ ∧ trio.Lawful ∧
      (run written { cluster := c₀ }).1 = s ∧ (run rewritten s).1 = t ∧
      s.cluster.copy? 2 .near 0 = some earlier ∧ t.cluster.copy? 2 .near 0 = some later ∧
      earlier ≠ later ∧ earlier.version ≤ later.version ∧
      t.step (.call 2 none (.get 0)) = (u, .answer (.value (some later.value))) ∧
      ¬(later.ttl.expireTime ≠ 0 ∧ later.ttl.expireTime ≤ t.clock) := by
  let c₀ : Cluster Nat (List Nat) :=
    { config := { near := true }, affinity := trio, nodes := .empty 3 true }
  let s := (run written { cluster := c₀ }).1
  let t := (run rewritten s).1
  let call : Call := { node := 2, policy := .effective t.cluster.config.policy none, now := t.clock }
  let later : Entry (List Nat) := { value := [8], version := 2, ttl := .lasting 50 0 }
  have hstart : Cluster.start { near := true } 3 trio = .ok c₀ := rfl
  have hearlier : s.cluster.copy? 2 .near 0 =
      some { value := [7], version := 1, ttl := .lasting 100 0 } := by decide +kernel
  have hlater : t.cluster.copy? 2 .near 0 = some later := by decide +kernel
  have hseen : t.cluster.seen call (.get 0) = [(0, some later)] := by decide +kernel
  have hnode : 2 < t.cluster.nodes.length := by decide +kernel
  have hcall : t.cluster.call 2 none t.clock = .ok call := if_pos hnode
  have hroom : (trace written { cluster := c₀ } ++ trace rewritten s).countP (·.draws) < 2 ^ 64 := by
    decide +kernel
  obtain ⟨hreads, -, hascend, -⟩ :=
    reads_live_and_copies_ascend hstart lawful_trio 0 (written ++ rewritten)
  have hsplit : trace (written ++ rewritten) { cluster := c₀ } =
      trace written { cluster := c₀ } ++ trace rewritten s ++ [] := by
    rw [trace_append, List.append_nil]
  have hs : c₀.follow (trace written { cluster := c₀ }) = s.cluster :=
    (run_cluster written { cluster := c₀ }).symm
  have ht : c₀.follow (trace written { cluster := c₀ } ++ trace rewritten s) = t.cluster := by
    rw [Cluster.follow_append, hs]
    exact (run_cluster rewritten s).symm
  obtain ⟨hle, -⟩ := hascend _ _ [] hsplit hroom 2 .near 0 _ _ (hs ▸ hearlier) (ht ▸ hlater)
  have hstep : t.step (.call 2 none (.get 0)) =
      ({ t with cluster := (t.cluster.perform call (.get 0)).1 },
        .answer (t.cluster.perform call (.get 0)).2) := by
    simp only [step, hcall]
  obtain ⟨call', hcall', hanswer, hlive⟩ := hreads t 2 none (.get 0) _ _ hstep
  cases hcall.symm.trans hcall'
  rw [hanswer, hseen] at hstep
  refine ⟨c₀, s, t, _, _, later, hstart, lawful_trio, rfl, rfl, hearlier, hlater, by decide, hle,
    hstep, ?_⟩
  refine (hlive (fun key => by simp) 0 later ?_).1
  rw [hseen]
  exact List.mem_cons_self

end System

end Ephemera
