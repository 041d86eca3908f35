import Mathlib.Algebra.Group.Nat.Defs
import Ephemera.Proofs.View

/-! # Coherence of replicas

A replica follows the primary of its key. What it has and what is under way to it may be behind, but
it ends where the primary is: when nothing is under way any more, the copy it holds is the copy on the
primary. A replica that the primary ships to lacks a copy only after it has dropped an expired one.

Versions are 64-bit words, and an old change could overtake a new one if the counter wrapped. The
invariant is kept for as long as fewer versions are drawn than there are.
-/

namespace Ephemera

open Std

universe u v

/-- What coherence asks of a change: a reader is a node of the cluster, and what a replica drops has
lapsed. -/
def Change.Allowed {κ : Type u} {V : Type v} (size : Nat) (lapsed : Entry V → Prop) :
    Change κ V → Prop
  | .write _ via _ _ => ∀ node, via = some node → node < size
  | .share _ via => via < size
  | .drop _ _ _ _ now => ∀ entry : Entry V, entry.expiredAt now → lapsed entry
  | _ => True

namespace Cluster

variable {κ : Type u} {V : Type v} [Ord κ] [TransOrd κ]

/-- What a store will hold of a key when all that is under way to it has been delivered. -/
def ahead? (c : Cluster κ V) (node : Nat) (target : Target) (key : κ) : Option (Entry V) :=
  ahead (c.copy? node target key) (c.inflight node target key)

/-- The version that the primary of a key has reached. -/
def reached (c : Cluster κ V) (key : κ) : Nat :=
  ((c.stored? key).elim c.version (·.version)).toNat

/-- How often a decision about a key is shipped to one store of a node. -/
def sent (c : Cluster κ V) (node : Nat) (target : Target) (key : κ) : Nat :=
  if node < c.nodes.length then (c.recipients key target).count node else 0

/-- The copies of a key are in step with the primary. A replica that is shipped to may lack the
copy of the primary if that has `lapsed`. -/
structure InStep (lapsed : Entry V → Prop) (c : Cluster κ V) (key : κ) : Prop where
  /-- No decision is under way to the copy that decisions are made on. -/
  home : c.inflight (c.affinity.primary key) .owned key = []
  bounded : ∀ entry, c.stored? key = some entry → entry.version ≤ c.version
  readers : ∀ node, c.Registered key node →
    node < c.nodes.length ∧ c.affinity.isOwner node key = false
  follows : ∀ node target, c.affinity.IsReplica node target key →
    Follows (c.reached key) (c.stored? key) (c.copy? node target key) (c.inflight node target key)
  /-- A replica that has, or will have, a copy is shipped to. -/
  known : ∀ node target, c.affinity.IsReplica node target key →
    c.ahead? node target key ≠ none → node ∈ c.recipients key target
  complete : ∀ node target entry, node ∈ c.recipients key target →
    c.stored? key = some entry → c.ahead? node target key = some entry ∨ lapsed entry

/-- All copies in the cluster are in step with their primaries. -/
structure Coherent (lapsed : Entry V → Prop) (c : Cluster κ V) : Prop where
  lawful : c.affinity.Lawful
  size : c.nodes.length = c.affinity.nodes
  running : c.Running
  inStep : ∀ key, c.InStep lapsed key

/-! ## Recipients -/

theorem mem_recipients_iff (c : Cluster κ V) (node : Nat) (target : Target) (key : κ) :
    node ∈ c.recipients key target ↔
      (target = .owned ∧ node ∈ c.affinity.backups key) ∨
        (target = .near ∧ c.Registered key node ∧ c.affinity.isOwner node key = false) := by
  cases target with
  | owned => simp [recipients]
  | near => simp [recipients, mem_readersOf_iff]

theorem mem_recipients_of_registered {c d : Cluster κ V} {node : Nat} {target : Target} {key : κ}
    (haffinity : d.affinity = c.affinity)
    (hregistered : c.Registered key node → d.Registered key node)
    (h : node ∈ c.recipients key target) : node ∈ d.recipients key target := by
  rw [mem_recipients_iff] at h ⊢
  rw [haffinity]
  rcases h with h | ⟨htarget, hnode, howner⟩
  · exact .inl h
  · exact .inr ⟨htarget, hregistered hnode, howner⟩

theorem isReplica_of_mem_recipients {c : Cluster κ V} (hlawful : c.affinity.Lawful) {node : Nat}
    {target : Target} {key : κ} (h : node ∈ c.recipients key target) :
    c.affinity.IsReplica node target key := by
  rintro ⟨rfl, rfl⟩
  exact hlawful.primary_not_mem_backups key h

theorem copy?_of_size_le {c : Cluster κ V} {node : Nat} (h : c.nodes.length ≤ node)
    (target : Target) (key : κ) : c.copy? node target key = none :=
  copy?_of_none (List.getElem?_eq_none_iff.2 h) target key

omit [TransOrd κ] in
theorem inflight_of_size_le {c : Cluster κ V} {node : Nat} (h : c.nodes.length ≤ node)
    (target : Target) (key : κ) : c.inflight node target key = [] := by
  simp only [inflight, queue_of_none (List.getElem?_eq_none_iff.2 h), List.filter_nil, List.map_nil]

theorem ahead?_eq {c : Cluster κ V} {node : Nat} {target : Target} {key : κ}
    (hinflight : c.inflight node target key = []) :
    c.ahead? node target key = c.copy? node target key := by
  simp only [ahead?, hinflight, ahead_nil]

namespace InStep

variable {lapsed : Entry V → Prop} {c d : Cluster κ V} {key : κ}

/-- A replica that is not shipped to has nothing ahead. -/
theorem ahead?_of_sent_eq_zero (h : c.InStep lapsed key) {node : Nat} {target : Target}
    (hreplica : c.affinity.IsReplica node target key) (hsent : c.sent node target key = 0) :
    c.ahead? node target key = none := by
  by_cases hnode : node < c.nodes.length
  · rw [sent, if_pos hnode, List.count_eq_zero] at hsent
    exact Decidable.byContradiction fun hahead => hsent (h.known node target hreplica hahead)
  · rw [ahead?_eq (inflight_of_size_le (Nat.le_of_not_lt hnode) target key)]
    exact copy?_of_size_le (Nat.le_of_not_lt hnode) target key

/-- Every recipient is a node of the cluster, and is shipped to. -/
theorem sent_pos (h : c.InStep lapsed key) (hlawful : c.affinity.Lawful)
    (hsize : c.nodes.length = c.affinity.nodes) {node : Nat} {target : Target}
    (hnode : node ∈ c.recipients key target) : 0 < c.sent node target key := by
  have hlt : node < c.nodes.length := by
    rcases (c.mem_recipients_iff node target key).1 hnode with ⟨-, hbackup⟩ | ⟨-, hreader, -⟩
    · rw [hsize]
      exact hlawful.backups_lt key node hbackup
    · exact (h.readers node hreader).1
  rw [sent, if_pos hlt]
  exact List.count_pos_iff.2 hnode

/-! ### What a decision about another key leaves alone -/

/-- A step after which everything about the key is as it was keeps the key in step. -/
theorem congr (h : c.InStep lapsed key) (hlayout : SameLayout c d) (hversion : c.version ≤ d.version)
    (hcopy : ∀ node target, d.copy? node target key = c.copy? node target key)
    (hinflight : ∀ node target, d.inflight node target key = c.inflight node target key)
    (hregistered : ∀ node, d.Registered key node ↔ c.Registered key node) :
    d.InStep lapsed key := by
  have hstored : d.stored? key = c.stored? key := by
    rw [← copy?_primary, hcopy, hlayout.affinity, copy?_primary]
  have hahead : ∀ node target, d.ahead? node target key = c.ahead? node target key := by
    intro node target
    simp only [ahead?, hcopy, hinflight]
  have hreached : c.reached key ≤ d.reached key := by
    unfold reached
    rw [hstored]
    cases c.stored? key with
    | none => exact UInt64.le_iff_toNat_le.1 hversion
    | some entry => exact Nat.le_refl _
  refine ⟨?_, ?_, ?_, ?_, ?_, ?_⟩
  · rw [hinflight, hlayout.affinity]
    exact h.home
  · intro entry hentry
    exact UInt64.le_trans (h.bounded entry (hstored ▸ hentry)) hversion
  · intro node hnode
    rw [hlayout.size, hlayout.affinity]
    exact h.readers node ((hregistered node).1 hnode)
  · intro node target hreplica
    rw [hstored, hcopy, hinflight]
    exact (h.follows node target (hlayout.affinity ▸ hreplica)).raise hreached
  · intro node target hreplica hne
    rw [hahead] at hne
    exact mem_recipients_of_registered hlayout.affinity (hregistered node).2
      (h.known node target (hlayout.affinity ▸ hreplica) hne)
  · intro node target entry hnode hentry
    rw [hahead]
    apply h.complete node target entry _ (hstored ▸ hentry)
    exact mem_recipients_of_registered hlayout.affinity.symm (hregistered node).1 hnode

/-! ### Decisions about the key -/

/-- A decision of the primary that is shipped to every recipient leaves the key in step, whatever
the recipients lacked before. -/
theorem decided {lapsed' : Entry V → Prop} {u : Update κ V} (h : c.InStep lapsed key)
    (hlawful : c.affinity.Lawful) (hsize : c.nodes.length = c.affinity.nodes)
    (hlayout : SameLayout c d) (hreached : c.reached key ≤ u.version.toNat)
    (hversion : u.version ≤ d.version) (hstored : d.stored? key = u.outcome)
    (hcopy : ∀ node target, c.affinity.IsReplica node target key →
      d.copy? node target key = c.copy? node target key)
    (hinflight : ∀ node target, d.inflight node target key =
      c.inflight node target key ++ List.replicate (c.sent node target key) u)
    (hregistered : ∀ node, d.Registered key node ↔
      u.isRemove = false ∧ c.Registered key node) :
    d.InStep lapsed' key := by
  have hahead : ∀ node target, c.affinity.IsReplica node target key →
      d.ahead? node target key =
        if c.sent node target key = 0 then c.ahead? node target key else u.outcome := by
    intro node target hreplica
    simp only [ahead?, hcopy node target hreplica, hinflight, ahead_append_replicate]
  refine ⟨?_, ?_, ?_, ?_, ?_, ?_⟩
  · have hsent : c.sent (c.affinity.primary key) .owned key = 0 := by
      unfold sent
      split
      · exact List.count_eq_zero.2 (hlawful.primary_not_mem_backups key)
      · rfl
    rw [hlayout.affinity, hinflight, h.home, hsent]
    rfl
  · intro entry hentry
    rw [hstored] at hentry
    rw [(Update.of_outcome hentry).1]
    exact hversion
  · intro node hnode
    rw [hlayout.size, hlayout.affinity]
    exact h.readers node ((hregistered node).1 hnode).2
  · intro node target hreplica
    rw [hlayout.affinity] at hreplica
    rw [hcopy node target hreplica, hinflight, hstored]
    refine (h.follows node target hreplica).push _ hreached ?_ (fun _ hentry => hentry)
      (h.ahead?_of_sent_eq_zero hreplica)
    unfold reached
    rw [hstored]
    cases hentry : u.outcome with
    | none => exact UInt64.le_iff_toNat_le.1 hversion
    | some entry => exact Nat.le_of_eq (congrArg _ (Update.of_outcome hentry).1.symm)
  · intro node target hreplica hne
    rw [hlayout.affinity] at hreplica
    rw [hahead node target hreplica] at hne
    split at hne
    next hzero => exact absurd (h.ahead?_of_sent_eq_zero hreplica hzero) hne
    next hsent =>
      obtain ⟨entry, hentry⟩ := Option.ne_none_iff_exists'.1 hne
      have hput := (Update.of_outcome hentry).2
      apply mem_recipients_of_registered hlayout.affinity (fun hnode => (hregistered node).2 ⟨hput, hnode⟩)
      refine Decidable.byContradiction fun hnot => hsent ?_
      unfold sent
      split
      · exact List.count_eq_zero.2 hnot
      · rfl
  · intro node target entry hnode hentry
    left
    have hnode' : node ∈ c.recipients key target :=
      mem_recipients_of_registered hlayout.affinity.symm (fun h => ((hregistered node).1 h).2) hnode
    rw [hahead node target (isReplica_of_mem_recipients hlawful hnode'),
      if_neg (Nat.ne_of_gt (h.sent_pos hlawful hsize hnode')), ← hstored, hentry]

/-- A reader that registers with the primary has yet to be sent the copy. -/
theorem register [LawfulEqOrd κ] (h : c.InStep lapsed key) {reader : Nat}
    (hprimary : c.affinity.primary key < c.nodes.length)
    (hreader : reader < c.nodes.length ∧ c.affinity.isOwner reader key = false) :
    (c.register key reader).InStep (fun _ => True) key := by
  have hlayout : SameLayout c (c.register key reader) := SameLayout.modifyNode c _ _
  have hstored : (c.register key reader).stored? key = c.stored? key :=
    c.copy?_register key reader (c.affinity.primary key) .owned key
  have hreached : (c.register key reader).reached key = c.reached key := by
    unfold reached
    rw [hstored]
    rfl
  refine ⟨?_, ?_, ?_, ?_, ?_, fun _ _ _ _ _ => .inr trivial⟩
  · rw [inflight_register]
    exact h.home
  · rw [hstored]
    exact h.bounded
  · intro node hnode
    rw [hlayout.size]
    rcases (c.registered_register key key reader node hprimary).1 hnode with ⟨-, rfl⟩ | hnode
    · exact hreader
    · exact h.readers node hnode
  · intro node target hreplica
    rw [hreached, hstored, copy?_register, inflight_register]
    exact h.follows node target hreplica
  · intro node target hreplica hne
    rw [ahead?, copy?_register, inflight_register] at hne
    exact mem_recipients_of_registered hlayout.affinity
      (fun hnode => (c.registered_register key key reader node hprimary).2 (.inr hnode))
      (h.known node target hreplica hne)

/-- The copy of the primary may be shipped to a new reader alone. -/
theorem shared {entry : Entry V} {reader : Nat} {u : Update κ V} (h : c.InStep lapsed key)
    (hlayout : SameLayout c d) (hversion : d.version = c.version)
    (hentry : c.stored? key = some entry) (houtcome : u.outcome = some entry)
    (hreader : reader < c.nodes.length ∧ c.affinity.isOwner reader key = false)
    (hcopy : ∀ node target, d.copy? node target key = c.copy? node target key)
    (hinflight : ∀ node target, d.inflight node target key = c.inflight node target key ++
      List.replicate (if reader = node ∧ target = .near then 1 else 0) u)
    (hregistered : ∀ node, d.Registered key node ↔ node = reader ∨ c.Registered key node) :
    d.InStep lapsed key := by
  have hstored : d.stored? key = some entry := by
    rw [← copy?_primary, hcopy, hlayout.affinity, copy?_primary, hentry]
  have hreached : d.reached key = c.reached key := by
    unfold reached
    rw [hstored, hentry]
    rfl
  have hupdate : c.reached key = u.version.toNat := by
    unfold reached
    rw [hentry, ← (Update.of_outcome houtcome).1]
    rfl
  have hahead : ∀ node target, d.ahead? node target key =
      if reader = node ∧ target = .near then some entry else c.ahead? node target key := by
    intro node target
    simp only [ahead?, hcopy, hinflight, ahead_append_replicate, houtcome]
    by_cases hslot : reader = node ∧ target = .near <;> simp [hslot]
  have hshared : ∀ node target, reader = node ∧ target = .near → node ∈ d.recipients key target := by
    rintro node target ⟨rfl, rfl⟩
    rw [mem_recipients_iff, hlayout.affinity]
    exact .inr ⟨rfl, (hregistered _).2 (.inl rfl), hreader.2⟩
  refine ⟨?_, ?_, ?_, ?_, ?_, ?_⟩
  · rw [hlayout.affinity, hinflight, h.home]
    simp
  · intro next hnext
    rw [hversion]
    exact h.bounded next (by rw [hentry, ← hstored, hnext])
  · intro node hnode
    rw [hlayout.size, hlayout.affinity]
    rcases (hregistered node).1 hnode with rfl | hnode
    · exact hreader
    · exact h.readers node hnode
  · intro node target hreplica
    have hfollows := h.follows node target (hlayout.affinity ▸ hreplica)
    rw [hcopy, hinflight, hreached, hstored, ← hentry]
    by_cases hslot : reader = node ∧ target = .near
    · rw [if_pos hslot]
      exact hfollows.push 1 (Nat.le_of_eq hupdate) (Nat.le_of_eq hupdate.symm)
        (fun _ houtcome' => by rw [hentry, ← houtcome, houtcome']) (fun hone => by cases hone)
    · rw [if_neg hslot]
      simpa using hfollows
  · intro node target hreplica hne
    rw [hahead] at hne
    split at hne
    next hslot => exact hshared node target hslot
    next =>
      exact mem_recipients_of_registered hlayout.affinity (fun hnode => (hregistered node).2 (.inr hnode))
        (h.known node target (hlayout.affinity ▸ hreplica) hne)
  · intro node target next hnode hnext
    rw [hahead]
    split
    next => exact .inl (hstored ▸ hnext)
    next hslot =>
      refine h.complete node target next ?_ (by rw [hentry, ← hstored, hnext])
      rw [mem_recipients_iff, hlayout.affinity] at hnode
      rw [mem_recipients_iff]
      rcases hnode with hnode | ⟨rfl, hnode, howner⟩
      · exact .inl hnode
      · rcases (hregistered node).1 hnode with rfl | hnode
        · exact absurd ⟨rfl, rfl⟩ hslot
        · exact .inr ⟨rfl, hnode, howner⟩

/-! ### Copies that go and changes that arrive -/

/-- A replica may drop a copy that has lapsed. -/
theorem dropped (h : c.InStep lapsed key) (hlayout : SameLayout c d) (hversion : d.version = c.version)
    (hcopy : ∀ node target, d.copy? node target key = c.copy? node target key ∨
      c.affinity.IsReplica node target key ∧ d.copy? node target key = none ∧
        ∃ entry, c.copy? node target key = some entry ∧ lapsed entry)
    (hinflight : ∀ node target, d.inflight node target key = c.inflight node target key)
    (hregistered : ∀ node, d.Registered key node ↔ c.Registered key node) :
    d.InStep lapsed key := by
  have hstored : d.stored? key = c.stored? key := by
    rw [← copy?_primary, ← copy?_primary, hlayout.affinity]
    rcases hcopy (c.affinity.primary key) .owned with hsame | ⟨hreplica, -⟩
    · exact hsame
    · exact absurd ⟨rfl, rfl⟩ hreplica
  have hreached : d.reached key = c.reached key := by
    unfold reached
    rw [hstored, hversion]
  -- What is ahead changes only where nothing is under way.
  have hahead : ∀ node target, d.ahead? node target key = c.ahead? node target key ∨
      d.ahead? node target key = none ∧ c.affinity.IsReplica node target key ∧
        ∃ entry, c.ahead? node target key = some entry ∧ lapsed entry := by
    intro node target
    simp only [ahead?, hinflight]
    rcases hcopy node target with hsame | ⟨hreplica, hnone, entry, hentry, hlapsed⟩
    · exact .inl (by rw [hsame])
    · cases hlast : (c.inflight node target key).getLast? with
      | none => exact .inr ⟨by simp [ahead, hlast, hnone], hreplica, entry, by simp [ahead, hlast, hentry],
          hlapsed⟩
      | some update => exact .inl (by simp [ahead, hlast])
  refine ⟨?_, ?_, ?_, ?_, ?_, ?_⟩
  · rw [hinflight, hlayout.affinity]
    exact h.home
  · rw [hstored, hversion]
    exact h.bounded
  · intro node hnode
    rw [hlayout.size, hlayout.affinity]
    exact h.readers node ((hregistered node).1 hnode)
  · intro node target hreplica
    have hfollows := h.follows node target (hlayout.affinity ▸ hreplica)
    rw [hreached, hstored, hinflight]
    rcases hcopy node target with hsame | ⟨-, hnone, -⟩
    · rw [hsame]
      exact hfollows
    · rw [hnone]
      exact hfollows.drop
  · intro node target hreplica hne
    rcases hahead node target with hsame | ⟨hnone, -⟩
    · rw [hsame] at hne
      exact mem_recipients_of_registered hlayout.affinity (hregistered node).2
        (h.known node target (hlayout.affinity ▸ hreplica) hne)
    · exact absurd hnone hne
  · intro node target entry hnode hentry
    have hcomplete := h.complete node target entry
      (mem_recipients_of_registered hlayout.affinity.symm (hregistered node).1 hnode) (hstored ▸ hentry)
    rcases hahead node target with hsame | ⟨-, hreplica, next, hnext, hlapsed⟩
    · rw [hsame]
      exact hcomplete
    · have hfollows := (h.follows node target hreplica).ahead_eq next hnext
      rw [hstored, hfollows] at hentry
      exact .inr (Option.some.inj hentry ▸ hlapsed)

/-- The oldest change under way to a replica may be delivered. -/
theorem delivered (h : c.InStep lapsed key) (hlawful : c.affinity.Lawful) (hlayout : SameLayout c d)
    (hversion : d.version = c.version)
    (hslot : ∀ node target,
      d.copy? node target key = c.copy? node target key ∧
        d.inflight node target key = c.inflight node target key ∨
      ∃ update, c.inflight node target key = update :: d.inflight node target key ∧
        d.copy? node target key = update.onto (c.copy? node target key))
    (hregistered : ∀ node, d.Registered key node ↔ c.Registered key node) :
    d.InStep lapsed key := by
  have hstored : d.stored? key = c.stored? key := by
    rw [← copy?_primary, ← copy?_primary, hlayout.affinity]
    rcases hslot (c.affinity.primary key) .owned with ⟨hsame, -⟩ | ⟨update, hqueue, -⟩
    · exact hsame
    · rw [h.home] at hqueue
      cases hqueue
  have hreached : d.reached key = c.reached key := by
    unfold reached
    rw [hstored, hversion]
  have hahead : ∀ node target, c.affinity.IsReplica node target key →
      d.ahead? node target key = c.ahead? node target key := by
    intro node target hreplica
    unfold ahead?
    rcases hslot node target with ⟨hsame, hqueue⟩ | ⟨update, hqueue, honto⟩
    · rw [hsame, hqueue]
    · have hfollows := h.follows node target hreplica
      rw [hqueue] at hfollows
      rw [honto, hqueue, hfollows.ahead_onto]
  refine ⟨?_, ?_, ?_, ?_, ?_, ?_⟩
  · rw [hlayout.affinity]
    rcases hslot (c.affinity.primary key) .owned with ⟨-, hqueue⟩ | ⟨update, hqueue, -⟩
    · rw [hqueue, h.home]
    · rw [h.home] at hqueue
      cases hqueue
  · rw [hstored, hversion]
    exact h.bounded
  · intro node hnode
    rw [hlayout.size, hlayout.affinity]
    exact h.readers node ((hregistered node).1 hnode)
  · intro node target hreplica
    have hfollows := h.follows node target (hlayout.affinity ▸ hreplica)
    rw [hreached, hstored]
    rcases hslot node target with ⟨hsame, hqueue⟩ | ⟨update, hqueue, honto⟩
    · rw [hsame, hqueue]
      exact hfollows
    · rw [hqueue] at hfollows
      rw [honto]
      exact hfollows.deliver
  · intro node target hreplica hne
    rw [hlayout.affinity] at hreplica
    rw [hahead node target hreplica] at hne
    exact mem_recipients_of_registered hlayout.affinity (hregistered node).2
      (h.known node target hreplica hne)
  · intro node target entry hnode hentry
    have hnode' : node ∈ c.recipients key target :=
      mem_recipients_of_registered hlayout.affinity.symm (hregistered node).1 hnode
    rw [hahead node target (isReplica_of_mem_recipients hlawful hnode')]
    exact h.complete node target entry hnode' (hstored ▸ hentry)

end InStep

namespace Coherent

variable {lapsed : Entry V → Prop} {c : Cluster κ V} {key : κ}

theorem primary_lt (h : c.Coherent lapsed) (key : κ) : c.affinity.primary key < c.nodes.length :=
  h.size ▸ h.lawful.primary_lt key

/-- More may have lapsed. -/
theorem mono {lapsed' : Entry V → Prop} (h : c.Coherent lapsed)
    (hlapsed : ∀ entry, lapsed entry → lapsed' entry) : c.Coherent lapsed' := by
  refine ⟨h.lawful, h.size, h.running, fun key => ?_⟩
  obtain ⟨hhome, hbounded, hreaders, hfollows, hknown, hcomplete⟩ := h.inStep key
  refine ⟨hhome, hbounded, hreaders, hfollows, hknown, ?_⟩
  intro node target entry hnode hentry
  exact (hcomplete node target entry hnode hentry).imp_right (hlapsed entry)

/-- A step that changes nothing that the invariant is about keeps it. -/
theorem congr {d : Cluster κ V} (h : c.Coherent lapsed) (hlayout : SameLayout c d)
    (hrunning : d.Running) (hversion : d.version = c.version)
    (hcopy : ∀ node target key, d.copy? node target key = c.copy? node target key)
    (hinflight : ∀ node target key, d.inflight node target key = c.inflight node target key)
    (hregistered : ∀ key node, d.Registered key node ↔ c.Registered key node) :
    d.Coherent lapsed where
  lawful := hlayout.affinity ▸ h.lawful
  size := by rw [hlayout.size, hlayout.affinity, h.size]
  running := hrunning
  inStep key := (h.inStep key).congr hlayout (by rw [hversion]; exact UInt64.le_refl _)
    (fun node target => hcopy node target key) (fun node target => hinflight node target key)
    (hregistered key)

variable [LawfulEqOrd κ] [Hashable κ]

/-- Storing a value brings its key in step, and leaves every other key as it is. -/
theorem putPrimary {lapsed' : Entry V → Prop} (hlawful : c.affinity.Lawful)
    (hsize : c.nodes.length = c.affinity.nodes) (hrunning : c.Running)
    (hkey : c.InStep lapsed' key) (hothers : ∀ other, other ≠ key → c.InStep lapsed other)
    (hversion : c.version.toNat + 1 < 2 ^ 64) (value : V) (ttl : Ttl) :
    (c.putPrimary key value ttl).Coherent lapsed := by
  have hlayout := sameLayout_putPrimary c key value ttl
  have hprimary : c.affinity.primary key < c.nodes.length := hsize ▸ hlawful.primary_lt key
  have hnext : (c.version + 1).toNat = c.version.toNat + 1 := by
    rw [UInt64.toNat_add]
    exact Nat.mod_eq_of_lt hversion
  have hdrawn := version_putPrimary c key value ttl
  have hle : c.version ≤ (c.putPrimary key value ttl).version := by
    rw [hdrawn, UInt64.le_iff_toNat_le, hnext]
    exact Nat.le_succ _
  refine ⟨hlayout.affinity ▸ hlawful, by rw [hlayout.size, hlayout.affinity, hsize],
    hrunning.putPrimary key value ttl, ?_⟩
  intro other
  by_cases hother : other = key
  · subst hother
    refine hkey.decided (u := .put other { value, version := c.version + 1, ttl }) hlawful
      hsize hlayout ?_ (hdrawn ▸ UInt64.le_refl _) ?_ ?_ ?_ ?_
    · change c.reached other ≤ (c.version + 1).toNat
      rw [hnext]
      unfold reached
      cases hstored : c.stored? other with
      | none => exact Nat.le_succ _
      | some entry =>
          exact Nat.le_succ_of_le (UInt64.le_iff_toNat_le.1 (hkey.bounded entry hstored))
    · rw [← copy?_primary, hlayout.affinity, copy?_putPrimary _ _ _ _ _ _ _ hprimary]
      simp [Update.outcome]
    · intro node target hreplica
      rw [copy?_putPrimary _ _ _ _ _ _ _ hprimary,
        if_neg (fun hslot => hreplica ⟨hslot.2.1, hslot.1.symm⟩)]
    · intro node target
      rw [inflight_putPrimary hrunning, sent]
      by_cases hnode : node < c.nodes.length <;> simp [hnode]
    · intro node
      rw [registered_putPrimary]
      simp [Update.isRemove]
  · have hne : compare key other ≠ .eq := by simpa using Ne.symm hother
    refine (hothers other hother).congr hlayout hle ?_ ?_ ?_
    · intro node target
      rw [copy?_putPrimary _ _ _ _ _ _ _ hprimary, if_neg (fun hslot => hne hslot.2.2)]
    · intro node target
      rw [inflight_putPrimary hrunning, if_neg (fun hslot => hne hslot.2), List.append_nil]
    · exact registered_putPrimary c key value ttl other

/-- Removing the copy of the primary keeps all keys in step. -/
theorem removePrimary (h : c.Coherent lapsed) {entry : Entry V} (hentry : c.stored? key = some entry)
    (event : StoreEvent) (awaited : Bool) :
    (c.removePrimary key entry.version event awaited).Coherent lapsed := by
  have hlayout := sameLayout_removePrimary c key entry.version event awaited
  have hversion := version_removePrimary c key entry.version event awaited
  refine ⟨hlayout.affinity ▸ h.lawful, by rw [hlayout.size, hlayout.affinity, h.size],
    h.running.removePrimary key entry.version event awaited, ?_⟩
  intro other
  by_cases hother : other = key
  · subst hother
    refine (h.inStep other).decided (u := .remove other entry.version) h.lawful h.size hlayout
      ?_ (hversion ▸ (h.inStep other).bounded entry hentry) ?_ ?_ ?_ ?_
    · unfold reached
      rw [hentry]
      exact Nat.le_refl _
    · rw [← copy?_primary, hlayout.affinity, copy?_removePrimary _ _ _ _ _ _ _ _ (h.primary_lt other)]
      simp [Update.outcome]
    · intro node target hreplica
      rw [copy?_removePrimary _ _ _ _ _ _ _ _ (h.primary_lt other),
        if_neg (fun hslot => hreplica ⟨hslot.2.1, hslot.1.symm⟩)]
    · intro node target
      rw [inflight_removePrimary h.running, sent]
      by_cases hnode : node < c.nodes.length <;> simp [hnode]
    · intro node
      rw [registered_removePrimary]
      simp [Update.isRemove]
  · have hne : compare key other ≠ .eq := by simpa using Ne.symm hother
    refine (h.inStep other).congr hlayout (hversion ▸ UInt64.le_refl _) ?_ ?_ ?_
    · intro node target
      rw [copy?_removePrimary _ _ _ _ _ _ _ _ (h.primary_lt key), if_neg (fun hslot => hne hslot.2.2)]
    · intro node target
      rw [inflight_removePrimary h.running, if_neg (fun hslot => hne hslot.2), List.append_nil]
    · intro node
      rw [registered_removePrimary]
      simp [hother]

omit [TransOrd κ] [LawfulEqOrd κ] [Hashable κ] in
theorem of_nearReader {node reader : Nat} (hnode : node < c.nodes.length)
    (hreader : c.nearReader node key = some reader) :
    reader < c.nodes.length ∧ c.affinity.isOwner reader key = false := by
  unfold nearReader at hreader
  split at hreader
  next hnear =>
    cases hreader
    exact ⟨hnode, by simpa using (Bool.and_eq_true_iff.1 hnear).2⟩
  next => cases hreader

theorem write (h : c.Coherent lapsed) (key : κ) (via : Option Nat) (value : V) (ttl : Ttl)
    (hvia : ∀ node, via = some node → node < c.nodes.length)
    (hversion : c.version.toNat + 1 < 2 ^ 64) :
    (c.change (.write key via value ttl)).Coherent lapsed := by
  simp only [change]
  cases hreader : via.bind (c.nearReader · key) with
  | none =>
      exact putPrimary h.lawful h.size h.running (h.inStep key) (fun other _ => h.inStep other)
        hversion value ttl
  | some reader =>
      obtain ⟨node, hnode, hreader⟩ := Option.bind_eq_some_iff.1 hreader
      have hlayout : SameLayout c (c.register key reader) := SameLayout.modifyNode c _ _
      refine putPrimary (c := c.register key reader) h.lawful (by rw [hlayout.size]; exact h.size)
        (h.running.register key reader)
        ((h.inStep key).register (h.primary_lt key) (of_nearReader (hvia node hnode) hreader))
        ?_ hversion value ttl
      intro other hother
      refine (h.inStep other).congr hlayout (UInt64.le_refl _) ?_ ?_ ?_
      · exact fun node target => c.copy?_register key reader node target other
      · exact fun node target => c.inflight_register key reader node target other
      · intro r
        rw [registered_register _ _ _ _ _ (h.primary_lt key)]
        simp [hother]

theorem share (h : c.Coherent lapsed) (key : κ) {via : Nat} (hvia : via < c.nodes.length) :
    (c.change (.share key via)).Coherent lapsed := by
  simp only [change]
  split
  next entry reader hentry hreader =>
    have hregister : SameLayout c (c.register key reader) := SameLayout.modifyNode c _ _
    have hlayout := hregister.trans (SameLayout.ship (c.register key reader) reader
      { target := .near, update := .put key entry, awaited := c.config.synchronous })
    have hrunning := h.running.register key reader
    have hnode := of_nearReader hvia hreader
    have hcopy : ∀ node target other, ((c.register key reader).ship reader
        { target := .near, update := .put key entry, awaited := c.config.synchronous }).copy? node
          target other = c.copy? node target other := by
      intro node target other
      rw [copy?_ship, copy?_register]
    refine ⟨h.lawful, by rw [hlayout.size]; exact h.size, hrunning.ship _ _, ?_⟩
    intro other
    by_cases hother : other = key
    · subst hother
      refine (h.inStep other).shared (u := .put other entry) hlayout rfl hentry rfl hnode
        (fun node target => hcopy node target other) ?_ ?_
      · intro node target
        rw [inflight_ship hrunning, inflight_register, hregister.size]
        congr 1
        by_cases hslot : reader = node ∧ target = .near
        · obtain ⟨rfl, rfl⟩ := hslot
          simp [hnode.1, Update.key]
        · rw [if_neg hslot, if_neg (fun hship => hslot ⟨hship.1, hship.2.2.1.symm⟩)]
          rfl
      · intro r
        rw [registered_ship, registered_register _ _ _ _ _ (h.primary_lt other)]
        simp
    · have hne : compare key other ≠ .eq := by simpa using Ne.symm hother
      refine (h.inStep other).congr hlayout (UInt64.le_refl _)
        (fun node target => hcopy node target other) ?_ ?_
      · intro node target
        rw [inflight_ship hrunning, inflight_register, if_neg (fun hship => hne hship.2.2.2),
          List.append_nil]
      · intro r
        rw [registered_ship, registered_register _ _ _ _ _ (h.primary_lt key)]
        simp [hother]
  next => exact h

theorem drop (h : c.Coherent lapsed) (node : Nat) (target : Target) (key : κ) (event : StoreEvent)
    {now : Millis} (hlapsed : ∀ entry : Entry V, entry.expiredAt now → lapsed entry) :
    (c.change (.drop node target key event now)).Coherent lapsed := by
  simp only [change]
  split
  next hdrop =>
    have hinbox : ∀ n : Node κ V,
        (n.withStore target (((n.store target).write key .remove).record event)).inbox = n.inbox :=
      fun n => n.inbox_withStore target _
    refine ⟨h.lawful, by rw [(SameLayout.modifyNode c _ _).size]; exact h.size,
      h.running.modifyNode _ fun n => by rw [hinbox], ?_⟩
    intro other
    refine (h.inStep other).dropped (SameLayout.modifyNode c _ _) rfl ?_ ?_ ?_
    · intro other' target'
      rw [copy?_dropped]
      split
      next hslot =>
        obtain ⟨rfl, rfl, hkey⟩ := hslot
        obtain rfl : key = other := by simpa using hkey
        obtain ⟨entry, hentry, hexpired⟩ := (Option.any_eq_true _ _).1 hdrop.2
        exact .inr ⟨hdrop.1, rfl, entry, hentry, hlapsed entry hexpired⟩
      next => exact .inl rfl
    · exact fun other' target' => c.inflight_modifyNode _ other' target' other hinbox
    · exact fun r => c.registered_modifyNode _ other r fun n => by cases target <;> rfl
  next => exact h

theorem deliver (h : c.Coherent lapsed) (node : Nat) : (c.deliver node).Coherent lapsed := by
  cases hqueue : c.queue node with
  | nil =>
      rw [deliver_of_nil hqueue]
      exact h
  | cons m rest =>
      have hlayout : SameLayout c (c.deliver node) := sameLayout_change c (.deliver node)
      refine ⟨h.lawful, by rw [hlayout.size]; exact h.size, h.running.deliver node, ?_⟩
      intro key
      refine (h.inStep key).delivered h.lawful hlayout rfl ?_ (c.registered_deliver node key)
      intro other target
      rw [inflight_deliver h.running hqueue, copy?_deliver h.running hqueue]
      by_cases hslot : other = node ∧ m.target = target ∧ compare m.update.key key = .eq
      · rw [if_pos hslot, if_pos hslot]
        exact .inr ⟨m.update, rfl, rfl⟩
      · rw [if_neg hslot, if_neg hslot]
        exact .inl ⟨rfl, rfl⟩

/-- Every change keeps all copies in step, as long as there is a version left for it. -/
theorem change (h : c.Coherent lapsed) {x : Change κ V} (hx : x.Allowed c.nodes.length lapsed)
    (hversion : c.version.toNat + x.draws.toNat < 2 ^ 64) : (c.change x).Coherent lapsed := by
  cases x with
  | count key event =>
      exact h.congr (SameLayout.modifyNode c _ _) (h.running.recordPrimary key event) rfl
        (c.copy?_recordPrimary key event) (c.inflight_recordPrimary key event)
        (c.registered_recordPrimary key event)
  | write key via value ttl => exact h.write key via value ttl hx hversion
  | remove key event awaited =>
      simp only [Cluster.change]
      split
      next entry hentry => exact h.removePrimary hentry event awaited
      next => exact h
  | share key via => exact h.share key hx
  | note node target event =>
      exact h.congr (SameLayout.modifyNode c _ _)
        (h.running.modifyNode _ fun n => congrArg _ (n.inbox_withStore target _)) rfl
        (c.copy?_note node target event) (c.inflight_note node target event)
        fun key r => c.registered_modifyNode _ key r fun n => by cases target <;> rfl
  | drop node target key event now => exact h.drop node target key event hx
  | deliver node => exact h.deliver node

end Coherent

variable [Hashable κ]

theorem version_change (c : Cluster κ V) (x : Change κ V) :
    (c.change x).version = if x.draws then c.version + 1 else c.version := by
  cases x with
  | count | note | deliver => rfl
  | write key via value ttl =>
      obtain ⟨d, hd, hchange⟩ := c.exists_change_write key via value ttl
      rw [hchange, version_putPrimary, hd.version]
      rfl
  | remove key event awaited =>
      simp only [change]
      split
      · exact version_removePrimary ..
      · rfl
  | share key via =>
      simp only [change]
      split <;> rfl
  | drop node target key event now =>
      simp only [change]
      split <;> rfl

/-- As long as there is a version left, a change that draws one adds one. -/
theorem version_change_toNat {c : Cluster κ V} {x : Change κ V}
    (hversion : c.version.toNat + x.draws.toNat < 2 ^ 64) :
    (c.change x).version.toNat = c.version.toNat + x.draws.toNat := by
  rw [version_change]
  cases hdraws : x.draws with
  | false => rfl
  | true =>
      rw [hdraws] at hversion
      rw [if_pos rfl, UInt64.toNat_add]
      exact Nat.mod_eq_of_lt hversion

theorem version_le_change {c : Cluster κ V} {x : Change κ V}
    (hversion : c.version.toNat + x.draws.toNat < 2 ^ 64) : c.version ≤ (c.change x).version := by
  rw [UInt64.le_iff_toNat_le, version_change_toNat hversion]
  exact Nat.le_add_right _ _

omit [Ord κ] [TransOrd κ] [Hashable κ] in
theorem countP_draws_cons (x : Change κ V) (trace : List (Change κ V)) :
    (x :: trace).countP (·.draws) = x.draws.toNat + trace.countP (·.draws) := by
  rw [List.countP_cons]
  cases x.draws <;> simp [Nat.add_comm]

/-- As long as there are versions left, each of the changes that draw one adds one. -/
theorem version_follow {c : Cluster κ V} {trace : List (Change κ V)}
    (hversion : c.version.toNat + trace.countP (·.draws) < 2 ^ 64) :
    (c.follow trace).version.toNat = c.version.toNat + trace.countP (·.draws) := by
  induction trace generalizing c with
  | nil => rfl
  | cons x rest ih =>
      rw [countP_draws_cons] at hversion ⊢
      have hnext : (c.change x).version.toNat = c.version.toNat + x.draws.toNat :=
        version_change_toNat (by omega)
      rw [follow_cons, ih (by omega), hnext, Nat.add_assoc]

/-- A property that every change keeps while there is a version left for it is kept by every trace, as
long as there are versions left for all of its changes. -/
theorem follow_induction_of_room {motive : Cluster κ V → Prop} (trace : List (Change κ V))
    (hchange : ∀ c, ∀ x ∈ trace, c.version.toNat + x.draws.toNat < 2 ^ 64 → motive c →
      motive (c.change x)) (c : Cluster κ V)
    (hroom : c.version.toNat + trace.countP (·.draws) < 2 ^ 64) (hc : motive c) :
    motive (c.follow trace) := by
  induction trace generalizing c with
  | nil => exact hc
  | cons x rest ih =>
      rw [countP_draws_cons] at hroom
      have hnext : (c.change x).version.toNat = c.version.toNat + x.draws.toNat :=
        version_change_toNat (by omega)
      apply ih (fun d y hy => hchange d y (List.mem_cons_of_mem x hy))
      · omega
      · exact hchange c x List.mem_cons_self (by omega) hc

/-- Changes keep all copies in step, as long as there are versions left for them. -/
theorem Coherent.follow [LawfulEqOrd κ] {lapsed : Entry V → Prop} {c : Cluster κ V}
    (h : c.Coherent lapsed) (trace : List (Change κ V))
    (htrace : ∀ x ∈ trace, x.Allowed c.nodes.length lapsed)
    (hversion : c.version.toNat + trace.countP (·.draws) < 2 ^ 64) :
    (c.follow trace).Coherent lapsed := by
  refine (follow_induction_of_room (motive := fun d => SameLayout c d ∧ d.Coherent lapsed) trace
    ?_ c hversion ⟨SameLayout.refl c, h⟩).2
  rintro d x hx hroom ⟨hlayout, hcoherent⟩
  have hallowed := htrace x hx
  rw [← hlayout.size] at hallowed
  exact ⟨hlayout.trans (sameLayout_change d x), hcoherent.change hallowed hroom⟩

end Cluster

end Ephemera
