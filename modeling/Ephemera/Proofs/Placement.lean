import Ephemera.Proofs.Provenance

/-! # Where copies may be

A node keeps copies of the keys it owns in one store and near copies of other keys in the other, and
is sent nothing that does not belong there. The nodes that read near copies of a key are known to its
primary and to no other node, for as long as the primary holds a copy of the key. A removal ends the
registration of all readers, and overtakes no copy that was shipped to them before: a near copy whose
reader is not registered any more has its removal under way.
-/

namespace Ephemera

open Std

universe u v

/-- Whether a store of a node may hold copies of a key: the owned copies are those of the owners,
near copies are kept by all others, if there are any. -/
def Affinity.Houses {κ : Type u} (a : Affinity κ) (near : Bool) (node : Nat) : Target → κ → Prop
  | .owned, key => a.isOwner node key = true
  | .near, key => near = true ∧ a.isOwner node key = false

/-- Whether the change removes the key from its primary. -/
def Change.Removes {κ : Type u} {V : Type v} (key : κ) (x : Change κ V) : Prop :=
  ∃ event awaited, x = .remove key event awaited

namespace Cluster

variable {κ : Type u} {V : Type v} [Ord κ] [TransOrd κ]

/-! ## The registry of a node -/

/-- The near readers of a key that a node has registered, if it has an entry for the key. -/
def readers? (c : Cluster κ V) (node : Nat) (key : κ) : Option (ExtTreeSet Nat) :=
  c.nodes[node]?.bind (·.readers[key]?)

/-- The registered readers of a key are those that its primary has registered. -/
theorem registered_iff (c : Cluster κ V) (key : κ) (reader : Nat) :
    c.Registered key reader ↔
      ∃ readers, c.readers? (c.affinity.primary key) key = some readers ∧ reader ∈ readers := by
  unfold Registered readers?
  cases c.nodes[c.affinity.primary key]? with
  | none => simp
  | some n =>
      simp only [Option.some.injEq, exists_eq_left', Option.bind_some, Node.readersOf,
        ExtTreeSet.mem_toList, ExtTreeMap.getD_eq_getD_getElem?]
      cases n.readers[key]? <;> simp

theorem readers?_modifyNode (c : Cluster κ V) (node other : Nat) (key : κ) {f : Node κ V → Node κ V}
    (hf : ∀ n, (f n).readers = n.readers) :
    (c.modifyNode node f).readers? other key = c.readers? other key := by
  simp only [readers?, getElem?_modifyNode]
  cases c.nodes[other]? with
  | none => rfl
  | some n =>
      simp only [Option.map_some, Option.bind_some]
      split
      · rw [hf]
      · rfl

theorem readers?_ship (c : Cluster κ V) (node : Nat) (m : Message κ V) (other : Nat) (key : κ) :
    (c.ship node m).readers? other key = c.readers? other key :=
  c.readers?_modifyNode node other key fun _ => rfl

theorem readers?_shipAll (c : Cluster κ V) (nodes : List Nat) (m : Message κ V) (other : Nat)
    (key : κ) : (c.shipAll nodes m).readers? other key = c.readers? other key := by
  induction nodes generalizing c with
  | nil => rfl
  | cons node rest ih => exact (ih (c.ship node m)).trans (c.readers?_ship node m other key)

theorem readers?_recordPrimary (c : Cluster κ V) (key : κ) (event : StoreEvent) (node : Nat)
    (other : κ) : (c.recordPrimary key event).readers? node other = c.readers? node other :=
  c.readers?_modifyNode _ node other fun _ => rfl

section Readers

variable [LawfulEqOrd κ]

/-- To register a reader concerns the primary of the key and no other node, and no other key. -/
theorem readers?_register (c : Cluster κ V) (key : κ) (reader node : Nat) (other : κ)
    (hprimary : c.affinity.primary key < c.nodes.length) :
    (c.register key reader).readers? node other =
      if node = c.affinity.primary key ∧ compare key other = .eq then
        some (((c.readers? node other).getD ∅).insert reader)
      else c.readers? node other := by
  simp only [readers?, register, modifyPrimary, getElem?_modifyNode]
  by_cases hnode : node = c.affinity.primary key
  · subst hnode
    rw [List.getElem?_eq_getElem hprimary]
    by_cases hkey : key = other
    · subst hkey
      simp [Node.addReader, ExtTreeMap.getD_eq_getD_getElem?]
    · simp [Node.addReader, ExtTreeMap.getElem?_insert, hkey]
  · simp [hnode, Ne.symm hnode]

theorem readers?_fanOut (c : Cluster κ V) (update : Update κ V) (awaited : Bool) (node : Nat)
    (other : κ) :
    (c.fanOut update awaited).readers? node other =
      if update.isRemove ∧ node = c.affinity.primary update.key ∧ compare update.key other = .eq then
        none
      else c.readers? node other := by
  rw [fanOut_eq, readers?_shipAll]
  generalize hd : c.shipAll (c.recipients update.key .owned) { target := .owned, update, awaited } = d
  have hlayout : SameLayout c d := hd ▸ SameLayout.shipAll c _ _
  have hreaders : d.readers? node other = c.readers? node other := by rw [← hd, readers?_shipAll]
  rw [← hreaders, ← hlayout.affinity]
  unfold dismiss
  by_cases hremove : update.isRemove
  · simp only [hremove, if_true, true_and, readers?, modifyPrimary, getElem?_modifyNode]
    cases d.nodes[node]? with
    | none => simp
    | some n =>
        by_cases hnode : d.affinity.primary update.key = node
        · subst hnode
          simp only [Option.map_some, Option.bind_some, if_true, true_and]
          exact ExtTreeMap.getElem?_erase
        · simp [hnode, Ne.symm hnode]
  · simp [hremove]

end Readers

variable [Hashable κ]

theorem readers?_writePrimary (c : Cluster κ V) (key : κ) (change : Write V) (node : Nat)
    (other : κ) : (c.writePrimary key change).readers? node other = c.readers? node other :=
  c.readers?_modifyNode _ node other fun _ => rfl

theorem readers?_putPrimary [LawfulEqOrd κ] (c : Cluster κ V) (key : κ) (value : V) (ttl : Ttl)
    (node : Nat) (other : κ) :
    (c.putPrimary key value ttl).readers? node other = c.readers? node other := by
  unfold putPrimary
  rw [readers?_writePrimary, readers?_fanOut, if_neg (by simp [Update.isRemove])]
  rfl

/-- A removal ends the registration of all readers of the key. -/
theorem readers?_removePrimary [LawfulEqOrd κ] (c : Cluster κ V) (key : κ) (version : UInt64)
    (event : StoreEvent) (awaited : Bool) (node : Nat) (other : κ) :
    (c.removePrimary key version event awaited).readers? node other =
      if node = c.affinity.primary key ∧ compare key other = .eq then none
      else c.readers? node other := by
  have hrecorded := c.readers?_recordPrimary key event node other
  unfold removePrimary
  rw [readers?_writePrimary, readers?_fanOut, hrecorded]
  simp only [Update.isRemove, Update.key, true_and]
  rfl

theorem readers?_deliver (c : Cluster κ V) (node other : Nat) (key : κ) :
    (c.deliver node).readers? other key = c.readers? other key :=
  c.readers?_modifyNode node other key fun n => n.readers_deliver

theorem readers?_note (c : Cluster κ V) (node : Nat) (target : Target) (event : StoreEvent)
    (other : Nat) (key : κ) :
    (c.change (.note node target event)).readers? other key = c.readers? other key :=
  c.readers?_modifyNode node other key fun n => by cases target <;> rfl

theorem readers?_drop (c : Cluster κ V) (node : Nat) (target : Target) (key : κ)
    (event : StoreEvent) (now : Millis) (other : Nat) (k : κ) :
    (c.change (.drop node target key event now)).readers? other k = c.readers? other k := by
  simp only [change]
  split
  · exact c.readers?_modifyNode node other k fun n => by cases target <;> rfl
  · rfl

/-! ## Copies and readers in place -/

/-- Copies, messages and registered readers are where the affinity and the settings have them. -/
structure Placed (c : Cluster κ V) : Prop where
  copies : ∀ {node target key entry}, c.copy? node target key = some entry →
    c.affinity.Houses c.config.near node target key
  messages : ∀ {node target key update}, update ∈ c.inflight node target key →
    c.affinity.Houses c.config.near node target key
  registrar : ∀ {node key readers}, c.readers? node key = some readers →
    node = c.affinity.primary key
  readers : ∀ {node key readers reader}, c.readers? node key = some readers → reader ∈ readers →
    c.affinity.Houses c.config.near reader .near key

/-- No entry of a registry outlives its key. -/
def Held (c : Cluster κ V) : Prop :=
  ∀ key, (c.readers? (c.affinity.primary key) key).isSome → (c.stored? key).isSome

omit [TransOrd κ] [Hashable κ] in
/-- A node that may become a near reader keeps near copies of the key. -/
theorem houses_of_nearReader {c : Cluster κ V} {node reader : Nat} {key : κ}
    (h : c.nearReader node key = some reader) :
    c.affinity.Houses c.config.near reader .near key := by
  unfold nearReader at h
  split at h
  next hnear =>
    cases h
    simpa [Affinity.Houses] using hnear
  next => cases h

namespace Placed

variable {c d : Cluster κ V}

omit [Hashable κ] in
/-- A step after which there is nothing in a place that was empty keeps everything in place. -/
theorem congr (h : c.Placed) (hlayout : SameLayout c d)
    (hcopy : ∀ {node target key entry}, d.copy? node target key = some entry →
      ∃ entry', c.copy? node target key = some entry')
    (hinflight : ∀ {node target key update}, update ∈ d.inflight node target key →
      update ∈ c.inflight node target key)
    (hreaders : ∀ {node key readers}, d.readers? node key = some readers →
      c.readers? node key = some readers) : d.Placed := by
  have hconfig := hlayout.config
  have haffinity := hlayout.affinity
  refine ⟨?_, ?_, ?_, ?_⟩
  · intro node target key entry hentry
    obtain ⟨_, hbefore⟩ := hcopy hentry
    rw [hconfig, haffinity]
    exact h.copies hbefore
  · intro node target key update hupdate
    rw [hconfig, haffinity]
    exact h.messages (hinflight hupdate)
  · intro node key readers hnode
    rw [haffinity]
    exact h.registrar (hreaders hnode)
  · intro node key readers reader hnode hreader
    rw [hconfig, haffinity]
    exact h.readers (hreaders hnode) hreader

omit [Hashable κ] in
/-- A decision is shipped to places where its key belongs. -/
theorem houses_of_mem_recipients (h : c.Placed) {node : Nat} {target : Target} {key : κ}
    (hnode : node ∈ c.recipients key target) : c.affinity.Houses c.config.near node target key := by
  rcases (c.mem_recipients_iff node target key).1 hnode with ⟨rfl, hbackup⟩ | ⟨rfl, hregistered, -⟩
  · exact (c.affinity.isOwner_iff node key).2 (.inr hbackup)
  · obtain ⟨readers, hreaders, hreader⟩ := (c.registered_iff key node).1 hregistered
    exact h.readers hreaders hreader

omit [Hashable κ] in
/-- Once a decision has been shipped to those that follow its key, whatever is under way to a place
belongs there. -/
theorem houses_of_shipped [LawfulEqOrd κ] (h : c.Placed) {node : Nat} {target : Target}
    {key other : κ} {shipped update : Update κ V}
    (hupdate : update ∈ c.inflight node target other ++
      if node < c.nodes.length ∧ compare key other = .eq
      then List.replicate ((c.recipients key target).count node) shipped else []) :
    c.affinity.Houses c.config.near node target other := by
  rcases List.mem_append.1 hupdate with hbefore | hshipped
  · exact h.messages hbefore
  · split at hshipped
    next hslot =>
      obtain rfl : key = other := by simpa using hslot.2
      exact h.houses_of_mem_recipients (List.count_pos_iff.1 (Nat.pos_of_ne_zero
        (List.mem_replicate.1 hshipped).1))
    next => cases hshipped

omit [Hashable κ] in
theorem register [LawfulEqOrd κ] (h : c.Placed) {key : κ} {reader : Nat}
    (hprimary : c.affinity.primary key < c.nodes.length)
    (hreader : c.affinity.Houses c.config.near reader .near key) : (c.register key reader).Placed := by
  refine ⟨?_, ?_, ?_, ?_⟩
  · intro node target other entry hentry
    rw [copy?_register] at hentry
    exact h.copies hentry
  · intro node target other update hupdate
    rw [inflight_register] at hupdate
    exact h.messages hupdate
  · intro node other readers hreaders
    rw [readers?_register _ _ _ _ _ hprimary] at hreaders
    split at hreaders
    next hslot =>
      obtain ⟨rfl, hkey⟩ := hslot
      obtain rfl : key = other := by simpa using hkey
      rfl
    next => exact h.registrar hreaders
  · intro node other readers r hreaders hr
    rw [readers?_register _ _ _ _ _ hprimary] at hreaders
    split at hreaders
    next hslot =>
      obtain ⟨rfl, hkey⟩ := hslot
      obtain rfl : key = other := by simpa using hkey
      cases hreaders
      rcases ExtTreeSet.mem_insert.1 hr with hr | hr
      · obtain rfl : reader = r := by simpa using hr
        exact hreader
      · cases hbefore : c.readers? (c.affinity.primary key) key with
        | none => simp [hbefore] at hr
        | some before =>
            rw [hbefore] at hr
            exact h.readers hbefore hr
    next => exact h.readers hreaders hr

omit [Hashable κ] in
theorem ship (h : c.Placed) (hrunning : c.Running) {node : Nat} {m : Message κ V}
    (hplace : ∀ key, compare m.update.key key = .eq →
      c.affinity.Houses c.config.near node m.target key) : (c.ship node m).Placed := by
  refine ⟨?_, ?_, ?_, ?_⟩
  · intro other target key entry hentry
    rw [copy?_ship] at hentry
    exact h.copies hentry
  · intro other target key update hupdate
    rw [inflight_ship hrunning, List.mem_append] at hupdate
    rcases hupdate with hupdate | hupdate
    · exact h.messages hupdate
    · split at hupdate
      next hslot =>
        obtain ⟨rfl, -, rfl, hkey⟩ := hslot
        exact hplace key hkey
      next => cases hupdate
  · intro other key readers hreaders
    rw [readers?_ship] at hreaders
    exact h.registrar hreaders
  · intro other key readers reader hreaders hreader
    rw [readers?_ship] at hreaders
    exact h.readers hreaders hreader

variable [LawfulEqOrd κ]

theorem putPrimary (h : c.Placed) (hrunning : c.Running) {key : κ}
    (hprimary : c.affinity.primary key < c.nodes.length) (value : V) (ttl : Ttl) :
    (c.putPrimary key value ttl).Placed := by
  have hlayout := sameLayout_putPrimary c key value ttl
  refine ⟨?_, ?_, ?_, ?_⟩
  · intro node target other entry hentry
    rw [hlayout.config, hlayout.affinity]
    rw [copy?_putPrimary _ _ _ _ _ _ _ hprimary] at hentry
    split at hentry
    next hslot =>
      obtain ⟨rfl, rfl, hkey⟩ := hslot
      obtain rfl : key = other := by simpa using hkey
      exact (c.affinity.isOwner_iff _ _).2 (.inl rfl)
    next => exact h.copies hentry
  · intro node target other update hupdate
    rw [hlayout.config, hlayout.affinity]
    rw [inflight_putPrimary hrunning] at hupdate
    exact h.houses_of_shipped hupdate
  · intro node other readers hreaders
    rw [readers?_putPrimary] at hreaders
    rw [hlayout.affinity]
    exact h.registrar hreaders
  · intro node other readers reader hreaders hreader
    rw [readers?_putPrimary] at hreaders
    rw [hlayout.config, hlayout.affinity]
    exact h.readers hreaders hreader

theorem removePrimary (h : c.Placed) (hrunning : c.Running) {key : κ}
    (hprimary : c.affinity.primary key < c.nodes.length) (version : UInt64) (event : StoreEvent)
    (awaited : Bool) : (c.removePrimary key version event awaited).Placed := by
  have hlayout := sameLayout_removePrimary c key version event awaited
  refine ⟨?_, ?_, ?_, ?_⟩
  · intro node target other entry hentry
    rw [hlayout.config, hlayout.affinity]
    rw [copy?_removePrimary _ _ _ _ _ _ _ _ hprimary] at hentry
    split at hentry
    next => cases hentry
    next => exact h.copies hentry
  · intro node target other update hupdate
    rw [hlayout.config, hlayout.affinity]
    rw [inflight_removePrimary hrunning] at hupdate
    exact h.houses_of_shipped hupdate
  · intro node other readers hreaders
    rw [readers?_removePrimary] at hreaders
    rw [hlayout.affinity]
    split at hreaders
    next => cases hreaders
    next => exact h.registrar hreaders
  · intro node other readers reader hreaders hreader
    rw [readers?_removePrimary] at hreaders
    rw [hlayout.config, hlayout.affinity]
    split at hreaders
    next => cases hreaders
    next => exact h.readers hreaders hreader

theorem deliver (h : c.Placed) (hrunning : c.Running) (node : Nat) : (c.deliver node).Placed := by
  cases hqueue : c.queue node with
  | nil => exact (deliver_of_nil hqueue).symm ▸ h
  | cons m rest =>
      have hinflight := inflight_deliver hrunning hqueue
      refine ⟨?_, ?_, ?_, ?_⟩
      · intro other target key entry hentry
        rw [copy?_deliver hrunning hqueue] at hentry
        split at hentry
        next hslot =>
          -- Whatever the change does to the copy, it was under way to this place.
          have hmem : m.update ∈ c.inflight other target key := by
            rw [hinflight, if_pos hslot]
            exact List.mem_cons_self
          exact h.messages hmem
        next => exact h.copies hentry
      · intro other target key update hupdate
        have hmem : update ∈ c.inflight other target key := by
          rw [hinflight]
          exact List.mem_append_right _ hupdate
        exact h.messages hmem
      · intro other key readers hreaders
        rw [readers?_deliver] at hreaders
        exact h.registrar hreaders
      · intro other key readers reader hreaders hreader
        rw [readers?_deliver] at hreaders
        exact h.readers hreaders hreader

/-- Whatever changes, everything stays in place. -/
theorem change (h : c.Placed) (horderly : c.Orderly) (x : Change κ V) : (c.change x).Placed := by
  have hrunning := horderly.running
  cases x with
  | count key event =>
      refine h.congr (SameLayout.modifyNode c _ _) ?_ ?_ ?_
      · intro node target other entry hentry
        exact ⟨entry, (c.copy?_recordPrimary key event node target other).symm.trans hentry⟩
      · intro node target other update hupdate
        exact c.inflight_recordPrimary key event node target other ▸ hupdate
      · intro node other readers hreaders
        exact (c.readers?_recordPrimary key event node other).symm.trans hreaders
  | write key via value ttl =>
      have hprimary := horderly.primary_lt key
      simp only [Cluster.change]
      cases hreader : via.bind (c.nearReader · key) with
      | none => exact h.putPrimary hrunning hprimary value ttl
      | some reader =>
          obtain ⟨node, -, hnode⟩ := Option.bind_eq_some_iff.1 hreader
          have hregistered := h.register hprimary (houses_of_nearReader hnode)
          have hsize : (c.register key reader).nodes.length = c.nodes.length :=
            (SameLayout.modifyNode c _ _).size
          exact hregistered.putPrimary (hrunning.register key reader) (hsize ▸ hprimary) value ttl
  | remove key event awaited =>
      simp only [Cluster.change]
      split
      · exact h.removePrimary hrunning (horderly.primary_lt key) _ event awaited
      · exact h
  | share key via =>
      simp only [Cluster.change]
      split
      next entry reader _ hreader =>
        have hhouses := houses_of_nearReader hreader
        refine (h.register (horderly.primary_lt key) hhouses).ship (hrunning.register key reader) ?_
        intro other hother
        obtain rfl : key = other := by simpa [Update.key] using hother
        exact hhouses
      next => exact h
  | note node target event =>
      refine h.congr (SameLayout.modifyNode c _ _) ?_ ?_ ?_
      · intro other t key entry hentry
        exact ⟨entry, (c.copy?_note node target event other t key).symm.trans hentry⟩
      · intro other t key update hupdate
        exact c.inflight_note node target event other t key ▸ hupdate
      · intro other key readers hreaders
        exact (c.readers?_note node target event other key).symm.trans hreaders
  | drop node target key event now =>
      refine h.congr (sameLayout_change c _) ?_ ?_ ?_
      · intro other t k entry hentry
        rcases c.copy?_drop node target key event now other t k with hsame | hnone
        · exact ⟨entry, hsame ▸ hentry⟩
        · cases hnone.symm.trans hentry
      · intro other t k update hupdate
        exact c.inflight_drop node target key event now other t k ▸ hupdate
      · intro other k readers hreaders
        exact (c.readers?_drop node target key event now other k).symm.trans hreaders
  | deliver node => exact h.deliver hrunning node

end Placed

/-! ## Entries of registries end with their keys -/

namespace Held

variable {c : Cluster κ V}

omit [Hashable κ] in
/-- What leaves the registries and the copies on primaries alone leaves them in keeping. -/
theorem congr (h : c.Held) {d : Cluster κ V} (hlayout : SameLayout c d)
    (hreaders : ∀ node key, d.readers? node key = c.readers? node key)
    (hstored : ∀ key, d.stored? key = c.stored? key) : d.Held := by
  intro key hkey
  rw [hreaders, hlayout.affinity] at hkey
  rw [hstored]
  exact h key hkey

variable [LawfulEqOrd κ]

/-- A write may register a reader before there is a copy on the primary, which it then puts there. -/
theorem putPrimary {d : Cluster κ V} (h : c.Held) (hlayout : SameLayout c d) {key : κ}
    (hprimary : c.affinity.primary key < c.nodes.length)
    (hreaders : ∀ other, other ≠ key →
      d.readers? (c.affinity.primary other) other = c.readers? (c.affinity.primary other) other)
    (hstored : ∀ other, d.stored? other = c.stored? other) (value : V) (ttl : Ttl) :
    (d.putPrimary key value ttl).Held := by
  have hprimary' : d.affinity.primary key < d.nodes.length := by
    rw [hlayout.affinity, hlayout.size]
    exact hprimary
  intro other hother
  rw [readers?_putPrimary, (sameLayout_putPrimary d key value ttl).affinity, hlayout.affinity] at hother
  rw [stored?_putPrimary _ _ _ _ _ hprimary']
  split
  next => rfl
  next hkey =>
    rw [hstored]
    have hne : other ≠ key := by
      rintro rfl
      exact hkey ReflCmp.compare_self
    rw [hreaders other hne] at hother
    exact h other hother

theorem change (h : c.Held) (horderly : c.Orderly) (x : Change κ V) : (c.change x).Held := by
  cases x with
  | count key event =>
      exact h.congr (SameLayout.modifyNode c _ _) (c.readers?_recordPrimary key event)
        (c.stored?_recordPrimary key · event)
  | write key via value ttl =>
      have hprimary := horderly.primary_lt key
      simp only [Cluster.change]
      cases via.bind (c.nearReader · key) with
      | none =>
          exact h.putPrimary (SameLayout.refl c) hprimary (fun _ _ => rfl) (fun _ => rfl) value ttl
      | some reader =>
          refine h.putPrimary (d := c.register key reader) (SameLayout.modifyNode c _ _) hprimary ?_
            (c.stored?_register key reader) value ttl
          intro other hother
          rw [readers?_register _ _ _ _ _ hprimary, if_neg]
          rintro ⟨-, hkey⟩
          obtain rfl : key = other := by simpa using hkey
          exact hother rfl
  | remove key event awaited =>
      simp only [Cluster.change]
      split
      next entry _ =>
        intro other hother
        rw [readers?_removePrimary, (sameLayout_removePrimary c key _ event awaited).affinity] at hother
        rw [stored?_removePrimary _ _ _ _ _ _ (horderly.primary_lt key)]
        by_cases hkey : compare key other = .eq
        · -- The entry of the removed key is gone from the registry of its primary.
          obtain rfl : key = other := by simpa using hkey
          simp at hother
        · rw [if_neg (fun hslot => hkey hslot.2)] at hother
          rw [if_neg hkey]
          exact h other hother
      next => exact h
  | share key via =>
      simp only [Cluster.change]
      split
      next entry reader hentry _ =>
        intro other hother
        have hstored : ((c.register key reader).ship reader
            { target := .near, update := .put key entry, awaited := c.config.synchronous }).stored?
              other = c.stored? other := by
          rw [← c.stored?_register key reader other]
          exact (c.register key reader).copy?_ship reader (c.affinity.primary other) _ .owned other
        rw [hstored]
        rw [readers?_ship, readers?_register _ _ _ _ _ (horderly.primary_lt key)] at hother
        split at hother
        next hslot =>
          obtain rfl : key = other := by simpa using hslot.2
          exact Option.isSome_of_eq_some hentry
        next => exact h other hother
      next => exact h
  | note node target event =>
      exact h.congr (SameLayout.modifyNode c _ _) (c.readers?_note node target event)
        fun key => c.copy?_note node target event (c.affinity.primary key) .owned key
  | drop node target key event now =>
      exact h.congr (sameLayout_change c _) (c.readers?_drop node target key event now)
        (c.stored?_drop node target key event now)
  | deliver node =>
      exact h.congr (sameLayout_change c (.deliver node)) (c.readers?_deliver node)
        (horderly.stored?_deliver node)

end Held

variable [LawfulEqOrd κ]

theorem Placed.follow {c : Cluster κ V} (hplaced : c.Placed) (hheld : c.Held) (horderly : c.Orderly)
    (trace : List (Change κ V)) : (c.follow trace).Placed ∧ (c.follow trace).Held := by
  suffices (c.follow trace).Orderly ∧ (c.follow trace).Placed ∧ (c.follow trace).Held from this.2
  refine follow_induction (motive := fun d => d.Orderly ∧ d.Placed ∧ d.Held) trace ?_ c
    ⟨horderly, hplaced, hheld⟩
  rintro d x - ⟨horderly, hplaced, hheld⟩
  exact ⟨horderly.change x, hplaced.change horderly x, hheld.change horderly x⟩

omit [Hashable κ] [LawfulEqOrd κ] in
theorem readers?_start {config : CacheConfig} {nodes : Nat} {affinity : Affinity κ} {c : Cluster κ V}
    (h : start config nodes affinity = .ok c) (node : Nat) (key : κ) :
    c.readers? node key = none := by
  unfold readers?
  cases hn : c.nodes[node]? with
  | none => rfl
  | some n =>
      rw [node_of_start h hn]
      simp [Node.empty]

omit [Hashable κ] [LawfulEqOrd κ] in
theorem placed_start {config : CacheConfig} {nodes : Nat} {affinity : Affinity κ} {c : Cluster κ V}
    (h : start config nodes affinity = .ok c) : c.Placed ∧ c.Held := by
  refine ⟨⟨?_, ?_, ?_, ?_⟩, ?_⟩
  · intro node target key entry hentry
    cases (copy?_start h node target key).symm.trans hentry
  · intro node target key update hupdate
    obtain ⟨m, hm, -⟩ := mem_queue_of_mem_inflight hupdate
    rw [queue_start h] at hm
    cases hm
  · intro node key readers hreaders
    cases (readers?_start h node key).symm.trans hreaders
  · intro node key readers reader hreaders
    cases (readers?_start h node key).symm.trans hreaders
  · intro key hkey
    rw [readers?_start h] at hkey
    cases hkey

/-! ## Near copies and their readers -/

omit [Ord κ] [TransOrd κ] [Hashable κ] [LawfulEqOrd κ] in
/-- As long as no removal is under way to it, a replica that holds a copy goes on to hold one. -/
theorem ahead_ne_none {copy : Option (Entry V)} {queue : List (Update κ V)} (hcopy : copy ≠ none)
    (hputs : ∀ update ∈ queue, update.isRemove = false) : ahead copy queue ≠ none := by
  unfold ahead
  cases hlast : queue.getLast? with
  | none => exact hcopy
  | some update =>
      have hput := hputs update (List.mem_of_getLast? hlast)
      cases update with
      | put key entry => simp [Update.outcome]
      | remove key version => cases hput

omit [TransOrd κ] [Hashable κ] in
theorem key_of_mem_inflight {c : Cluster κ V} {node : Nat} {target : Target} {key : κ}
    {update : Update κ V} (h : update ∈ c.inflight node target key) : update.key = key := by
  obtain ⟨m, hm, rfl⟩ := List.mem_map.1 h
  have hkey := (of_decide_eq_true (List.mem_filter.1 hm).2).2
  simpa using hkey

omit [Hashable κ] in
/-- A near copy is that of a registered reader, or its removal is under way. -/
theorem Coherent.registered_or_removed {lapsed : Entry V → Prop} {c : Cluster κ V}
    (h : c.Coherent lapsed) {reader : Nat} {key : κ} {entry : Entry V}
    (hcopy : c.copy? reader .near key = some entry) :
    c.Registered key reader ∨
      ∃ version, .remove key version ∈ c.inflight reader .near key ∧ entry.version ≤ version := by
  have hreplica : c.affinity.IsReplica reader .near key := by
    rintro ⟨htarget, -⟩
    cases htarget
  by_cases hputs : ∀ update ∈ c.inflight reader .near key, update.isRemove = false
  · left
    have hahead : c.ahead? reader .near key ≠ none :=
      ahead_ne_none (by rw [hcopy]; exact Option.some_ne_none entry) hputs
    have hmem := (h.inStep key).known reader .near hreplica hahead
    rcases (c.mem_recipients_iff reader .near key).1 hmem with ⟨htarget, -⟩ | ⟨-, hregistered, -⟩
    · cases htarget
    · exact hregistered
  · right
    obtain ⟨update, hupdate, hremove⟩ : ∃ update ∈ c.inflight reader .near key,
        update.isRemove = true := by
      simpa using hputs
    -- Versions ascend from the copy through all that is under way to it.
    have hascending :=
      (List.pairwise_append.1 ((h.inStep key).follows reader .near hreplica).ascending).1
    rw [versions, List.pairwise_append] at hascending
    have hle : entry.version ≤ update.version := by
      rw [UInt64.le_iff_toNat_le]
      exact hascending.2.2 _ (by simp [hcopy]) _ (List.mem_map_of_mem hupdate)
    cases update with
    | put other next => cases hremove
    | remove other version =>
        obtain rfl : other = key := key_of_mem_inflight hupdate
        exact ⟨version, hupdate, hle⟩

/-- Only a removal of the key ends the registration of a reader. -/
theorem Orderly.registered_change {c : Cluster κ V} (horderly : c.Orderly) {key : κ} {reader : Nat}
    (h : c.Registered key reader) {x : Change κ V} (hx : ¬x.Removes key) :
    (c.change x).Registered key reader := by
  cases x with
  | count other event => exact (c.registered_recordPrimary other event key reader).2 h
  | write other via value ttl =>
      simp only [Cluster.change, registered_putPrimary]
      cases via.bind (c.nearReader · other) with
      | none => exact h
      | some r =>
          exact (c.registered_register other key r reader (horderly.primary_lt other)).2 (.inr h)
  | remove other event awaited =>
      simp only [Cluster.change]
      split
      · rw [registered_removePrimary]
        refine ⟨?_, h⟩
        rintro rfl
        exact hx ⟨event, awaited, rfl⟩
      · exact h
  | share other via =>
      simp only [Cluster.change]
      split
      next entry r _ _ =>
        rw [registered_ship]
        exact (c.registered_register other key r reader (horderly.primary_lt other)).2 (.inr h)
      next => exact h
  | note node target event =>
      exact (c.registered_modifyNode node key reader fun n => by cases target <;> rfl).2 h
  | drop node target other event now =>
      simp only [Cluster.change]
      split
      · exact (c.registered_modifyNode node key reader fun n => by cases target <;> rfl).2 h
      · exact h
  | deliver node => exact (c.registered_deliver node key reader).2 h

theorem Orderly.registered_follow {c : Cluster κ V} (horderly : c.Orderly) {key : κ} {reader : Nat}
    (h : c.Registered key reader) {trace : List (Change κ V)} (htrace : ∀ x ∈ trace, ¬x.Removes key) :
    (c.follow trace).Registered key reader := by
  refine (follow_induction (motive := fun d => d.Orderly ∧ d.Registered key reader) trace ?_ c
    ⟨horderly, h⟩).2
  rintro d x hx ⟨horderly, hregistered⟩
  exact ⟨horderly.change x, horderly.registered_change hregistered (htrace x hx)⟩

/-- Writes and removals of a key are shipped to its registered readers. -/
theorem Orderly.mem_inflight_of_registered {c : Cluster κ V} (horderly : c.Orderly) {key : κ}
    {reader : Nat} (hregistered : c.Registered key reader) (hreader : reader < c.nodes.length)
    (howner : c.affinity.isOwner reader key = false) {x : Change κ V} {update : Update κ V}
    (hx : ∀ via, x ≠ .share key via) (hdecision : c.decision? key x = some update) :
    update ∈ (c.change x).inflight reader .near key := by
  -- What is shipped to the recipients of the key is appended to what is under way to the reader.
  have hmem : ∀ d : Cluster κ V, d.affinity = c.affinity → d.Registered key reader →
      update ∈ List.replicate ((d.recipients key .near).count reader) update := by
    intro d haffinity hd
    refine List.mem_replicate.2 ⟨Nat.ne_of_gt (List.count_pos_iff.2 ?_), rfl⟩
    rw [mem_recipients_iff, haffinity]
    exact .inr ⟨rfl, hd, howner⟩
  rcases decision?_eq_some hdecision with ⟨via, value, ttl, rfl, rfl⟩ |
    ⟨event, awaited, entry, rfl, hentry, rfl⟩ | ⟨via, entry, rfl, -, -⟩
  · simp only [Cluster.change]
    cases via.bind (c.nearReader · key) with
    | none =>
        rw [Option.elim_none, inflight_putPrimary horderly.running,
          if_pos ⟨hreader, ReflCmp.compare_self⟩]
        exact List.mem_append_right _ (hmem c rfl hregistered)
    | some r =>
        have hsize : (c.register key r).nodes.length = c.nodes.length :=
          (SameLayout.modifyNode c _ _).size
        have hstays := (c.registered_register key key r reader (horderly.primary_lt key)).2
          (.inr hregistered)
        rw [Option.elim_some, inflight_putPrimary (horderly.running.register key r),
          if_pos ⟨hsize.symm ▸ hreader, ReflCmp.compare_self⟩]
        exact List.mem_append_right _ (hmem _ rfl hstays)
  · simp only [Cluster.change, hentry]
    rw [inflight_removePrimary horderly.running, if_pos ⟨hreader, ReflCmp.compare_self⟩]
    exact List.mem_append_right _ (hmem c rfl hregistered)
  · exact absurd rfl (hx via)

end Cluster

namespace System

variable {κ : Type u} {V : Type v} [Ord κ] [TransOrd κ] [LawfulEqOrd κ] [Hashable κ]
variable [DecidableEq V] [Append V] [Inhabited V]

/-- Where copies and readers are. In every state of every run the stores of a node, and the messages
that wait for them, concern only keys that belong there; readers are registered with the primary of
their key alone, own it not, and are forgotten with it. As long as versions last, the reader of a near
copy is registered, or the removal of the copy is under way to it. At rest it is registered, and is
sent whatever is written to the key, up to the removal that ends its registration. -/
theorem copies_in_place {config : CacheConfig} {nodes : Nat} {affinity : Affinity κ}
    {c₀ : Cluster κ V} (hstart : Cluster.start config nodes affinity = .ok c₀)
    (hlawful : affinity.Lawful) (now : Millis) (moves : List (Move κ V)) {s : System κ V}
    (hrun : (run moves { cluster := c₀, clock := now }).1 = s) :
    (∀ node target key entry, s.cluster.copy? node target key = some entry →
      affinity.Houses config.near node target key) ∧
    (∀ node, ∀ m ∈ s.cluster.queue node, affinity.Houses config.near node m.target m.update.key) ∧
    (∀ node key readers, s.cluster.readers? node key = some readers →
      node = affinity.primary key ∧ (s.cluster.copy? node .owned key).isSome ∧
      ∀ reader ∈ readers, config.near = true ∧ affinity.isOwner reader key = false) ∧
    (drawn moves { cluster := c₀, clock := now } < 2 ^ 64 →
      ∀ reader key entry, s.cluster.copy? reader .near key = some entry →
        (s.cluster.Registered key reader ∨
          ∃ version, .remove key version ∈ s.cluster.inflight reader .near key ∧
            entry.version ≤ version) ∧
        (s.cluster.Quiet → s.cluster.Registered key reader ∧
          ∀ more pre x post update, trace more s = pre ++ x :: post →
            (∀ y ∈ pre, ¬y.Removes key) → (∀ via, x ≠ .share key via) →
            (s.cluster.follow pre).decision? key x = some update →
            update ∈ ((s.cluster.follow pre).change x).inflight reader .near key)) := by
  obtain ⟨-, hc₀⟩ := Cluster.start_ok hstart
  have hcluster := run_cluster moves { cluster := c₀, clock := now }
  rw [hrun] at hcluster
  have hlayout : Cluster.SameLayout c₀ s.cluster := hcluster ▸ Cluster.sameLayout_follow _ _
  have hconfig : s.cluster.config = config := by rw [hlayout.config, hc₀]
  have haffinity : s.cluster.affinity = affinity := by rw [hlayout.affinity, hc₀]
  have horderly : s.cluster.Orderly := hrun ▸ orderly_run hstart hlawful now moves
  obtain ⟨hplaced, hheld⟩ : s.cluster.Placed ∧ s.cluster.Held := by
    obtain ⟨hplaced, hheld⟩ := Cluster.placed_start hstart
    exact hcluster ▸ hplaced.follow hheld (Cluster.orderly_start hstart hlawful) _
  rw [← hconfig, ← haffinity]
  refine ⟨fun _ _ _ _ => hplaced.copies, ?_, ?_, ?_⟩
  · intro node m hm
    exact hplaced.messages (Cluster.mem_inflight_of_mem_queue hm)
  · intro node key readers hreaders
    have hnode := hplaced.registrar hreaders
    refine ⟨hnode, ?_, fun reader => hplaced.readers hreaders⟩
    subst hnode
    exact hheld key (Option.isSome_of_eq_some hreaders)
  · intro hdrawn reader key entry hcopy
    have hcoherent : s.cluster.Coherent fun _ => True :=
      hrun ▸ coherent_run_of_start hstart hlawful (fun _ _ _ _ => trivial) hdrawn
    have hreader := hcoherent.registered_or_removed hcopy
    refine ⟨hreader, fun hquiet => ?_⟩
    have hregistered : s.cluster.Registered key reader := by
      rcases hreader with hregistered | ⟨version, hremoval, -⟩
      · exact hregistered
      · rw [Cluster.inflight_of_quiet hquiet] at hremoval
        cases hremoval
    refine ⟨hregistered, ?_⟩
    intro more pre x post update _ hpre hx hdecision
    have hlayout := Cluster.sameLayout_follow s.cluster pre
    obtain ⟨hsize, howner⟩ := (hcoherent.inStep key).readers reader hregistered
    exact (horderly.follow pre).mem_inflight_of_registered (horderly.registered_follow hregistered hpre)
      (hlayout.size ▸ hsize) (hlayout.affinity ▸ howner) hx hdecision

/-- A key is written through node 2, which becomes its near reader and is sent the copy. -/
def subscribed : List (Move Nat (List Nat)) :=
  [.call 2 none (.put 0 [7]), .deliver 1, .deliver 2]

/-- The key is removed, and node 2 has not been told yet. -/
def unsubscribed : List (Move Nat (List Nat)) :=
  subscribed ++ [.call 0 none (.remove 0)]

theorem copies_in_place_unsubscribed :
    ∃ (c₀ : Cluster Nat (List Nat)) (s t : System Nat (List Nat)) (entry : Entry (List Nat)),
      Cluster.start { near := true } 3 trio = .ok c₀ ∧
      (run subscribed { cluster := c₀ }).1 = s ∧ s.cluster.Quiet ∧ s.cluster.Registered 0 2 ∧
      (run unsubscribed { cluster := c₀ }).1 = t ∧ t.cluster.copy? 2 .near 0 = some entry ∧
      ¬t.cluster.Registered 0 2 ∧
      ∃ version, .remove 0 version ∈ t.cluster.inflight 2 .near 0 ∧ entry.version ≤ version := by
  let c₀ : Cluster Nat (List Nat) :=
    { config := { near := true }, affinity := trio, nodes := .empty 3 true }
  have hstart : Cluster.start { near := true } 3 trio = .ok c₀ := rfl
  have hdrawn : drawn subscribed { cluster := c₀ } < 2 ^ 64 := by decide +kernel
  have hdrawn' : drawn unsubscribed { cluster := c₀ } < 2 ^ 64 := by decide +kernel
  have hquiet : (run subscribed { cluster := c₀ }).1.cluster.Quiet := by decide +kernel
  have hcopy : (run subscribed { cluster := c₀ }).1.cluster.copy? 2 .near 0 =
      some { value := [7], version := 1, ttl := .eternal } := by decide +kernel
  have hcopy' : (run unsubscribed { cluster := c₀ }).1.cluster.copy? 2 .near 0 =
      some { value := [7], version := 1, ttl := .eternal } := by decide +kernel
  have hgone : ¬(run unsubscribed { cluster := c₀ }).1.cluster.Registered 0 2 := by
    have hnone : (run unsubscribed { cluster := c₀ }).1.cluster.readers?
        ((run unsubscribed { cluster := c₀ }).1.cluster.affinity.primary 0) 0 = none := by
      decide +kernel
    rw [Cluster.registered_iff, hnone]
    rintro ⟨readers, hreaders, -⟩
    cases hreaders
  obtain ⟨-, -, -, hnear⟩ := copies_in_place hstart lawful_trio 0 subscribed rfl
  obtain ⟨-, -, -, hnear'⟩ := copies_in_place hstart lawful_trio 0 unsubscribed rfl
  obtain ⟨hregistered, -⟩ := (hnear hdrawn 2 0 _ hcopy).2 hquiet
  exact ⟨c₀, _, _, _, hstart, rfl, hquiet, hregistered, rfl, hcopy', hgone,
    (hnear' hdrawn' 2 0 _ hcopy').1.resolve_left hgone⟩

end System

end Ephemera
