import Ephemera.Proofs.Settle

/-! # The slice of one key

Of a cluster, a key has its copies, the changes of it that are under way, and its registered readers.
Changes of other keys leave this slice alone. What a change of the key does to the slice depends on
nothing but the slice, save that a write takes the next version of the whole cluster. Versions are only
ever compared, and only those of one key with each other. So two clusters that have the same slice up to
an increasing renaming of versions still do after any changes, if those of the key are the same.
-/

namespace Ephemera

open Std

universe u v

/-! ## Versions renamed -/

/-- The renaming is increasing on the versions up to `top`, and takes them to versions up to `top'`. -/
structure Renames (ren : UInt64 → UInt64) (top top' : UInt64) : Prop where
  increasing : ∀ {v w}, v < w → w ≤ top → ren v < ren w
  within : ∀ {v}, v ≤ top → ren v ≤ top'
  le : top ≤ top'

namespace Renames

variable {ren ren' : UInt64 → UInt64} {top top' : UInt64}

theorem lt_iff (h : Renames ren top top') {v w : UInt64} (hv : v ≤ top) (hw : w ≤ top) :
    ren v < ren w ↔ v < w := by
  refine ⟨fun hlt => ?_, fun hlt => h.increasing hlt hw⟩
  refine UInt64.not_le.1 fun hle => ?_
  rcases UInt64.lt_or_eq_of_le hle with hgt | rfl
  · exact UInt64.lt_asymm hlt (h.increasing hgt hv)
  · exact UInt64.lt_irrefl _ hlt

theorem le_iff (h : Renames ren top top') {v w : UInt64} (hv : v ≤ top) (hw : w ≤ top) :
    ren v ≤ ren w ↔ v ≤ w := by
  rw [← UInt64.not_lt, ← UInt64.not_lt, h.lt_iff hw hv]

/-- What is renamed in the same way up to `top` is renamed as well. -/
theorem congr (h : Renames ren top top') (hsame : ∀ v ≤ top, ren' v = ren v) :
    Renames ren' top top' where
  increasing {v w} hlt hw := by
    rw [hsame w hw, hsame v (UInt64.le_trans (UInt64.le_of_lt hlt) hw)]
    exact h.increasing hlt hw
  within {v} hv := by
    rw [hsame v hv]
    exact h.within hv
  le := h.le

/-- The renaming that takes the versions after `top` to `next`. -/
def andThen (ren : UInt64 → UInt64) (top next : UInt64) : UInt64 → UInt64 :=
  fun v => if v ≤ top then ren v else next

theorem andThen_of_le {v next : UInt64} (hv : v ≤ top) : andThen ren top next v = ren v :=
  if_pos hv

/-- As long as there are versions left, the next ones can be matched. -/
theorem next (h : Renames ren top top') (hroom : top'.toNat + 1 < 2 ^ 64) :
    Renames (andThen ren top (top' + 1)) (top + 1) (top' + 1) ∧
      andThen ren top (top' + 1) (top + 1) = top' + 1 := by
  have hle := UInt64.le_iff_toNat_le.1 h.le
  have htop : (top + 1).toNat = top.toNat + 1 := by
    rw [UInt64.toNat_add]
    exact Nat.mod_eq_of_lt (by change top.toNat + 1 < _; omega)
  have htop' : (top' + 1).toNat = top'.toNat + 1 := by
    rw [UInt64.toNat_add]
    exact Nat.mod_eq_of_lt hroom
  have hnew : ¬top + 1 ≤ top := by
    rw [UInt64.le_iff_toNat_le]
    omega
  -- The only version up to the next one that is not up to `top` is the next one.
  have hsplit : ∀ v, v ≤ top + 1 → v ≤ top ∨ v = top + 1 := by
    intro v hv
    rw [UInt64.le_iff_toNat_le] at hv ⊢
    rw [← UInt64.toNat_inj]
    omega
  have hbelow : ∀ v, v ≤ top → ren v < top' + 1 := by
    intro v hv
    have hwithin := UInt64.le_iff_toNat_le.1 (h.within hv)
    rw [UInt64.lt_iff_toNat_lt]
    omega
  have hlast : andThen ren top (top' + 1) (top + 1) = top' + 1 := if_neg hnew
  refine ⟨⟨?_, ?_, ?_⟩, hlast⟩
  · intro v w hlt hw
    have hv : v ≤ top := by
      rw [UInt64.le_iff_toNat_le] at hw ⊢
      rw [UInt64.lt_iff_toNat_lt] at hlt
      omega
    rw [andThen_of_le hv]
    rcases hsplit w hw with hw | rfl
    · rw [andThen_of_le hw]
      exact h.increasing hlt hw
    · rw [hlast]
      exact hbelow v hv
  · intro v hv
    rcases hsplit v hv with hv | rfl
    · rw [andThen_of_le hv]
      exact UInt64.le_of_lt (hbelow v hv)
    · rw [hlast]
      exact UInt64.le_refl _
  · rw [UInt64.le_iff_toNat_le]
    omega

end Renames

namespace Entry

variable {V : Type v}

/-- The entry under another version. -/
def rename (ren : UInt64 → UInt64) (e : Entry V) : Entry V :=
  { e with version := ren e.version }

theorem rename_congr {ren ren' : UInt64 → UInt64} {top : UInt64} (hsame : ∀ v ≤ top, ren' v = ren v)
    {e : Entry V} (he : e.version ≤ top) : e.rename ren' = e.rename ren := by
  unfold rename
  rw [hsame _ he]

end Entry

namespace Update

variable {κ : Type u} {V : Type v}

/-- The change under another version. -/
def rename (ren : UInt64 → UInt64) : Update κ V → Update κ V
  | put key entry => put key (entry.rename ren)
  | remove key version => remove key (ren version)

theorem rename_congr {ren ren' : UInt64 → UInt64} {top : UInt64} (hsame : ∀ v ≤ top, ren' v = ren v)
    {u : Update κ V} (hu : u.version ≤ top) : u.rename ren' = u.rename ren := by
  cases u with
  | put key entry => exact congrArg (put key) (Entry.rename_congr hsame hu)
  | remove key version => exact congrArg (remove key) (hsame _ hu)

/-- A renaming does not change what a delivered change does. -/
theorem onto_rename {ren : UInt64 → UInt64} {top top' : UInt64} (h : Renames ren top top')
    {u : Update κ V} (hu : u.version ≤ top) {copy : Option (Entry V)}
    (hcopy : ∀ entry, copy = some entry → entry.version ≤ top) :
    (u.rename ren).onto (copy.map (Entry.rename ren)) = (u.onto copy).map (Entry.rename ren) := by
  cases copy with
  | none => cases u <;> rfl
  | some entry =>
      have hentry := hcopy entry rfl
      cases u with
      | put key next =>
          have hnext : next.version ≤ top := hu
          have hlt := h.lt_iff hnext hentry
          simp only [rename, onto, Option.map_some, Option.any_some, Entry.rename, hlt]
          split <;> rfl
      | remove key version =>
          have hversion : version ≤ top := hu
          have hle := h.le_iff hentry hversion
          simp only [rename, onto, Option.map_some, Option.any_some, Entry.rename, hle]
          split <;> rfl

/-- What a change leaves is no newer than the copy and the change. -/
theorem version_le_of_onto {top : UInt64} {u : Update κ V} (hu : u.version ≤ top)
    {copy : Option (Entry V)} (hcopy : ∀ entry, copy = some entry → entry.version ≤ top)
    {entry : Entry V} (h : u.onto copy = some entry) : entry.version ≤ top := by
  cases u with
  | put key next =>
      simp only [onto] at h
      split at h
      · exact hcopy entry h
      · cases h
        exact hu
  | remove key version =>
      simp only [onto] at h
      split at h
      · cases h
      · exact hcopy entry h

/-- Nor does it change what several delivered changes do. -/
theorem foldl_onto_rename {ren : UInt64 → UInt64} {top top' : UInt64} (h : Renames ren top top')
    (queue : List (Update κ V)) (hqueue : ∀ u ∈ queue, u.version ≤ top) (copy : Option (Entry V))
    (hcopy : ∀ entry, copy = some entry → entry.version ≤ top) :
    (queue.map (rename ren)).foldl (fun copy u => u.onto copy) (copy.map (Entry.rename ren)) =
        (queue.foldl (fun copy u => u.onto copy) copy).map (Entry.rename ren) ∧
      ∀ entry, queue.foldl (fun copy u => u.onto copy) copy = some entry → entry.version ≤ top := by
  induction queue generalizing copy with
  | nil => exact ⟨rfl, hcopy⟩
  | cons u rest ih =>
      have hu := hqueue u List.mem_cons_self
      simp only [List.map_cons, List.foldl_cons, onto_rename h hu hcopy]
      exact ih (fun v hv => hqueue v (List.mem_cons_of_mem u hv)) _
        fun entry hentry => version_le_of_onto hu hcopy hentry

end Update

namespace Change

variable {κ : Type u} {V : Type v} [Ord κ]

/-- Whether the change alters a copy of the key, ships one, or registers a reader of it. -/
def concerns (key : κ) : Change κ V → Bool
  | write other .. | remove other .. | share other _ | drop _ _ other .. => compare other key = .eq
  | count .. | note .. | deliver _ => false

/-- Whether the change is the delivery of a message. -/
def isDelivery : Change κ V → Bool
  | deliver _ => true
  | _ => false

end Change

namespace Cluster

variable {κ : Type u} {V : Type v} [Ord κ] [TransOrd κ]

/-! ## The slice of a key -/

/-- Two states of one cluster with the same copies, readers and changes under way of a key. -/
structure SameSlice (key : κ) (c d : Cluster κ V) : Prop where
  layout : SameLayout c d
  copies : ∀ node target, d.copy? node target key = c.copy? node target key
  inflight : ∀ node target, d.inflight node target key = c.inflight node target key
  readers : ∀ node, d.readers? node key = c.readers? node key

namespace SameSlice

variable {key : κ} {c d e : Cluster κ V}

theorem refl (key : κ) (c : Cluster κ V) : SameSlice key c c :=
  ⟨SameLayout.refl c, fun _ _ => rfl, fun _ _ => rfl, fun _ => rfl⟩

theorem trans (h : SameSlice key c d) (h' : SameSlice key d e) : SameSlice key c e :=
  ⟨h.layout.trans h'.layout, fun node target => (h'.copies node target).trans (h.copies node target),
    fun node target => (h'.inflight node target).trans (h.inflight node target),
    fun node => (h'.readers node).trans (h.readers node)⟩

variable [LawfulEqOrd κ] {other : κ}

/-- To register a reader of another key. -/
theorem register (c : Cluster κ V) (hprimary : c.affinity.primary other < c.nodes.length)
    (hne : compare other key ≠ .eq) (reader : Nat) : SameSlice key c (c.register other reader) where
  layout := SameLayout.modifyNode c _ _
  copies node target := c.copy?_register other reader node target key
  inflight node target := c.inflight_register other reader node target key
  readers node := by
    rw [readers?_register _ _ _ _ _ hprimary, if_neg fun h => hne h.2]

omit [LawfulEqOrd κ] in
/-- To ship a change of another key. -/
theorem ship {c : Cluster κ V} (hc : c.Running) (node : Nat) {m : Message κ V}
    (hne : compare m.update.key key ≠ .eq) : SameSlice key c (c.ship node m) where
  layout := SameLayout.ship c node m
  copies other target := c.copy?_ship node other m target key
  inflight other target := by
    rw [inflight_ship hc, if_neg fun h => hne h.2.2.2, List.append_nil]
  readers other := c.readers?_ship node m other key

variable [Hashable κ]

theorem putPrimary {c : Cluster κ V} (hc : c.Running)
    (hprimary : c.affinity.primary other < c.nodes.length) (hne : compare other key ≠ .eq) (value : V)
    (ttl : Ttl) : SameSlice key c (c.putPrimary other value ttl) where
  layout := sameLayout_putPrimary c other value ttl
  copies node target := by
    rw [copy?_putPrimary _ _ _ _ _ _ _ hprimary, if_neg fun h => hne h.2.2]
  inflight node target := by
    rw [inflight_putPrimary hc, if_neg fun h => hne h.2, List.append_nil]
  readers node := readers?_putPrimary ..

theorem removePrimary {c : Cluster κ V} (hc : c.Running)
    (hprimary : c.affinity.primary other < c.nodes.length) (hne : compare other key ≠ .eq)
    (version : UInt64) (event : StoreEvent) (awaited : Bool) :
    SameSlice key c (c.removePrimary other version event awaited) where
  layout := sameLayout_removePrimary c other version event awaited
  copies node target := by
    rw [copy?_removePrimary _ _ _ _ _ _ _ _ hprimary, if_neg fun h => hne h.2.2]
  inflight node target := by
    rw [inflight_removePrimary hc, if_neg fun h => hne h.2, List.append_nil]
  readers node := by
    rw [readers?_removePrimary, if_neg fun h => hne h.2]

/-- A change that does not concern the key, other than a delivery, leaves its slice alone. -/
theorem change {c : Cluster κ V} (hc : c.Orderly) {x : Change κ V} (hx : x.concerns key = false)
    (hdelivery : x.isDelivery = false) : SameSlice key c (c.change x) := by
  have hrunning := hc.running
  cases x with
  | count other event =>
      exact ⟨SameLayout.modifyNode c _ _, (c.copy?_recordPrimary other event · · key),
        (c.inflight_recordPrimary other event · · key), (c.readers?_recordPrimary other event · key)⟩
  | write other via value ttl =>
      have hne : compare other key ≠ .eq := by simpa [Change.concerns] using hx
      have hprimary := hc.primary_lt other
      simp only [Cluster.change]
      cases via.bind (c.nearReader · other) with
      | none => exact putPrimary hrunning hprimary hne value ttl
      | some reader =>
          have hregistered := register c hprimary hne reader
          have hsize : (c.register other reader).nodes.length = c.nodes.length :=
            hregistered.layout.size
          exact hregistered.trans
            (putPrimary (hrunning.register other reader) (hsize ▸ hprimary) hne value ttl)
  | remove other event awaited =>
      have hne : compare other key ≠ .eq := by simpa [Change.concerns] using hx
      simp only [Cluster.change]
      split
      · exact removePrimary hrunning (hc.primary_lt other) hne _ event awaited
      · exact refl key c
  | share other via =>
      have hne : compare other key ≠ .eq := by simpa [Change.concerns] using hx
      simp only [Cluster.change]
      split
      · exact (register c (hc.primary_lt other) hne _).trans
          (ship (hrunning.register other _) _ hne)
      · exact refl key c
  | note node target event =>
      exact ⟨SameLayout.modifyNode c _ _, (c.copy?_note node target event · · key),
        (c.inflight_note node target event · · key), (c.readers?_note node target event · key)⟩
  | drop node target other event now =>
      have hne : compare other key ≠ .eq := by simpa [Change.concerns] using hx
      refine ⟨sameLayout_change c _, fun node' t => ?_,
        (c.inflight_drop node target other event now · · key),
        (c.readers?_drop node target other event now · key)⟩
      simp only [Cluster.change]
      split
      · exact (c.copy?_dropped node node' target t other key event).trans
          (if_neg fun hslot => hne hslot.2.2)
      · rfl
  | deliver node => cases hdelivery

theorem follow {c : Cluster κ V} (hc : c.Orderly) (trace : List (Change κ V))
    (htrace : ∀ x ∈ trace, x.concerns key = false) (hdelivery : ∀ x ∈ trace, x.isDelivery = false) :
    SameSlice key c (c.follow trace) := by
  refine (follow_induction (motive := fun d => d.Orderly ∧ SameSlice key c d) trace ?_ c
    ⟨hc, refl key c⟩).2
  rintro d x hx ⟨hd, hslice⟩
  exact ⟨hd.change x, hslice.trans (change hd (htrace x hx) (hdelivery x hx))⟩

end SameSlice

/-! ## Slices that mirror each other -/

/-- The slice of a key in one cluster is that in another but for the versions, which are renamed. The
first cluster may have drawn more versions, for other keys. -/
structure Mirrors (ren : UInt64 → UInt64) (key : κ) (c d : Cluster κ V) : Prop where
  layout : SameLayout c d
  renames : Renames ren d.version c.version
  copies : ∀ node target, c.copy? node target key = (d.copy? node target key).map (Entry.rename ren)
  inflight : ∀ node target,
    c.inflight node target key = (d.inflight node target key).map (Update.rename ren)
  readers : ∀ node, c.readers? node key = d.readers? node key
  copies_le : ∀ {node target entry}, d.copy? node target key = some entry → entry.version ≤ d.version
  inflight_le : ∀ {node target u}, u ∈ d.inflight node target key → u.version ≤ d.version

/-- The slices mirror each other under a renaming that is the given one on the versions up to `top`,
which have been drawn. -/
def Mirrored (ren : UInt64 → UInt64) (top : UInt64) (key : κ) (c d : Cluster κ V) : Prop :=
  top ≤ d.version ∧ ∃ ren', (∀ v ≤ top, ren' v = ren v) ∧ Mirrors ren' key c d

/-- Renamings can be extended again and again. What else there is to say may be said on the way. -/
theorem Mirrored.andThen {ren : UInt64 → UInt64} {top : UInt64} {key : κ} {c c' d d' : Cluster κ V}
    {also : Prop} (h : Mirrored ren top key c d)
    (hnext : ∀ ren', Mirrors ren' key c d → Mirrored ren' d.version key c' d' ∧ also) :
    Mirrored ren top key c' d' ∧ also := by
  obtain ⟨hle, ren₁, hren₁, hmirrors⟩ := h
  obtain ⟨⟨hle', ren₂, hren₂, hmirrors₂⟩, halso⟩ := hnext ren₁ hmirrors
  refine ⟨⟨UInt64.le_trans hle hle', ren₂, fun v hv => ?_, hmirrors₂⟩, halso⟩
  rw [hren₂ v (UInt64.le_trans hv hle), hren₁ v hv]

theorem Mirrored.trans {ren : UInt64 → UInt64} {top : UInt64} {key : κ} {c c' d d' : Cluster κ V}
    (h : Mirrored ren top key c d)
    (hnext : ∀ ren', Mirrors ren' key c d → Mirrored ren' d.version key c' d') :
    Mirrored ren top key c' d' :=
  (h.andThen fun ren' hmirrors => ⟨hnext ren' hmirrors, trivial⟩).1

/-- The registered readers of a key are told by its primary. -/
theorem readersOf_eq (c : Cluster κ V) (key : κ) :
    c.readersOf key = ((c.readers? (c.affinity.primary key) key).getD ∅).toList.filter
      fun reader => reader ≠ c.affinity.primary key && reader ∉ c.affinity.backups key := by
  unfold readersOf readers?
  cases c.nodes[c.affinity.primary key]? with
  | none => rfl
  | some n => simp [Node.readersOf, ExtTreeMap.getD_eq_getD_getElem?]

/-- Who follows a key is told by the affinity and the registry of its primary. -/
theorem recipients_congr {c d : Cluster κ V} {key : κ} (haffinity : d.affinity = c.affinity)
    (hreaders : d.readers? (c.affinity.primary key) key = c.readers? (c.affinity.primary key) key)
    (target : Target) : d.recipients key target = c.recipients key target := by
  cases target with
  | owned => simp only [recipients, haffinity]
  | near => simp only [recipients, readersOf_eq, haffinity, hreaders]

omit [TransOrd κ] in
/-- Two steps that leave the layouts alone. -/
theorem SameLayout.both {c d c' d' : Cluster κ V} (h : SameLayout c d) (hc : SameLayout c c')
    (hd : SameLayout d d') : SameLayout c' d' :=
  ⟨hd.config.trans (h.config.trans hc.config.symm),
    hd.affinity.trans (h.affinity.trans hc.affinity.symm), hd.size.trans (h.size.trans hc.size.symm)⟩

omit [TransOrd κ] in
theorem SameLayout.primary_lt {c d : Cluster κ V} (h : SameLayout c d) {key : κ}
    (hprimary : c.affinity.primary key < c.nodes.length) :
    d.affinity.primary key < d.nodes.length := by
  rw [h.affinity, h.size]
  exact hprimary

namespace Mirrors

variable {ren ren' : UInt64 → UInt64} {key : κ} {c c' d d' : Cluster κ V}

theorem mirrored (h : Mirrors ren key c d) : Mirrored ren d.version key c d :=
  ⟨UInt64.le_refl _, ren, fun _ _ => rfl, h⟩

/-- A renaming that is the same on all versions drawn does as well. -/
theorem congr (h : Mirrors ren key c d) (hsame : ∀ v ≤ d.version, ren' v = ren v) :
    Mirrors ren' key c d where
  layout := h.layout
  renames := h.renames.congr hsame
  copies node target := by
    rw [h.copies]
    refine Option.map_congr fun entry hentry => ?_
    exact (Entry.rename_congr hsame (h.copies_le hentry)).symm
  inflight node target := by
    rw [h.inflight]
    exact List.map_congr_left fun u hu => (Update.rename_congr hsame (h.inflight_le hu)).symm
  readers := h.readers
  copies_le := h.copies_le
  inflight_le := h.inflight_le

/-- The first cluster may go on with other keys. -/
theorem left (h : Mirrors ren key c d) (hslice : SameSlice key c c') (hle : c.version ≤ c'.version) :
    Mirrors ren key c' d where
  layout := h.layout.both hslice.layout (SameLayout.refl d)
  renames := ⟨h.renames.increasing, fun hv => UInt64.le_trans (h.renames.within hv) hle,
    UInt64.le_trans h.renames.le hle⟩
  copies node target := (hslice.copies node target).trans (h.copies node target)
  inflight node target := (hslice.inflight node target).trans (h.inflight node target)
  readers node := (hslice.readers node).trans (h.readers node)
  copies_le := h.copies_le
  inflight_le := h.inflight_le

/-- The second cluster may go on with other keys as long as it draws no version. -/
theorem right (h : Mirrors ren key c d) (hslice : SameSlice key d d')
    (hversion : d'.version = d.version) : Mirrors ren key c d' where
  layout := h.layout.both (SameLayout.refl c) hslice.layout
  renames := hversion ▸ h.renames
  copies node target := by rw [hslice.copies, h.copies]
  inflight node target := by rw [hslice.inflight, h.inflight]
  readers node := by rw [hslice.readers, h.readers]
  copies_le hentry := by
    rw [hslice.copies] at hentry
    rw [hversion]
    exact h.copies_le hentry
  inflight_le hu := by
    rw [hslice.inflight] at hu
    rw [hversion]
    exact h.inflight_le hu

/-- Copies expire whatever their version is. -/
theorem any_expired (h : Mirrors ren key c d) (node : Nat) (target : Target) (now : Millis) :
    (c.copy? node target key).any (·.expiredAt now) =
      (d.copy? node target key).any (·.expiredAt now) := by
  rw [h.copies, Option.any_map]
  rfl

theorem stored? (h : Mirrors ren key c d) :
    c.stored? key = (d.stored? key).map (Entry.rename ren) := by
  rw [← copy?_primary, ← copy?_primary, h.layout.affinity]
  exact h.copies _ _

theorem recipients (h : Mirrors ren key c d) (target : Target) :
    c.recipients key target = d.recipients key target :=
  recipients_congr h.layout.affinity.symm (h.readers _) target

theorem nearReader (h : Mirrors ren key c d) (node : Nat) (other : κ) :
    c.nearReader node other = d.nearReader node other := by
  simp only [Cluster.nearReader, h.layout.config, h.layout.affinity]

variable [LawfulEqOrd κ]

theorem register (h : Mirrors ren key c d) (hprimary : c.affinity.primary key < c.nodes.length)
    (reader : Nat) : Mirrors ren key (c.register key reader) (d.register key reader) where
  layout := h.layout.both (SameLayout.modifyNode c _ _) (SameLayout.modifyNode d _ _)
  renames := h.renames
  copies node target := by rw [copy?_register, copy?_register, h.copies]
  inflight node target := by rw [inflight_register, inflight_register, h.inflight]
  readers node := by
    rw [readers?_register _ _ _ _ _ hprimary,
      readers?_register _ _ _ _ _ (h.layout.primary_lt hprimary), h.layout.affinity, h.readers]
  copies_le hentry := by
    rw [copy?_register] at hentry
    exact h.copies_le hentry
  inflight_le hu := by
    rw [inflight_register] at hu
    exact h.inflight_le hu

omit [LawfulEqOrd κ] in
/-- The copy on the primary is shipped to a reader. -/
theorem ship (h : Mirrors ren key c d) (hc : c.Running) (hd : d.Running) (node : Nat)
    {target : Target} {entry : Entry V} {awaited : Bool} (hentry : entry.version ≤ d.version) :
    Mirrors ren key (c.ship node { target, update := .put key (entry.rename ren), awaited })
      (d.ship node { target, update := .put key entry, awaited }) where
  layout := h.layout.both (SameLayout.ship c _ _) (SameLayout.ship d _ _)
  renames := h.renames
  copies other t := by rw [copy?_ship, copy?_ship, h.copies]
  inflight other t := by
    rw [inflight_ship hc, inflight_ship hd, List.map_append, h.inflight, h.layout.size,
      apply_ite (List.map (Update.rename ren))]
    rfl
  readers other := by rw [readers?_ship, readers?_ship, h.readers]
  copies_le hcopy := by
    rw [copy?_ship] at hcopy
    exact h.copies_le hcopy
  inflight_le hu := by
    rw [inflight_ship hd, List.mem_append] at hu
    rcases hu with hu | hu
    · exact h.inflight_le hu
    · split at hu
      · rw [List.mem_singleton.1 hu]
        exact hentry
      · cases hu

variable [Hashable κ]

/-- Each cluster draws its next version for a write of the key, and the one is renamed to the other. -/
theorem putPrimary (h : Mirrors ren key c d) (hc : c.Running) (hd : d.Running)
    (hprimary : c.affinity.primary key < c.nodes.length) (hroom : c.version.toNat + 1 < 2 ^ 64)
    (value : V) (ttl : Ttl) :
    Mirrors (Renames.andThen ren d.version (c.version + 1)) key (c.putPrimary key value ttl)
      (d.putPrimary key value ttl) := by
  have hprimary' := h.layout.primary_lt hprimary
  obtain ⟨hnext, hlast⟩ := h.renames.next hroom
  have hsame : Mirrors (Renames.andThen ren d.version (c.version + 1)) key c d :=
    h.congr fun v hv => Renames.andThen_of_le hv
  have hle : d.version ≤ d.version + 1 := by
    have hroom' := UInt64.le_iff_toNat_le.1 h.renames.le
    rw [UInt64.le_iff_toNat_le, toNat_next (by omega)]
    omega
  refine ⟨h.layout.both (sameLayout_putPrimary c key value ttl) (sameLayout_putPrimary d key value ttl),
    ?_, ?_, ?_, ?_, ?_, ?_⟩
  · rw [version_putPrimary, version_putPrimary]
    exact hnext
  · intro node target
    rw [copy?_putPrimary _ _ _ _ _ _ _ hprimary, copy?_putPrimary _ _ _ _ _ _ _ hprimary',
      h.layout.affinity]
    split
    · simp only [Option.map_some, Entry.rename, hlast]
    · exact hsame.copies node target
  · intro node target
    rw [inflight_putPrimary hc, inflight_putPrimary hd, List.map_append, hsame.inflight,
      h.layout.size, h.recipients]
    split
    · rw [List.map_replicate]
      simp only [Update.rename, Entry.rename, hlast]
    · rfl
  · intro node
    rw [readers?_putPrimary, readers?_putPrimary, h.readers]
  · intro node target entry hentry
    rw [copy?_putPrimary _ _ _ _ _ _ _ hprimary'] at hentry
    rw [version_putPrimary]
    split at hentry
    · cases hentry
      exact UInt64.le_refl _
    · exact UInt64.le_trans (h.copies_le hentry) hle
  · intro node target u hu
    rw [inflight_putPrimary hd, List.mem_append] at hu
    rw [version_putPrimary]
    rcases hu with hu | hu
    · exact UInt64.le_trans (h.inflight_le hu) hle
    · split at hu
      · rw [List.eq_of_mem_replicate hu]
        exact UInt64.le_refl _
      · cases hu

theorem removePrimary (h : Mirrors ren key c d) (hc : c.Running) (hd : d.Running)
    (hprimary : c.affinity.primary key < c.nodes.length) {version : UInt64}
    (hversion : version ≤ d.version) (event : StoreEvent) (awaited : Bool) :
    Mirrors ren key (c.removePrimary key (ren version) event awaited)
      (d.removePrimary key version event awaited) := by
  have hprimary' := h.layout.primary_lt hprimary
  refine ⟨h.layout.both (sameLayout_removePrimary c key _ event awaited)
    (sameLayout_removePrimary d key _ event awaited), ?_, ?_, ?_, ?_, ?_, ?_⟩
  · rw [version_removePrimary, version_removePrimary]
    exact h.renames
  · intro node target
    rw [copy?_removePrimary _ _ _ _ _ _ _ _ hprimary, copy?_removePrimary _ _ _ _ _ _ _ _ hprimary',
      h.layout.affinity]
    split
    · rfl
    · exact h.copies node target
  · intro node target
    rw [inflight_removePrimary hc, inflight_removePrimary hd, List.map_append, h.inflight,
      h.layout.size, h.recipients]
    split
    · rw [List.map_replicate]
      rfl
    · rfl
  · intro node
    rw [readers?_removePrimary, readers?_removePrimary, h.readers, h.layout.affinity]
  · intro node target entry hentry
    rw [copy?_removePrimary _ _ _ _ _ _ _ _ hprimary'] at hentry
    rw [version_removePrimary]
    split at hentry
    · cases hentry
    · exact h.copies_le hentry
  · intro node target u hu
    rw [inflight_removePrimary hd, List.mem_append] at hu
    rw [version_removePrimary]
    rcases hu with hu | hu
    · exact h.inflight_le hu
    · split at hu
      · rw [List.eq_of_mem_replicate hu]
        exact hversion
      · cases hu

omit [LawfulEqOrd κ] in
/-- The copy of the key is dropped in both. -/
theorem drop (h : Mirrors ren key c d) (node : Nat) (target : Target) (event : StoreEvent) :
    Mirrors ren key
      (c.modifyNode node fun n =>
        n.withStore target (((n.store target).write key .remove).record event))
      (d.modifyNode node fun n =>
        n.withStore target (((n.store target).write key .remove).record event)) where
  layout := h.layout.both (SameLayout.modifyNode c _ _) (SameLayout.modifyNode d _ _)
  renames := h.renames
  copies other t := by
    rw [copy?_dropped, copy?_dropped, h.copies]
    split <;> rfl
  inflight other t := by
    rw [inflight_modifyNode _ _ _ _ _ fun n => n.inbox_withStore target _,
      inflight_modifyNode _ _ _ _ _ fun n => n.inbox_withStore target _, h.inflight]
  readers other := by
    rw [readers?_modifyNode _ _ _ _ fun n => by cases target <;> rfl,
      readers?_modifyNode _ _ _ _ fun n => by cases target <;> rfl, h.readers]
  copies_le hcopy := by
    rw [copy?_dropped] at hcopy
    split at hcopy
    · cases hcopy
    · exact h.copies_le hcopy
  inflight_le hu := by
    rw [inflight_modifyNode _ _ _ _ _ fun n => n.inbox_withStore target _] at hu
    exact h.inflight_le hu

/-- The change that concerns the key is made in both. A write is given the next version of each. -/
theorem change (h : Mirrors ren key c d) (hc : c.Orderly) (hd : d.Orderly) {x : Change κ V}
    (hx : x.concerns key = true) (hroom : c.version.toNat + x.draws.toNat < 2 ^ 64) :
    Mirrored ren d.version key (c.change x) (d.change x) := by
  have hroom' : d.version.toNat + x.draws.toNat < 2 ^ 64 := by
    have hle := UInt64.le_iff_toNat_le.1 h.renames.le
    omega
  have hprimary := hc.primary_lt key
  refine ⟨version_le_change hroom', ?_⟩
  cases x with
  | count | note | deliver => cases hx
  | write other via value ttl =>
      obtain rfl : other = key := by simpa [Change.concerns] using hx
      have hvia : via.bind (c.nearReader · other) = via.bind (d.nearReader · other) := by
        congr 1
        funext node
        exact h.nearReader node other
      refine ⟨Renames.andThen ren d.version (c.version + 1), fun v hv => Renames.andThen_of_le hv, ?_⟩
      simp only [Cluster.change]
      rw [hvia]
      cases via.bind (d.nearReader · other) with
      | none => exact h.putPrimary hc.running hd.running hprimary hroom value ttl
      | some reader =>
          have hsize : (c.register other reader).nodes.length = c.nodes.length :=
            (SameLayout.modifyNode c _ _).size
          exact (h.register hprimary reader).putPrimary (hc.running.register other reader)
            (hd.running.register other reader) (hsize ▸ hprimary) hroom value ttl
  | remove other event awaited =>
      obtain rfl : other = key := by simpa [Change.concerns] using hx
      simp only [Cluster.change]
      rw [h.stored?]
      cases hstored : d.stored? other with
      | none => exact ⟨ren, fun _ _ => rfl, h⟩
      | some entry =>
          rw [← copy?_primary] at hstored
          exact ⟨ren, fun _ _ => rfl, h.removePrimary hc.running hd.running hprimary
            (h.copies_le hstored) event awaited⟩
  | share other via =>
      obtain rfl : other = key := by simpa [Change.concerns] using hx
      simp only [Cluster.change]
      rw [h.stored?, h.nearReader, h.layout.config]
      cases hstored : d.stored? other with
      | none => exact ⟨ren, fun _ _ => rfl, h⟩
      | some entry =>
          cases d.nearReader via other with
          | none => exact ⟨ren, fun _ _ => rfl, h⟩
          | some reader =>
              rw [← copy?_primary] at hstored
              exact ⟨ren, fun _ _ => rfl, (h.register hprimary reader).ship
                (hc.running.register other reader) (hd.running.register other reader) reader
                (h.copies_le hstored)⟩
  | drop node target other event now =>
      obtain rfl : other = key := by simpa [Change.concerns] using hx
      simp only [Cluster.change]
      rw [h.any_expired, h.layout.affinity]
      split
      · exact ⟨ren, fun _ _ => rfl, h.drop node target event⟩
      · exact ⟨ren, fun _ _ => rfl, h⟩

/-- The second cluster may go on for other keys as long as it draws no version. -/
theorem right_follow (h : Mirrors ren key c d) (hd : d.Orderly) (others : List (Change κ V))
    (hothers : ∀ x ∈ others, x.concerns key = false)
    (hdelivery : ∀ x ∈ others, x.isDelivery = false) (hdraws : ∀ x ∈ others, x.draws = false) :
    Mirrors ren key c (d.follow others) ∧ (d.follow others).version = d.version := by
  have hversion : (d.follow others).version = d.version := by
    refine follow_induction (motive := fun e => e.version = d.version) others ?_ d rfl
    intro e x hx he
    rw [version_change, hdraws x hx, if_neg Bool.false_ne_true, he]
  exact ⟨h.right (SameSlice.follow hd others hothers hdelivery) hversion, hversion⟩

/-- Two traces that are the same as far as the key is concerned. The second draws versions for no other
key. -/
theorem follow (trace : List (Change κ V)) {trace' : List (Change κ V)} (h : Mirrors ren key c d)
    (hc : c.Orderly) (hd : d.Orderly)
    (hsame : trace.filter (·.concerns key) = trace'.filter (·.concerns key))
    (hdelivery : ∀ x ∈ trace, x.isDelivery = false) (hdelivery' : ∀ x ∈ trace', x.isDelivery = false)
    (hdraws : ∀ x ∈ trace', x.concerns key = false → x.draws = false)
    (hroom : c.version.toNat + trace.countP (·.draws) < 2 ^ 64) :
    Mirrored ren d.version key (c.follow trace) (d.follow trace') := by
  induction trace generalizing trace' c d ren with
  | nil =>
      have hothers : ∀ x ∈ trace', x.concerns key = false := by
        simpa [List.filter_eq_nil_iff] using hsame.symm
      obtain ⟨hmirrors, hversion⟩ := h.right_follow hd trace' hothers hdelivery'
        fun x hx => hdraws x hx (hothers x hx)
      exact hversion ▸ hmirrors.mirrored
  | cons x rest ih =>
      have hrest : ∀ y ∈ rest, y.isDelivery = false :=
        fun y hy => hdelivery y (List.mem_cons_of_mem x hy)
      rw [countP_draws_cons] at hroom
      have hversion : (c.change x).version.toNat = c.version.toNat + x.draws.toNat :=
        version_change_toNat (by omega)
      cases hx : x.concerns key with
      | false =>
          have hslice := SameSlice.change hc hx (hdelivery x List.mem_cons_self)
          rw [List.filter_cons_of_neg (by simp [hx])] at hsame
          exact ih (h.left hslice (version_le_change (by omega))) (hc.change x) hd hsame hrest
            hdelivery' hdraws (by omega)
      | true =>
          -- What the second does for other keys before this change is done first.
          rw [List.filter_cons_of_pos hx] at hsame
          obtain ⟨others, more, rfl, hothers, -, hmore⟩ := List.filter_eq_cons_iff.1 hsame.symm
          have hothers : ∀ y ∈ others, y.concerns key = false := by simpa using hothers
          have hmem : ∀ y ∈ more, y ∈ others ++ x :: more :=
            fun y hy => List.mem_append_right _ (List.mem_cons_of_mem x hy)
          obtain ⟨hbefore, hsameVersion⟩ := h.right_follow hd others hothers
            (fun y hy => hdelivery' y (List.mem_append_left _ hy))
            fun y hy => hdraws y (List.mem_append_left _ hy) (hothers y hy)
          rw [follow_append, ← hsameVersion]
          refine (hbefore.change hc (hd.follow others) hx (by omega)).trans fun ren' hchanged => ?_
          exact ih hchanged (hc.change x) ((hd.follow others).change x) hmore.symm hrest
            (fun y hy => hdelivery' y (hmem y hy)) (fun y hy => hdraws y (hmem y hy)) (by omega)

/-- When everything has been delivered the slices still mirror each other. -/
theorem settle (h : Mirrors ren key c d) (hc : c.Running) (hd : d.Running) :
    Mirrors ren key c.settle d.settle := by
  have hfinal := fun node target => Update.foldl_onto_rename h.renames (d.inflight node target key)
    (fun _ hu => h.inflight_le hu) (d.copy? node target key) fun _ hentry => h.copies_le hentry
  refine ⟨h.layout.both (sameLayout_settle hc) (sameLayout_settle hd), h.renames, ?_, ?_, ?_, ?_, ?_⟩
  · intro node target
    rw [copy?_settle hc, copy?_settle hd, final?, final?, h.inflight, h.copies]
    exact (hfinal node target).1
  · intro node target
    rw [inflight_of_quiet (quiet_settle hc), inflight_of_quiet (quiet_settle hd)]
    rfl
  · intro node
    rw [readers?_settle hc, readers?_settle hd, h.readers]
  · intro node target entry hentry
    rw [copy?_settle hd] at hentry
    exact (hfinal node target).2 entry hentry
  · intro node target u hu
    rw [inflight_of_quiet (quiet_settle hd)] at hu
    cases hu

end Mirrors

end Cluster

end Ephemera
