import Ephemera.Proofs.View

/-! # What is visible

What clients can see of a cluster is what the primaries hold and has not expired. An operation on a
primary does to it what its plan says. Reads that leave lifetimes alone and sweeps do nothing to it:
they only make copies go that have expired.
-/

namespace Ephemera

open Std

universe u v w

namespace Effect

variable {V : Type v}

/-- What the primary holds of the key after an effect. -/
def kept (stored : Option (V × Ttl)) : Effect V → Option (V × Ttl)
  | write value ttl => some (value, ttl)
  | drop _ | remove _ => none
  | share _ | nothing => stored

/-- A primary drops an expired copy that it comes across, which nobody can see. -/
theorem filter_kept_ofPlan (stored : Option (Entry V)) (p : Plan V) (now : Millis) :
    ((ofPlan stored (stored.filter (!·.expiredAt now)) p).kept (stored.map (·.content))).filter
        (fun pair => !pair.2.expiredAt now) =
      (p.outcome ((stored.filter (!·.expiredAt now)).map (·.content))).filter
        fun pair => !pair.2.expiredAt now := by
  cases stored with
  | none => cases p <;> rfl
  | some entry =>
      by_cases hexpired : entry.expiredAt now
      · have hlive : (some entry).filter (!·.expiredAt now) = none := by simp [hexpired]
        rw [hlive]
        cases p <;> rfl
      · have hlive : (some entry).filter (!·.expiredAt now) = some entry := by simp [hexpired]
        rw [hlive]
        cases p <;> rfl

end Effect

namespace Cluster

variable {κ : Type u} {V : Type v} {ρ : Type w} [Ord κ] [TransOrd κ] [LawfulEqOrd κ] [Hashable κ]

/-! ## What primaries hold -/

theorem stored?_putPrimary (c : Cluster κ V) (key : κ) (value : V) (ttl : Ttl) (other : κ)
    (hprimary : c.affinity.primary key < c.nodes.length) :
    (c.putPrimary key value ttl).stored? other =
      if compare key other = .eq then some { value, version := c.version + 1, ttl }
      else c.stored? other := by
  rw [← copy?_primary, (sameLayout_putPrimary c key value ttl).affinity,
    copy?_putPrimary _ _ _ _ _ _ _ hprimary]
  by_cases hkey : compare key other = .eq
  · obtain rfl : key = other := by simpa using hkey
    simp
  · rw [if_neg (fun hslot => hkey hslot.2.2), if_neg hkey, copy?_primary]

theorem stored?_removePrimary (c : Cluster κ V) (key : κ) (version : UInt64) (event : StoreEvent)
    (awaited : Bool) (other : κ) (hprimary : c.affinity.primary key < c.nodes.length) :
    (c.removePrimary key version event awaited).stored? other =
      if compare key other = .eq then none else c.stored? other := by
  rw [← copy?_primary, (sameLayout_removePrimary c key version event awaited).affinity,
    copy?_removePrimary _ _ _ _ _ _ _ _ hprimary]
  by_cases hkey : compare key other = .eq
  · obtain rfl : key = other := by simpa using hkey
    simp
  · rw [if_neg (fun hslot => hkey hslot.2.2), if_neg hkey, copy?_primary]

omit [LawfulEqOrd κ] [Hashable κ] in
theorem stored?_register (c : Cluster κ V) (key : κ) (reader : Nat) (other : κ) :
    (c.register key reader).stored? other = c.stored? other :=
  c.copy?_register key reader (c.affinity.primary other) .owned other

theorem stored?_apply (c : Cluster κ V) (key : κ) (reader : Option Nat) (effect : Effect V)
    (other : κ) (hprimary : c.affinity.primary key < c.nodes.length) :
    ((c.apply key reader effect).stored? other).map (·.content) =
      if compare key other = .eq then effect.kept ((c.stored? key).map (·.content))
      else (c.stored? other).map (·.content) := by
  have hsame : (c.stored? other).map (·.content) =
      if compare key other = .eq then (c.stored? key).map (·.content)
      else (c.stored? other).map (·.content) := by
    split
    next hkey =>
      obtain rfl : key = other := by simpa using hkey
      rfl
    next => rfl
  cases effect with
  | write value ttl =>
      have hreader := SameHoldings.elim_register c key reader
      simp only [apply]
      rw [stored?_putPrimary _ _ _ _ _
        (by rw [hreader.layout.affinity, hreader.layout.size]; exact hprimary), hreader.stored?]
      split <;> rfl
  | drop version | remove version =>
      simp only [apply, stored?_removePrimary _ _ _ _ _ _ hprimary]
      split <;> rfl
  | share entry =>
      cases reader with
      | none => exact hsame
      | some reader =>
          have hshared : ((c.register key reader).ship reader
              { target := .near, update := .put key entry, awaited := c.config.synchronous }).stored?
                other = c.stored? other := by
            rw [← stored?_register c key reader other]
            exact (c.register key reader).copy?_ship reader (c.affinity.primary other) _ .owned other
          simp only [apply, hshared]
          exact hsame
  | nothing => exact hsame

omit [LawfulEqOrd κ] [Hashable κ] in
theorem live?_content (c : Cluster κ V) (key : κ) (now : Millis) :
    (c.live? key now).map (·.content) =
      ((c.stored? key).map (·.content)).filter fun pair => !pair.2.expiredAt now := by
  rw [Option.filter_map]
  rfl

/-- After an operation on a primary, what is visible of its key is what the plan says, unless that
has expired already. Nothing becomes of other keys. -/
theorem live?_execute (c : Cluster κ V) (key : κ) (policy : Policy) (reader : Option Nat)
    (now : Millis) (decide : Decision V ρ) (other : κ)
    (hprimary : c.affinity.primary key < c.nodes.length) :
    ((c.execute key policy reader now decide).1.live? other now).map (·.content) =
      if compare key other = .eq then
        ((plan ((c.live? key now).map (·.content)) (decide ((c.live? key now).map (·.value))).1
          policy now).outcome ((c.live? key now).map (·.content))).filter
            fun pair => !pair.2.expiredAt now
      else (c.live? other now).map (·.content) := by
  have hcounted : ∀ event, (c.recordPrimary key event).stored? = c.stored? :=
    fun event => funext fun k => c.stored?_recordPrimary key k event
  have happly : ∃ d : Cluster κ V, d.stored? = c.stored? ∧ d.affinity = c.affinity ∧
      d.nodes.length = c.nodes.length ∧
      (c.execute key policy reader now decide).1 = d.apply key reader
        (c.effect policy now key (decide ((c.live? key now).map (·.value))).1) := by
    cases hintent : (decide ((c.live? key now).map (·.value))).1 with
    | read =>
        let event : StoreEvent := if (c.live? key now).isSome then .hit else .miss
        refine ⟨c.recordPrimary key event, hcounted _, rfl, (SameLayout.modifyNode c _ _).size, ?_⟩
        simp only [execute, effect, hintent, event]
    | write | remove | ignore =>
        refine ⟨c, rfl, rfl, rfl, ?_⟩
        simp only [execute, effect, hintent]
  obtain ⟨d, hstored, haffinity, hsize, heq⟩ := happly
  rw [heq, live?_content, stored?_apply _ _ _ _ _ (by rw [haffinity, hsize]; exact hprimary),
    hstored]
  split
  next => exact Effect.filter_kept_ofPlan ..
  next => exact (c.live?_content other now).symm

/-! ## Copies that fade -/

/-- What a reading of the clock makes of a cluster without anyone seeing it: copies that have expired
may be gone. -/
structure Fades (now : Millis) (c d : Cluster κ V) : Prop where
  layout : SameLayout c d
  live : ∀ key, d.live? key now = c.live? key now
  copies : ∀ node target key, c.affinity.IsReplica node target key →
    d.copy? node target key = c.copy? node target key ∨ d.copy? node target key = none

namespace Fades

omit [LawfulEqOrd κ] [Hashable κ]

variable {now : Millis} {c d e : Cluster κ V}

theorem refl (now : Millis) (c : Cluster κ V) : Fades now c c :=
  ⟨SameLayout.refl c, fun _ => rfl, fun _ _ _ _ => .inl rfl⟩

theorem trans (h : Fades now c d) (h' : Fades now d e) : Fades now c e := by
  refine ⟨h.layout.trans h'.layout, fun key => (h'.live key).trans (h.live key), ?_⟩
  intro node target key hreplica
  rcases h'.copies node target key (h.layout.affinity ▸ hreplica) with hsame | hnone
  · rw [hsame]
    exact h.copies node target key hreplica
  · exact .inr hnone

theorem of_same (hlayout : SameLayout c d)
    (hcopy : ∀ node target key, d.copy? node target key = c.copy? node target key) :
    Fades now c d := by
  refine ⟨hlayout, fun key => ?_, fun node target key _ => .inl (hcopy node target key)⟩
  rw [live?, ← copy?_primary, hcopy, hlayout.affinity, copy?_primary]
  rfl

end Fades

omit [LawfulEqOrd κ] in
theorem fades_note (c : Cluster κ V) (now : Millis) (node : Nat) (target : Target)
    (event : StoreEvent) : Fades now c (c.change (.note node target event)) := by
  exact Fades.of_same (SameLayout.modifyNode c _ _) (c.copy?_note node target event)

omit [LawfulEqOrd κ] in
theorem fades_share (c : Cluster κ V) (now : Millis) (key : κ) (via : Nat) :
    Fades now c (c.change (.share key via)) := by
  refine Fades.of_same (sameLayout_change c (.share key via)) fun node target other => ?_
  simp only [change]
  split
  · rw [copy?_ship, copy?_register]
  · rfl

/-- A replica may drop what has expired. -/
theorem fades_drop (c : Cluster κ V) (now : Millis) (node : Nat) (target : Target) (key : κ)
    (event : StoreEvent) : Fades now c (c.change (.drop node target key event now)) := by
  refine ⟨sameLayout_change c _, fun other => ?_, fun other t k _ => ?_⟩
  · simp only [live?, c.stored?_drop node target key event now other]
  · exact c.copy?_drop node target key event now other t k

/-- A primary may drop what has expired. -/
theorem fades_remove (c : Cluster κ V) {now : Millis} {key : κ} {entry : Entry V}
    (hprimary : c.affinity.primary key < c.nodes.length) (hentry : c.stored? key = some entry)
    (hexpired : entry.expiredAt now) (event : StoreEvent) (awaited : Bool) :
    Fades now c (c.change (.remove key event awaited)) := by
  simp only [change, hentry]
  refine ⟨sameLayout_removePrimary c key _ event awaited, fun other => ?_, fun node target other _ => ?_⟩
  · simp only [live?, stored?_removePrimary _ _ _ _ _ _ hprimary]
    by_cases hkey : compare key other = .eq
    · obtain rfl : key = other := by simpa using hkey
      rw [if_pos hkey, hentry, Option.filter_some_neg (by simp [hexpired])]
      rfl
    · rw [if_neg hkey]
  · rw [copy?_removePrimary _ _ _ _ _ _ _ _ hprimary]
    split
    · exact .inr rfl
    · exact .inl rfl

/-- A read that leaves lifetimes alone only makes what has expired fade. -/
theorem fades_get (c : Cluster κ V) {policy : Policy} (hpolicy : policy.on .access = none)
    (via : Option Nat) (now : Millis) (key : κ)
    (hprimary : c.affinity.primary key < c.nodes.length)
    (hplain : ∀ entry, c.live? key now = some entry → entry.ttl.deleted = false) :
    Fades now c (c.follow (c.touchTrace policy via now key (.get : Decision V (Option V)))) := by
  have hcount : Fades now c (c.recordPrimary key (if (c.live? key now).isSome then .hit else .miss)) :=
    Fades.of_same (SameLayout.modifyNode c _ _) (c.copy?_recordPrimary key _)
  have hunchanged : plan ((c.live? key now).map (·.content)) .read policy now = .unchanged := by
    cases hlive : c.live? key now with
    | none => rfl
    | some entry =>
        have hkeeps : ({ entry.ttl with deleted := false } : Ttl) = entry.ttl := by
          rw [← hplain entry hlive]
        simp [plan, Entry.content, Ttl.touch, hpolicy, hkeeps]
  have heffect : c.effect policy now key .read =
      .ofPlan (c.stored? key) (c.live? key now) .unchanged := by
    rw [effect, hunchanged]
  generalize hd : c.recordPrimary key (if (c.live? key now).isSome then .hit else .miss) = d at hcount ⊢
  have htrace : c.follow (c.touchTrace policy via now key (.get : Decision V (Option V))) =
      d.follow ((c.effect policy now key .read).trace key via c.config.synchronous) := by
    rw [← hd]
    rfl
  rw [htrace, heffect]
  refine hcount.trans ?_
  have hstored : d.stored? key = c.stored? key := by
    rw [← hd]
    exact c.stored?_recordPrimary key key _
  have hprimary' : d.affinity.primary key < d.nodes.length := by
    rw [hcount.layout.affinity, hcount.layout.size]
    exact hprimary
  cases hlive : c.live? key now with
  | some entry =>
      cases via with
      | none => exact Fades.refl now d
      | some node => exact fades_share d now key node
  | none =>
      cases hentry : c.stored? key with
      | none => exact Fades.refl now d
      | some entry =>
          have hexpired : entry.expiredAt now := by
            rw [live?, hentry, Option.filter_eq_none_iff] at hlive
            simpa using hlive entry rfl
          exact d.fades_remove hprimary' (hstored.trans hentry) hexpired _ _

theorem fades_readLocal (c : Cluster κ V) (node : Nat) (key : κ) (now : Millis) :
    Fades now c (c.readLocal node key now).1 := by
  have hlook : ∀ target, Fades now c (c.follow (c.lookTrace node target key now)) := by
    intro target
    unfold lookTrace
    split
    next => exact c.fades_note now node target .miss
    next =>
      split
      · exact (c.fades_drop now node target key .expired).trans (fades_note _ now node target .miss)
      · exact c.fades_note now node target .hit
  rw [readLocal_fst]
  unfold readLocalTrace
  split
  · exact Fades.refl now c
  · exact hlook .owned
  · split
    · exact hlook .near
    · exact Fades.refl now c

theorem fades_sweepFrom (node : Nat) (target : Target) (now : Millis) (fuel : Nat) (scan : Scan κ)
    (c : Cluster κ V) (hprimary : ∀ key, c.affinity.primary key < c.nodes.length) :
    Fades now c (c.follow (sweepFromTrace node target now fuel scan c)) := by
  induction fuel generalizing scan c with
  | zero => exact Fades.refl now c
  | succ fuel ih =>
      unfold sweepFromTrace
      split
      · exact Fades.refl now c
      · exact Fades.refl now c
      next d scan' _ =>
        rw [follow_append]
        have hreclaim : Fades now c (c.follow (c.reclaimTrace node target d now)) := by
          unfold reclaimTrace
          split
          next hlisted =>
            split
            next hslot =>
              obtain ⟨rfl, rfl⟩ := hslot
              obtain ⟨entry, hentry, hexpired⟩ := (Option.any_eq_true _ _).1 hlisted
              exact c.fades_remove (hprimary d.key) hentry (Bool.and_eq_true_iff.1 hexpired).2 _ _
            next => exact c.fades_drop now node target d.key .swept
          next => exact Fades.refl now c
        refine hreclaim.trans (ih scan' _ fun key => ?_)
        rw [hreclaim.layout.affinity, hreclaim.layout.size]
        exact hprimary key

/-- A sweep only makes what has expired fade. -/
theorem fades_sweep (c : Cluster κ V) (node : Nat) (now : Millis)
    (hprimary : ∀ key, c.affinity.primary key < c.nodes.length) :
    Fades now c (c.sweep node now).1 := by
  rw [sweep_fst]
  unfold sweepTrace
  rw [follow_append]
  have howned := fades_sweepFrom node .owned now
    (((c.index? node .owned).map Index.size).getD 0) { now } c hprimary
  refine howned.trans (fades_sweepFrom node .near now _ { now } _ fun key => ?_)
  rw [howned.layout.affinity, howned.layout.size]
  exact hprimary key

end Cluster

end Ephemera
