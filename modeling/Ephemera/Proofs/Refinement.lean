import Mathlib
import Ephemera.Proofs.Deadlines
import Ephemera.Proofs.Postpone
import Ephemera.Proofs.Reference
import Ephemera.Proofs.Visible

/-! # Refinement of the reference cache

A client of a cluster whose messages are delivered between its operations cannot tell it from the
reference cache. On primaries this is a matter of the plan. What a node answers itself, as a backup or
near reader, is right because its live copies are those of the primary.
-/

namespace Ephemera

open Std

universe u v w

/-- Whether the reference has an answer to an operation called through a node: it knows nothing of the
copies that nodes hold of keys they do not own, or of lifetimes past their end. -/
def Operation.Referable {κ : Type u} {V : Type v} (a : Affinity κ) (node : Nat) :
    Operation κ V → Prop
  | .localPeek key => a.isOwner node key
  | .peekTtl _ => False
  | _ => True

/-- Whether a move is such an operation through a node of the cluster, or one that the reference takes
no notice of, or one of the clock. -/
def Move.Referable {κ : Type u} {V : Type v} (a : Affinity κ) : Move κ V → Prop
  | .call node _ operation => node < a.nodes ∧ operation.Referable a node
  | .sweep _ | .deliver _ | .setClock _ => True
  | _ => False

/-- The answer of an operation, if that is what the move was. -/
def Outcome.answer? {κ : Type u} {V : Type v} [Ord κ] : Outcome κ V → Option (Answer κ V)
  | .answer given => some given
  | _ => none

namespace Cluster

variable {κ : Type u} {V : Type v} {ρ : Type w} [Ord κ] [TransOrd κ]

/-- The reference has what is visible of the cluster. -/
structure Shows (now : Millis) (c : Cluster κ V) (r : Reference κ V) : Prop where
  plain : r.Plain
  housed : ∀ key, c.affinity.primary key < c.nodes.length
  visible : ∀ key, (c.live? key now).map (·.content) = r.visible? key now

/-- The live copies of replicas are those of the primaries. -/
def Fresh (now : Millis) (c : Cluster κ V) : Prop :=
  ∀ node target key entry, c.affinity.IsReplica node target key →
    c.copy? node target key = some entry → entry.expiredAt now = false → c.stored? key = some entry

section Fading

variable {now : Millis} {c d : Cluster κ V} {r : Reference κ V}

theorem live?_of_stored? {key : κ} {entry : Entry V} (h : c.stored? key = some entry)
    (hlive : entry.expiredAt now = false) : c.live? key now = some entry := by
  rw [live?, h, Option.filter_some_pos (by simp [hlive])]

theorem Fresh.fades (h : Fresh now c) (hfades : Fades now c d) : Fresh now d := by
  intro node target key entry hreplica hcopy hlive
  rw [hfades.layout.affinity] at hreplica
  rcases hfades.copies node target key hreplica with hsame | hnone
  · have hstored := h node target key entry hreplica (hsame ▸ hcopy) hlive
    have hafter : d.live? key now = some entry := by
      rw [hfades.live key]
      exact live?_of_stored? hstored hlive
    exact stored?_of_live? hafter
  · rw [hnone] at hcopy
    cases hcopy

theorem Shows.fades (h : Shows now c r) (hfades : Fades now c d) : Shows now d r := by
  refine ⟨h.plain, fun key => ?_, fun key => ?_⟩
  · rw [hfades.layout.affinity, hfades.layout.size]
    exact h.housed key
  · rw [hfades.live]
    exact h.visible key

/-- What is shown now is shown at any later reading of the clock. -/
theorem Shows.later (h : Shows now c r) {later : Millis} (hlater : now ≤ later) :
    Shows later c r := by
  refine ⟨h.plain, h.housed, fun key => ?_⟩
  have hexpired : ∀ t : Ttl, t.expiredAt now → t.expiredAt later := by
    intro t ht
    obtain ⟨hlimit, hle⟩ := (t.expiredAt_iff now).1 ht
    exact (t.expiredAt_iff later).2 ⟨hlimit, UInt64.le_trans hle hlater⟩
  -- Filtering at the later reading comes to the same after filtering at the earlier one.
  have hfilter : ∀ o : Option (V × Ttl), o.filter (fun pair => !pair.2.expiredAt later) =
      (o.filter fun pair => !pair.2.expiredAt now).filter fun pair => !pair.2.expiredAt later := by
    intro o
    rw [Option.filter_filter]
    congr 1
    funext pair
    cases hnow : pair.2.expiredAt now with
    | false => simp
    | true => simp [hexpired pair.2 hnow]
  rw [live?_content, hfilter, ← live?_content, h.visible, Reference.visible?_eq, ← hfilter,
    ← Reference.visible?_eq]

theorem Shows.value (h : Shows now c r) (key : κ) :
    (c.live? key now).map (·.value) = (r.visible? key now).map (·.1) := by
  rw [← h.visible, Option.map_map]
  rfl

end Fading

/-! ## Operations on primaries -/

variable [LawfulEqOrd κ] [Hashable κ]

section Primary

variable {now : Millis} {c : Cluster κ V} {r : Reference κ V}

/-- An operation on a primary gives the result that the reference gives, and shows the same
afterwards. -/
theorem Shows.execute (h : Shows now c r) (key : κ) (policy : Policy) (reader : Option Nat)
    (decide : Decision V ρ) :
    (c.execute key policy reader now decide).2 = (r.run policy now key decide).2 ∧
      Shows now (c.execute key policy reader now decide).1 (r.run policy now key decide).1 := by
  have hvalue := h.value key
  refine ⟨?_, Reference.plain_touch h.plain _ _ _ _, ?_, ?_⟩
  · simp only [Cluster.execute, Reference.run, hvalue]
  · intro other
    have hlayout := sameLayout_execute c key policy reader now decide
    rw [hlayout.affinity, hlayout.size]
    exact h.housed other
  · intro other
    rw [live?_execute _ _ _ _ _ _ _ (h.housed key), h.visible, h.visible, hvalue]
    exact (Reference.visible?_touch h.plain policy now key other _).symm

theorem Shows.executeAll (policy : Policy) (reader : κ → Option Nat)
    (decisions : List (κ × Decision V ρ)) {c : Cluster κ V} {r : Reference κ V}
    (h : Shows now c r) :
    (executeAll policy reader now decisions c).2 = (Reference.runAll policy now decisions r).2 ∧
      Shows now (executeAll policy reader now decisions c).1
        (Reference.runAll policy now decisions r).1 := by
  induction decisions generalizing c r with
  | nil => exact ⟨rfl, h⟩
  | cons head rest ih =>
      obtain ⟨key, decide⟩ := head
      obtain ⟨hresult, hshows⟩ := h.execute key policy (reader key) decide
      obtain ⟨hresults, hrest⟩ := ih hshows
      exact ⟨by simp only [Cluster.executeAll, Reference.runAll, hresult, hresults], hrest⟩

end Primary

/-! ## Reads that a node answers itself -/

omit [LawfulEqOrd κ] in
/-- What a node finds in its own stores is a live copy of a replica. -/
theorem readLocal_eq_some {c d : Cluster κ V} {node : Nat} {key : κ} {now : Millis}
    {entry : Entry V} (h : c.readLocal node key now = (d, some entry)) :
    ∃ target, c.affinity.IsReplica node target key ∧ c.copy? node target key = some entry ∧
      entry.expiredAt now = false := by
  have hstore : ∀ target, (c.readStore node target key now).2 = some entry →
      c.copy? node target key = some entry ∧ entry.expiredAt now = false := by
    intro target hread
    cases hn : c.nodes[node]? with
    | none => simp [readStore, hn] at hread
    | some n =>
        rw [copy?_of_some hn]
        simp only [readStore, hn, Store.read] at hread
        split at hread
        next => cases hread
        next found hfound =>
          split at hread
          next => cases hread
          next hlive =>
            cases hread
            exact ⟨hfound, by simpa using hlive⟩
  unfold readLocal at h
  split at h
  next => cases h
  next hrole =>
    refine ⟨.owned, ?_, hstore .owned (congrArg Prod.snd h)⟩
    rintro ⟨-, hprimary⟩
    rw [(c.affinity.role_eq_primary_iff node key).2 hprimary] at hrole
    cases hrole
  next =>
    split at h
    next => exact ⟨.near, by simp [Affinity.IsReplica], hstore .near (congrArg Prod.snd h)⟩
    next => cases h

section Local

variable {c : Cluster κ V} {r : Reference κ V} {call : Call}

/-- A read through any node gives the value that is visible. -/
theorem Shows.get (h : Shows call.now c r)
    (hfresh : call.policy.on .access = none → Fresh call.now c) (key : κ) :
    (c.get call key).2 = (r.run call.policy call.now key .get).2 ∧
      Shows call.now (c.get call key).1 (r.run call.policy call.now key .get).1 ∧
      (call.policy.on .access = none → Fresh call.now (c.get call key).1) := by
  cases hpolicy : call.policy.on .access with
  | some duration =>
      rw [get_of_access (by rw [hpolicy]; rfl)]
      obtain ⟨hresult, hshows⟩ :=
        h.execute key call.policy (c.nearReader call.node key) (Decision.get (V := V))
      exact ⟨hresult, hshows, fun hnone => by cases hnone⟩
  | none =>
      have hlocal := c.fades_readLocal call.node key call.now
      have hunset := Reference.visible?_touch_read h.plain hpolicy call.now key
      cases hread : c.readLocal call.node key call.now with
      | mk d found =>
          rw [hread] at hlocal
          have hget : c.get call key = match found with
              | some entry => (d, some entry.value)
              | none => d.run call key .get := by
            simp only [Cluster.get, hpolicy, Option.isNone_none, if_true, hread]
            cases found <;> rfl
          rw [hget]
          cases found with
          | some entry =>
              obtain ⟨target, hreplica, hcopy, hlive⟩ := readLocal_eq_some hread
              have hstored := hfresh hpolicy call.node target key entry hreplica hcopy hlive
              have hvalue := h.value key
              rw [live?_of_stored? hstored hlive] at hvalue
              have hd := h.fades hlocal
              refine ⟨hvalue, ⟨Reference.plain_touch h.plain _ _ _ _, hd.housed, ?_⟩,
                fun _ => (hfresh hpolicy).fades hlocal⟩
              intro other
              exact (hd.visible other).trans (hunset other).symm
          | none =>
              have hd := h.fades hlocal
              have hplain : ∀ entry, d.live? key call.now = some entry → entry.ttl.deleted = false := by
                intro entry hentry
                have hvisible := hd.visible key
                rw [hentry] at hvisible
                exact h.plain key _ (Reference.visible?_eq_some hvisible.symm).1
              obtain ⟨hresult, hshows⟩ :=
                hd.execute key call.policy (d.nearReader call.node key) (Decision.get (V := V))
              refine ⟨hresult, hshows, fun _ => ?_⟩
              have hfades := d.fades_get hpolicy (some call.node) call.now key (hd.housed key) hplain
              rw [← execute_fst] at hfades
              exact ((hfresh hpolicy).fades hlocal).fades hfades

theorem Shows.getEach (keys : List κ) {c : Cluster κ V} {r : Reference κ V}
    (h : Shows call.now c r) (hfresh : call.policy.on .access = none → Fresh call.now c) :
    (getEach call keys c).2 =
        (Reference.runAll call.policy call.now (keys.map fun key => (key, Decision.get)) r).2 ∧
      Shows call.now (getEach call keys c).1
        (Reference.runAll call.policy call.now (keys.map fun key => (key, Decision.get)) r).1 := by
  induction keys generalizing c r with
  | nil => exact ⟨rfl, h⟩
  | cons key rest ih =>
      obtain ⟨hvalue, hshows, hstill⟩ := h.get hfresh key
      obtain ⟨hvalues, hrest⟩ := ih hshows hstill
      refine ⟨?_, hrest⟩
      simp only [Cluster.getEach, List.map_cons, Reference.runAll, hvalue, hvalues]

end Local

/-! ## Reading all entries -/

section Entries

variable {now : Millis} {c : Cluster κ V} {r : Reference κ V}

omit [Hashable κ] in
theorem Shows.keys_eq (h : Shows now c r) :
    c.keys.filter (fun key => (r.visible? key now).isSome) = r.keys now := by
  refine eq_of_ordered (ExtTreeSet.ordered_toList.filter _) (ExtTreeMap.ordered_keys.filter _) ?_
  intro key
  simp only [List.mem_filter, Reference.keys, mem_keys_iff, ExtTreeMap.mem_keys]
  refine and_congr_left fun hvisible => ?_
  obtain ⟨pair, hpair⟩ := Option.isSome_iff_exists.1 hvisible
  have hlive := h.visible key
  rw [hpair, Option.map_eq_some_iff] at hlive
  obtain ⟨entry, hentry, -⟩ := hlive
  have hstored : (c.stored? key).isSome := by
    rw [stored?_of_live? hentry]
    rfl
  have hmem : key ∈ r.pairs := by
    rw [ExtTreeMap.mem_iff_isSome_getElem?, (Reference.visible?_eq_some hpair).1]
    rfl
  exact ⟨fun _ => hmem, fun _ => hstored⟩

/-- Keys whose copies have expired do not count when all entries are read. -/
theorem Shows.readAll (policy : Policy) (keys : List κ) (hkeys : keys.Nodup) {c : Cluster κ V}
    {r : Reference κ V} (h : Shows now c r) {visible : List κ}
    (hvisible : visible = keys.filter fun key => (r.visible? key now).isSome) :
    found keys (Cluster.executeAll policy (fun _ => none) now
        (keys.map fun key => (key, Decision.get)) c).2 =
      found visible (Reference.runAll policy now
        (visible.map fun key => (key, Decision.get)) r).2 ∧
      Shows now (Cluster.executeAll policy (fun _ => none) now
          (keys.map fun key => (key, Decision.get)) c).1
        (Reference.runAll policy now (visible.map fun key => (key, Decision.get)) r).1 := by
  induction keys generalizing c r visible with
  | nil =>
      subst hvisible
      exact ⟨rfl, h⟩
  | cons key rest ih =>
      obtain ⟨hkey, hrest⟩ := List.nodup_cons.1 hkeys
      obtain ⟨hresult, hshows⟩ := h.execute key policy none (Decision.get (V := V))
      have hothers : (rest.filter fun other =>
          (((r.run policy now key Decision.get).1).visible? other now).isSome) =
            rest.filter fun other => (r.visible? other now).isSome := by
        refine List.filter_congr fun other hother => ?_
        have hne : compare key other ≠ .eq := by
          rw [ne_eq, Std.compare_eq_iff_eq]
          rintro rfl
          exact hkey hother
        change Option.isSome ((r.touch policy now key .read).visible? other now) = _
        rw [Reference.visible?_touch h.plain, if_neg hne]
      simp only [List.map_cons, Cluster.executeAll]
      cases hhead : r.visible? key now with
      | none =>
          have hmiss : r.run policy now key Decision.get = (r, none) := by
            simp [Reference.run, Reference.touch, Reference.access, Decision.get, hhead]
          rw [hmiss] at hresult hshows
          have hskip : visible = rest.filter fun other => (r.visible? other now).isSome := by
            simp [hvisible, hhead]
          obtain ⟨hfound, hfinal⟩ := ih hrest hshows hskip
          refine ⟨?_, hfinal⟩
          rw [hresult, ← hfound]
          rfl
      | some pair =>
          have hhit : (r.run policy now key Decision.get).2 = some pair.1 := by
            simp [Reference.run, Decision.get, hhead]
          obtain ⟨hfound, hfinal⟩ := ih hrest hshows rfl
          rw [hothers] at hfound hfinal
          have hsplit : visible =
              key :: rest.filter fun other => (r.visible? other now).isSome := by
            simp [hvisible, hhead]
          rw [hsplit]
          simp only [List.map_cons, Reference.runAll]
          refine ⟨?_, hfinal⟩
          rw [hresult, hhit]
          change (key, pair.1) :: found rest _ = (key, pair.1) :: found _ _
          rw [hfound]

end Entries

/-! ## Operations -/

section Perform

variable {c : Cluster κ V} {r : Reference κ V} {call : Call}

omit [LawfulEqOrd κ] [Hashable κ] in
/-- At rest, and if the clock has never gone back, every owner of a key sees what is visible. -/
theorem Shows.localPeek (h : Shows call.now c r) (hcoherent : c.Coherent (·.expiredAt call.now))
    (hquiet : c.Quiet) {key : κ} (howner : c.affinity.isOwner call.node key) :
    c.localPeek call key = (r.visible? key call.now).map (·.1) := by
  have hlocal : c.local? call.node key = c.copy? call.node .owned key := by
    simp only [local?, howner, if_true]
    rfl
  have hlive : (c.copy? call.node .owned key).filter (!·.expiredAt call.now) =
      c.live? key call.now := by
    by_cases hprimary : c.affinity.primary key = call.node
    · rw [← hprimary, copy?_primary]
      rfl
    · have hreplica : c.affinity.IsReplica call.node .owned key := fun hslot => hprimary hslot.2
      have hbackup : call.node ∈ c.recipients key .owned :=
        ((c.affinity.isOwner_iff call.node key).1 howner).resolve_left hprimary
      cases hcopy : c.copy? call.node .owned key with
      | some entry => rw [live?, hcoherent.stored_of_quiet hquiet hreplica hcopy]
      | none =>
          cases hstored : c.stored? key with
          | none =>
              rw [live?, hstored]
          | some entry =>
              have hexpired := hcoherent.lapsed_of_quiet hquiet hbackup hcopy hstored
              rw [live?, hstored, Option.filter_some_neg (by simp [hexpired])]
              rfl
  rw [Cluster.localPeek, hlocal, hlive]
  exact h.value key

omit [LawfulEqOrd κ] [Hashable κ] in
theorem Coherent.fresh {lapsed : Entry V → Prop} (h : c.Coherent lapsed) (hquiet : c.Quiet)
    (now : Millis) : Fresh now c :=
  fun _ _ _ _ hreplica hcopy _ => h.stored_of_quiet hquiet hreplica hcopy

variable [DecidableEq V] [Append V] [Inhabited V]

/-- Every operation on a cluster at rest is answered as by the reference. -/
theorem Shows.perform (h : Shows call.now c r) (hcoherent : c.Coherent (·.expiredAt call.now))
    (hquiet : c.Quiet) {operation : Operation κ V}
    (hoperation : operation.Referable c.affinity call.node) :
    (c.perform call operation).2 = (r.perform call.policy call.now operation).2 ∧
      Shows call.now (c.perform call operation).1 (r.perform call.policy call.now operation).1 := by
  have hfresh : call.policy.on .access = none → Fresh call.now c :=
    fun _ => hcoherent.fresh hquiet call.now
  cases operation with
  | put key value => exact ⟨rfl, (h.execute key call.policy _ (Decision.put value)).2⟩
  | putAll entries =>
      refine ⟨rfl, ?_⟩
      rw [Reference.perform, ← Reference.runAll_put]
      exact (Shows.executeAll call.policy _ _ h).2
  | putIfAbsent key value =>
      obtain ⟨hresult, hshows⟩ := h.execute key call.policy (c.nearReader call.node key)
        (Decision.putIfAbsent value)
      rw [Reference.perform, ← Reference.run_putIfAbsent]
      exact ⟨congrArg Answer.flag hresult, hshows⟩
  | get key =>
      obtain ⟨hresult, hshows, -⟩ := h.get hfresh key
      exact ⟨congrArg Answer.value hresult, hshows⟩
  | getAll keys =>
      obtain ⟨hvalues, hshows⟩ := Shows.getEach keys h hfresh
      rw [Reference.perform, ← Reference.runAll_get]
      refine ⟨?_, hshows⟩
      change Answer.values (.ofList (found keys (Cluster.getEach call keys c).2)) = _
      rw [hvalues]
      rfl
  | remove key =>
      obtain ⟨hresult, hshows⟩ := h.execute key call.policy (c.nearReader call.node key)
        (Decision.remove (V := V))
      rw [Reference.perform, ← Reference.run_remove r call.policy]
      exact ⟨congrArg Answer.flag hresult, hshows⟩
  | removeAll keys =>
      obtain ⟨hremoved, hshows⟩ := Shows.executeAll call.policy (c.nearReader call.node)
        (keys.map fun key => (key, Decision.remove)) h
      rw [Reference.perform, ← Reference.runAll_remove r call.policy]
      refine ⟨?_, hshows⟩
      change Answer.count (List.countP id (Cluster.executeAll call.policy (c.nearReader call.node)
        call.now (keys.map fun key => (key, Decision.remove)) c).2) = _
      rw [hremoved]
      rfl
  | removeIfEquals key expected =>
      obtain ⟨hresult, hshows⟩ := h.execute key call.policy (c.nearReader call.node key)
        (Decision.removeIfEquals expected)
      rw [Reference.perform, ← Reference.run_removeIfEquals]
      exact ⟨congrArg Answer.flag hresult, hshows⟩
  | replace key value =>
      obtain ⟨hresult, hshows⟩ := h.execute key call.policy (c.nearReader call.node key)
        (Decision.replace value)
      rw [Reference.perform, ← Reference.run_replace]
      exact ⟨congrArg Answer.flag hresult, hshows⟩
  | replaceIfEquals key expected value =>
      obtain ⟨hresult, hshows⟩ := h.execute key call.policy (c.nearReader call.node key)
        (Decision.replaceIfEquals expected value)
      rw [Reference.perform, ← Reference.run_replaceIfEquals]
      exact ⟨congrArg Answer.flag hresult, hshows⟩
  | invoke key script =>
      obtain ⟨hresult, hshows⟩ := h.execute key call.policy (c.nearReader call.node key)
        (Decision.invoke script)
      rw [Reference.perform, ← Reference.run_invoke]
      exact ⟨congrArg Answer.replies hresult, hshows⟩
  | entries =>
      have hkeys : c.keys.Nodup := nodup_of_ordered ExtTreeSet.ordered_toList
      obtain ⟨hfound, hshows⟩ := Shows.readAll call.policy c.keys hkeys h h.keys_eq.symm
      rw [Reference.perform, ← Reference.runAll_get]
      exact ⟨congrArg Answer.entries hfound, hshows⟩
  | localPeek key => exact ⟨congrArg Answer.value (h.localPeek hcoherent hquiet hoperation), h⟩
  | peekTtl key => exact hoperation.elim
  | ttl key =>
      refine ⟨?_, h⟩
      change Answer.ttl ((c.live? key call.now).map (·.ttl)) = .ttl _
      rw [← h.visible, Option.map_map]
      rfl

end Perform

end Cluster

namespace System

variable {κ : Type u} {V : Type v} [Ord κ] [TransOrd κ] [LawfulEqOrd κ] [Hashable κ]
variable [DecidableEq V] [Append V] [Inhabited V]

/-- Whether everything has been delivered whenever a move other than a delivery is made. -/
def Drained : List (Move κ V) → System κ V → Prop
  | [], _ => True
  | move :: rest, s =>
    (move.isDelivery = false → s.cluster.Quiet) ∧ Drained rest (s.step move).1

instance decidableDrained [DecidableEq κ] :
    (moves : List (Move κ V)) → (s : System κ V) → Decidable (Drained moves s)
  | [], _ => .isTrue trivial
  | move :: rest, s =>
    have := decidableDrained rest (s.step move).1
    inferInstanceAs (Decidable ((move.isDelivery = false → s.cluster.Quiet) ∧
      Drained rest (s.step move).1))

/-- A move keeps the copies coherent if the clock does not go back in it. -/
theorem coherent_step {s : System κ V} (h : s.cluster.Coherent (·.expiredAt s.clock))
    (move : Move κ V) (hforward : s.clock ≤ (s.step move).1.clock)
    (hversion : s.cluster.version.toNat + (s.moveTrace move).countP (·.draws) < 2 ^ 64) :
    (s.step move).1.cluster.Coherent (·.expiredAt (s.step move).1.clock) := by
  have hsame : (s.step move).1.cluster.Coherent (·.expiredAt s.clock) := by
    rw [step_cluster]
    exact h.follow _ (s.allowed_moveTrace move fun _ hexpired => hexpired) hversion
  refine hsame.mono fun entry hexpired => ?_
  obtain ⟨hlimit, hle⟩ := (entry.ttl.expiredAt_iff s.clock).1 hexpired
  exact (entry.ttl.expiredAt_iff _).2 ⟨hlimit, UInt64.le_trans hle hforward⟩

/-- The answers of a run are those of the reference, if it starts in a state that shows the same. -/
theorem answers_eq (moves : List (Move κ V)) {s : System κ V} {r : Reference κ V}
    (h : Cluster.Shows s.clock s.cluster r)
    (hcoherent : s.cluster.Coherent (·.expiredAt s.clock))
    (hmoves : ∀ move ∈ moves, move.Referable s.cluster.affinity)
    (hforward : Forward s.clock moves) (hdrained : Drained moves s)
    (hdrawn : s.cluster.version.toNat + drawn moves s < 2 ^ 64) :
    (run moves s).2.filterMap Outcome.answer? =
      Reference.answers s.cluster.config.policy moves s.clock r := by
  induction moves generalizing s r with
  | nil => rfl
  | cons move rest ih =>
      have hdraws : drawn (move :: rest) s =
          (s.moveTrace move).countP (·.draws) + drawn rest (s.step move).1 := by
        simp only [drawn, trace, List.countP_append]
      have hmovedraws : s.cluster.version.toNat + (s.moveTrace move).countP (·.draws) < 2 ^ 64 := by
        omega
      have hversion : (s.step move).1.cluster.version.toNat =
          s.cluster.version.toNat + (s.moveTrace move).countP (·.draws) := by
        rw [step_cluster]
        exact Cluster.version_follow hmovedraws
      have hlayout : Cluster.SameLayout s.cluster (s.step move).1.cluster := by
        rw [step_cluster]
        exact Cluster.sameLayout_follow _ _
      have hclock := forward_step hforward
      have hnext : ∀ {r' : Reference κ V},
          Cluster.Shows (s.step move).1.clock (s.step move).1.cluster r' →
            (run rest (s.step move).1).2.filterMap Outcome.answer? =
              Reference.answers s.cluster.config.policy rest (s.step move).1.clock r' := by
        intro r' hshows
        rw [← hlayout.config]
        refine ih hshows (coherent_step hcoherent move hclock.1 hmovedraws) ?_ hclock.2 hdrained.2
          (by omega)
        rw [hlayout.affinity]
        exact fun m hm => hmoves m (List.mem_cons_of_mem move hm)
      have hmove := hmoves move List.mem_cons_self
      cases move with
      | call node scope operation =>
          have hnode : node < s.cluster.nodes.length := hcoherent.size ▸ hmove.1
          let call : Call :=
            { node, policy := .effective s.cluster.config.policy scope, now := s.clock }
          have hstep : s.step (.call node scope operation) =
              ({ s with cluster := (s.cluster.perform call operation).1 },
                .answer (s.cluster.perform call operation).2) := by
            simp only [step, Cluster.call, hnode, if_true]
            rfl
          have hcall : s.cluster.Shows call.now r := h
          obtain ⟨hanswer, hshows⟩ := hcall.perform hcoherent (hdrained.1 rfl) hmove.2
          have hrest := hnext (by rw [hstep]; exact hshows)
          simp only [run, List.filterMap_cons]
          rw [hstep] at hrest ⊢
          simp only [Outcome.answer?, Reference.answers]
          rw [hrest, hanswer]
          rfl
      | sweep node =>
          exact hnext (h.fades (s.cluster.fades_sweep node s.clock h.housed))
      | deliver node =>
          refine hnext ⟨h.plain, fun key => ?_, fun key => ?_⟩
          · rw [hlayout.affinity, hlayout.size]
            exact h.housed key
          · refine Eq.trans ?_ (h.visible key)
            change ((Cluster.stored? (s.cluster.deliver node) key).filter _).map _ = _
            rw [hcoherent.orderly.stored?_deliver]
            rfl
      | setClock now => exact hnext (h.later hclock.1)
      | begin | stage | commit | rollback => exact hmove.elim

/-- A cluster is one map. Whatever its settings, nodes and affinity, and however operations through its
nodes and sweeps of them follow each other: as long as the clock does not go back and everything is
delivered in between, every operation is answered as by the reference cache. -/
theorem answers_eq_reference {config : CacheConfig} {nodes : Nat} {affinity : Affinity κ}
    {c₀ : Cluster κ V} (hstart : Cluster.start config nodes affinity = .ok c₀)
    (hlawful : affinity.Lawful) (now : Millis) (moves : List (Move κ V))
    (hmoves : ∀ move ∈ moves, move.Referable affinity) (hforward : Forward now moves)
    (hdrained : Drained moves { cluster := c₀, clock := now })
    (hdrawn : drawn moves { cluster := c₀, clock := now } < 2 ^ 64) :
    (run moves { cluster := c₀, clock := now }).2.filterMap Outcome.answer? =
      Reference.answers config.policy moves now {} := by
  obtain ⟨hsize, hc₀⟩ := Cluster.start_ok hstart
  have hcoherent := Cluster.coherent_start hstart hlawful (·.expiredAt now)
  have hshows : c₀.Shows now ({} : Reference κ V) := by
    refine ⟨?_, hcoherent.primary_lt, fun key => ?_⟩
    · intro key pair hpair
      simp at hpair
    · have hstored : c₀.stored? key = none :=
        Cluster.copy?_start hstart (c₀.affinity.primary key) .owned key
      simp [Cluster.live?, hstored, Reference.visible?]
  have hanswers := answers_eq (s := { cluster := c₀, clock := now }) moves hshows hcoherent
    (by rw [hc₀]; exact hmoves) hforward hdrained (by simpa [hc₀] using hdrawn)
  simpa [hc₀] using hanswers

/-- An entry is read through a near reader, expires, is swept from the backup and looked for through
it. -/
def lookedFor : List (Move Nat (List Nat)) :=
  [.call 2 (some (.custom (.created (.millis 3)))) (.put 0 [7]), .deliver 1, .deliver 2,
    .call 2 (some (.custom {})) (.get 0), .setClock 5, .sweep 1, .call 1 (some (.custom {})) (.get 0),
    .deliver 1, .deliver 2, .call 0 none (.putIfAbsent 0 [8])]

theorem answers_eq_reference_lookedFor :
    ∃ c₀ : Cluster Nat (List Nat), Cluster.start { near := true } 3 trio = .ok c₀ ∧
      (run lookedFor { cluster := c₀ }).2.filterMap Outcome.answer? =
        [.done, .value (some [7]), .value none, .flag true] := by
  let c₀ : Cluster Nat (List Nat) :=
    { config := { near := true }, affinity := trio, nodes := .empty 3 true }
  have hstart : Cluster.start { near := true } 3 trio = .ok c₀ := rfl
  have hmoves : ∀ move ∈ lookedFor, move.Referable trio := by
    simp [lookedFor, Move.Referable, Operation.Referable, trio]
  have hforward : Forward 0 lookedFor := by decide
  have hdrained : Drained lookedFor { cluster := c₀, clock := 0 } := by decide_cbv
  have hdrawn : drawn lookedFor { cluster := c₀, clock := 0 } < 2 ^ 64 := by decide_cbv
  refine ⟨c₀, hstart, ?_⟩
  have hanswers :=
    answers_eq_reference hstart lawful_trio 0 lookedFor hmoves hforward hdrained hdrawn
  refine hanswers.trans ?_
  rfl

end System

end Ephemera
