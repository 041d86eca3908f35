import Ephemera.Proofs.Change

/-! # The trace of a run

For each move of a system the list of changes that it makes, computed from the state in which the
move is made. A bulk operation looks at each key only after it is done with the keys before, and a
sweep looks up the next expired copy only after it has removed the one before, so traces are
computed along the states that they lead through.
-/

namespace Ephemera

open Std

universe u v w

/-- Value and lifetime of a key after a plan for it, given those before. -/
def Plan.outcome {V : Type u} (live : Option (V × Ttl)) : Plan V → Option (V × Ttl)
  | .unchanged => live
  | .put value ttl _ => some (value, ttl)
  | .remove => none

/-! ## Values of a map -/

section Values

variable {α : Type u} {β : Type v} [Ord α] [TransOrd α] {m : ExtTreeMap α β} {p : β → Prop}

/-- What holds of all values of a map, and of one that is put into it, holds of all values then. -/
theorem forall_insert (h : ∀ (key : α) (value : β), m[key]? = some value → p value) (key : α)
    {value : β} (hvalue : p value) {other : α} {found : β}
    (hfound : (m.insert key value)[other]? = some found) : p found := by
  rw [ExtTreeMap.getElem?_insert] at hfound
  split at hfound
  · cases hfound
    exact hvalue
  · exact h other found hfound

theorem forall_erase (h : ∀ (key : α) (value : β), m[key]? = some value → p value)
    {key other : α} {found : β} (hfound : (m.erase key)[other]? = some found) : p found := by
  rw [ExtTreeMap.getElem?_erase] at hfound
  split at hfound
  · cases hfound
  · exact h other found hfound

end Values

/-! ## Asking for a removal -/

/-- Whether the last command of a script that changes the entry takes its value away, or, if none
changes it, what was so before. -/
def Command.removesLast {V : Type u} (script : List (Command V)) (before : Bool) : Bool :=
  script.foldl (fun removes command =>
    match command with
    | .remove => true
    | .set _ | .append _ => false
    | .probe | .value => removes) before

/-- Whether the operation asks for entries to be removed. -/
def Operation.removes {κ : Type u} {V : Type v} : Operation κ V → Bool
  | .remove _ | .removeAll _ | .removeIfEquals .. => true
  | .invoke _ script => Command.removesLast script false
  | .put .. | .putAll _ | .putIfAbsent .. | .get _ | .getAll _ | .replace .. | .replaceIfEquals ..
  | .entries | .localPeek _ | .peekTtl _ | .ttl _ => false

namespace Draft

variable {V : Type u} [Append V] [Inhabited V]

theorem removesLast_of_action {script : List (Command V)} {d : Draft V} {before : Bool}
    (hd : d.action = .remove → before = true) (h : (runScript script d).1.action = .remove) :
    Command.removesLast script before = true := by
  induction script generalizing d before with
  | nil => exact hd h
  | cons command rest ih =>
      refine ih (d := (d.run command).1) ?_ h
      cases command with
      | probe => exact hd
      | value =>
          intro hread
          refine hd ?_
          simp only [run, read] at hread
          split at hread
          · cases hread
          · exact hread
      | set | append => exact nofun
      | remove => exact fun _ => rfl

end Draft

namespace Decision

variable {V : Type u}

theorem get_ne_remove (live : Option V) : (get live).1 ≠ .remove := by
  intro h
  cases h

theorem replaceIfEquals_ne_remove [DecidableEq V] (expected value : V) (live : Option V) :
    (replaceIfEquals expected value live).1 ≠ .remove := by
  unfold replaceIfEquals
  split
  · exact nofun
  · split <;> exact nofun

theorem removesLast_of_invoke [Append V] [Inhabited V] {script : List (Command V)} {live : Option V}
    (h : (invoke script live).1 = .remove) : Command.removesLast script false = true := by
  refine Draft.removesLast_of_action (d := { value := live }) nofun ?_
  simp only [invoke, Draft.intent] at h
  split at h
  next => cases h
  next => cases h
  next => cases h
  next haction => exact haction

end Decision

namespace Effect

variable {κ : Type u} {V : Type v}

/-- The changes that carry out an effect on a key. -/
def trace (key : κ) (via : Option Nat) (awaited : Bool) : Effect V → List (Change κ V)
  | write value ttl => [.write key via value ttl]
  | drop _ => [.remove key .expired awaited]
  | remove _ => [.remove key .removal awaited]
  | share _ => (via.map (.share key)).toList
  | nothing => []

variable {stored live : Option (Entry V)} {p : Plan V}

theorem plan_of_write {value : V} {ttl : Ttl} (h : ofPlan stored live p = .write value ttl) :
    ∃ kind, p = .put value ttl kind := by
  unfold ofPlan at h
  split at h
  · cases h
    exact ⟨_, rfl⟩
  · split at h <;> cases h
  · split at h <;> cases h

theorem stored_of_drop {version : UInt64} (h : ofPlan stored live p = .drop version) :
    ∃ entry, stored = some entry ∧ entry.version = version := by
  unfold ofPlan at h
  split at h
  · cases h
  · split at h <;> cases h
    exact ⟨_, rfl, rfl⟩
  · split at h <;> cases h
    exact ⟨_, rfl, rfl⟩

theorem live_of_remove {version : UInt64} (h : ofPlan stored live p = .remove version) :
    ∃ entry, live = some entry ∧ entry.version = version := by
  unfold ofPlan at h
  split at h
  · cases h
  · split at h <;> cases h
    exact ⟨_, rfl, rfl⟩
  · split at h <;> cases h

theorem live_of_share {entry : Entry V} (h : ofPlan stored live p = .share entry) :
    live = some entry := by
  unfold ofPlan at h
  split at h
  · cases h
  · split at h <;> cases h
  · split at h <;> cases h
    rfl

end Effect

namespace Cluster

variable {κ : Type u} {V : Type v} {ρ : Type w} [Ord κ] [TransOrd κ]

/-! ## Operations on primaries -/

omit [Ord κ] [TransOrd κ] in
/-- The changes by which an intent on a key is counted. -/
def countTrace (key : κ) (live : Option (Entry V)) : Intent V → List (Change κ V)
  | .read => [.count key (if live.isSome then .hit else .miss)]
  | _ => []

/-- What an intent on a key amounts to. -/
def effect (c : Cluster κ V) (policy : Policy) (now : Millis) (key : κ) (intent : Intent V) :
    Effect V :=
  let live := c.live? key now
  .ofPlan (c.stored? key) live (plan (live.map (·.content)) intent policy now)

/-- The changes of one operation on the primary of its key, called through a node or, when all
entries are read, through none. -/
def touchTrace (c : Cluster κ V) (policy : Policy) (via : Option Nat) (now : Millis) (key : κ)
    (decide : Decision V ρ) : List (Change κ V) :=
  let live := c.live? key now
  let intent := (decide (live.map (·.value))).1
  countTrace key live intent ++
    (c.effect policy now key intent).trace key via c.config.synchronous

variable [Hashable κ]

/-- The changes of an operation on the primary of each key, in turn. -/
def touchAllTrace (policy : Policy) (via : Option Nat) (now : Millis) :
    List (κ × Decision V ρ) → Cluster κ V → List (Change κ V)
  | [], _ => []
  | (key, decide) :: rest, c =>
    let changes := c.touchTrace policy via now key decide
    changes ++ touchAllTrace policy via now rest (c.follow changes)

/-- The changes of a look into the copy that a node holds as a backup or near reader. -/
def lookTrace (c : Cluster κ V) (node : Nat) (target : Target) (key : κ) (now : Millis) :
    List (Change κ V) :=
  match c.copy? node target key with
  | none => [.note node target .miss]
  | some entry =>
    if entry.expiredAt now then [.drop node target key .expired now, .note node target .miss]
    else [.note node target .hit]

/-- The changes of a read that the called node tries to answer itself. -/
def readLocalTrace (c : Cluster κ V) (node : Nat) (key : κ) (now : Millis) :
    List (Change κ V) :=
  match c.affinity.role node key with
  | .primary => []
  | .backup => c.lookTrace node .owned key now
  | .none => if c.config.near then c.lookTrace node .near key now else []

/-- The changes of a read. -/
def getTrace (c : Cluster κ V) (call : Call) (key : κ) : List (Change κ V) :=
  if (call.policy.on .access).isNone then
    let changes := c.readLocalTrace call.node key call.now
    changes ++
      match (c.readLocal call.node key call.now).2 with
      | some _ => []
      | none => (c.follow changes).touchTrace call.policy (some call.node) call.now key Decision.get
  else c.touchTrace call.policy (some call.node) call.now key Decision.get

/-- The changes of a read of each key, in turn. -/
def getEachTrace (call : Call) : List κ → Cluster κ V → List (Change κ V)
  | [], _ => []
  | key :: rest, c =>
    let changes := c.getTrace call key
    changes ++ getEachTrace call rest (c.follow changes)

/-- The changes of an operation. -/
def performTrace [DecidableEq V] [Append V] [Inhabited V] (c : Cluster κ V) (call : Call) :
    Operation κ V → List (Change κ V)
  | .put key value => c.touchTrace call.policy (some call.node) call.now key (.put value)
  | .putAll entries =>
    touchAllTrace call.policy (some call.node) call.now
      (entries.map fun (key, value) => (key, Decision.put value)) c
  | .putIfAbsent key value =>
    c.touchTrace call.policy (some call.node) call.now key (.putIfAbsent value)
  | .get key => c.getTrace call key
  | .getAll keys => getEachTrace call keys c
  | .remove key => c.touchTrace call.policy (some call.node) call.now key .remove
  | .removeAll keys =>
    touchAllTrace call.policy (some call.node) call.now
      (keys.map fun key => (key, Decision.remove)) c
  | .removeIfEquals key expected =>
    c.touchTrace call.policy (some call.node) call.now key (.removeIfEquals expected)
  | .replace key value =>
    c.touchTrace call.policy (some call.node) call.now key (.replace value)
  | .replaceIfEquals key expected value =>
    c.touchTrace call.policy (some call.node) call.now key (.replaceIfEquals expected value)
  | .invoke key script =>
    c.touchTrace call.policy (some call.node) call.now key (.invoke script)
  | .entries =>
    touchAllTrace call.policy none call.now (c.keys.map fun key => (key, Decision.get)) c
  | .localPeek _ | .peekTtl _ | .ttl _ => []

/-! ## Sweeps and commits -/

/-- The change by which a sweep of a node takes a listed copy away, if it still is as listed. -/
def reclaimTrace (c : Cluster κ V) (node : Nat) (target : Target) (d : Deadline κ)
    (now : Millis) : List (Change κ V) :=
  if (c.copy? node target d.key).any fun e => e.ttl.expireTime = d.time && e.expiredAt now then
    if target = .owned ∧ c.affinity.primary d.key = node then [.remove d.key .swept false]
    else [.drop node target d.key .swept now]
  else []

/-- The changes of the rest of a scan. -/
def sweepFromTrace (node : Nat) (target : Target) (now : Millis) :
    Nat → Scan κ → Cluster κ V → List (Change κ V)
  | 0, _, _ => []
  | fuel + 1, scan, c =>
    match (c.index? node target).map scan.next with
    | none | some (none, _) => []
    | some (some d, scan) =>
      let changes := c.reclaimTrace node target d now
      changes ++ sweepFromTrace node target now fuel scan (c.follow changes)

/-- The changes of the sweep of one store. -/
def sweepStoreTrace (c : Cluster κ V) (node : Nat) (target : Target) (now : Millis) :
    List (Change κ V) :=
  sweepFromTrace node target now (((c.index? node target).map Index.size).getD 0) { now } c

/-- The changes of the sweep of a node. -/
def sweepTrace (c : Cluster κ V) (node : Nat) (now : Millis) : List (Change κ V) :=
  let owned := c.sweepStoreTrace node .owned now
  owned ++ (c.follow owned).sweepStoreTrace node .near now

/-- The change that puts in place what a transaction staged for a key. -/
def installTrace (c : Cluster κ V) (key : κ) (staged : Option (V × CommitTtl)) (now : Millis) :
    Change κ V :=
  match staged with
  | some (value, commitTtl) =>
    .write key none value (commitTtl.resolve ((c.stored? key).map (·.ttl)) now)
  | none => .remove key .removal c.config.synchronous

/-- The changes of a commit that goes through. -/
def commitTrace (now : Millis) : List (κ × Binding V) → Cluster κ V → List (Change κ V)
  | [], _ => []
  | (key, binding) :: rest, c =>
    let x := c.installTrace key binding.outcome now
    x :: commitTrace now rest (c.change x)

/-! ## What traces are made of -/

section Parts

variable {holds : Change κ V → Prop}

omit [Hashable κ] in
/-- A touch counts a hit or a miss, if anything, and carries out its effect. -/
theorem mem_touchTrace {c : Cluster κ V} {policy : Policy} {via : Option Nat} {now : Millis} {key : κ}
    {decide : Decision V ρ} {x : Change κ V} (hx : x ∈ c.touchTrace policy via now key decide) :
    (∃ event, (event = .hit ∨ event = .miss) ∧ x = .count key event) ∨
      x ∈ (c.effect policy now key (decide ((c.live? key now).map (·.value))).1).trace key via
        c.config.synchronous := by
  rcases List.mem_append.1 hx with hx | hx
  · left
    unfold countTrace at hx
    split at hx
    · refine ⟨_, ?_, List.mem_singleton.1 hx⟩
      split
      · exact .inl rfl
      · exact .inr rfl
    · cases hx
  · exact .inr hx

omit [Hashable κ] in
/-- The trace of a touch consists of counts, and of a write, a removal or a share of its key. -/
theorem forall_touchTrace (c : Cluster κ V) (policy : Policy) (via : Option Nat) (now : Millis)
    (key : κ) (decide : Decision V ρ) (hcount : ∀ event, holds (.count key event))
    (hwrite : ∀ intent value ttl, c.effect policy now key intent = .write value ttl →
      holds (.write key via value ttl))
    (hremove : ∀ event awaited, holds (.remove key event awaited))
    (hshare : ∀ node, via = some node → holds (.share key node)) :
    ∀ x ∈ c.touchTrace policy via now key decide, holds x := by
  intro x hx
  rcases mem_touchTrace hx with ⟨event, -, rfl⟩ | hx
  · exact hcount event
  · unfold Effect.trace at hx
    split at hx
    next value ttl heffect =>
      rw [List.mem_singleton.1 hx]
      exact hwrite _ value ttl heffect
    next => rw [List.mem_singleton.1 hx]; exact hremove _ _
    next => rw [List.mem_singleton.1 hx]; exact hremove _ _
    next =>
      obtain ⟨node, hnode, rfl⟩ := Option.map_eq_some_iff.1 (Option.mem_toList.1 hx)
      exact hshare node hnode
    next => cases hx

omit [Hashable κ] in
/-- A node that looks into its own stores counts what it finds, and drops what has expired. -/
theorem forall_readLocalTrace (c : Cluster κ V) (node : Nat) (key : κ) (now : Millis)
    (hnote : ∀ target event, event = .hit ∨ event = .miss → holds (.note node target event))
    (hdrop : ∀ target, holds (.drop node target key .expired now)) :
    ∀ x ∈ c.readLocalTrace node key now, holds x := by
  have hlook : ∀ target, ∀ x ∈ c.lookTrace node target key now, holds x := by
    intro target x hx
    unfold lookTrace at hx
    split at hx
    next => rw [List.mem_singleton.1 hx]; exact hnote _ _ (.inr rfl)
    next =>
      split at hx
      · rcases List.mem_cons.1 hx with rfl | hx
        · exact hdrop _
        · rw [List.mem_singleton.1 hx]
          exact hnote _ _ (.inr rfl)
      · rw [List.mem_singleton.1 hx]
        exact hnote _ _ (.inl rfl)
  intro x hx
  unfold readLocalTrace at hx
  split at hx
  · cases hx
  · exact hlook .owned x hx
  · split at hx
    · exact hlook .near x hx
    · cases hx

omit [Hashable κ] in
/-- A sweep takes an expired copy away by removing it from the primary or dropping it from a replica. -/
theorem forall_reclaimTrace (c : Cluster κ V) (node : Nat) (target : Target) (d : Deadline κ)
    (now : Millis)
    (hremove : ∀ entry, c.stored? d.key = some entry → entry.expiredAt now →
      holds (.remove d.key .swept false))
    (hdrop : holds (.drop node target d.key .swept now)) :
    ∀ x ∈ c.reclaimTrace node target d now, holds x := by
  intro x hx
  unfold reclaimTrace at hx
  split at hx
  next hlisted =>
    split at hx
    next hprimary =>
      obtain ⟨rfl, rfl⟩ := hprimary
      obtain ⟨entry, hentry, hfits⟩ := (Option.any_eq_true _ _).1 hlisted
      rw [List.mem_singleton.1 hx]
      exact hremove entry hentry (Bool.and_eq_true_iff.1 hfits).2
    next =>
      rw [List.mem_singleton.1 hx]
      exact hdrop
  next => cases hx

/-- The trace of several touches consists of those of single ones. -/
theorem forall_touchAllTrace {policy : Policy} {via : Option Nat} {now : Millis} {removes : Prop}
    (decisions : List (κ × Decision V ρ)) (c : Cluster κ V)
    (hremoves : ∀ pair ∈ decisions, ∀ live, (pair.2 live).1 = .remove → removes)
    (htouch : ∀ (d : Cluster κ V) (key : κ) (decide : Decision V Unit),
      (∀ live, (decide live).1 = .remove → removes) →
        ∀ x ∈ d.touchTrace policy via now key decide, holds x) :
    ∀ x ∈ touchAllTrace policy via now decisions c, holds x := by
  induction decisions generalizing c with
  | nil =>
      intro x hx
      cases hx
  | cons head rest ih =>
      intro x hx
      rcases List.mem_append.1 hx with hx | hx
      · exact htouch c head.1 (fun live => ((head.2 live).1, ())) (hremoves head List.mem_cons_self)
          x hx
      · exact ih _ (fun pair hpair => hremoves pair (List.mem_cons_of_mem head hpair)) x hx

section Calls

variable {call : Call}

theorem forall_getTrace (c : Cluster κ V) (key : κ)
    (htouch : ∀ (d : Cluster κ V) (key : κ) (decide : Decision V Unit),
      (∀ live, (decide live).1 ≠ .remove) →
        ∀ x ∈ d.touchTrace call.policy (some call.node) call.now key decide, holds x)
    (hlook : ∀ (d : Cluster κ V) (key : κ), ∀ x ∈ d.readLocalTrace call.node key call.now, holds x) :
    ∀ x ∈ c.getTrace call key, holds x := by
  intro x hx
  unfold getTrace at hx
  split at hx
  · rcases List.mem_append.1 hx with hx | hx
    · exact hlook c key x hx
    · split at hx
      · cases hx
      · exact htouch _ key (fun live => ((Decision.get live).1, ())) Decision.get_ne_remove x hx
  · exact htouch c key (fun live => ((Decision.get live).1, ())) Decision.get_ne_remove x hx

theorem forall_getEachTrace (keys : List κ) (c : Cluster κ V)
    (htouch : ∀ (d : Cluster κ V) (key : κ) (decide : Decision V Unit),
      (∀ live, (decide live).1 ≠ .remove) →
        ∀ x ∈ d.touchTrace call.policy (some call.node) call.now key decide, holds x)
    (hlook : ∀ (d : Cluster κ V) (key : κ), ∀ x ∈ d.readLocalTrace call.node key call.now, holds x) :
    ∀ x ∈ getEachTrace call keys c, holds x := by
  induction keys generalizing c with
  | nil =>
      intro x hx
      cases hx
  | cons key rest ih =>
      intro x hx
      rcases List.mem_append.1 hx with hx | hx
      · exact forall_getTrace c key htouch hlook x hx
      · exact ih _ x hx

/-- The trace of an operation consists of touches, made through the called node or through none, and
of looks of that node into its own stores. Only an operation that asks for it decides to remove. -/
theorem forall_performTrace [DecidableEq V] [Append V] [Inhabited V] (c : Cluster κ V)
    (operation : Operation κ V)
    (htouch : ∀ (d : Cluster κ V) (via : Option Nat) (key : κ) (decide : Decision V Unit),
      (∀ node, via = some node → node = call.node) →
        (∀ live, (decide live).1 = .remove → operation.removes = true) →
          ∀ x ∈ d.touchTrace call.policy via call.now key decide, holds x)
    (hlook : ∀ (d : Cluster κ V) (key : κ), ∀ x ∈ d.readLocalTrace call.node key call.now, holds x) :
    ∀ x ∈ c.performTrace call operation, holds x := by
  have hcalled : ∀ (d : Cluster κ V) (key : κ) (decide : Decision V Unit),
      (∀ live, (decide live).1 = .remove → operation.removes = true) →
        ∀ x ∈ d.touchTrace call.policy (some call.node) call.now key decide, holds x :=
    fun d key decide => htouch d _ key decide fun node hnode => (Option.some.inj hnode).symm
  have hread : ∀ (d : Cluster κ V) (key : κ) (decide : Decision V Unit),
      (∀ live, (decide live).1 ≠ .remove) →
        ∀ x ∈ d.touchTrace call.policy (some call.node) call.now key decide, holds x :=
    fun d key decide hkeeps => hcalled d key decide fun live h => absurd h (hkeeps live)
  cases operation with
  | put key value => exact hcalled c key (.put value) fun _ => nofun
  | putIfAbsent key value =>
      exact hcalled c key (fun live => ((Decision.putIfAbsent value live).1, ())) fun live h => by
        cases live <;> cases h
  | remove key => exact hcalled c key (fun live => ((Decision.remove live).1, ())) fun _ _ => rfl
  | removeIfEquals key expected =>
      exact hcalled c key (fun live => ((Decision.removeIfEquals expected live).1, ())) fun _ _ => rfl
  | replace key value =>
      exact hcalled c key (fun live => ((Decision.replace value live).1, ())) fun live h => by
        cases live <;> cases h
  | replaceIfEquals key expected value =>
      exact hcalled c key (fun live => ((Decision.replaceIfEquals expected value live).1, ()))
        fun live h => absurd h (Decision.replaceIfEquals_ne_remove expected value live)
  | invoke key script =>
      exact hcalled c key (fun live => ((Decision.invoke script live).1, ()))
        fun live => Decision.removesLast_of_invoke
  | putAll entries =>
      refine forall_touchAllTrace _ c (fun pair hpair live h => ?_) hcalled
      obtain ⟨entry, -, rfl⟩ := List.mem_map.1 hpair
      cases h
  | removeAll keys => exact forall_touchAllTrace _ c (fun _ _ _ _ => rfl) hcalled
  | get key => exact forall_getTrace c key hread hlook
  | getAll keys => exact forall_getEachTrace keys c hread hlook
  | entries =>
      refine forall_touchAllTrace _ c (fun pair hpair live h => ?_) fun d key decide =>
        htouch d none key decide nofun
      obtain ⟨key, -, rfl⟩ := List.mem_map.1 hpair
      cases h
  | localPeek | peekTtl | ttl =>
      intro x hx
      cases hx

end Calls

theorem forall_sweepFromTrace {node : Nat} {target : Target} {now : Millis} (fuel : Nat)
    (scan : Scan κ) (c : Cluster κ V)
    (hreclaim : ∀ (d : Cluster κ V) (deadline : Deadline κ),
      ∀ x ∈ d.reclaimTrace node target deadline now, holds x) :
    ∀ x ∈ sweepFromTrace node target now fuel scan c, holds x := by
  induction fuel generalizing scan c with
  | zero =>
      intro x hx
      cases hx
  | succ fuel ih =>
      intro x hx
      unfold sweepFromTrace at hx
      split at hx
      · cases hx
      · cases hx
      · rcases List.mem_append.1 hx with hx | hx
        · exact hreclaim c _ x hx
        · exact ih _ _ x hx

/-- The trace of a sweep consists of those of the copies that it takes away. -/
theorem forall_sweepTrace (c : Cluster κ V) {node : Nat} {now : Millis}
    (hreclaim : ∀ (d : Cluster κ V) (target : Target) (deadline : Deadline κ),
      ∀ x ∈ d.reclaimTrace node target deadline now, holds x) :
    ∀ x ∈ c.sweepTrace node now, holds x := by
  intro x hx
  rcases List.mem_append.1 hx with hx | hx
  · exact forall_sweepFromTrace _ _ _ (fun d => hreclaim d .owned) x hx
  · exact forall_sweepFromTrace _ _ _ (fun d => hreclaim d .near) x hx

/-- The trace of a commit consists of a write or a removal for each key that the transaction has
changed. -/
theorem forall_commitTrace (now : Millis) {bindings : List (κ × Binding V)} (c : Cluster κ V)
    (hwrite : ∀ key value ttl, holds (.write key none value ttl))
    (hremove : ∀ pair ∈ bindings, pair.2.staged = none →
      ∀ awaited, holds (.remove pair.1 .removal awaited)) :
    ∀ x ∈ commitTrace now bindings c, holds x := by
  induction bindings generalizing c with
  | nil =>
      intro x hx
      cases hx
  | cons head rest ih =>
      intro x hx
      rcases List.mem_cons.1 hx with rfl | hx
      · unfold installTrace Binding.outcome
        cases hstaged : head.2.staged with
        | some value => exact hwrite _ _ _
        | none => exact hremove head List.mem_cons_self hstaged _
      · exact ih _ (fun pair hpair => hremove pair (List.mem_cons_of_mem head hpair)) x hx

end Parts

/-! ## Operations make the changes of their traces -/

omit [TransOrd κ] [Hashable κ] in
theorem call_ok {c : Cluster κ V} {node : Nat} {scope : Option Policy} {now : Millis} {call : Call}
    (h : c.call node scope now = .ok call) :
    node < c.nodes.length ∧ call = { node, policy := .effective c.config.policy scope, now } := by
  unfold Cluster.call at h
  split at h
  next hnode =>
    cases h
    exact ⟨hnode, rfl⟩
  next => cases h

omit [Hashable κ] in
theorem stored?_of_live? {c : Cluster κ V} {key : κ} {now : Millis} {entry : Entry V}
    (h : c.live? key now = some entry) : c.stored? key = some entry :=
  (Option.filter_eq_some_iff.1 h).1

omit [Hashable κ] in
theorem stored?_recordPrimary (c : Cluster κ V) (key other : κ) (event : StoreEvent) :
    (c.recordPrimary key event).stored? other = c.stored? other := by
  simp only [stored?, recordPrimary, modifyPrimary, modifyNode, List.getElem?_modify]
  split
  · cases c.nodes[c.affinity.primary other]? <;> rfl
  · simp

theorem stored?_countTrace (c : Cluster κ V) (key other : κ) (live : Option (Entry V))
    (intent : Intent V) :
    (c.follow (countTrace key live intent)).stored? other = c.stored? other := by
  cases intent with
  | read => exact stored?_recordPrimary c key other _
  | write | remove | ignore => rfl

/-- An effect is at most one change: it drops, removes or shares what the primary holds. -/
theorem apply_eq (c : Cluster κ V) (key : κ) (via : Option Nat) (effect : Effect V)
    (hremove : ∀ version, effect = .drop version ∨ effect = .remove version →
      ∃ entry, c.stored? key = some entry ∧ entry.version = version)
    (hshare : ∀ entry, effect = .share entry → c.stored? key = some entry) :
    c.apply key (via.bind (c.nearReader · key)) effect =
      c.follow (effect.trace key via c.config.synchronous) := by
  cases effect with
  | write value ttl => rfl
  | drop version =>
      obtain ⟨entry, hstored, rfl⟩ := hremove version (.inl rfl)
      simp [apply, Effect.trace, change, hstored]
  | remove version =>
      obtain ⟨entry, hstored, rfl⟩ := hremove version (.inr rfl)
      simp [apply, Effect.trace, change, hstored]
  | share entry =>
      have hstored := hshare entry rfl
      cases via with
      | none => rfl
      | some node =>
          cases hreader : c.nearReader node key <;>
            simp [apply, Effect.trace, change, hstored, hreader]
  | nothing => rfl

/-- An operation on the primary of a key makes the changes of its trace. -/
theorem execute_fst (c : Cluster κ V) (key : κ) (policy : Policy) (via : Option Nat) (now : Millis)
    (decide : Decision V ρ) :
    (c.execute key policy (via.bind (c.nearReader · key)) now decide).1 =
      c.follow (c.touchTrace policy via now key decide) := by
  let live := c.live? key now
  let intent := (decide (live.map (·.value))).1
  have hcounted : (match intent with
      | .read => c.recordPrimary key (if live.isSome then .hit else .miss)
      | _ => c) = c.follow (countTrace key live intent) := by
    cases intent <;> rfl
  have hreader : (via.bind fun node => c.nearReader node key) =
      via.bind fun node => (c.follow (countTrace key live intent)).nearReader node key := by
    simp only [nearReader_follow]
  have hstored := stored?_countTrace c key key live intent
  change (Cluster.apply (match intent with
      | .read => c.recordPrimary key (if live.isSome then .hit else .miss)
      | _ => c) key (via.bind fun node => c.nearReader node key)
      (c.effect policy now key intent)) = _
  rw [hcounted, hreader, apply_eq, (sameLayout_follow c _).config, ← follow_append]
  · rfl
  · rintro version (h | h)
    · rw [hstored]
      exact Effect.stored_of_drop h
    · obtain ⟨entry, hentry, hversion⟩ := Effect.live_of_remove h
      exact ⟨entry, hstored ▸ stored?_of_live? hentry, hversion⟩
  · intro entry h
    exact hstored ▸ stored?_of_live? (Effect.live_of_share h)

theorem executeAll_fst (policy : Policy) (via : Option Nat) (now : Millis)
    (decisions : List (κ × Decision V ρ)) (c : Cluster κ V) (reader : κ → Option Nat)
    (hreader : ∀ key, reader key = via.bind (c.nearReader · key)) :
    (executeAll policy reader now decisions c).1 =
      c.follow (touchAllTrace policy via now decisions c) := by
  induction decisions generalizing c with
  | nil => rfl
  | cons head rest ih =>
      obtain ⟨key, decide⟩ := head
      simp only [executeAll, touchAllTrace, follow_append]
      rw [← execute_fst, ← hreader key]
      apply ih
      intro other
      rw [hreader, hreader, execute_fst]
      simp only [nearReader_follow]

/-- A look into a replica makes the changes of its trace. -/
theorem readStore_fst (c : Cluster κ V) (node : Nat) (target : Target) (key : κ) (now : Millis)
    (htarget : ¬(target = .owned ∧ c.affinity.primary key = node)) :
    (c.readStore node target key now).1 = c.follow (c.lookTrace node target key now) := by
  cases hn : c.nodes[node]? with
  | none =>
      simp [readStore, lookTrace, hn, copy?_of_none hn, change, modifyNode_of_none hn]
  | some n =>
      simp only [readStore, hn, lookTrace, copy?_of_some hn]
      cases hget : (n.store target).get? key with
      | none => exact modifyNode_congr hn (by simp [Store.read, hget])
      | some entry =>
          by_cases hexpired : entry.expiredAt now
          · simp only [hexpired, if_true, follow_cons, follow_nil, change, htarget,
              not_false_eq_true, copy?_of_some hn, hget, Option.any_some, and_self,
              modifyNode_modifyNode]
            refine modifyNode_congr hn ?_
            simp [Store.read_of_expired hget hexpired]
          · simp only [hexpired, Bool.false_eq_true, if_false]
            exact modifyNode_congr hn (by simp [Store.read, hget, hexpired])

theorem readLocal_fst (c : Cluster κ V) (node : Nat) (key : κ) (now : Millis) :
    (c.readLocal node key now).1 = c.follow (c.readLocalTrace node key now) := by
  unfold readLocal readLocalTrace
  cases hrole : c.affinity.role node key with
  | primary => rfl
  | backup =>
      apply readStore_fst
      rintro ⟨-, hprimary⟩
      rw [(c.affinity.role_eq_primary_iff node key).2 hprimary] at hrole
      cases hrole
  | none =>
      simp only
      split
      · exact readStore_fst c node .near key now (by simp)
      · rfl

/-- A read that is an access runs on the primary. -/
theorem get_of_access {call : Call} (h : (call.policy.on .access).isSome) (c : Cluster κ V)
    (key : κ) : c.get call key = c.run call key .get := by
  rw [get, if_neg]
  rw [Option.isNone_iff_eq_none, ← Option.not_isSome_iff_eq_none]
  exact not_not_intro h

theorem get_fst (c : Cluster κ V) (call : Call) (key : κ) :
    (c.get call key).1 = c.follow (c.getTrace call key) := by
  unfold get getTrace run
  split
  · rw [follow_append, ← readLocal_fst]
    cases hread : c.readLocal call.node key call.now with
    | mk d found =>
        cases found with
        | some entry => rfl
        | none => exact execute_fst d key call.policy (some call.node) call.now Decision.get
  · exact execute_fst c key call.policy (some call.node) call.now Decision.get

theorem getEach_fst (call : Call) (keys : List κ) (c : Cluster κ V) :
    (getEach call keys c).1 = c.follow (getEachTrace call keys c) := by
  induction keys generalizing c with
  | nil => rfl
  | cons key rest ih =>
      simp only [getEach, getEachTrace, follow_append, ← get_fst]
      exact ih _

/-- An operation makes the changes of its trace. -/
theorem perform_fst [DecidableEq V] [Append V] [Inhabited V] (c : Cluster κ V) (call : Call)
    (operation : Operation κ V) :
    (c.perform call operation).1 = c.follow (c.performTrace call operation) := by
  cases operation with
  | put key value => exact execute_fst c key call.policy (some call.node) call.now (.put value)
  | putAll entries =>
      exact executeAll_fst call.policy (some call.node) call.now _ c _ (fun key => rfl)
  | putIfAbsent key value =>
      exact execute_fst c key call.policy (some call.node) call.now (.putIfAbsent value)
  | get key => exact get_fst c call key
  | getAll keys => exact getEach_fst call keys c
  | remove key => exact execute_fst c key call.policy (some call.node) call.now .remove
  | removeAll keys =>
      exact executeAll_fst call.policy (some call.node) call.now _ c _ (fun key => rfl)
  | removeIfEquals key expected =>
      exact execute_fst c key call.policy (some call.node) call.now (.removeIfEquals expected)
  | replace key value =>
      exact execute_fst c key call.policy (some call.node) call.now (.replace value)
  | replaceIfEquals key expected value =>
      exact execute_fst c key call.policy (some call.node) call.now
        (.replaceIfEquals expected value)
  | invoke key script =>
      exact execute_fst c key call.policy (some call.node) call.now (.invoke script)
  | entries => exact executeAll_fst call.policy none call.now _ c _ (fun key => rfl)
  | localPeek key => rfl
  | peekTtl key => rfl
  | ttl key => rfl

/-! ## Sweeps and commits make the changes of their traces -/

/-- The one change of a reclamation is made and counted, if there is one. -/
theorem reclaim_eq (c : Cluster κ V) (node : Nat) (target : Target) (d : Deadline κ)
    (now : Millis) :
    (c.reclaim node target d now).1 = c.follow (c.reclaimTrace node target d now) ∧
      (c.reclaim node target d now).2.toNat = (c.reclaimTrace node target d now).length := by
  unfold reclaim reclaimTrace
  by_cases hprimary : target = .owned ∧ c.affinity.primary d.key = node
  · obtain ⟨rfl, rfl⟩ := hprimary
    simp only [and_self, if_true, copy?_primary, reclaimPrimary]
    cases hstored : c.stored? d.key with
    | none => exact ⟨rfl, rfl⟩
    | some entry =>
        by_cases hlisted : entry.ttl.expireTime = d.time ∧ entry.expiredAt now
        · simp [hlisted, change, hstored]
        · simp [hlisted]
  · simp only [hprimary, if_false, reclaimLocal]
    cases hn : c.nodes[node]? with
    | none => simp [copy?_of_none hn]
    | some n =>
        simp only [copy?_of_some hn]
        cases hget : (n.store target).get? d.key with
        | none => simp [Store.reclaim, Store.update, hget]
        | some entry =>
            by_cases hlisted : entry.ttl.expireTime = d.time ∧ entry.expiredAt now
            · simp only [Store.reclaim_of_expired hget hlisted.1 hlisted.2]
              simp only [Option.any_some, hlisted.1, hlisted.2, decide_true, Bool.and_self, if_true,
                follow_cons, follow_nil, change, hprimary, not_false_eq_true, copy?_of_some hn, hget,
                and_self]
              exact ⟨modifyNode_congr hn rfl, rfl⟩
            · simp [Store.reclaim, Store.update, hget, hlisted]

/-- The rest of a scan makes the changes of its trace and counts them. -/
theorem sweepFrom_eq (node : Nat) (target : Target) (now : Millis) (fuel : Nat) (scan : Scan κ)
    (c : Cluster κ V) :
    sweepFrom node target now fuel scan c =
      (c.follow (sweepFromTrace node target now fuel scan c),
        (sweepFromTrace node target now fuel scan c).length) := by
  induction fuel generalizing scan c with
  | zero => rfl
  | succ fuel ih =>
      unfold sweepFrom sweepFromTrace
      cases (c.index? node target).map scan.next with
      | none => rfl
      | some listed =>
          obtain ⟨_ | d, scan⟩ := listed
          · rfl
          · obtain ⟨hcluster, hcount⟩ := c.reclaim_eq node target d now
            simp only [follow_append, List.length_append, ← hcluster, ← hcount, ih]

theorem sweepStore_eq (c : Cluster κ V) (node : Nat) (target : Target) (now : Millis) :
    c.sweepStore node target now = (c.follow (c.sweepStoreTrace node target now),
      (c.sweepStoreTrace node target now).length) :=
  sweepFrom_eq ..

theorem sweep_fst (c : Cluster κ V) (node : Nat) (now : Millis) :
    (c.sweep node now).1 = c.follow (c.sweepTrace node now) := by
  unfold sweepTrace
  rw [follow_append]
  simp only [sweep, sweepStore_eq]

theorem applyStaged_eq (c : Cluster κ V) (key : κ) (staged : Option (V × CommitTtl))
    (now : Millis) : c.applyStaged key staged now = c.change (c.installTrace key staged now) := by
  unfold applyStaged installTrace
  cases staged <;> rfl

theorem commit_ok {c d : Cluster κ V} {tx : Transaction κ V} {now : Millis}
    (h : c.commit tx now = .ok d) :
    c.conflict? tx now = none ∧ d = c.follow (commitTrace now tx.bindings.dirty c) := by
  unfold commit at h
  split at h
  · cases h
  next hconflict =>
    cases h
    refine ⟨hconflict, ?_⟩
    generalize tx.bindings.dirty = dirty
    clear hconflict
    induction dirty generalizing c with
    | nil => rfl
    | cons head rest ih =>
        obtain ⟨key, binding⟩ := head
        simp only [commitTrace, follow_cons, ← applyStaged_eq]
        exact ih

end Cluster

/-- A transaction has touched nothing when it begins. -/
theorem Transaction.bindings_begin {κ : Type u} {V : Type v} [Ord κ] {c : Cluster κ V}
    {policy : Policy} {opened : Transaction κ V} (h : Transaction.begin c policy = .ok opened) :
    opened.bindings = ∅ := by
  unfold Transaction.begin at h
  split at h
  · cases h
    rfl
  · cases h

namespace Move

variable {κ : Type u} {V : Type v}

/-- Whether the move delivers a message. -/
def isDelivery : Move κ V → Bool
  | deliver _ => true
  | _ => false

theorem eq_deliver {move : Move κ V} (h : move.isDelivery = true) : ∃ node, move = .deliver node := by
  cases move with
  | deliver node => exact ⟨node, rfl⟩
  | _ => cases h

/-- The reading that the move sets the clock to, if it does. -/
def reading? : Move κ V → Option Millis
  | setClock now => some now
  | _ => none

end Move

namespace System

variable {κ : Type u} {V : Type v} [Ord κ] [TransOrd κ] [Hashable κ]
variable [DecidableEq V] [Append V] [Inhabited V]

/-- The changes of a move. -/
def moveTrace (s : System κ V) : Move κ V → List (Change κ V)
  | .call node scope operation =>
    match s.cluster.call node scope s.clock with
    | .error _ => []
    | .ok call => s.cluster.performTrace call operation
  | .commit tx =>
    match s.transactions[tx]? with
    | none => []
    | some opened =>
      match s.cluster.conflict? opened s.clock with
      | some _ => []
      | none => Cluster.commitTrace s.clock opened.bindings.dirty s.cluster
  | .sweep node => s.cluster.sweepTrace node s.clock
  | .deliver node => [.deliver node]
  | .begin .. | .stage .. | .rollback _ | .setClock _ => []

/-- The trace of a move is that of an operation through a node of the cluster, of a commit without
conflict, of a sweep or of a delivery. -/
theorem forall_moveTrace {holds : Change κ V → Prop} (s : System κ V) {move : Move κ V}
    (hperform : ∀ node scope operation, move = .call node scope operation →
      node < s.cluster.nodes.length → ∀ x ∈ s.cluster.performTrace
        { node, policy := .effective s.cluster.config.policy scope, now := s.clock } operation,
      holds x)
    (hcommit : ∀ (tx : Nat) (opened : Transaction κ V), s.transactions[tx]? = some opened →
      ∀ x ∈ Cluster.commitTrace s.clock opened.bindings.dirty s.cluster, holds x)
    (hsweep : ∀ node, ∀ x ∈ s.cluster.sweepTrace node s.clock, holds x)
    (hdeliver : ∀ node, holds (.deliver node)) : ∀ x ∈ s.moveTrace move, holds x := by
  intro x hx
  unfold moveTrace at hx
  split at hx
  next node scope operation =>
    split at hx
    next => cases hx
    next call hcall =>
      obtain ⟨hnode, rfl⟩ := Cluster.call_ok hcall
      exact hperform node scope operation rfl hnode x hx
  next tx =>
    split at hx
    next => cases hx
    next opened hopened =>
      split at hx
      · cases hx
      · exact hcommit tx opened hopened x hx
  next node => exact hsweep node x hx
  next node =>
    rw [List.mem_singleton.1 hx]
    exact hdeliver node
  all_goals cases hx

/-- The changes of a run. -/
def trace : List (Move κ V) → System κ V → List (Change κ V)
  | [], _ => []
  | move :: rest, s => s.moveTrace move ++ trace rest (s.step move).1

/-- How many versions a run draws. -/
def drawn (moves : List (Move κ V)) (s : System κ V) : Nat :=
  (trace moves s).countP (·.draws)

/-- A move makes the changes of its trace. -/
theorem step_cluster (s : System κ V) (move : Move κ V) :
    (s.step move).1.cluster = s.cluster.follow (s.moveTrace move) := by
  cases move with
  | call node scope operation =>
      simp only [step, moveTrace]
      cases s.cluster.call node scope s.clock with
      | error e => rfl
      | ok call => exact Cluster.perform_fst s.cluster call operation
  | begin tx node scope =>
      simp only [step, moveTrace]
      split
      · rfl
      · split <;> rfl
  | stage tx scope operation =>
      simp only [step, moveTrace]
      split <;> rfl
  | commit tx =>
      simp only [step, moveTrace]
      cases hopen : s.transactions[tx]? with
      | none => rfl
      | some opened =>
          simp only
          cases hcommit : s.cluster.commit opened s.clock with
          | error key =>
              have hconflict : s.cluster.conflict? opened s.clock = some key := by
                unfold Cluster.commit at hcommit
                split at hcommit <;> cases hcommit
                assumption
              simp [hconflict]
          | ok d =>
              obtain ⟨hconflict, hd⟩ := Cluster.commit_ok hcommit
              simp [hconflict, hd]
  | rollback tx =>
      simp only [step, moveTrace]
      split <;> rfl
  | sweep node => exact Cluster.sweep_fst s.cluster node s.clock
  | deliver node => rfl
  | setClock now => rfl

/-- A run makes the changes of its trace. -/
theorem run_cluster (moves : List (Move κ V)) (s : System κ V) :
    (run moves s).1.cluster = s.cluster.follow (trace moves s) := by
  induction moves generalizing s with
  | nil => rfl
  | cons move rest ih =>
      simp only [run, trace, Cluster.follow_append, ← step_cluster]
      exact ih (s.step move).1

theorem trace_append (a b : List (Move κ V)) (s : System κ V) :
    trace (a ++ b) s = trace a s ++ trace b (run a s).1 := by
  induction a generalizing s with
  | nil => rfl
  | cons move rest ih =>
      simp only [List.cons_append, trace, run, List.append_assoc]
      rw [ih]

theorem drawn_append (a b : List (Move κ V)) (s : System κ V) :
    drawn (a ++ b) s = drawn a s + drawn b (run a s).1 := by
  rw [drawn, trace_append, List.countP_append]
  rfl

/-! ## The clock -/

theorem clock_step (s : System κ V) (move : Move κ V) :
    (s.step move).1.clock = move.reading?.getD s.clock := by
  cases move with
  | call node scope operation =>
      simp only [step]
      split <;> rfl
  | begin tx node scope =>
      simp only [step]
      split
      · rfl
      · split <;> rfl
  | stage tx scope operation =>
      simp only [step]
      split <;> rfl
  | commit tx =>
      simp only [step]
      split
      · rfl
      · split <;> rfl
  | rollback tx =>
      simp only [step]
      split <;> rfl
  | sweep | deliver | setClock => rfl

end System

end Ephemera
