import Ephemera.Proofs.Commit
import Ephemera.Proofs.Ledger

/-! # Copies that only expire

Take a run in which nothing is removed on purpose: no operation asks for it, and no policy that is used
has a duration of zero. Copies then go because they have expired. The node that finds one expired, in an
operation or in a sweep, counts it as expired or swept. If that node is the primary of the key it also
ships a removal, and a store that drops its copy on delivery counts a removal, although nobody asked for
one. Nothing else makes a store count removals.
-/

namespace Ephemera

open Std

universe u v w

/-! ## Asking for nothing to be removed -/

/-- No duration of the policy is zero. -/
def Policy.Lasts (p : Policy) : Prop :=
  ∀ kind duration, p.on kind = some duration → duration.isZero = false

theorem Ttl.isZero_of_touch {t : Ttl} {kind : Touch} {duration : Option Duration} {now : Millis}
    (h : t.touch kind duration now = .expire) : ∃ d, duration = some d ∧ d.isZero = true := by
  cases duration with
  | none => cases kind <;> cases h
  | some d =>
      rw [touch_some] at h
      split at h
      next hzero => exact ⟨d, rfl, hzero⟩
      next => cases h

/-- A removal is planned only if it is intended, or for a duration of zero. -/
theorem plan_ne_remove {V : Type u} {live : Option (V × Ttl)} {intent : Intent V} {policy : Policy}
    {now : Millis} (hpolicy : policy.Lasts) (hintent : intent ≠ .remove) :
    plan live intent policy now ≠ .remove := by
  have htouch : ∀ (t : Ttl) kind, t.touch kind (policy.on kind) now ≠ .expire := by
    intro t kind hexpire
    obtain ⟨d, hd, hzero⟩ := Ttl.isZero_of_touch hexpire
    rw [hpolicy kind d hd] at hzero
    cases hzero
  unfold plan
  split
  · split <;> exact nofun
  · exact nofun
  · split
    · exact nofun
    next hexpire => exact absurd hexpire (htouch _ _)
  · exact absurd rfl hintent
  · split
    · split <;> exact nofun
    next hexpire => exact absurd hexpire (htouch _ _)
  · exact nofun

theorem Effect.plan_of_remove {V : Type u} {stored live : Option (Entry V)} {p : Plan V}
    {version : UInt64} (h : ofPlan stored live p = .remove version) : p = .remove := by
  unfold ofPlan at h
  split at h
  · cases h
  · rfl
  · split at h <;> cases h

/-- Whether an operation of a transaction asks for entries to be removed. -/
def Transaction.Operation.removes {κ : Type u} {V : Type v} : Operation κ V → Bool
  | .remove _ | .removeAll _ => true
  | .invoke _ script => Command.removesLast script false
  | .get _ | .put .. | .getAll _ | .putAll _ => false

theorem Transaction.Operation.ne_remove_of_touches {κ : Type u} {V : Type v} [Append V] [Inhabited V]
    {operation : Operation κ V} (h : operation.removes = false) :
    ∀ touch ∈ operation.touches, ∀ live, touch.2 live ≠ .remove := by
  intro touch htouch live hremove
  cases operation with
  | get key =>
      rw [List.mem_singleton.1 htouch] at hremove
      cases hremove
  | put key value =>
      rw [List.mem_singleton.1 htouch] at hremove
      cases hremove
  | remove => cases h
  | invoke key script =>
      rw [List.mem_singleton.1 htouch] at hremove
      cases h.symm.trans (Decision.removesLast_of_invoke hremove)
  | getAll keys =>
      obtain ⟨key, -, rfl⟩ := List.mem_map.1 htouch
      cases hremove
  | putAll entries =>
      obtain ⟨entry, -, rfl⟩ := List.mem_map.1 htouch
      cases hremove
  | removeAll => cases h

namespace Binding

variable {V : Type v}

/-- If the transaction has changed the key it has a value for it. -/
def Stays (b : Binding V) : Prop :=
  b.dirty = true → b.staged.isSome

theorem Stays.record {b : Binding V} (h : b.Stays) {t : Staging V} (hpolicy : t.policy.Lasts)
    (hintent : ∀ live, t.intent live ≠ .remove) : (b.record t).Stays := by
  unfold Binding.record
  simp only
  cases hplan : plan (b.live t.now) (t.intent ((b.live t.now).map (·.1))) t.policy t.now with
  | unchanged => exact h
  | put => exact fun _ => rfl
  | remove => exact absurd hplan (plan_ne_remove hpolicy (hintent _))

end Binding

namespace Transaction

variable {κ : Type u} {V : Type v} [Ord κ] [TransOrd κ]

/-- The transaction would remove no key. -/
def Stays (tx : Transaction κ V) : Prop :=
  ∀ (key : κ) (b : Binding V), tx.bindings[key]? = some b → b.Stays

theorem stays_of_begin {c : Cluster κ V} {policy : Policy} {opened : Transaction κ V}
    (h : begin c policy = .ok opened) : opened.Stays := by
  intro key b hb
  simp [bindings_begin h] at hb

theorem Stays.perform [LawfulEqOrd κ] [Append V] [Inhabited V] {tx : Transaction κ V} (h : tx.Stays)
    (c : Cluster κ V) (now : Millis) {scope : Option Policy}
    (hpolicy : (Policy.effective tx.policy scope).Lasts) {operation : Operation κ V}
    (hremoves : operation.removes = false) : (tx.perform c scope now operation).1.Stays := by
  intro key b hb
  rw [after_perform] at hb
  refine Binding.after_induction (fun _ _ => nofun) (fun t ht b hstays => ?_) (h key) hb
  obtain ⟨touch, htouch, rfl⟩ := List.mem_map.1 ht
  exact hstays.record hpolicy
    (Operation.ne_remove_of_touches hremoves touch (List.mem_filter.1 htouch).1)

end Transaction

/-! ## Traces without removals on purpose -/

/-- A copy that the change takes away has expired. -/
def Change.Lapses {κ : Type u} {V : Type v} : Change κ V → Prop
  | .remove _ event _ | .drop _ _ _ event _ => event = .expired ∨ event = .swept
  | .count .. | .write .. | .share .. | .note .. | .deliver _ => True

namespace Cluster

variable {κ : Type u} {V : Type v} [Ord κ] [TransOrd κ]

theorem lapses_touchTrace {ρ : Type w} (c : Cluster κ V) {policy : Policy} (hpolicy : policy.Lasts)
    (via : Option Nat) (now : Millis) (key : κ) {decide : Decision V ρ}
    (hdecide : ∀ live, (decide live).1 ≠ .remove) :
    ∀ x ∈ c.touchTrace policy via now key decide, x.Lapses := by
  intro x hx
  rcases mem_touchTrace hx with ⟨event, -, rfl⟩ | hx
  · trivial
  · unfold Effect.trace at hx
    split at hx
    next => rw [List.mem_singleton.1 hx]; trivial
    next => rw [List.mem_singleton.1 hx]; exact .inl rfl
    next hremove =>
      exact absurd (Effect.plan_of_remove hremove) (plan_ne_remove hpolicy (hdecide _))
    next =>
      obtain ⟨node, -, rfl⟩ := Option.map_eq_some_iff.1 (Option.mem_toList.1 hx)
      trivial
    next => cases hx

variable [Hashable κ]

theorem lapses_performTrace [DecidableEq V] [Append V] [Inhabited V] (c : Cluster κ V) {call : Call}
    (hpolicy : call.policy.Lasts) {operation : Operation κ V} (hremoves : operation.removes = false) :
    ∀ x ∈ c.performTrace call operation, x.Lapses := by
  refine forall_performTrace c operation (fun d via key decide _ hdecide => ?_) fun d key => ?_
  · refine d.lapses_touchTrace hpolicy via call.now key fun live hremove => ?_
    cases hremoves.symm.trans (hdecide live hremove)
  · exact d.forall_readLocalTrace call.node key call.now (fun _ _ _ => trivial) fun _ => .inl rfl

end Cluster

namespace System

variable {κ : Type u} {V : Type v} [Ord κ] [TransOrd κ] {s : System κ V}

/-- No open transaction would remove a key. -/
def Staying (s : System κ V) : Prop :=
  ∀ (tx : Nat) (opened : Transaction κ V), s.transactions[tx]? = some opened → opened.Stays

theorem Staying.insert (h : s.Staying) (tx : Nat) {added : Transaction κ V} (hadded : added.Stays) :
    Staying { s with transactions := s.transactions.insert tx added } :=
  fun _ _ hopened => forall_insert h tx hadded hopened

theorem Staying.erase (h : s.Staying) (tx : Nat) :
    Staying { s with transactions := s.transactions.erase tx } :=
  fun _ _ hopened => forall_erase h hopened

variable [Hashable κ] [DecidableEq V] [Append V] [Inhabited V]

/-- The move asks for nothing to be removed, and the policy that it uses has no duration of zero. -/
def Keeps (s : System κ V) : Move κ V → Prop
  | .call _ scope operation =>
    operation.removes = false ∧ (Policy.effective s.cluster.config.policy scope).Lasts
  | .stage tx scope operation =>
    operation.removes = false ∧
      ∀ opened, s.transactions[tx]? = some opened → (Policy.effective opened.policy scope).Lasts
  | .begin .. | .commit _ | .rollback _ | .sweep _ | .deliver _ | .setClock _ => True

/-- Every move of a run does so. -/
def KeepsAll : List (Move κ V) → System κ V → Prop
  | [], _ => True
  | move :: rest, s => s.Keeps move ∧ KeepsAll rest (s.step move).1

variable [LawfulEqOrd κ]

theorem Staying.step (h : s.Staying) {move : Move κ V} (hkeeps : s.Keeps move) :
    (s.step move).1.Staying := by
  cases move with
  | call node scope operation =>
      simp only [System.step]
      split <;> exact h
  | begin tx node scope =>
      simp only [System.step]
      split
      · exact h
      · split
        · exact h
        next opened hopened => exact h.insert tx (Transaction.stays_of_begin hopened)
  | stage tx scope operation =>
      simp only [System.step]
      split
      · exact h
      next opened hopened =>
        exact h.insert tx ((h tx opened hopened).perform s.cluster s.clock (hkeeps.2 opened hopened)
          hkeeps.1)
  | commit tx =>
      simp only [System.step]
      split
      · exact h
      · split <;> exact h.erase tx
  | rollback tx =>
      simp only [System.step]
      split
      · exact h
      · exact h.erase tx
  | sweep | deliver | setClock => exact h

theorem lapses_moveTrace (h : s.Staying) {move : Move κ V} (hkeeps : s.Keeps move) :
    ∀ x ∈ s.moveTrace move, x.Lapses := by
  refine s.forall_moveTrace (fun node scope operation hmove _ => ?_) (fun tx opened hopened => ?_)
    (fun node => ?_) fun _ => trivial
  · subst hmove
    exact s.cluster.lapses_performTrace hkeeps.2 hkeeps.1
  · refine Cluster.forall_commitTrace s.clock s.cluster (fun _ _ _ => trivial) ?_
    intro pair hpair hnone
    obtain ⟨hbound, hdirty⟩ := (Bindings.mem_dirty_iff opened.bindings pair.1 pair.2).1 hpair
    have hstaged := h tx opened hopened pair.1 pair.2 hbound hdirty
    rw [hnone] at hstaged
    cases hstaged
  · exact Cluster.forall_sweepTrace s.cluster fun d target deadline =>
      d.forall_reclaimTrace node target deadline s.clock (fun _ _ _ => .inr rfl) (.inr rfl)

theorem lapses_trace {moves : List (Move κ V)} (h : s.Staying) (hkeeps : KeepsAll moves s) :
    ∀ x ∈ trace moves s, x.Lapses := by
  induction moves generalizing s with
  | nil =>
      intro x hx
      cases hx
  | cons move rest ih =>
      intro x hx
      rcases List.mem_append.1 hx with hx | hx
      · exact lapses_moveTrace h hkeeps.1 x hx
      · exact ih (h.step hkeeps.1) hkeeps.2 x hx

end System

/-! ## Which store counts a removal -/

/-- A store that is told of an update takes a copy away only if the update is a removal. -/
theorem Update.event_of_take {κ : Type u} {V : Type v} {update : Update κ V}
    {current : Option (Entry V)} {key : κ} {event : StoreEvent}
    (h : .take key event ∈ update.actions current) : event = .removal := by
  cases update with
  | put k entry => cases List.mem_singleton.1 (List.mem_ite_nil_left.1 h).2
  | remove k version =>
      cases List.mem_singleton.1 (List.mem_ite_nil_right.1 h).2
      rfl

namespace Cluster

variable {κ : Type u} {V : Type v} [Ord κ] [TransOrd κ]

/-- A store counts a removal when it is delivered one, and otherwise that its copy has expired or was
swept. -/
theorem event_of_take {c : Cluster κ V} {x : Change κ V} (hx : x.Lapses) {node : Nat}
    {target : Target} {key : κ} {event : StoreEvent}
    (h : .take key event ∈ c.actions node target x) :
    x = .deliver node ∧ event = .removal ∨
      x ≠ .deliver node ∧ (event = .expired ∨ event = .swept) := by
  cases x with
  | count | write | note => cases List.mem_singleton.1 (List.mem_ite_nil_right.1 h).2
  | share => cases h
  | remove | drop =>
      cases List.mem_singleton.1 (List.mem_ite_nil_right.1 h).2
      exact .inr ⟨nofun, hx⟩
  | deliver other =>
      simp only [actions] at h
      split at h
      · cases h
      next m _ _ =>
        obtain ⟨⟨rfl, -⟩, hupdate⟩ := List.mem_ite_nil_right.1 h
        exact .inl ⟨rfl, Update.event_of_take hupdate⟩

variable [Hashable κ] {c : Cluster κ V} {node : Nat} {target : Target} {s : Store κ V}

/-- A change that takes a copy from a store counts a removal if it is a delivery, and otherwise that
the copy has expired or was swept. -/
theorem lapsed_change (hc : c.Running) (hs : c.store? node target = some s) {x : Change κ V}
    (hcounted : x.Counted) (hlapses : x.Lapses) :
    ∃ t, (c.change x).store? node target = some t ∧
      ((∀ key, (s.get? key).isSome → (t.get? key).isSome) ∧
        t.counters.removals = s.counters.removals ∨
      ∃ key event, (s.get? key).isSome ∧ t = (s.write key .remove).record event ∧
        (x = .deliver node ∧ event = .removal ∨
          x ≠ .deliver node ∧ (event = .expired ∨ event = .swept))) := by
  obtain ⟨t, ht, ⟨key, event, hactions, -, hkey, htaken⟩ | ⟨-, hstays, hremovals, -⟩⟩ :=
    taken_change hc hs hcounted
  · have htake : .take key event ∈ c.actions node target x := by
      rw [hactions]
      exact List.mem_cons_self
    exact ⟨t, ht, .inr ⟨key, event, hkey, htaken, event_of_take hlapses htake⟩⟩
  · exact ⟨t, ht, .inl ⟨hstays, hremovals⟩⟩

/-- Every copy in the store stays there when the change is made. -/
def Spares (c : Cluster κ V) (node : Nat) (target : Target) (x : Change κ V) : Prop :=
  ∀ key, (c.copy? node target key).isSome → ((c.change x).copy? node target key).isSome

/-- A change makes a store count a removal if it is a delivery that takes a copy. -/
theorem count_actions_eq_zero_iff (hc : c.Running) (hs : c.store? node target = some s)
    {x : Change κ V} (hcounted : x.Counted) (hlapses : x.Lapses) :
    ((c.actions node target x).map (·.event)).count .removal = 0 ↔
      (x = .deliver node → c.Spares node target x) := by
  obtain ⟨t, ht, htaken⟩ := taken_change hc hs hcounted
  have hspares : c.Spares node target x ↔ ∀ key, (s.get? key).isSome → (t.get? key).isSome := by
    simp only [Spares, copy?_eq, hs, ht, Option.bind_some]
  rcases htaken with ⟨key, event, hactions, -, hkey, rfl⟩ | ⟨hkeeps, hstays, -⟩
  · have hgone : ¬c.Spares node target x := by
      intro h
      have hsome := hspares.1 h key hkey
      rw [Store.get?_record, Store.get?_write_remove, if_pos ReflCmp.compare_self] at hsome
      cases hsome
    have htake : .take key event ∈ c.actions node target x := by
      rw [hactions]
      exact List.mem_cons_self
    have hevent := event_of_take hlapses htake
    rw [hactions]
    rcases hevent with ⟨hx, rfl⟩ | ⟨hx, rfl | rfl⟩
    · exact iff_of_false Nat.one_ne_zero fun h => hgone (h hx)
    · exact iff_of_true rfl fun h => absurd h hx
    · exact iff_of_true rfl fun h => absurd h hx
  · refine iff_of_true (List.count_eq_zero.2 fun hmem => ?_) fun _ => hspares.2 hstays
    obtain ⟨a, ha, hremoval⟩ := List.mem_map.1 hmem
    have hloss := hkeeps a ha
    rw [hremoval] at hloss
    cases hloss

/-- The same for a trace. -/
theorem count_ledger_eq_zero_iff (hc : c.Running) (hs : c.store? node target = some s)
    {trace : List (Change κ V)} (hcounted : ∀ x ∈ trace, x.Counted) (hlapses : ∀ x ∈ trace, x.Lapses) :
    ((ledger node target trace c).map (·.event)).count .removal = 0 ↔
      ∀ before after, trace = before ++ .deliver node :: after →
        (c.follow before).Spares node target (.deliver node) := by
  induction trace generalizing c s with
  | nil => exact iff_of_true rfl fun before after h => by simp at h
  | cons x rest ih =>
      obtain ⟨t, ht, -⟩ := taken_change hc hs (hcounted x List.mem_cons_self)
      rw [ledger, List.map_append, List.count_append, Nat.add_eq_zero_iff,
        count_actions_eq_zero_iff hc hs (hcounted x List.mem_cons_self)
          (hlapses x List.mem_cons_self),
        ih (hc.change x) ht (fun y hy => hcounted y (List.mem_cons_of_mem x hy))
          fun y hy => hlapses y (List.mem_cons_of_mem x hy)]
      constructor
      · rintro ⟨hfirst, hrest⟩ before after hsplit
        cases before with
        | nil =>
            obtain ⟨rfl, -⟩ := List.cons.inj hsplit
            exact hfirst rfl
        | cons y before =>
            obtain ⟨rfl, htail⟩ := List.cons.inj hsplit
            exact hrest before after htail
      · intro h
        refine ⟨?_, fun before after hsplit => h (x :: before) after (by rw [hsplit]; rfl)⟩
        rintro rfl
        exact h [] rest rfl

end Cluster

namespace System

variable {κ : Type u} {V : Type v} [Ord κ] [TransOrd κ] [LawfulEqOrd κ] [Hashable κ]
variable [DecidableEq V] [Append V] [Inhabited V]

/-- Where nothing is removed on purpose, a store counts removals only because a removal is delivered
to it that finds a copy, so its counter stays at zero exactly as long as no delivery takes a copy from
it. Copies that are taken in any other way are counted as expired or swept, and a primary ships a
removal only after it has counted its own copy so. -/
theorem removals_eq_zero_iff {config : CacheConfig} {nodes : Nat} {affinity : Affinity κ}
    {c₀ : Cluster κ V} (hstart : Cluster.start config nodes affinity = .ok c₀) (now : Millis)
    {moves : List (Move κ V)} (hkeeps : KeepsAll moves { cluster := c₀, clock := now })
    {s : System κ V} (hrun : (run moves { cluster := c₀, clock := now }).1 = s) {node : Nat}
    {target : Target} {store : Store κ V} (hstore : s.cluster.store? node target = some store) :
    let changes := trace moves { cluster := c₀, clock := now }
    let spared := ∀ before after, changes = before ++ .deliver node :: after →
      (c₀.follow before).Spares node target (.deliver node)
    (spared → store.counters.removals = 0) ∧
    ((Cluster.ledger node target changes c₀).countP (·.isPut) < 2 ^ 64 →
      store.counters.removals = 0 → spared) ∧
    (∀ before x after, changes = before ++ x :: after → ∃ s t,
      (c₀.follow before).store? node target = some s ∧
      (c₀.follow (before ++ [x])).store? node target = some t ∧
      ((∀ key, (s.get? key).isSome → (t.get? key).isSome) ∧
        t.counters.removals = s.counters.removals ∨
      ∃ key event, (s.get? key).isSome ∧ t = (s.write key .remove).record event ∧
        (x = .deliver node ∧ event = .removal ∨
          x ≠ .deliver node ∧ (event = .expired ∨ event = .swept)))) ∧
    ∀ key event awaited, .remove key event awaited ∈ changes → event = .expired ∨ event = .swept := by
  intro changes spared
  have hrunning := Cluster.running_start hstart
  have hcounted : ∀ x ∈ changes, x.Counted := counted_trace moves _
  have hlapses : ∀ x ∈ changes, x.Lapses :=
    lapses_trace (fun tx opened h => by simp at h) hkeeps
  have hreplayed := Cluster.store?_follow hrunning changes node target
  rw [← run_cluster moves { cluster := c₀, clock := now }, hrun, hstore] at hreplayed
  obtain ⟨first, hfirst, hlast⟩ := Option.map_eq_some_iff.1 hreplayed.symm
  obtain rfl : first = .empty config.eager := Cluster.store?_start hstart hfirst
  have hspared := Cluster.count_ledger_eq_zero_iff hrunning hfirst hcounted hlapses
  rw [← hlast]
  refine ⟨fun h => ?_, fun hputs hremovals => ?_, ?_, fun key event awaited hmem => hlapses _ hmem⟩
  · exact (Store.replay_removals_eq_zero_iff (by rw [hspared.2 h]; decide)).2 (hspared.2 h)
  · have hproper := Cluster.allProper_ledger hrunning hfirst hcounted
    exact hspared.1 ((Store.replay_removals_eq_zero_iff
      (Nat.lt_of_le_of_lt hproper.count_removal_le hputs)).1 hremovals)
  · intro before x after hchanges
    have hmem : x ∈ changes := by
      rw [hchanges]
      exact List.mem_append_right before List.mem_cons_self
    have hbefore := Cluster.store?_follow hrunning before node target
    rw [hfirst] at hbefore
    obtain ⟨t, ht, htaken⟩ := Cluster.lapsed_change (hrunning.follow before) hbefore
      (hcounted x hmem) (hlapses x hmem)
    exact ⟨_, t, hbefore, by rw [Cluster.follow_append]; exact ht, htaken⟩

/-- A key is stored to live for three milliseconds and reaches its backup. Five milliseconds later the
backup is swept, then the primary, and the backup is told of it. -/
def backupFirst : List (Move Nat (List Nat)) :=
  [.call 0 (some (.custom (.created (.millis 3)))) (.put 0 [7]), .deliver 1, .setClock 5, .sweep 1,
    .sweep 0, .deliver 1]

/-- The same, but the primary is swept and its backup is not. -/
def primaryOnly : List (Move Nat (List Nat)) :=
  [.call 0 (some (.custom (.created (.millis 3)))) (.put 0 [7]), .deliver 1, .setClock 5, .sweep 0,
    .deliver 1]

theorem lasts_created_three : (Policy.custom (.created (.millis 3))).Lasts := by
  intro kind duration h
  cases kind <;> cases h
  rfl

theorem removals_eq_zero_iff_backupFirst :
    ∃ (c₀ : Cluster Nat (List Nat)) (s : System Nat (List Nat)) (store : Store Nat (List Nat)),
      Cluster.start {} 3 trio = .ok c₀ ∧ KeepsAll backupFirst { cluster := c₀ } ∧
      (run backupFirst { cluster := c₀ }).1 = s ∧ s.cluster.store? 1 .owned = some store ∧
      store.counters.swept = 1 ∧ store.counters.removals = 0 ∧
      (trace backupFirst { cluster := c₀ }).countP (· matches .deliver 1) = 2 ∧
      ∀ before after, trace backupFirst { cluster := c₀ } = before ++ .deliver 1 :: after →
        (c₀.follow before).Spares 1 .owned (.deliver 1) := by
  let c₀ : Cluster Nat (List Nat) := { config := {}, affinity := trio, nodes := .empty 3 true }
  have hstart : Cluster.start {} 3 trio = .ok c₀ := rfl
  have hkeeps : KeepsAll backupFirst { cluster := c₀ } :=
    ⟨⟨rfl, lasts_created_three⟩, trivial, trivial, trivial, trivial, trivial, trivial⟩
  have hsome : ((run backupFirst { cluster := c₀ }).1.cluster.store? 1 .owned).isSome = true := by cbv
  have hcounters : ((run backupFirst { cluster := c₀ }).1.cluster.store? 1 .owned).map
      (fun store => (store.counters.swept, store.counters.removals)) = some (1, 0) := by cbv
  have hputs : (Cluster.ledger 1 .owned (trace backupFirst { cluster := c₀ }) c₀).countP (·.isPut) =
      1 := by cbv
  have hdeliveries : (trace backupFirst { cluster := c₀ }).countP (· matches .deliver 1) = 2 := by cbv
  obtain ⟨store, hstore⟩ := Option.isSome_iff_exists.1 hsome
  rw [hstore] at hcounters
  obtain ⟨hswept, hremovals⟩ := Prod.mk.inj (Option.some.inj hcounters)
  obtain ⟨-, hspared, -⟩ := removals_eq_zero_iff hstart 0 hkeeps rfl hstore
  exact ⟨c₀, _, store, hstart, hkeeps, rfl, hstore, hswept, hremovals, hdeliveries,
    hspared (by rw [hputs]; decide) hremovals⟩

/-- The backup counts a removal, although nobody asked for one and the key has expired. -/
theorem removals_counts_sweep :
    ∃ (c₀ : Cluster Nat (List Nat)) (s : System Nat (List Nat)) (store : Store Nat (List Nat)),
      Cluster.start {} 3 trio = .ok c₀ ∧ trio.Lawful ∧ KeepsAll primaryOnly { cluster := c₀ } ∧
      (run primaryOnly { cluster := c₀ }).1 = s ∧ s.cluster.store? 1 .owned = some store ∧
      store.counters.removals = 1 ∧ store.counters.expired = 0 ∧ store.counters.swept = 0 ∧
      store.counters.removals ≠ 0 := by
  let c₀ : Cluster Nat (List Nat) := { config := {}, affinity := trio, nodes := .empty 3 true }
  have hkeeps : KeepsAll primaryOnly { cluster := c₀ } :=
    ⟨⟨rfl, lasts_created_three⟩, trivial, trivial, trivial, trivial, trivial⟩
  have hsome : ((run primaryOnly { cluster := c₀ }).1.cluster.store? 1 .owned).isSome = true := by cbv
  have hcounters : ((run primaryOnly { cluster := c₀ }).1.cluster.store? 1 .owned).map
      (fun store => (store.counters.removals, store.counters.expired, store.counters.swept)) =
        some (1, 0, 0) := by cbv
  obtain ⟨store, hstore⟩ := Option.isSome_iff_exists.1 hsome
  rw [hstore] at hcounters
  obtain ⟨hremovals, hrest⟩ := Prod.mk.inj (Option.some.inj hcounters)
  obtain ⟨hexpired, hswept⟩ := Prod.mk.inj hrest
  refine ⟨c₀, _, store, rfl, lawful_trio, hkeeps, rfl, hstore, hremovals, hexpired, hswept, ?_⟩
  rw [hremovals]
  decide

end System

end Ephemera
