import Ephemera.Proofs.Refinement

/-! # What operations see

Of all that a cluster holds an operation sees a few copies: that on the primary of its key, or one on
the node that it is called through. `seen` lists them with their keys, in the order in which they are
looked at; a bulk operation looks at each key only after it is done with the keys before. The answer
of an operation is computed from what it has seen, and what it has seen is live.
-/

namespace Ephemera

open Std

universe u v w

namespace Cluster

variable {κ : Type u} {V : Type v} {ρ : Type w} [Ord κ] [TransOrd κ] [Hashable κ]

/-- In the course of a trace a live copy of the key is found in some store of some node. -/
def Finds (c : Cluster κ V) (trace : List (Change κ V)) (now : Millis) (key : κ)
    (entry : Entry V) : Prop :=
  ∃ pre node target, pre <+: trace ∧ (c.follow pre).copy? node target key = some entry ∧
    entry.expiredAt now = false

/-- The copy that a read finds: one of the called node, where that will do, or the one on the primary. -/
def sighted (c : Cluster κ V) (call : Call) (key : κ) : Option (Entry V) :=
  if (call.policy.on .access).isNone then
    match c.readLocal call.node key call.now with
    | (_, some entry) => some entry
    | (c, none) => c.live? key call.now
  else c.live? key call.now

/-- The copies that reads of several keys find, in turn. -/
def sightedEach (call : Call) : List κ → Cluster κ V → List (κ × Option (Entry V))
  | [], _ => []
  | key :: rest, c => (key, c.sighted call key) :: sightedEach call rest (c.get call key).1

/-- The copies that operations on the primaries of several keys find, in turn. -/
def metAll (policy : Policy) (reader : κ → Option Nat) (now : Millis) :
    List (κ × Decision V ρ) → Cluster κ V → List (κ × Option (Entry V))
  | [], _ => []
  | (key, decide) :: rest, c =>
    (key, c.live? key now) ::
      metAll policy reader now rest (c.execute key policy (reader key) now decide).1

/-- The copies that an operation looks at, with their keys. -/
def seen (c : Cluster κ V) (call : Call) : Operation κ V → List (κ × Option (Entry V))
  | .put key _ | .putIfAbsent key _ | .remove key | .removeIfEquals key _ | .replace key _
  | .replaceIfEquals key _ _ | .invoke key _ | .ttl key => [(key, c.live? key call.now)]
  | .putAll entries =>
    metAll call.policy (c.nearReader call.node) call.now
      (entries.map fun (key, value) => (key, Decision.put value)) c
  | .removeAll keys =>
    metAll call.policy (c.nearReader call.node) call.now
      (keys.map fun key => (key, Decision.remove)) c
  | .entries =>
    metAll call.policy (fun _ => none) call.now (c.keys.map fun key => (key, Decision.get)) c
  | .get key => [(key, c.sighted call key)]
  | .getAll keys => sightedEach call keys c
  | .localPeek key => [(key, (c.local? call.node key).filter (!·.expiredAt call.now))]
  | .peekTtl key => [(key, c.local? call.node key)]

end Cluster

namespace Operation

variable {κ : Type u} {V : Type v} [Ord κ]

/-- The keys that have been seen with a value, with the values. -/
def present (seen : List (κ × Option (Entry V))) : List (κ × V) :=
  seen.filterMap fun (key, found) => found.map fun entry => (key, entry.value)

variable [DecidableEq V] [Append V] [Inhabited V]

/-- The answer of an operation that has seen these copies. -/
def answer (seen : List (κ × Option (Entry V))) (operation : Operation κ V) : Answer κ V :=
  let found := seen.head?.bind (·.2)
  let value := found.map (·.value)
  match operation with
  | .put .. | .putAll _ => .done
  | .putIfAbsent _ next => .flag (Decision.putIfAbsent next value).2
  | .get _ | .localPeek _ => .value value
  | .getAll _ => .values (.ofList (present seen))
  | .remove _ => .flag (Decision.remove value).2
  | .removeAll _ => .count (seen.countP (·.2.isSome))
  | .removeIfEquals _ expected => .flag (Decision.removeIfEquals expected value).2
  | .replace _ next => .flag (Decision.replace next value).2
  | .replaceIfEquals _ expected next => .flag (Decision.replaceIfEquals expected next value).2
  | .invoke _ script => .replies (Decision.invoke script value).2
  | .entries => .entries (present seen)
  | .peekTtl _ | .ttl _ => .ttl (found.map (·.ttl))

end Operation

namespace Cluster

variable {κ : Type u} {V : Type v} {ρ : Type w} [Ord κ] [TransOrd κ] [Hashable κ]

/-! ## Answers come from what was seen -/

/-- A read tells the value of the copy that it finds. -/
theorem get_snd (c : Cluster κ V) (call : Call) (key : κ) :
    (c.get call key).2 = (c.sighted call key).map (·.value) := by
  unfold get sighted
  split
  · cases c.readLocal call.node key call.now with
    | mk d found => cases found <;> rfl
  · rfl

theorem found_getEach (call : Call) (keys : List κ) (c : Cluster κ V) :
    found keys (getEach call keys c).2 = Operation.present (sightedEach call keys c) := by
  induction keys generalizing c with
  | nil => rfl
  | cons key rest ih =>
      have htail := ih (c.get call key).1
      simp only [found, Operation.present] at htail ⊢
      simp only [getEach, sightedEach, List.zip_cons_cons, List.filterMap_cons, htail, get_snd]
      cases c.sighted call key <;> rfl

/-- Reads on primaries tell the values of the copies that they find. -/
theorem found_executeAll (policy : Policy) (reader : κ → Option Nat) (now : Millis) (keys : List κ)
    (c : Cluster κ V) :
    found keys (executeAll policy reader now (keys.map fun key => (key, Decision.get)) c).2 =
      Operation.present
        (metAll policy reader now (keys.map fun key => (key, Decision.get)) c) := by
  induction keys generalizing c with
  | nil => rfl
  | cons key rest ih =>
      have htail := ih (c.execute key policy (reader key) now Decision.get).1
      simp only [found, Operation.present] at htail ⊢
      simp only [List.map_cons, executeAll, metAll, List.zip_cons_cons, List.filterMap_cons, htail]
      have hresult : (c.execute key policy (reader key) now Decision.get).2 =
          (c.live? key now).map (·.value) := rfl
      rw [hresult]
      cases c.live? key now <;> rfl

/-- Removals on primaries tell of how many keys they find a copy. -/
theorem countP_executeAll (policy : Policy) (reader : κ → Option Nat) (now : Millis) (keys : List κ)
    (c : Cluster κ V) :
    (executeAll policy reader now (keys.map fun key => (key, Decision.remove)) c).2.countP id =
      (metAll policy reader now (keys.map fun key => (key, Decision.remove)) c).countP
        (·.2.isSome) := by
  induction keys generalizing c with
  | nil => rfl
  | cons key rest ih =>
      have hresult : (c.execute key policy (reader key) now Decision.remove).2 =
          (c.live? key now).isSome := by
        change (Decision.remove ((c.live? key now).map (·.value))).2 = _
        cases c.live? key now <;> rfl
      simp only [List.map_cons, executeAll, metAll, List.countP_cons, ih, hresult, id_eq]

/-- An operation answers from what it has seen. -/
theorem perform_snd [DecidableEq V] [Append V] [Inhabited V] (c : Cluster κ V) (call : Call)
    (operation : Operation κ V) :
    (c.perform call operation).2 = operation.answer (c.seen call operation) := by
  cases operation with
  | put | putAll | putIfAbsent | remove | removeIfEquals | replace | replaceIfEquals | invoke
  | localPeek | peekTtl | ttl => rfl
  | get key => exact congrArg Answer.value (c.get_snd call key)
  | getAll keys =>
      exact congrArg (fun found => Answer.values (.ofList found)) (found_getEach call keys c)
  | removeAll keys => exact congrArg Answer.count (countP_executeAll _ _ _ keys c)
  | entries => exact congrArg Answer.entries (found_executeAll _ _ _ c.keys c)

/-! ## What was seen is live -/

namespace Finds

variable {c : Cluster κ V} {now : Millis} {key : κ} {entry : Entry V}

theorem of_live? (h : c.live? key now = some entry) (trace : List (Change κ V)) :
    c.Finds trace now key entry := by
  obtain ⟨hstored, hlive⟩ := Option.filter_eq_some_iff.1 h
  exact ⟨[], c.affinity.primary key, .owned, List.nil_prefix, hstored, by simpa using hlive⟩

theorem not_expired {trace : List (Change κ V)} (h : c.Finds trace now key entry) :
    ¬(entry.ttl.expireTime ≠ 0 ∧ entry.ttl.expireTime ≤ now) := by
  obtain ⟨_, _, _, _, _, hlive⟩ := h
  rw [← Ttl.expiredAt_iff]
  exact Bool.eq_false_iff.1 hlive

theorem append {trace : List (Change κ V)} (h : c.Finds trace now key entry)
    (more : List (Change κ V)) : c.Finds (trace ++ more) now key entry := by
  obtain ⟨pre, node, target, hpre, hfound⟩ := h
  exact ⟨pre, node, target, hpre.trans (List.prefix_append ..), hfound⟩

theorem after {before trace : List (Change κ V)} (h : (c.follow before).Finds trace now key entry) :
    c.Finds (before ++ trace) now key entry := by
  obtain ⟨pre, node, target, hpre, hcopy, hlive⟩ := h
  exact ⟨before ++ pre, node, target, (List.prefix_append_right_inj before).2 hpre,
    by rw [follow_append]; exact hcopy, hlive⟩

end Finds

/-- What a read finds is live, on the called node or on the primary. -/
theorem finds_sighted {c : Cluster κ V} {call : Call} {key : κ} {entry : Entry V}
    (h : c.sighted call key = some entry) :
    c.Finds (c.getTrace call key) call.now key entry := by
  unfold sighted at h
  unfold getTrace
  split at h
  next haccess =>
    rw [if_pos haccess]
    cases hread : c.readLocal call.node key call.now with
    | mk d found =>
        rw [hread] at h
        cases found with
        | some copy =>
            cases h
            obtain ⟨target, -, hcopy, hlive⟩ := readLocal_eq_some hread
            exact ⟨[], call.node, target, List.nil_prefix, hcopy, hlive⟩
        | none =>
            have hd : c.follow (c.readLocalTrace call.node key call.now) = d := by
              rw [← readLocal_fst, hread]
            refine Finds.after ?_
            rw [hd]
            exact Finds.of_live? h _
  next haccess =>
    rw [if_neg haccess]
    exact Finds.of_live? h _

theorem finds_sightedEach {call : Call} {keys : List κ} {c : Cluster κ V} {key : κ} {entry : Entry V}
    (h : (key, some entry) ∈ sightedEach call keys c) :
    c.Finds (getEachTrace call keys c) call.now key entry := by
  induction keys generalizing c with
  | nil => cases h
  | cons first rest ih =>
      rcases List.mem_cons.1 h with hfirst | hrest
      · obtain ⟨rfl, hsighted⟩ := Prod.mk.inj hfirst
        exact (finds_sighted hsighted.symm).append _
      · rw [get_fst] at hrest
        exact (ih hrest).after

theorem finds_metAll {policy : Policy} {via : Option Nat} {now : Millis}
    {decisions : List (κ × Decision V ρ)} {c : Cluster κ V} {reader : κ → Option Nat}
    (hreader : ∀ key, reader key = via.bind (c.nearReader · key)) {key : κ} {entry : Entry V}
    (h : (key, some entry) ∈ metAll policy reader now decisions c) :
    c.Finds (touchAllTrace policy via now decisions c) now key entry := by
  -- Each decision is made in the cluster that those before it have left.
  induction decisions generalizing c with
  | nil => cases h
  | cons head rest ih =>
      obtain ⟨first, decide⟩ := head
      rcases List.mem_cons.1 h with hfirst | hrest
      · obtain ⟨rfl, hlive⟩ := Prod.mk.inj hfirst
        exact Finds.of_live? hlive.symm _
      · rw [hreader first, execute_fst] at hrest
        refine (ih ?_ hrest).after
        intro other
        rw [hreader]
        simp only [nearReader_follow]

/-- Whatever an operation sees is live, but for a look at the lifetime of an expired copy. -/
theorem finds_seen [DecidableEq V] [Append V] [Inhabited V] {c : Cluster κ V} {call : Call}
    {operation : Operation κ V} (hpeek : ∀ key, operation ≠ .peekTtl key) {key : κ} {entry : Entry V}
    (h : (key, some entry) ∈ c.seen call operation) :
    c.Finds (c.performTrace call operation) call.now key entry := by
  have hmet : ∀ {other : κ} {trace : List (Change κ V)},
      (key, some entry) ∈ [(other, c.live? other call.now)] → c.Finds trace call.now key entry := by
    intro other trace hmem
    obtain ⟨rfl, hlive⟩ := Prod.mk.inj (List.mem_singleton.1 hmem)
    exact Finds.of_live? hlive.symm _
  cases operation with
  | put | putIfAbsent | remove | removeIfEquals | replace | replaceIfEquals | invoke | ttl =>
      exact hmet h
  | putAll | removeAll =>
      have hreader : ∀ key, c.nearReader call.node key = (some call.node).bind (c.nearReader · key) :=
        fun _ => rfl
      exact finds_metAll hreader h
  | entries =>
      have hreader : ∀ key, none = (none : Option Nat).bind (c.nearReader · key) := fun _ => rfl
      exact finds_metAll hreader h
  | get other =>
      obtain ⟨rfl, hsighted⟩ := Prod.mk.inj (List.mem_singleton.1 h)
      exact finds_sighted hsighted.symm
  | getAll keys => exact finds_sightedEach h
  | localPeek other =>
      obtain ⟨rfl, hlocal⟩ := Prod.mk.inj (List.mem_singleton.1 h)
      obtain ⟨hcopy, hlive⟩ := Option.filter_eq_some_iff.1 hlocal.symm
      obtain ⟨target, hcopy⟩ : ∃ target, c.copy? call.node target key = some entry := by
        obtain ⟨n, hn, hget⟩ := Option.bind_eq_some_iff.1 hcopy
        split at hget
        · exact ⟨.owned, by rw [copy?_of_some hn]; exact hget⟩
        · exact ⟨.near, by rw [copy?_of_some hn]; exact hget⟩
      exact ⟨[], call.node, target, List.nil_prefix, hcopy, by simpa using hlive⟩
  | peekTtl other => exact absurd rfl (hpeek other)

end Cluster

namespace System

variable {κ : Type u} {V : Type v} [Ord κ] [TransOrd κ] [Hashable κ]
variable [DecidableEq V] [Append V] [Inhabited V]

/-- An operation is answered from the copies that it looks at, all live but those that a look at the
lifetime of an expired copy is meant to find. -/
theorem seen_of_step {s u : System κ V} {node : Nat} {scope : Option Policy} {operation : Operation κ V}
    {answer : Answer κ V} (h : s.step (.call node scope operation) = (u, .answer answer)) :
    ∃ call, s.cluster.call node scope s.clock = .ok call ∧
      answer = operation.answer (s.cluster.seen call operation) ∧
      ((∀ key, operation ≠ .peekTtl key) →
        ∀ key entry, (key, some entry) ∈ s.cluster.seen call operation →
          ¬(entry.ttl.expireTime ≠ 0 ∧ entry.ttl.expireTime ≤ s.clock) ∧
          s.cluster.Finds (s.cluster.performTrace call operation) s.clock key entry) := by
  simp only [step] at h
  cases hcall : s.cluster.call node scope s.clock with
  | error e =>
      rw [hcall] at h
      cases h
  | ok call =>
      rw [hcall] at h
      cases h
      obtain ⟨-, rfl⟩ := Cluster.call_ok hcall
      refine ⟨_, rfl, Cluster.perform_snd _ _ _, fun hpeek key entry hseen => ?_⟩
      have hfinds := Cluster.finds_seen hpeek hseen
      exact ⟨hfinds.not_expired, hfinds⟩

end System

end Ephemera
