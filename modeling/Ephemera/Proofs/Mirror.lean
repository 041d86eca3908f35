import Ephemera.Proofs.Schedule
import Ephemera.Proofs.Sweeping

/-! # Operations on slices that mirror each other

An operation on a key sees the copies of that key, and never their versions. So on two clusters whose
slices of the key mirror each other it makes the same changes and has the same result. An operation on
another key leaves the slice alone. Of a bulk operation, what it does for the key is what it does when
it is restricted to the key; of a sweep, likewise.
-/

namespace Ephemera

open Std

universe u v w

/-- The pairs whose first component is the key. -/
def pairsOf {κ : Type u} {α : Type v} [Ord κ] (key : κ) (pairs : List (κ × α)) : List (κ × α) :=
  pairs.filter fun pair => compare pair.1 key = .eq

theorem pairsOf_pairsOf {κ : Type u} {α : Type v} [Ord κ] (key : κ) (pairs : List (κ × α)) :
    pairsOf key (pairsOf key pairs) = pairsOf key pairs := by
  simp [pairsOf]

/-- The lookup of a key in a map made from a list depends on the pairs of the key alone. -/
theorem getElem?_ofList_pairsOf {κ : Type u} {α : Type v} [Ord κ] [TransOrd κ] (key : κ)
    (pairs : List (κ × α)) :
    (ExtTreeMap.ofList pairs compare)[key]? =
      (ExtTreeMap.ofList (pairsOf key pairs) compare)[key]? := by
  rw [ExtTreeMap.ofList_eq_insertMany_empty, ExtTreeMap.ofList_eq_insertMany_empty]
  -- Both lists are entered one pair after the other, into maps that agree on the key.
  suffices ∀ m m' : ExtTreeMap κ α, m[key]? = m'[key]? →
      (m.insertMany pairs)[key]? = (m'.insertMany (pairsOf key pairs))[key]? from this ∅ ∅ rfl
  induction pairs with
  | nil => exact fun _ _ hsame => hsame
  | cons head rest ih =>
      obtain ⟨other, value⟩ := head
      intro m m' hsame
      rw [ExtTreeMap.insertMany_cons]
      by_cases hkey : compare other key = .eq
      · have hpairs : pairsOf key ((other, value) :: rest) = (other, value) :: pairsOf key rest :=
          List.filter_cons_of_pos (by simpa using hkey)
        rw [hpairs, ExtTreeMap.insertMany_cons]
        apply ih
        rw [ExtTreeMap.getElem?_insert, ExtTreeMap.getElem?_insert, if_pos hkey, if_pos hkey]
      · have hpairs : pairsOf key ((other, value) :: rest) = pairsOf key rest :=
          List.filter_cons_of_neg (by simpa using hkey)
        rw [hpairs]
        apply ih
        rw [ExtTreeMap.getElem?_insert, if_neg hkey, hsame]

namespace Operation

variable {κ : Type u} {V : Type v}

/-- The key of an operation on a single one. -/
def key? : Operation κ V → Option κ
  | .put key _ | .putIfAbsent key _ | .get key | .remove key | .removeIfEquals key _ | .replace key _
  | .replaceIfEquals key _ _ | .invoke key _ | .localPeek key | .peekTtl key | .ttl key => some key
  | .putAll _ | .getAll _ | .removeAll _ | .entries => none

variable [Ord κ]

/-- The operation as far as it is about the key, if it is: an operation on several keys is restricted to
this one. -/
def restrict? (key : κ) (operation : Operation κ V) : Option (Operation κ V) :=
  match operation with
  | .putAll pairs => some (.putAll (pairsOf key pairs))
  | .getAll keys => some (.getAll (keys.filter (compare · key = .eq)))
  | .removeAll keys => some (.removeAll (keys.filter (compare · key = .eq)))
  | operation =>
    match operation.key? with
    | some other => if compare other key = .eq then some operation else none
    | none => none

theorem restrict?_of_key? {operation : Operation κ V} {other : κ} (h : operation.key? = some other)
    (key : κ) :
    operation.restrict? key = if compare other key = .eq then some operation else none := by
  cases operation <;> cases h <;> rfl

end Operation

namespace Change

variable {κ : Type u} {V : Type v} [Ord κ]

/-- Whether the change is made for the key: it alters no copy of another, and delivers nothing. -/
def Of (key : κ) : Change κ V → Prop
  | count other _ | write other .. | remove other .. | share other _ | drop _ _ other .. => other = key
  | note .. => True
  | deliver _ => False

variable {key other : κ} {x : Change κ V}

omit [Ord κ] in
theorem Of.isDelivery (h : x.Of key) : x.isDelivery = false := by
  cases x with
  | deliver node => exact h.elim
  | _ => rfl

theorem Of.concerns_other (h : x.Of other) (hne : compare other key ≠ .eq) :
    x.concerns key = false := by
  cases x with
  | count | note | deliver => rfl
  | write | remove | share | drop =>
      cases h
      simpa [concerns] using hne

/-- A change of the key that draws a version concerns the key. -/
theorem Of.draws_eq_false [ReflOrd κ] (h : x.Of key) (hx : x.concerns key = false) :
    x.draws = false := by
  cases x with
  | write other via value ttl =>
      cases h
      simp [concerns] at hx
  | _ => rfl

end Change

/-- Whether a copy is live does not depend on its version. -/
theorem Entry.filter_live_rename {V : Type v} (ren : UInt64 → UInt64) (copy : Option (Entry V))
    (now : Millis) :
    (copy.map (Entry.rename ren)).filter (!·.expiredAt now) =
      (copy.filter (!·.expiredAt now)).map (Entry.rename ren) :=
  Option.filter_map ..

namespace Effect

variable {κ : Type u} {V : Type v}

/-- The changes of an effect tell nothing of versions. -/
theorem trace_rename (ren : UInt64 → UInt64) (stored live : Option (Entry V)) (p : Plan V) (key : κ)
    (via : Option Nat) (awaited : Bool) :
    (ofPlan (stored.map (Entry.rename ren)) (live.map (Entry.rename ren)) p).trace key via awaited =
      (ofPlan stored live p).trace key via awaited := by
  cases p <;> cases live <;> cases stored <;> rfl

end Effect

namespace Cluster

variable {κ : Type u} {V : Type v} {ρ : Type w} [Ord κ] [TransOrd κ]

/-! ## Traces for one key -/

theorem of_touchTrace (c : Cluster κ V) (policy : Policy) (via : Option Nat) (now : Millis) (key : κ)
    (decide : Decision V ρ) : ∀ x ∈ c.touchTrace policy via now key decide, x.Of key :=
  c.forall_touchTrace policy via now key decide (fun _ => rfl) (fun _ _ _ _ => rfl) (fun _ _ => rfl)
    fun _ _ => rfl

theorem of_readLocalTrace (c : Cluster κ V) (node : Nat) (key : κ) (now : Millis) :
    ∀ x ∈ c.readLocalTrace node key now, x.Of key :=
  c.forall_readLocalTrace node key now (fun _ _ _ => trivial) fun _ => rfl

variable [Hashable κ]

theorem of_getTrace (c : Cluster κ V) (call : Call) (key : κ) :
    ∀ x ∈ c.getTrace call key, x.Of key := by
  intro x hx
  unfold getTrace at hx
  split at hx
  · rcases List.mem_append.1 hx with hx | hx
    · exact c.of_readLocalTrace call.node key call.now x hx
    · split at hx
      · cases hx
      · exact of_touchTrace _ call.policy _ call.now key Decision.get x hx
  · exact c.of_touchTrace call.policy _ call.now key Decision.get x hx

/-- As long as there are versions left for two traces, there are for each of them. -/
theorem room_append {c : Cluster κ V} {first second : List (Change κ V)}
    (h : c.version.toNat + (first ++ second).countP (·.draws) < 2 ^ 64) :
    c.version.toNat + first.countP (·.draws) < 2 ^ 64 ∧
      (c.follow first).version.toNat + second.countP (·.draws) < 2 ^ 64 := by
  rw [List.countP_append] at h
  have hfirst : c.version.toNat + first.countP (·.draws) < 2 ^ 64 := by omega
  exact ⟨hfirst, by rw [version_follow hfirst]; omega⟩

omit [Hashable κ] in
theorem local?_eq (c : Cluster κ V) (node : Nat) (key : κ) :
    c.local? node key =
      c.copy? node (if c.affinity.isOwner node key then .owned else .near) key := by
  unfold local? copy?
  split <;> rfl

/-- A look into a replica finds its copy if it is live. -/
theorem readStore_snd (c : Cluster κ V) (node : Nat) (target : Target) (key : κ) (now : Millis) :
    (c.readStore node target key now).2 = (c.copy? node target key).filter (!·.expiredAt now) := by
  cases hn : c.nodes[node]? with
  | none => simp only [readStore, hn, copy?_of_none hn, Option.filter_none]
  | some n =>
      simp only [readStore, hn, copy?_of_some hn, Store.read]
      cases (n.store target).get? key with
      | none => rfl
      | some entry =>
          by_cases hexpired : entry.expiredAt now <;> simp [hexpired, Option.filter_some]

theorem Orderly.execute [LawfulEqOrd κ] {c : Cluster κ V} (hc : c.Orderly) (key : κ) (policy : Policy)
    (via : Option Nat) (now : Millis) (decide : Decision V ρ) :
    (c.execute key policy (via.bind (c.nearReader · key)) now decide).1.Orderly := by
  rw [execute_fst]
  exact hc.follow _

namespace Mirrors

variable {ren : UInt64 → UInt64} {key : κ} {c d : Cluster κ V}

/-! ## What is seen -/

omit [Hashable κ] in
theorem live? (h : Mirrors ren key c d) (now : Millis) :
    c.live? key now = (d.live? key now).map (Entry.rename ren) := by
  unfold Cluster.live?
  rw [h.stored?]
  exact Entry.filter_live_rename ren _ now

omit [Hashable κ] in
theorem touchTrace (h : Mirrors ren key c d) (policy : Policy) (via : Option Nat) (now : Millis)
    (decide : Decision V ρ) :
    c.touchTrace policy via now key decide = d.touchTrace policy via now key decide := by
  have hvalue : ∀ live : Option (Entry V),
      (live.map (Entry.rename ren)).map (·.value) = live.map (·.value) :=
    fun _ => Option.map_map ..
  have hcontent : ∀ live : Option (Entry V),
      (live.map (Entry.rename ren)).map (·.content) = live.map (·.content) :=
    fun _ => Option.map_map ..
  have hcount : ∀ (live : Option (Entry V)) (intent : Intent V),
      countTrace key (live.map (Entry.rename ren)) intent = countTrace key live intent := by
    intro live intent
    cases live <;> cases intent <;> rfl
  simp only [Cluster.touchTrace, effect, h.live?, h.stored?, h.layout.config, hvalue, hcontent, hcount,
    Effect.trace_rename]

omit [Hashable κ] in
theorem lookTrace (h : Mirrors ren key c d) (node : Nat) (target : Target) (now : Millis) :
    c.lookTrace node target key now = d.lookTrace node target key now := by
  unfold Cluster.lookTrace
  rw [h.copies]
  cases d.copy? node target key <;> rfl

omit [Hashable κ] in
theorem readLocalTrace (h : Mirrors ren key c d) (node : Nat) (now : Millis) :
    c.readLocalTrace node key now = d.readLocalTrace node key now := by
  simp only [Cluster.readLocalTrace, h.layout.affinity, h.layout.config, h.lookTrace]

theorem readLocal_snd (h : Mirrors ren key c d) (node : Nat) (now : Millis) :
    (c.readLocal node key now).2 = (d.readLocal node key now).2.map (Entry.rename ren) := by
  have hstore : ∀ target, (c.readStore node target key now).2 =
      (d.readStore node target key now).2.map (Entry.rename ren) := by
    intro target
    rw [readStore_snd, readStore_snd, h.copies]
    exact Entry.filter_live_rename ren _ now
  unfold readLocal
  rw [h.layout.affinity, h.layout.config]
  split
  · rfl
  · exact hstore .owned
  · split
    · exact hstore .near
    · rfl

/-! ## Operations -/

variable [LawfulEqOrd κ]

/-- Changes made for the key in both. -/
theorem follow_same (h : Mirrors ren key c d) (hc : c.Orderly) (hd : d.Orderly)
    {trace : List (Change κ V)} (htrace : ∀ x ∈ trace, x.Of key)
    (hroom : c.version.toNat + trace.countP (·.draws) < 2 ^ 64) :
    Mirrored ren d.version key (c.follow trace) (d.follow trace) :=
  h.follow trace hc hd rfl (fun x hx => (htrace x hx).isDelivery) (fun x hx => (htrace x hx).isDelivery)
    (fun x hx hother => (htrace x hx).draws_eq_false hother) hroom

/-- Changes made for another key in the first. -/
theorem follow_other (h : Mirrors ren key c d) (hc : c.Orderly) (hd : d.Orderly) {other : κ}
    (hne : compare other key ≠ .eq) {trace : List (Change κ V)} (htrace : ∀ x ∈ trace, x.Of other)
    (hroom : c.version.toNat + trace.countP (·.draws) < 2 ^ 64) :
    Mirrored ren d.version key (c.follow trace) d := by
  have hnone : trace.filter (·.concerns key) = [] := by
    rw [List.filter_eq_nil_iff]
    intro x hx
    simp [(htrace x hx).concerns_other hne]
  change Mirrored ren d.version key (c.follow trace) (d.follow [])
  exact h.follow trace hc hd hnone (fun x hx => (htrace x hx).isDelivery) (by simp) (by simp) hroom

theorem execute (h : Mirrors ren key c d) (hc : c.Orderly) (hd : d.Orderly) (policy : Policy)
    (via : Option Nat) (now : Millis) (decide : Decision V ρ)
    (hroom : c.version.toNat +
      (c.touchTrace policy via now key decide).countP (·.draws) < 2 ^ 64) :
    Mirrored ren d.version key
        (c.execute key policy (via.bind (c.nearReader · key)) now decide).1
        (d.execute key policy (via.bind (d.nearReader · key)) now decide).1 ∧
      (c.execute key policy (via.bind (c.nearReader · key)) now decide).2 =
        (d.execute key policy (via.bind (d.nearReader · key)) now decide).2 := by
  refine ⟨?_, ?_⟩
  · rw [execute_fst, execute_fst, ← h.touchTrace]
    exact h.follow_same hc hd (c.of_touchTrace policy via now key decide) hroom
  · simp only [Cluster.execute, h.live?]
    cases d.live? key now <;> rfl

/-- A read of the key through a node. -/
theorem get (h : Mirrors ren key c d) (hc : c.Orderly) (hd : d.Orderly) (call : Call)
    (hroom : c.version.toNat + (c.getTrace call key).countP (·.draws) < 2 ^ 64) :
    Mirrored ren d.version key (c.get call key).1 (d.get call key).1 ∧
      (c.get call key).2 = (d.get call key).2 := by
  unfold getTrace at hroom
  unfold Cluster.get
  split at hroom
  next haccess =>
    obtain ⟨hlook, hrest⟩ := room_append hroom
    have hlocal := h.readLocal_snd call.node call.now
    simp only [haccess, if_true]
    have hmirrored : Mirrored ren d.version key (c.readLocal call.node key call.now).1
        (d.readLocal call.node key call.now).1 := by
      rw [readLocal_fst, readLocal_fst, ← h.readLocalTrace]
      exact h.follow_same hc hd (c.of_readLocalTrace call.node key call.now) hlook
    have hc' : (c.readLocal call.node key call.now).1.Orderly := by
      rw [readLocal_fst]
      exact hc.follow _
    have hd' : (d.readLocal call.node key call.now).1.Orderly := by
      rw [readLocal_fst]
      exact hd.follow _
    rw [← readLocal_fst] at hrest
    refine hmirrored.andThen fun ren' hnext => ?_
    cases hread : c.readLocal call.node key call.now with
    | mk c' found =>
        cases hread' : d.readLocal call.node key call.now with
        | mk d' found' =>
            rw [hread, hread'] at hlocal hnext
            rw [hread] at hrest hc'
            rw [hread'] at hd'
            obtain rfl : found = found'.map (Entry.rename ren) := hlocal
            cases found' with
            | some entry => exact ⟨hnext.mirrored, rfl⟩
            | none =>
                exact hnext.execute hc' hd' call.policy (some call.node) call.now Decision.get hrest
  next haccess =>
    simp only [haccess]
    exact h.execute hc hd call.policy (some call.node) call.now Decision.get hroom

/-- Of operations on the primaries of several keys, those on the key are the ones that matter to it. -/
theorem executeAll (policy : Policy) (via : Option Nat) (now : Millis)
    (decisions : List (κ × Decision V ρ)) {ren : UInt64 → UInt64} {c d : Cluster κ V}
    (h : Mirrors ren key c d) (hc : c.Orderly) (hd : d.Orderly) {reader : κ → Option Nat}
    (hreader : ∀ other, reader other = via.bind (c.nearReader · other))
    (hroom : c.version.toNat +
      (touchAllTrace policy via now decisions c).countP (·.draws) < 2 ^ 64) :
    Mirrored ren d.version key (Cluster.executeAll policy reader now decisions c).1
        (Cluster.executeAll policy reader now (pairsOf key decisions) d).1 ∧
      pairsOf key ((decisions.map (·.1)).zip (Cluster.executeAll policy reader now decisions c).2) =
        ((pairsOf key decisions).map (·.1)).zip
          (Cluster.executeAll policy reader now (pairsOf key decisions) d).2 := by
  induction decisions generalizing ren c d with
  | nil => exact ⟨h.mirrored, rfl⟩
  | cons head rest ih =>
      obtain ⟨other, decide⟩ := head
      obtain ⟨hfirst, hrest⟩ := room_append hroom
      have hsame : via.bind (d.nearReader · other) = reader other := by
        simp only [hreader, h.nearReader]
      have hexecute := execute_fst c other policy via now decide
      rw [← hexecute, ← hreader] at hrest
      have hc' := hc.execute other policy via now decide
      rw [← hreader] at hexecute hc'
      have hreader' : ∀ k, reader k =
          via.bind ((c.execute other policy (reader other) now decide).1.nearReader · k) := by
        intro k
        rw [hexecute, hreader]
        simp only [nearReader_follow]
      by_cases hkey : compare other key = .eq
      · obtain rfl : other = key := by simpa using hkey
        have hpairs : pairsOf other ((other, decide) :: rest) = (other, decide) :: pairsOf other rest :=
          List.filter_cons_of_pos (by simp)
        have hexecuted := h.execute hc hd policy via now decide hfirst
        have hd' := hd.execute other policy via now decide
        rw [← hreader, hsame] at hexecuted
        rw [hsame] at hd'
        rw [hpairs]
        refine hexecuted.1.andThen fun ren' hnext => ?_
        obtain ⟨hfinal, hresults⟩ := ih hnext hc' hd' hreader' hrest
        refine ⟨hfinal, ?_⟩
        simp only [Cluster.executeAll, List.map_cons, List.zip_cons_cons, ← hresults, ← hexecuted.2]
        exact List.filter_cons_of_pos (by simp)
      · have hpairs : pairsOf key ((other, decide) :: rest) = pairsOf key rest :=
          List.filter_cons_of_neg (by simpa using hkey)
        have hmirrored := h.follow_other hc hd hkey (c.of_touchTrace policy via now other decide) hfirst
        rw [← hexecute] at hmirrored
        rw [hpairs]
        refine hmirrored.andThen fun ren' hnext => ?_
        obtain ⟨hfinal, hresults⟩ := ih hnext hc' hd hreader' hrest
        refine ⟨hfinal, ?_⟩
        rw [← hresults]
        exact List.filter_cons_of_neg (by simpa using hkey)

/-- Of reads of several keys likewise. -/
theorem getEach (call : Call) (keys : List κ) {ren : UInt64 → UInt64} {c d : Cluster κ V}
    (h : Mirrors ren key c d) (hc : c.Orderly) (hd : d.Orderly)
    (hroom : c.version.toNat + (getEachTrace call keys c).countP (·.draws) < 2 ^ 64) :
    Mirrored ren d.version key (Cluster.getEach call keys c).1
        (Cluster.getEach call (keys.filter (compare · key = .eq)) d).1 ∧
      pairsOf key (keys.zip (Cluster.getEach call keys c).2) =
        (keys.filter (compare · key = .eq)).zip
          (Cluster.getEach call (keys.filter (compare · key = .eq)) d).2 := by
  induction keys generalizing ren c d with
  | nil => exact ⟨h.mirrored, rfl⟩
  | cons other rest ih =>
      obtain ⟨hfirst, hrest⟩ := room_append hroom
      rw [← get_fst] at hrest
      have hordered : ∀ {e : Cluster κ V}, e.Orderly → (e.get call other).1.Orderly := by
        intro e he
        rw [get_fst]
        exact he.follow _
      by_cases hkey : compare other key = .eq
      · obtain rfl : other = key := by simpa using hkey
        have hkeys : (other :: rest).filter (compare · other = .eq) =
            other :: rest.filter (compare · other = .eq) := List.filter_cons_of_pos (by simp)
        obtain ⟨hmirrored, hvalue⟩ := h.get hc hd call hfirst
        rw [hkeys]
        refine hmirrored.andThen fun ren' hnext => ?_
        obtain ⟨hfinal, hvalues⟩ := ih hnext (hordered hc) (hordered hd) hrest
        refine ⟨hfinal, ?_⟩
        simp only [Cluster.getEach, List.zip_cons_cons, ← hvalues, ← hvalue]
        exact List.filter_cons_of_pos (by simp)
      · have hkeys : (other :: rest).filter (compare · key = .eq) =
            rest.filter (compare · key = .eq) := List.filter_cons_of_neg (by simpa using hkey)
        have hmirrored := h.follow_other hc hd hkey (c.of_getTrace call other) hfirst
        rw [← get_fst] at hmirrored
        rw [hkeys]
        refine hmirrored.andThen fun ren' hnext => ?_
        obtain ⟨hfinal, hvalues⟩ := ih hnext (hordered hc) hd hrest
        refine ⟨hfinal, ?_⟩
        rw [← hvalues]
        exact List.filter_cons_of_neg (by simpa using hkey)

theorem run (h : Mirrors ren key c d) (hc : c.Orderly) (hd : d.Orderly) (call : Call)
    (decide : Decision V ρ) (hroom : c.version.toNat +
      (c.touchTrace call.policy (some call.node) call.now key decide).countP (·.draws) < 2 ^ 64) :
    Mirrored ren d.version key (c.run call key decide).1 (d.run call key decide).1 ∧
      (c.run call key decide).2 = (d.run call key decide).2 :=
  h.execute hc hd call.policy (some call.node) call.now decide hroom

omit [Hashable κ] [LawfulEqOrd κ] in
theorem local? (h : Mirrors ren key c d) (node : Nat) :
    c.local? node key = (d.local? node key).map (Entry.rename ren) := by
  rw [local?_eq, local?_eq, h.layout.affinity, h.copies]

end Mirrors

/-! ## Answers about one key -/

omit [TransOrd κ] [Hashable κ] in
/-- What is found of the key is told by the values for the key. -/
theorem pairsOf_found (key : κ) (keys : List κ) (values : List (Option V)) :
    pairsOf key (found keys values) =
      (pairsOf key (keys.zip values)).filterMap fun (other, value) => value.map (other, ·) := by
  unfold found pairsOf
  rw [List.filter_filterMap, List.filterMap_filter]
  refine List.filterMap_congr fun pair _ => ?_
  obtain ⟨other, value⟩ := pair
  cases value with
  | none => simp
  | some value => simp [Option.filter_some]

/-- Operations on several keys have a result for each. -/
theorem length_executeAll (policy : Policy) (reader : κ → Option Nat) (now : Millis)
    (decisions : List (κ × Decision V ρ)) (c : Cluster κ V) :
    (executeAll policy reader now decisions c).2.length = decisions.length := by
  induction decisions generalizing c with
  | nil => rfl
  | cons head rest ih => exact congrArg (· + 1) (ih _)

/-- How often a removal of several keys counts the key. -/
def removals (c : Cluster κ V) (call : Call) (keys : List κ) (key : κ) : Nat :=
  (pairsOf key (keys.zip (c.runAll call (keys.map fun key => (key, Decision.remove))).2)).countP (·.2)

/-- A removal of several keys counts the key as often as that, and otherwise others. -/
theorem removeAll_snd (c : Cluster κ V) (call : Call) (keys : List κ) (key : κ) :
    (c.removeAll call keys).2 = c.removals call keys key +
      ((keys.zip (c.runAll call (keys.map fun key => (key, Decision.remove))).2).filter
        fun pair => compare pair.1 key ≠ .eq).countP (·.2) := by
  have hlength : (c.runAll call (keys.map fun key => (key, Decision.remove))).2.length ≤
      keys.length := by
    unfold runAll
    rw [length_executeAll, List.length_map]
  have hall : (c.removeAll call keys).2 =
      (keys.zip (c.runAll call (keys.map fun key => (key, Decision.remove))).2).countP (·.2) := by
    change (c.runAll call (keys.map fun key => (key, Decision.remove))).2.countP id = _
    conv_lhs => rw [← List.map_snd_zip hlength]
    exact List.countP_map
  rw [hall, List.countP_eq_countP_filter_add _ _ fun pair => compare pair.1 key = .eq]
  simp [removals, pairsOf]

variable [DecidableEq V] [Append V] [Inhabited V]

/-- What an operation tells about the key: when several keys are read the value of this one, when
several are removed how often this one is counted, and else its answer. -/
def report (c : Cluster κ V) (call : Call) (key : κ) : Operation κ V → Answer κ V
  | .getAll keys => .value (c.getAll call keys).2[key]?
  | .removeAll keys => .count (c.removals call keys key)
  | operation => (c.perform call operation).2

theorem report_of_key? {operation : Operation κ V} {other : κ} (h : operation.key? = some other)
    (c : Cluster κ V) (call : Call) (key : κ) :
    c.report call key operation = (c.perform call operation).2 := by
  cases operation <;> cases h <;> rfl

theorem of_performTrace {operation : Operation κ V} {key : κ} (h : operation.key? = some key)
    (c : Cluster κ V) (call : Call) : ∀ x ∈ c.performTrace call operation, x.Of key := by
  cases operation with
  | putAll | getAll | removeAll | entries => cases h
  | get other =>
      cases h
      exact c.of_getTrace call key
  | localPeek | peekTtl | ttl =>
      intro x hx
      cases hx
  | put | putIfAbsent | remove | removeIfEquals | replace | replaceIfEquals | invoke =>
      cases h
      exact c.of_touchTrace call.policy (some call.node) call.now key _

namespace Mirrors

variable {ren : UInt64 → UInt64} {key : κ} {c d : Cluster κ V} [LawfulEqOrd κ]

/-- An operation on the key alone. -/
theorem perform_of_key? (h : Mirrors ren key c d) (hc : c.Orderly) (hd : d.Orderly) (call : Call)
    {operation : Operation κ V} (hkey : operation.key? = some key)
    (hroom : c.version.toNat + (c.performTrace call operation).countP (·.draws) < 2 ^ 64) :
    Mirrored ren d.version key (c.perform call operation).1 (d.perform call operation).1 ∧
      (c.perform call operation).2 = (d.perform call operation).2 := by
  cases operation with
  | putAll | getAll | removeAll | entries => cases hkey
  | put other value =>
      cases hkey
      exact ⟨(h.run hc hd call (.put value) hroom).1, rfl⟩
  | putIfAbsent other value =>
      cases hkey
      exact (h.run hc hd call (.putIfAbsent value) hroom).imp_right (congrArg Answer.flag)
  | get other =>
      cases hkey
      exact (h.get hc hd call hroom).imp_right (congrArg Answer.value)
  | remove other =>
      cases hkey
      exact (h.run hc hd call .remove hroom).imp_right (congrArg Answer.flag)
  | removeIfEquals other expected =>
      cases hkey
      exact (h.run hc hd call (.removeIfEquals expected) hroom).imp_right (congrArg Answer.flag)
  | replace other value =>
      cases hkey
      exact (h.run hc hd call (.replace value) hroom).imp_right (congrArg Answer.flag)
  | replaceIfEquals other expected value =>
      cases hkey
      exact (h.run hc hd call (.replaceIfEquals expected value) hroom).imp_right (congrArg Answer.flag)
  | invoke other script =>
      cases hkey
      exact (h.run hc hd call (.invoke script) hroom).imp_right (congrArg Answer.replies)
  | localPeek other =>
      cases hkey
      refine ⟨h.mirrored, congrArg Answer.value ?_⟩
      rw [localPeek, localPeek, h.local?, Entry.filter_live_rename, Option.map_map]
      rfl
  | peekTtl other =>
      cases hkey
      refine ⟨h.mirrored, congrArg Answer.ttl ?_⟩
      rw [peekTtl, peekTtl, h.local?, Option.map_map]
      rfl
  | ttl other =>
      cases hkey
      refine ⟨h.mirrored, congrArg Answer.ttl ?_⟩
      rw [ttl, ttl, h.live?, Option.map_map]
      rfl

omit [DecidableEq V] [Append V] [Inhabited V] in
/-- Operations on the primaries of several keys, called through a node. -/
theorem runAll (h : Mirrors ren key c d) (hc : c.Orderly) (hd : d.Orderly) (call : Call)
    (decisions : List (κ × Decision V ρ))
    (hroom : c.version.toNat + (touchAllTrace call.policy (some call.node) call.now decisions
      c).countP (·.draws) < 2 ^ 64) :
    Mirrored ren d.version key (c.runAll call decisions).1 (d.runAll call (pairsOf key decisions)).1 ∧
      pairsOf key ((decisions.map (·.1)).zip (c.runAll call decisions).2) =
        ((pairsOf key decisions).map (·.1)).zip (d.runAll call (pairsOf key decisions)).2 := by
  have hreader : d.nearReader call.node = c.nearReader call.node :=
    funext fun other => (h.nearReader call.node other).symm
  unfold Cluster.runAll
  rw [hreader]
  exact h.executeAll call.policy (some call.node) call.now decisions hc hd (fun _ => rfl) hroom

/-- An operation, restricted to the key in the second cluster. -/
theorem perform (h : Mirrors ren key c d) (hc : c.Orderly) (hd : d.Orderly) (call : Call)
    {operation restricted : Operation κ V} (hrestrict : operation.restrict? key = some restricted)
    (hroom : c.version.toNat + (c.performTrace call operation).countP (·.draws) < 2 ^ 64) :
    Mirrored ren d.version key (c.perform call operation).1 (d.perform call restricted).1 ∧
      c.report call key operation = d.report call key restricted := by
  cases hkey : operation.key? with
  | some other =>
      rw [Operation.restrict?_of_key? hkey] at hrestrict
      split at hrestrict
      next hsame =>
        cases hrestrict
        obtain rfl : other = key := by simpa using hsame
        rw [report_of_key? hkey, report_of_key? hkey]
        exact h.perform_of_key? hc hd call hkey hroom
      next => cases hrestrict
  | none =>
      cases operation with
      | putAll entries =>
          cases hrestrict
          have hmap : pairsOf key (entries.map fun pair => (pair.1, Decision.put pair.2)) =
              (pairsOf key entries).map fun pair => (pair.1, Decision.put pair.2) :=
            List.filter_map ..
          have hrun := h.runAll hc hd call
            (entries.map fun pair : κ × V => (pair.1, Decision.put pair.2)) hroom
          rw [hmap] at hrun
          exact ⟨hrun.1, rfl⟩
      | getAll keys =>
          cases hrestrict
          obtain ⟨hmirrored, hvalues⟩ := h.getEach call keys hc hd hroom
          refine ⟨hmirrored, congrArg Answer.value ?_⟩
          change (ExtTreeMap.ofList (found keys (Cluster.getEach call keys c).2) compare)[key]? =
            (ExtTreeMap.ofList (found (keys.filter (compare · key = .eq)) (Cluster.getEach call
              (keys.filter (compare · key = .eq)) d).2) compare)[key]?
          rw [getElem?_ofList_pairsOf, pairsOf_found, hvalues]
          rfl
      | removeAll keys =>
          cases hrestrict
          have hmap : pairsOf key (keys.map fun key => (key, (Decision.remove : Decision V Bool))) =
              (keys.filter (compare · key = .eq)).map fun key => (key, Decision.remove) :=
            List.filter_map ..
          have hkeys : ∀ keys : List κ, (keys.map fun key =>
              (key, (Decision.remove : Decision V Bool))).map (·.1) = keys := by
            intro keys
            rw [List.map_map]
            exact List.map_id keys
          have hrun := h.runAll hc hd call _ hroom
          rw [hmap, hkeys, hkeys] at hrun
          refine ⟨hrun.1, congrArg Answer.count ?_⟩
          rw [removals, removals, ← hrun.2, pairsOf_pairsOf]
      | entries => cases hrestrict
      | _ => cases hkey

/-- An operation that is not about the key. -/
theorem perform_other (h : Mirrors ren key c d) (hc : c.Orderly) (hd : d.Orderly) (call : Call)
    {operation : Operation κ V} (hentries : operation ≠ .entries)
    (hrestrict : operation.restrict? key = none)
    (hroom : c.version.toNat + (c.performTrace call operation).countP (·.draws) < 2 ^ 64) :
    Mirrored ren d.version key (c.perform call operation).1 d := by
  cases hkey : operation.key? with
  | some other =>
      rw [Operation.restrict?_of_key? hkey] at hrestrict
      split at hrestrict
      next => cases hrestrict
      next hne =>
        rw [perform_fst]
        exact h.follow_other hc hd hne (of_performTrace hkey c call) hroom
  | none =>
      cases operation with
      | putAll | getAll | removeAll => cases hrestrict
      | entries => exact absurd rfl hentries
      | _ => cases hkey

/-! ## Sweeps -/

omit [DecidableEq V] [Append V] [Inhabited V] in
/-- A sweep of one store in both, which removes and drops but ships no new values. -/
theorem sweepStore (h : Mirrors ren key c d) (hc : c.Sound) (hd : d.Sound) (node : Nat)
    (target : Target) (now : Millis)
    (hroom : c.version.toNat + (c.sweepStoreTrace node target now).countP (·.draws) < 2 ^ 64) :
    Mirrored ren d.version key (c.follow (c.sweepStoreTrace node target now))
      (d.follow (d.sweepStoreTrace node target now)) := by
  have hsweep : ∀ e : Cluster κ V, ∀ x ∈ e.sweepStoreTrace node target now,
      x.isDelivery = false ∧ x.draws = false :=
    fun e => forall_sweepFromTrace _ _ e fun d deadline =>
      d.forall_reclaimTrace node target deadline now (fun _ _ _ => ⟨rfl, rfl⟩) ⟨rfl, rfl⟩
  refine h.follow _ hc.orderly hd.orderly ?_ (fun x hx => (hsweep c x hx).1)
    (fun x hx => (hsweep d x hx).1) (fun x hx _ => (hsweep d x hx).2) hroom
  rw [filter_sweepStoreTrace hc.orderly hc.lockStep, filter_sweepStoreTrace hd.orderly hd.lockStep,
    h.any_expired, h.layout.reclamation_eq, h.layout.config]

omit [DecidableEq V] [Append V] [Inhabited V] in
theorem sweep (h : Mirrors ren key c d) (hc : c.Sound) (hd : d.Sound) (node : Nat) (now : Millis)
    (hroom : c.version.toNat + (c.sweepTrace node now).countP (·.draws) < 2 ^ 64) :
    Mirrored ren d.version key (c.sweep node now).1 (d.sweep node now).1 := by
  obtain ⟨howned, hnear⟩ := room_append hroom
  rw [sweep_fst, sweep_fst, sweepTrace, sweepTrace, follow_append, follow_append]
  refine (h.sweepStore hc hd node .owned now howned).trans fun ren' hnext => ?_
  exact hnext.sweepStore (hc.follow _) (hd.follow _) node .near now hnear

end Mirrors

end Cluster

end Ephemera
