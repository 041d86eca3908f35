import Ephemera.Http.Server
import Ephemera.Proofs.ReadBack

/-! # What responses tell

A client that looks at nothing but responses is not misled. What is refused has not been done. Whether
a value was stored is told by the primary, and a read that follows finds just that, even where another
node answers it out of a copy of its own. A key that has been removed is not found again, and if there
was nothing to remove then expired copies have gone, at most.
-/

namespace Ephemera

open Std

namespace Http

/-- A request for one of the resources, once its parts are decoded. -/
inductive Decoded where
  | put (key : String) (request : PutRequest)
  | get (key : String) (query : ExpiryQuery)
  | delete (key : String)
  | ttl (key : String)
  | stats
  | health
  deriving DecidableEq, Repr

/-- The answer to a decoded request. -/
def Decoded.answer (c : Cluster String String) (now : Millis) :
    Decoded → Cluster String String × Response
  | put key request => Http.put c now key request
  | get key query => Http.get c now key query
  | delete key => Http.delete c now key
  | ttl key => (c, Http.ttl c now key)
  | stats => (c, success (Body.stats c.stats c.nodes.length))
  | health => (c, success (Body.health now))

/-- What a request decodes to, or the status that it is turned down with, is no matter of the cluster
or the clock. -/
theorem serve_eq_turnDown_or_answer (r : Request) (method : String) :
    (∃ status, ∀ c now, serve c now r method = (c, turnDown status)) ∨
      ∃ request : Decoded, ∀ c now, serve c now r method = request.answer c now := by
  unfold serve
  cases Resource.ofPath? r.path with
  | none => exact .inl ⟨404, fun _ _ => rfl⟩
  | some resource =>
      by_cases hmethod : method ∉ methods resource
      · exact .inl ⟨405, fun _ _ => if_pos hmethod⟩
      simp only [if_neg hmethod]
      cases resource with
      | stats => exact .inr ⟨.stats, fun _ _ => rfl⟩
      | health => exact .inr ⟨.health, fun _ _ => rfl⟩
      | ttl key =>
          dsimp only
          cases Text.percentDecode? (String.ofList key) with
          | none => exact .inl ⟨400, fun _ _ => rfl⟩
          | some key => exact .inr ⟨.ttl key, fun _ _ => rfl⟩
      | entry key =>
          dsimp only
          cases Text.percentDecode? (String.ofList key) with
          | none => exact .inl ⟨400, fun _ _ => rfl⟩
          | some key =>
              simp only [serveEntry]
              split
              · cases readPut r with
                | error status => exact .inl ⟨status, fun _ _ => rfl⟩
                | ok request => exact .inr ⟨.put key request, fun _ _ => rfl⟩
              · cases expiryQuery? r.query with
                | none => exact .inl ⟨400, fun _ _ => rfl⟩
                | some query => exact .inr ⟨.get key query, fun _ _ => rfl⟩
              · exact .inr ⟨.delete key, fun _ _ => rfl⟩

/-- The answer to a read of a key. -/
def found (key : String) : Option String → Response
  | some value => success (Body.get key value)
  | none => refusal (.notFound key)

theorem status_found (key : String) (value : Option String) :
    (found key value).status = if value.isSome then 200 else 404 := by
  cases value <;> rfl

theorem kind_of_keyError? {key : String} {e : CacheError} (h : keyError? key = some e) :
    e.kind = .invalidRequest := by
  unfold keyError? at h
  split at h
  · cases h
    rfl
  · split at h <;> cases h
    rfl

theorem status_refusal_ne (e : CacheError) : (refusal e).status ≠ 200 := by
  change e.kind.status ≠ 200
  cases e.kind <;> decide

section Shapes

variable (c : Cluster String String) (now : Millis) (key : String)

/-- Nothing is written if the request is refused, and else the primary tells whether the value is
there. -/
theorem put_eq (request : PutRequest) :
    (∃ e, put c now key request = (c, refusal e)) ∨
      keyError? key = none ∧ ∃ scope, put c now key request =
        (c.put (call c now scope) key request.value, success (Body.put key
          ((c.put (call c now scope) key request.value).live? key now).isSome)) := by
  unfold put
  cases herror : request.error? key with
  | some e => exact .inl ⟨e, rfl⟩
  | none =>
      cases request.policy with
      | error e => exact .inl ⟨e, rfl⟩
      | ok scope =>
          refine .inr ⟨?_, scope, ?_⟩
          · unfold PutRequest.error? at herror
            split at herror
            · cases herror
            · assumption
          · simp only [Cluster.ttl, Option.isSome_map]
            rfl

theorem get_of_policy (hkey : keyError? key = none) {query : ExpiryQuery} {scope : Option Policy}
    (hpolicy : query.policy = .ok scope) :
    get c now key query =
      ((c.get (call c now scope) key).1, found key (c.get (call c now scope) key).2) := by
  simp only [get, hkey, hpolicy]
  cases hget : c.get (call c now scope) key with
  | mk d value => cases value <;> rfl

theorem get_eq (query : ExpiryQuery) :
    (∃ e, get c now key query = (c, refusal e)) ∨
      ∃ scope, get c now key query =
        ((c.get (call c now scope) key).1, found key (c.get (call c now scope) key).2) := by
  cases hkey : keyError? key with
  | some e => exact .inl ⟨e, by simp only [get, hkey]⟩
  | none =>
      cases hpolicy : query.policy with
      | error e => exact .inl ⟨e, by simp only [get, hkey, hpolicy]⟩
      | ok scope => exact .inr ⟨scope, get_of_policy c now key hkey hpolicy⟩

theorem delete_eq :
    (∃ e, e.kind = .invalidRequest ∧ delete c now key = (c, refusal e)) ∨
      keyError? key = none ∧ delete c now key = ((c.remove (call c now none) key).1,
        if (c.live? key now).isSome then success (Body.delete key) else refusal (.notFound key)) := by
  unfold delete
  cases herror : keyError? key with
  | some e => exact .inl ⟨e, kind_of_keyError? herror, rfl⟩
  | none =>
      refine .inr ⟨rfl, ?_⟩
      have hremoved := c.remove_snd (call c now none) key
      change _ = (c.live? key now).isSome at hremoved
      rw [← hremoved]
      cases hremove : c.remove (call c now none) key with
      | mk d removed =>
          cases removed <;> rfl

end Shapes

section Answers

variable {c : Cluster String String} {now : Millis} {key : String}

/-- A request that is answered as a bad one has changed nothing. -/
theorem Decoded.answer_of_status_eq {request : Decoded}
    (h : (request.answer c now).2.status = 400) : (request.answer c now).1 = c := by
  cases request with
  | put key request =>
      rcases put_eq c now key request with ⟨e, hput⟩ | ⟨-, scope, hput⟩
      · rw [answer, hput]
      · rw [answer, hput] at h
        cases h
  | get key query =>
      rcases get_eq c now key query with ⟨e, hget⟩ | ⟨scope, hget⟩
      · rw [answer, hget]
      · rw [answer, hget] at h
        cases hvalue : (c.get (call c now scope) key).2 <;> rw [hvalue] at h <;> cases h
  | delete key =>
      rcases delete_eq c now key with ⟨e, -, hdelete⟩ | ⟨-, hdelete⟩
      · rw [answer, hdelete]
      · rw [answer, hdelete] at h
        cases hlive : (c.live? key now).isSome <;> rw [hlive] at h <;> cases h
  | ttl | stats | health => rfl

/-- Once everything is delivered, who reads a key without asking for durations finds what is live on
its primary. -/
theorem get_settle {lapsed : Entry String → Prop} (h : c.Coherent lapsed)
    (hkey : keyError? key = none) :
    (get c.settle now key {}).2 = found key ((c.live? key now).map (·.value)) := by
  rw [get_of_policy c.settle now key hkey rfl]
  exact congrArg (found key) (h.get_settle (call c.settle now none) key)

/-- What was stored is read, and what was not is not found. -/
theorem get_of_put {lapsed : Entry String → Prop} (h : c.Coherent lapsed)
    (hversion : c.version.toNat + 1 < 2 ^ 64) {request : PutRequest} {d : Cluster String String}
    {response : Response} (hput : put c now key request = (d, response))
    (hstatus : response.status = 200) :
    ∃ stored, response = success (Body.put key stored) ∧
      (get d.settle now key {}).2 = found key (if stored then some request.value else none) := by
  rcases put_eq c now key request with ⟨e, heq⟩ | ⟨hkey, scope, heq⟩
  · cases hput.symm.trans heq
    exact absurd hstatus (status_refusal_ne e)
  · have hafter : (c.put (call c now scope) key request.value).Coherent lapsed :=
      h.put (Nat.zero_lt_of_lt (h.primary_lt key)) key request.value hversion
    cases hput.symm.trans heq
    refine ⟨_, rfl, (get_settle hafter hkey).trans (congrArg (found key) ?_)⟩
    cases hlive : (c.put (call c now scope) key request.value).live? key now with
    | none => rfl
    | some entry => exact congrArg some (c.value_of_live?_put (h.primary_lt key) hlive)

/-- What was removed is not found. -/
theorem get_of_delete {lapsed : Entry String → Prop} (h : c.Coherent lapsed)
    {d : Cluster String String} {response : Response} (hdelete : delete c now key = (d, response))
    (hstatus : response.status = 200) :
    (get d.settle now key {}).2 = refusal (.notFound key) := by
  rcases delete_eq c now key with ⟨e, -, heq⟩ | ⟨hkey, heq⟩
  · cases hdelete.symm.trans heq
    exact absurd hstatus (status_refusal_ne e)
  · cases hdelete.symm.trans heq
    refine (get_settle (h.remove (call c now none) key) hkey).trans ?_
    rw [c.live?_remove (call c now none) (h.primary_lt key) now]
    rfl

/-- Where there was nothing to remove, expired copies have gone and nothing else is different. -/
theorem settle_of_delete {lapsed : Entry String → Prop} (h : c.Coherent lapsed) (hquiet : c.Quiet)
    {d : Cluster String String} {response : Response} (hdelete : delete c now key = (d, response))
    (hstatus : response.status = 404) :
    d.settle = c.lapse key .expired ∧
      ∀ node target entry, c.copy? node target key = some entry → entry.expiredAt now := by
  rcases delete_eq c now key with ⟨e, hkind, heq⟩ | ⟨-, heq⟩
  · cases hdelete.symm.trans heq
    change e.kind.status = 404 at hstatus
    rw [hkind] at hstatus
    cases hstatus
  · have hsettle := h.settle_remove hquiet (call c now none) key
    change _ = c.lapse key (if (c.live? key now).isSome then .removal else .expired) at hsettle
    cases hdelete.symm.trans heq
    cases hlive : c.live? key now with
    | some entry =>
        rw [hlive] at hstatus
        cases hstatus
    | none =>
        rw [hlive] at hsettle
        exact ⟨hsettle, fun node target entry => h.expiredAt_of_live?_eq_none hquiet hlive⟩

end Answers

end Http

namespace System

/-- Responses tell what has come of the cluster. In every state at rest that a run of operations,
transactions, sweeps, deliveries and readings of the clock leads to, and at every reading:

* a request that is refused as invalid, for itself or for its policy, leaves the cluster as it was, and
  so does one that asks for a lifetime or for the statistics;
* a value is reported as stored exactly if the key is found once that is delivered, and then with this
  value, and as not stored exactly if it is not found;
* a key that was removed is not found, and where none was found to remove, the cluster differs by
  copies of that key, all of which had expired.

A replica stays behind its primary only if versions run out, so the last two hold until then. -/
theorem responses_faithful {config : CacheConfig} {nodes : Nat} {affinity : Affinity String}
    {c₀ : Cluster String String} (hstart : Cluster.start config nodes affinity = .ok c₀)
    (hlawful : affinity.Lawful) (started : Millis) (moves : List (Move String String))
    {s : System String String} (hrun : (run moves { cluster := c₀, clock := started }).1 = s)
    (hquiet : s.cluster.Quiet) (now : Millis) :
    (∀ (request : Http.Decoded) (e : CacheError),
      (request.answer s.cluster now).2 = Http.refusal e →
        e.kind = .invalidRequest ∨ e.kind = .invalidPolicy →
          (request.answer s.cluster now).1 = s.cluster) ∧
    (∀ key, ((Http.Decoded.ttl key).answer s.cluster now).1 = s.cluster) ∧
    (Http.Decoded.stats.answer s.cluster now).1 = s.cluster ∧
    (drawn moves { cluster := c₀, clock := started } + 1 < 2 ^ 64 → ∀ key request d response,
      (Http.Decoded.put key request).answer s.cluster now = (d, response) → response.status = 200 →
        ∃ stored, response = Http.success (Http.Body.put key stored) ∧
          (stored = true ↔ ((Http.Decoded.get key {}).answer d.settle now).2.status = 200) ∧
          (stored = true → ((Http.Decoded.get key {}).answer d.settle now).2 =
            Http.success (Http.Body.get key request.value)) ∧
          (stored = false ↔ ((Http.Decoded.get key {}).answer d.settle now).2.status = 404)) ∧
    (drawn moves { cluster := c₀, clock := started } < 2 ^ 64 → ∀ key d response,
      (Http.Decoded.delete key).answer s.cluster now = (d, response) →
        (response.status = 200 →
          ((Http.Decoded.get key {}).answer d.settle now).2.status = 404) ∧
        (response.status = 404 → d.settle = s.cluster.lapse key .expired ∧
          ∀ node target entry, s.cluster.copy? node target key = some entry →
            entry.expiredAt now)) := by
  have hcoherent (hdrawn : drawn moves { cluster := c₀, clock := started } < 2 ^ 64) :
      s.cluster.Coherent fun _ => True :=
    hrun ▸ coherent_run_of_start hstart hlawful (fun _ _ _ _ => trivial) hdrawn
  refine ⟨?_, fun _ => rfl, rfl, ?_, ?_⟩
  · intro request e hrefused hkind
    apply Http.Decoded.answer_of_status_eq
    rw [hrefused]
    change e.kind.status = 400
    rcases hkind with hkind | hkind <;> rw [hkind] <;> rfl
  · intro hdrawn key request d response hput hstatus
    have hbound := Nat.lt_of_succ_lt hdrawn
    rw [← version_run hstart started hrun hbound] at hdrawn
    obtain ⟨stored, hresponse, hread⟩ := Http.get_of_put (hcoherent hbound) hdrawn hput hstatus
    refine ⟨stored, hresponse, ?_⟩
    change ((Http.Decoded.get key {}).answer d.settle now).2 = _ at hread
    rw [hread, Http.status_found]
    cases stored <;> simp [Http.found]
  · intro hdrawn key d response hdelete
    refine ⟨fun hstatus => ?_, Http.settle_of_delete (hcoherent hdrawn) hquiet hdelete⟩
    exact congrArg Http.Response.status (Http.get_of_delete (hcoherent hdrawn) hdelete hstatus)

/-- Two nodes, of which the second is primary of every key and the first backs it up. -/
def fronted : Affinity String where
  nodes := 2
  primary _ := 1
  backups _ := [0]

theorem lawful_fronted : fronted.Lawful where
  primary_lt := by simp [fronted]
  backups_lt := by simp [fronted]
  primary_not_mem_backups := by simp [fronted]

/-- An entry that lives for three milliseconds is written, and the clock reads five. -/
def outlived : List (Move String String) :=
  [.call 0 (some (.custom (.created (.millis 3)))) (.put "old" "v"), .deliver 0, .setClock 5]

/-- The entry that has expired is deleted, and another one is stored and read from the backup. -/
theorem responses_faithful_outlived :
    ∃ (c₀ d : Cluster String String) (s : System String String),
      Cluster.start { eager := false } 2 fronted = .ok c₀ ∧
      (run outlived { cluster := c₀ }).1 = s ∧ s.cluster.Quiet ∧
      (Http.Decoded.put "new" { value := "w" }).answer s.cluster 5 =
        (d, Http.success (Http.Body.put "new" true)) ∧
      ((Http.Decoded.get "new" {}).answer d.settle 5).2 = Http.success (Http.Body.get "new" "w") ∧
      ((Http.Decoded.delete "old").answer s.cluster 5).1.settle = s.cluster.lapse "old" .expired := by
  let c₀ : Cluster String String :=
    { config := { eager := false }, affinity := fronted, nodes := .empty 2 false }
  have hstart : Cluster.start { eager := false } 2 fronted = .ok c₀ := rfl
  have hdrawn : drawn outlived { cluster := c₀ } + 1 < 2 ^ 64 := by decide_cbv
  have hquiet : (run outlived { cluster := c₀ }).1.cluster.Quiet := by decide_cbv
  let s := (run outlived { cluster := c₀ }).1
  let call := Http.call s.cluster 5 none
  let d := s.cluster.put call "new" "w"
  have hlive : (d.ttl call "new").isSome = true := by decide_cbv
  have hstored : (Http.Decoded.put "new" { value := "w" }).answer s.cluster 5 =
      (d, Http.success (Http.Body.put "new" true)) :=
    congrArg (fun stored => (d, Http.success (Http.Body.put "new" stored))) hlive
  obtain ⟨-, -, -, hput, hdelete⟩ :=
    responses_faithful hstart lawful_fronted 0 outlived (s := s) rfl hquiet 5
  refine ⟨c₀, d, s, hstart, rfl, hquiet, hstored, ?_, ?_⟩
  · obtain ⟨stored, hresponse, -, hread, -⟩ := hput hdrawn _ _ _ _ hstored rfl
    cases stored with
    | true => exact hread rfl
    | false => simp [Http.success, Http.Body.put] at hresponse
  · exact ((hdelete (Nat.lt_of_succ_lt hdrawn) "old" _ _ rfl).2 rfl).1

end System

end Ephemera
