import Ephemera.Proofs.Primary

/-! # Where copies come from

A value gets its version and its lifetime on the primary of its key, in the one write that draws the
version. From then on the entry is only passed on: it is shipped, stored where it is delivered, and
shipped again to a new reader. Whatever copy or message of a version is found in a cluster carries
what was written under that version.

Nothing is asked of the affinity here.
-/

namespace Ephemera

open Std

universe u v

namespace Cluster

variable {κ : Type u} {V : Type v} [Ord κ] [TransOrd κ]

/-- A key and an entry are found together in a cluster, as a copy in some store or in a message. -/
inductive Carries (c : Cluster κ V) (key : κ) (entry : Entry V) : Prop where
  | copy {node : Nat} {target : Target} (h : c.copy? node target key = some entry)
  | message {node : Nat} {m : Message κ V} (hm : m ∈ c.queue node) (h : m.update = .put key entry)

/-- A version is found in a cluster, as that of a copy or of a message, be it a removal. -/
inductive Mentions (c : Cluster κ V) (version : UInt64) : Prop where
  | copy {node : Nat} {target : Target} {key : κ} {entry : Entry V}
      (h : c.copy? node target key = some entry) (hversion : entry.version = version)
  | message {node : Nat} {m : Message κ V} (hm : m ∈ c.queue node)
      (hversion : m.update.version = version)

/-- The change writes the value and lifetime of the entry for the key, and draws the version. -/
def Writes (c : Cluster κ V) (x : Change κ V) (key : κ) (entry : Entry V) : Prop :=
  (∃ via, x = .write key via entry.value entry.ttl) ∧ entry.version = c.version + 1

/-- No version in the cluster is beyond the one drawn last. -/
def Bounded (c : Cluster κ V) : Prop :=
  ∀ version, c.Mentions version → version ≤ c.version

section Messages

variable {c : Cluster κ V} {key : κ} {entry : Entry V}

omit [TransOrd κ] in
theorem mem_queue_of_mem_inflight {node : Nat} {target : Target} {u : Update κ V}
    (h : u ∈ c.inflight node target key) : ∃ m ∈ c.queue node, m.update = u := by
  obtain ⟨m, hm, hu⟩ := List.mem_map.1 h
  exact ⟨m, (List.mem_filter.1 hm).1, hu⟩

omit [TransOrd κ] in
theorem mem_inflight_of_mem_queue [ReflOrd κ] {node : Nat} {m : Message κ V} (h : m ∈ c.queue node) :
    m.update ∈ c.inflight node m.target m.update.key :=
  List.mem_map.2 ⟨m, List.mem_filter.2 ⟨h, by simp⟩, rfl⟩

theorem carries_of_stored (h : c.stored? key = some entry) : c.Carries key entry := by
  rw [← copy?_primary] at h
  exact .copy h

theorem carries_of_inflight [LawfulEqOrd κ] {node : Nat} {target : Target} {other : κ}
    (h : .put other entry ∈ c.inflight node target key) : c.Carries key entry := by
  obtain ⟨m, hm, hu⟩ := List.mem_map.1 h
  obtain ⟨hqueue, hslot⟩ := List.mem_filter.1 hm
  have hkey : compare m.update.key key = .eq := (of_decide_eq_true hslot).2
  rw [hu] at hkey
  obtain rfl : other = key := by simpa [Update.key] using hkey
  exact .message hqueue hu

theorem mentions_of_inflight {node : Nat} {target : Target} {u : Update κ V}
    (h : u ∈ c.inflight node target key) : c.Mentions u.version := by
  obtain ⟨m, hm, rfl⟩ := mem_queue_of_mem_inflight h
  exact .message hm rfl

theorem Carries.mentions (h : c.Carries key entry) : c.Mentions entry.version := by
  cases h with
  | copy hcopy => exact .copy hcopy rfl
  | message hm hput => exact .message hm (by rw [hput]; rfl)

end Messages

variable [LawfulEqOrd κ] [Hashable κ] {c : Cluster κ V}

/-! ## One change -/

/-- What a change leaves in a cluster was there before, or is what it writes. -/
theorem Carries.change (hc : c.Running) {x : Change κ V} {key : κ} {entry : Entry V}
    (h : (c.change x).Carries key entry) : c.Carries key entry ∨ c.Writes x key entry := by
  cases h with
  | copy hcopy =>
      rcases copy?_change_eq_some hc hcopy with hcopy | ⟨other, hput⟩ | hwrite
      · exact .inl (.copy hcopy)
      · exact .inl (carries_of_inflight hput)
      · obtain ⟨via, rfl, hversion⟩ := hwrite
        exact .inr ⟨⟨via, rfl⟩, hversion⟩
  | message hm hput =>
      have hinflight := mem_inflight_of_mem_queue hm
      rw [hput] at hinflight
      rcases mem_inflight_change hc hinflight with hinflight | hdecision
      · exact .inl (carries_of_inflight hinflight)
      · rcases decision?_eq_some hdecision with ⟨via, value, ttl, rfl, heq⟩ |
          ⟨event, awaited, next, rfl, -, heq⟩ | ⟨via, next, rfl, hnext, heq⟩
        · cases heq
          exact .inr ⟨⟨via, rfl⟩, rfl⟩
        · cases heq
        · cases heq
          exact .inl (carries_of_stored hnext)

/-- A version that a change leaves in a cluster was there before, or is the one that it draws. -/
theorem Mentions.change (hc : c.Running) {x : Change κ V} {version : UInt64}
    (h : (c.change x).Mentions version) :
    c.Mentions version ∨ x.draws = true ∧ version = c.version + 1 := by
  cases h with
  | copy hcopy hversion =>
      rcases Carries.change hc (.copy hcopy) with hcarries | ⟨⟨via, rfl⟩, hdrawn⟩
      · exact .inl (hversion ▸ hcarries.mentions)
      · exact .inr ⟨rfl, hversion ▸ hdrawn⟩
  | message hm hversion =>
      rcases mem_inflight_change hc (mem_inflight_of_mem_queue hm) with hinflight | hdecision
      · exact .inl (hversion ▸ mentions_of_inflight hinflight)
      · rcases (version_of_decision? hdecision).2 with ⟨hdraws, hdrawn⟩ | ⟨entry, hentry, hstored⟩
        · exact .inr ⟨hdraws, hversion ▸ hdrawn⟩
        · rw [← hversion, hstored]
          exact .inl (carries_of_stored hentry).mentions

theorem Bounded.change (h : c.Bounded) (hc : c.Running) {x : Change κ V}
    (hroom : c.version.toNat + x.draws.toNat < 2 ^ 64) : (c.change x).Bounded := by
  intro version hmentions
  have hnext := version_change_toNat hroom
  rw [UInt64.le_iff_toNat_le, hnext]
  rcases hmentions.change hc with hbefore | ⟨hdraws, rfl⟩
  · have hle := UInt64.le_iff_toNat_le.1 (h version hbefore)
    omega
  · exact Nat.le_of_eq (by rw [← hnext, version_change, if_pos hdraws])

/-- A write is the copy on the primary once it has been made. -/
theorem Writes.stored? {x : Change κ V} {key : κ} {entry : Entry V} (h : c.Writes x key entry)
    (hprimary : c.affinity.primary key < c.nodes.length) :
    (c.change x).stored? key = some entry := by
  obtain ⟨⟨via, rfl⟩, hversion⟩ := h
  obtain ⟨d, hd, hchange⟩ := c.exists_change_write key via entry.value entry.ttl
  rw [hchange, stored?_putPrimary _ _ _ _ _
    (by rw [hd.layout.affinity, hd.layout.size]; exact hprimary),
    if_pos ReflCmp.compare_self, hd.version, ← hversion]

/-! ## A trace -/

omit [LawfulEqOrd κ] in
theorem Running.follow (hc : c.Running) (trace : List (Change κ V)) : (c.follow trace).Running :=
  follow_induction (motive := Running) trace (fun _ x _ h => h.change x) c hc

/-- What is found after a trace was there before, or has been written in its course. -/
theorem Carries.follow (hc : c.Running) {trace : List (Change κ V)} {key : κ} {entry : Entry V}
    (h : (c.follow trace).Carries key entry) :
    c.Carries key entry ∨
      ∃ pre x post, trace = pre ++ x :: post ∧ (c.follow pre).Writes x key entry := by
  -- The trace is followed back from its end to the change that has written the entry, if there is one.
  induction trace generalizing c with
  | nil => exact .inl h
  | cons x rest ih =>
      rcases ih (hc.change x) h with hcarries | ⟨pre, y, post, rfl, hwrites⟩
      · rcases hcarries.change hc with hbefore | hwrites
        · exact .inl hbefore
        · exact .inr ⟨[], x, rest, rfl, hwrites⟩
      · exact .inr ⟨x :: pre, y, post, rfl, hwrites⟩

theorem Bounded.follow (h : c.Bounded) (hc : c.Running) {trace : List (Change κ V)}
    (hroom : c.version.toNat + trace.countP (·.draws) < 2 ^ 64) : (c.follow trace).Bounded := by
  refine (follow_induction_of_room (motive := fun d => d.Running ∧ d.Bounded) trace ?_ c hroom
    ⟨hc, h⟩).2
  rintro d x - hroom ⟨hrunning, hbounded⟩
  exact ⟨hrunning.change x, hbounded.change hrunning hroom⟩

omit [TransOrd κ] [LawfulEqOrd κ] [Hashable κ] in
/-- The next version, if there is one left. -/
theorem toNat_next (hroom : c.version.toNat + 1 < 2 ^ 64) :
    (c.version + 1).toNat = c.version.toNat + 1 := by
  rw [UInt64.toNat_add]
  exact Nat.mod_eq_of_lt hroom

/-- A change that draws takes a version beyond all that are found. -/
theorem Bounded.lt_draw (h : c.Bounded) (hc : c.Running) {pre post : List (Change κ V)}
    {x : Change κ V} (hx : x.draws = true)
    (hroom : c.version.toNat + (pre ++ x :: post).countP (·.draws) < 2 ^ 64) {version : UInt64}
    (hmentions : (c.follow pre).Mentions version) : version < (c.follow pre).version + 1 := by
  rw [List.countP_append, countP_draws_cons, hx, Bool.toNat_true] at hroom
  have hbounded : (c.follow pre).Bounded := h.follow hc (by omega)
  have hcount : (c.follow pre).version.toNat = _ := version_follow (by omega)
  rw [UInt64.lt_iff_toNat_lt, toNat_next (by omega)]
  exact Nat.lt_succ_of_le (UInt64.le_iff_toNat_le.1 (hbounded version hmentions))

omit [Ord κ] [TransOrd κ] [LawfulEqOrd κ] [Hashable κ] in
/-- Changes that draw are told apart by how many have drawn before them. -/
theorem split_unique {pre pre' post post' : List (Change κ V)} {x y : Change κ V}
    (hsplit : pre ++ x :: post = pre' ++ y :: post') (hx : x.draws = true) (hy : y.draws = true)
    (hcount : pre.countP (·.draws) = pre'.countP (·.draws)) : pre = pre' := by
  -- Where one list of changes ends before the other, the next change has drawn and the counts differ.
  induction pre generalizing pre' with
  | nil =>
      cases pre' with
      | nil => rfl
      | cons z pre' =>
          obtain ⟨rfl, -⟩ := List.cons.inj hsplit
          rw [countP_draws_cons, hx, List.countP_nil, Bool.toNat_true] at hcount
          omega
  | cons z pre ih =>
      cases pre' with
      | nil =>
          obtain ⟨rfl, -⟩ := List.cons.inj hsplit
          rw [countP_draws_cons, hy, List.countP_nil, Bool.toNat_true] at hcount
          omega
      | cons z' pre' =>
          obtain ⟨rfl, hrest⟩ := List.cons.inj hsplit
          rw [countP_draws_cons, countP_draws_cons] at hcount
          rw [ih hrest (by omega)]

omit [LawfulEqOrd κ] in
/-- As long as there are versions left, no two changes of a trace draw the same one. -/
theorem draw_unique {trace pre pre' post post' : List (Change κ V)} {x y : Change κ V}
    (hroom : c.version.toNat + trace.countP (·.draws) < 2 ^ 64)
    (hpre : trace = pre ++ x :: post) (hpre' : trace = pre' ++ y :: post') (hx : x.draws = true)
    (hy : y.draws = true) (hversion : (c.follow pre).version + 1 = (c.follow pre').version + 1) :
    pre = pre' := by
  have hcount : ∀ {pre post : List (Change κ V)} {z : Change κ V}, trace = pre ++ z :: post →
      (c.follow pre).version.toNat = c.version.toNat + pre.countP (·.draws) := by
    rintro pre post z rfl
    rw [List.countP_append] at hroom
    exact version_follow (by omega)
  have hsame := congrArg UInt64.toNat ((UInt64.add_left_inj 1).1 hversion)
  rw [hcount hpre, hcount hpre'] at hsame
  exact split_unique (hpre.symm.trans hpre') hx hy (by omega)

/-- Entries of one version are the same wherever they are found in the course of a trace, with the same
key, if the trace starts from a cluster without entries. -/
theorem Carries.eq_of_version (hc : c.Running) {trace pre pre' post post' : List (Change κ V)}
    (hnone : ∀ version, ¬c.Mentions version)
    (hroom : c.version.toNat + trace.countP (·.draws) < 2 ^ 64) (hpre : trace = pre ++ post)
    (hpre' : trace = pre' ++ post') {key key' : κ} {entry entry' : Entry V}
    (h : (c.follow pre).Carries key entry) (h' : (c.follow pre').Carries key' entry')
    (hversion : entry.version = entry'.version) : key = key' ∧ entry = entry' := by
  have hwritten : ∀ {pre post : List (Change κ V)} {key : κ} {entry : Entry V},
      trace = pre ++ post → (c.follow pre).Carries key entry →
      ∃ a x b, trace = a ++ x :: b ∧ (c.follow a).Writes x key entry := by
    rintro pre post key entry rfl hcarries
    rcases hcarries.follow hc with hbefore | ⟨a, x, b, rfl, hwrites⟩
    · exact absurd hbefore.mentions (hnone _)
    · exact ⟨a, x, b ++ post, by simp, hwrites⟩
  obtain ⟨a, x, b, hsplit, ⟨via, rfl⟩, hdrawn⟩ := hwritten hpre h
  obtain ⟨a', x', b', hsplit', ⟨via', rfl⟩, hdrawn'⟩ := hwritten hpre' h'
  obtain rfl : a = a' :=
    draw_unique hroom hsplit hsplit' rfl rfl (hdrawn.symm.trans (hversion.trans hdrawn'))
  -- Both are written at one place of the trace, so by one change.
  obtain ⟨hchange, -⟩ := List.cons.inj (List.append_cancel_left (hsplit.symm.trans hsplit'))
  obtain ⟨value, version, ttl⟩ := entry
  obtain ⟨value', version', ttl'⟩ := entry'
  cases hchange
  cases hversion
  exact ⟨rfl, rfl⟩

/-! ## At the start -/

omit [TransOrd κ] [LawfulEqOrd κ] [Hashable κ] in
theorem queue_start {config : CacheConfig} {nodes : Nat} {affinity : Affinity κ}
    (h : start config nodes affinity = .ok c) (node : Nat) : c.queue node = [] := by
  cases hn : c.nodes[node]? with
  | none => exact queue_of_none hn
  | some n => rw [queue_of_some hn, node_of_start h hn]; rfl

omit [TransOrd κ] [LawfulEqOrd κ] [Hashable κ] in
theorem running_start {config : CacheConfig} {nodes : Nat} {affinity : Affinity κ}
    (h : start config nodes affinity = .ok c) : c.Running := by
  intro node n hn
  rw [node_of_start h hn]
  rfl

omit [LawfulEqOrd κ] [Hashable κ] in
theorem not_mentions_start {config : CacheConfig} {nodes : Nat} {affinity : Affinity κ}
    (h : start config nodes affinity = .ok c) (version : UInt64) : ¬c.Mentions version := by
  rintro (⟨hcopy, -⟩ | ⟨hm, -⟩)
  · cases (copy?_start h _ _ _).symm.trans hcopy
  · rw [queue_start h] at hm
    cases hm

omit [LawfulEqOrd κ] [Hashable κ] in
theorem bounded_start {config : CacheConfig} {nodes : Nat} {affinity : Affinity κ}
    (h : start config nodes affinity = .ok c) : c.Bounded :=
  fun version hmentions => absurd hmentions (not_mentions_start h version)

end Cluster

namespace System

variable {κ : Type u} {V : Type v} [Ord κ] [TransOrd κ] [LawfulEqOrd κ] [Hashable κ]
variable [DecidableEq V] [Append V] [Inhabited V]

/-- Provenance of all copies and messages in the course of a run, as long as versions last. Whatever
entry is found with a key, in whichever store or message, was written for the key in one change of the
run, the only one that has drawn its version. So two entries of one version are the same. No version
in the cluster is beyond the one drawn last, and a write takes a version beyond all that are found in
the cluster before it. -/
theorem entries_as_written {config : CacheConfig} {nodes : Nat} {affinity : Affinity κ}
    {c₀ : Cluster κ V} (hstart : Cluster.start config nodes affinity = .ok c₀) (now : Millis)
    (moves : List (Move κ V)) (hdrawn : drawn moves { cluster := c₀, clock := now } < 2 ^ 64)
    {s : System κ V} (hrun : (run moves { cluster := c₀, clock := now }).1 = s) :
    let changes := trace moves { cluster := c₀, clock := now }
    (∀ key entry, s.cluster.Carries key entry → ∃ pre x post, changes = pre ++ x :: post ∧
      (c₀.follow pre).Writes x key entry ∧
      ∀ pre' y post', changes = pre' ++ y :: post' → y.draws = true →
        (c₀.follow pre').version + 1 = entry.version → pre' = pre) ∧
    (∀ key key' entry entry', s.cluster.Carries key entry → s.cluster.Carries key' entry' →
      entry.version = entry'.version → key = key' ∧ entry = entry') ∧
    (∀ version, s.cluster.Mentions version → version ≤ s.cluster.version) ∧
    ∀ pre key via value ttl post, changes = pre ++ .write key via value ttl :: post →
      let version := (c₀.follow pre).version + 1
      (affinity.primary key < nodes →
        (c₀.follow (pre ++ [.write key via value ttl])).stored? key =
          some { value, version, ttl }) ∧
      ∀ earlier, (c₀.follow pre).Mentions earlier → earlier < version := by
  intro changes
  obtain ⟨hsize, hc₀⟩ := Cluster.start_ok hstart
  have hrunning := Cluster.running_start hstart
  have hcluster : s.cluster = c₀.follow changes := by
    rw [← hrun, run_cluster]
  have hroom : c₀.version.toNat + changes.countP (·.draws) < 2 ^ 64 := by
    rw [version_add_draws hstart]
    exact hdrawn
  have hbounded := Cluster.bounded_start hstart
  have hnone := Cluster.not_mentions_start hstart
  refine ⟨?_, ?_, ?_, ?_⟩
  · intro key entry hcarries
    rw [hcluster] at hcarries
    rcases hcarries.follow hrunning with hbefore | ⟨pre, x, post, hsplit, ⟨via, rfl⟩, hversion⟩
    · exact absurd hbefore.mentions (hnone _)
    · refine ⟨pre, _, post, hsplit, ⟨⟨via, rfl⟩, hversion⟩, ?_⟩
      intro pre' y post' hsplit' hdraws hsame
      exact Cluster.draw_unique hroom hsplit' hsplit hdraws rfl (hsame.trans hversion)
  · intro key key' entry entry' hcarries hcarries'
    rw [hcluster] at hcarries hcarries'
    have hwhole : changes = changes ++ [] := (List.append_nil _).symm
    exact hcarries.eq_of_version hrunning hnone hroom hwhole hwhole hcarries'
  · rw [hcluster]
    exact hbounded.follow hrunning hroom
  · intro pre key via value ttl post hsplit version
    have hlayout := Cluster.sameLayout_follow c₀ pre
    refine ⟨?_, ?_⟩
    · intro hprimary
      rw [Cluster.follow_append]
      have hwrites : (c₀.follow pre).Writes (.write key via value ttl) key { value, version, ttl } :=
        ⟨⟨via, rfl⟩, rfl⟩
      refine hwrites.stored? ?_
      rw [hlayout.affinity, hlayout.size, hc₀]
      simpa [Network.empty] using hprimary
    · rw [hsplit] at hroom
      exact fun earlier => hbounded.lt_draw hrunning rfl hroom

/-- An entry is written through node 2, which becomes its near reader, and is read under a policy that
gives it another lifetime. The backup and the reader have heard of the first write only. -/
def readAnew : List (Move Nat (List Nat)) :=
  [.call 2 (some (.custom (.created (.millis 100)))) (.put 0 [7]), .deliver 1, .deliver 2,
    .setClock 10, .call 0 (some (.custom { access := some (.millis 50) })) (.get 0)]

theorem entries_as_written_readAnew :
    ∃ (c₀ : Cluster Nat (List Nat)) (s : System Nat (List Nat)) (first second : Entry (List Nat)),
      Cluster.start { near := true } 3 trio = .ok c₀ ∧
      drawn readAnew { cluster := c₀ } < 2 ^ 64 ∧ (run readAnew { cluster := c₀ }).1 = s ∧
      s.cluster.copy? 2 .near 0 = some first ∧ s.cluster.stored? 0 = some second ∧
      first ≠ second ∧ s.cluster.copy? 1 .owned 0 = some first ∧
      ∃ pre x post, trace readAnew { cluster := c₀ } = pre ++ x :: post ∧
        (c₀.follow pre).Writes x 0 first := by
  let c₀ : Cluster Nat (List Nat) :=
    { config := { near := true }, affinity := trio, nodes := .empty 3 true }
  let s := (run readAnew { cluster := c₀ }).1
  have hstart : Cluster.start { near := true } 3 trio = .ok c₀ := rfl
  have hdrawn : drawn readAnew { cluster := c₀ } < 2 ^ 64 := by decide +kernel
  have hnear : s.cluster.copy? 2 .near 0 =
      some { value := [7], version := 1, ttl := .lasting 100 0 } := by decide +kernel
  have hstored : s.cluster.stored? 0 =
      some { value := [7], version := 2, ttl := .lasting 50 10 } := by decide +kernel
  have hbackup : (s.cluster.copy? 1 .owned 0).map (·.version) = some 1 := by decide +kernel
  obtain ⟨hwritten, hidentical, -⟩ := entries_as_written hstart 0 readAnew hdrawn (s := s) rfl
  obtain ⟨copy, hcopy, hversion⟩ := Option.map_eq_some_iff.1 hbackup
  obtain ⟨pre, x, post, hsplit, hwrites, -⟩ := hwritten 0 _ (.copy hnear)
  refine ⟨c₀, s, _, _, hstart, hdrawn, rfl, hnear, hstored, by decide, ?_, pre, x, post, hsplit, hwrites⟩
  rw [hcopy, (hidentical 0 0 _ _ (.copy hcopy) (.copy hnear) hversion).2]

end System

end Ephemera
