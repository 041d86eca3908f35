import Mathlib.Data.List.Induction
import Ephemera.Proofs.Timetable

/-! # Scans of an index that changes

A scan holds no copy of the index. It remembers the deadline that it listed last, and that deadline
may have been taken out or moved by the time of the next step. Since every step goes to the earliest
expired deadline beyond the one it remembers, no change of the index makes a scan list anything twice,
out of order or after it was taken out, and none makes it miss a deadline that stays where it is.
-/

namespace Ephemera

open Std

universe u

variable {κ : Type u} [Ord κ] [TransOrd κ]

namespace Scan

/-- What can happen while a scan is under way. -/
inductive Event (κ : Type u) where
  /-- The scan takes a step. -/
  | next
  | upsert (key : κ) (time : Millis)
  | remove (key : κ)
  deriving DecidableEq, Repr

/-- A scan under way. -/
structure Course (κ : Type u) [Ord κ] where
  /-- The index by now. -/
  index : Index κ
  scan : Scan κ
  /-- The deadlines listed so far. -/
  listed : List (Deadline κ) := []
  /-- Whether a step has found nothing more. -/
  ended : Bool := false

namespace Course

/-- A scan of what has expired by `now`, before its first step. -/
def start (index : Index κ) (now : Millis) : Course κ where
  index
  scan := { now }

variable [Hashable κ]

/-- One event. When the scan has ended its course is over. -/
def step (c : Course κ) (event : Event κ) : Course κ :=
  if c.ended then c
  else
    match event with
    | .next =>
      match c.scan.next c.index with
      | (none, scan) => { c with scan, ended := true }
      | (some d, scan) => { c with scan, listed := c.listed ++ [d] }
    | .upsert key time => { c with index := c.index.upsert key time }
    | .remove key => { c with index := c.index.erase key }

/-- Several events, in turn. -/
def run (events : List (Event κ)) (c : Course κ) : Course κ :=
  events.foldl step c

variable {c : Course κ} {now : Millis}

@[simp]
theorem run_nil (c : Course κ) : c.run [] = c := rfl

theorem run_cons (event : Event κ) (rest : List (Event κ)) (c : Course κ) :
    c.run (event :: rest) = (c.step event).run rest := rfl

theorem run_append (before after : List (Event κ)) (c : Course κ) :
    c.run (before ++ after) = (c.run before).run after :=
  List.foldl_append ..

theorem run_concat (before : List (Event κ)) (event : Event κ) (c : Course κ) :
    c.run (before ++ [event]) = (c.run before).step event :=
  run_append ..

theorem step_of_ended (h : c.ended = true) (event : Event κ) : c.step event = c :=
  if_pos h

theorem step_upsert (h : c.ended = false) (key : κ) (time : Millis) :
    c.step (.upsert key time) = { c with index := c.index.upsert key time } := by
  simp [step, h]

theorem step_remove (h : c.ended = false) (key : κ) :
    c.step (.remove key) = { c with index := c.index.erase key } := by
  simp [step, h]

theorem step_next_of_none (h : c.ended = false) (hnext : (c.scan.next c.index).1 = none) :
    c.step .next = { c with scan := { c.scan with cursor := none }, ended := true } := by
  have hscan := c.scan.next_snd c.index
  rw [hnext] at hscan
  simp only [step, h, Bool.false_eq_true, if_false, ← hscan]
  split
  next heq => rw [heq]
  next heq => rw [heq] at hnext; cases hnext

theorem step_next_of_some {d : Deadline κ} (h : c.ended = false)
    (hnext : (c.scan.next c.index).1 = some d) :
    c.step .next =
      { c with scan := { c.scan with cursor := some d }, listed := c.listed ++ [d] } := by
  have hscan := c.scan.next_snd c.index
  rw [hnext] at hscan
  simp only [step, h, Bool.false_eq_true, if_false, ← hscan]
  split
  next heq => rw [heq] at hnext; cases hnext
  next heq => rw [heq] at hnext; cases hnext; rw [heq]

/-! ## What every course keeps -/

/-- What has been listed is in order, and what lies beyond the cursor is later than all of it. -/
structure Sound (c : Course κ) (now : Millis) : Prop where
  agrees : c.index.Agrees
  now_eq : c.scan.now = now
  ordered : c.listed.Pairwise (compare · · = .lt)
  beyond : c.ended = false → ∀ e ∈ c.listed, ∀ d, Deadline.After c.scan.cursor d → compare e d = .lt

namespace Sound

theorem start {index : Index κ} (h : index.Agrees) (now : Millis) :
    (Course.start index now).Sound now where
  agrees := h
  now_eq := rfl
  ordered := .nil
  beyond _ := nofun

variable [LawfulEqOrd κ]

theorem next (h : c.Sound now) (hended : c.ended = false) : (c.step .next).Sound now := by
  cases hnext : (c.scan.next c.index).1 with
  | none =>
      rw [step_next_of_none hended hnext]
      exact ⟨h.agrees, h.now_eq, h.ordered, nofun⟩
  | some d =>
      obtain ⟨-, -, hafter, -⟩ := next_eq_some hnext
      have hlater : ∀ e ∈ c.listed, compare e d = .lt := fun e he => h.beyond hended e he d hafter
      rw [step_next_of_some hended hnext]
      refine ⟨h.agrees, h.now_eq, List.pairwise_append.2 ⟨h.ordered, .cons nofun .nil, ?_⟩, ?_⟩
      · intro e he d' hd'
        rw [List.mem_singleton.1 hd']
        exact hlater e he
      · intro _ e he d' hd'
        rcases List.mem_append.1 he with he | he
        · exact TransCmp.lt_trans (hlater e he) (hd' d rfl)
        · rw [List.mem_singleton.1 he]
          exact hd' d rfl

theorem step (h : c.Sound now) (event : Event κ) : (c.step event).Sound now := by
  cases hended : c.ended with
  | true =>
      rw [step_of_ended hended]
      exact h
  | false =>
      cases event with
      | next => exact h.next hended
      | upsert key time =>
          rw [step_upsert hended]
          exact ⟨h.agrees.upsert key time, h.now_eq, h.ordered, h.beyond⟩
      | remove key =>
          rw [step_remove hended]
          exact ⟨h.agrees.erase key, h.now_eq, h.ordered, h.beyond⟩

theorem run (h : c.Sound now) (events : List (Event κ)) : (c.run events).Sound now := by
  induction events generalizing c with
  | nil => exact h
  | cons event rest ih => exact ih (h.step event)

end Sound

variable [LawfulEqOrd κ]

/-- A step lists nothing but what the index holds at that moment. -/
theorem mem_listed_step (h : c.Sound now) {event : Event κ} {d : Deadline κ}
    (hd : d ∈ (c.step event).listed) :
    d ∈ c.listed ∨ event = .next ∧ (c.step .next).listed = c.listed ++ [d] ∧
      c.index.expireTime? d.key = some d.time ∧ d.time ≤ now := by
  cases hended : c.ended with
  | true =>
      rw [step_of_ended hended] at hd
      exact .inl hd
  | false =>
      cases event with
      | upsert key time =>
          rw [step_upsert hended] at hd
          exact .inl hd
      | remove key =>
          rw [step_remove hended] at hd
          exact .inl hd
      | next =>
          cases hnext : (c.scan.next c.index).1 with
          | none =>
              rw [step_next_of_none hended hnext] at hd
              exact .inl hd
          | some e =>
              obtain ⟨hmem, hdue, -, -⟩ := next_eq_some hnext
              rw [step_next_of_some hended hnext] at hd
              rcases List.mem_append.1 hd with hd | hd
              · exact .inl hd
              · rw [List.mem_singleton.1 hd, step_next_of_some hended hnext]
                exact .inr ⟨rfl, rfl, (h.agrees.mem_deadlines_iff e).1 hmem, h.now_eq ▸ hdue⟩

/-- Everything that a course lists was listed by one of its steps. -/
theorem exists_of_mem_listed {index : Index κ} (h : index.Agrees) {events : List (Event κ)}
    {d : Deadline κ} (hd : d ∈ ((start index now).run events).listed) :
    ∃ before, before ++ [.next] <+: events ∧
      ((start index now).run (before ++ [.next])).listed =
        ((start index now).run before).listed ++ [d] ∧
      ((start index now).run before).index.expireTime? d.key = some d.time ∧ d.time ≤ now := by
  induction events using List.reverseRecOn with
  | nil => cases hd
  | append_singleton events event ih =>
      rw [run_concat] at hd
      rcases mem_listed_step ((Sound.start h now).run events) hd with hd | ⟨rfl, hlisted, hpresent⟩
      · obtain ⟨before, hbefore, hgiven⟩ := ih hd
        exact ⟨before, hbefore.trans (List.prefix_append ..), hgiven⟩
      · rw [← run_concat] at hlisted
        exact ⟨events, List.prefix_rfl, hlisted, hpresent⟩

/-- A deadline that a step finds in the index and that is still ahead of the scan has been listed
after the step or is still ahead. -/
theorem listed_or_after_step (h : c.Sound now) (event : Event κ) {d : Deadline κ}
    (hd : c.index.expireTime? d.key = some d.time) (hdue : d.time ≤ now)
    (hahead : d ∈ c.listed ∨ c.ended = false ∧ Deadline.After c.scan.cursor d) :
    d ∈ (c.step event).listed ∨
      (c.step event).ended = false ∧ Deadline.After (c.step event).scan.cursor d := by
  cases hended : c.ended with
  | true =>
      rw [step_of_ended hended]
      exact hahead
  | false =>
      cases event with
      | upsert key time =>
          rw [step_upsert hended]
          exact hahead
      | remove key =>
          rw [step_remove hended]
          exact hahead
      | next =>
          have hmem := (h.agrees.mem_deadlines_iff d).2 hd
          have hdue : d.time ≤ c.scan.now := h.now_eq ▸ hdue
          cases hnext : (c.scan.next c.index).1 with
          | none =>
              rw [step_next_of_none hended hnext]
              exact .inl (hahead.resolve_right fun hafter => next_eq_none hnext hmem hdue hafter.2)
          | some e =>
              rw [step_next_of_some hended hnext]
              rcases hahead with hlisted | ⟨-, hafter⟩
              · exact .inl (List.mem_append_left _ hlisted)
              · -- The scan goes to `d` itself or to something earlier.
                by_cases hne : e = d
                · exact .inl (List.mem_append_right _ (List.mem_singleton.2 hne.symm))
                · refine .inr ⟨hended, ?_⟩
                  rintro _ ⟨⟩
                  exact Deadline.lt_of_isLE ((next_eq_some hnext).2.2.2 d hmem hdue hafter) hne

/-- A deadline that stays in the index is listed or still ahead of the scan. -/
theorem listed_or_after {index : Index κ} (h : index.Agrees) {events : List (Event κ)}
    {d : Deadline κ} (hdue : d.time ≤ now)
    (hstays : ∀ before, before <+: events →
      ((start index now).run before).index.expireTime? d.key = some d.time) :
    d ∈ ((start index now).run events).listed ∨ ((start index now).run events).ended = false ∧
      Deadline.After ((start index now).run events).scan.cursor d := by
  induction events using List.reverseRecOn with
  | nil => exact .inr ⟨rfl, nofun⟩
  | append_singleton events event ih =>
      rw [run_concat]
      refine listed_or_after_step ((Sound.start h now).run events) event
        (hstays events (List.prefix_append ..)) hdue (ih fun before hbefore => ?_)
      exact hstays before (hbefore.trans (List.prefix_append ..))

end Course

/-! ## What is listed is taken out -/

section Taking

variable [LawfulEqOrd κ] {index other : Index κ} {scan : Scan κ} {d : Deadline κ}

/-- A step depends on nothing of the index but the deadlines ahead. -/
theorem next_congr
    (h : ∀ d, Deadline.After scan.cursor d → (d ∈ index.deadlines ↔ d ∈ other.deadlines)) :
    (scan.next index).1 = (scan.next other).1 := by
  cases hnext : (scan.next index).1 with
  | none =>
      cases hother : (scan.next other).1 with
      | none => rfl
      | some d =>
          obtain ⟨hd, hdue, hafter, -⟩ := next_eq_some hother
          exact absurd hafter (next_eq_none hnext ((h d hafter).2 hd) hdue)
  | some d =>
      obtain ⟨hd, hdue, hafter, hleast⟩ := next_eq_some hnext
      cases hother : (scan.next other).1 with
      | none => exact absurd hafter (next_eq_none hother ((h d hafter).1 hd) hdue)
      | some e =>
          obtain ⟨he, hedue, heafter, heleast⟩ := next_eq_some hother
          have hle := hleast e ((h e heafter).2 he) hedue heafter
          have hge := heleast d ((h d hafter).1 hd) hdue hafter
          rw [LawfulEqOrd.eq_of_compare (OrientedCmp.isLE_antisymm hle hge)]

theorem list_congr
    (h : ∀ d, Deadline.After scan.cursor d → (d ∈ index.deadlines ↔ d ∈ other.deadlines))
    (fuel : Nat) : list index fuel scan = list other fuel scan := by
  induction fuel generalizing scan with
  | zero => rfl
  | succ fuel ih =>
      have hsame := next_congr h
      cases hnext : (scan.next index).1 with
      | none => rw [list_of_none hnext, list_of_none (hsame ▸ hnext)]
      | some d =>
          rw [list_of_some hnext, list_of_some (hsame ▸ hnext)]
          refine congrArg (d :: ·) (ih fun e he => h e ?_)
          exact (next_eq_some hnext).2.2.1.trans (he d rfl)

variable [Hashable κ]

omit [LawfulEqOrd κ] [Hashable κ] in
theorem length_list_le (index : Index κ) (fuel : Nat) (scan : Scan κ) :
    (list index fuel scan).length ≤ fuel := by
  induction fuel generalizing scan with
  | zero => exact Nat.le_refl _
  | succ fuel ih =>
      cases hnext : (scan.next index).1 with
      | none =>
          rw [list_of_none hnext]
          exact Nat.zero_le _
      | some d =>
          rw [list_of_some hnext]
          exact Nat.succ_le_succ (ih _)

/-- To take out what has just been listed changes nothing ahead. -/
theorem list_erase (h : index.Agrees) (hd : d ∈ index.deadlines) (fuel : Nat) (now : Millis) :
    list (index.erase d.key) fuel { now, cursor := some d } =
      list index fuel { now, cursor := some d } := by
  refine list_congr (fun e he => ?_) fuel
  rw [(h.erase d.key).mem_deadlines_iff, h.mem_deadlines_iff, Index.expireTime?_erase]
  split
  next hkey =>
    -- A deadline of the same key is `d` itself, and that is not beyond `d`.
    refine iff_of_false (fun hnone => by cases hnone) fun htime => ?_
    have hkey : d.key = e.key := LawfulEqOrd.eq_of_compare hkey
    have hdtime := (h.mem_deadlines_iff d).1 hd
    rw [hkey, htime] at hdtime
    obtain rfl : d = e := by
      cases d
      cases e
      cases hkey
      cases hdtime
      rfl
    have hlt := he d rfl
    simp at hlt
  next => exact Iff.rfl

/-- The keys are out and all others where they were. -/
theorem expireTime?_foldl_erase (keys : List κ) (index : Index κ) (key : κ) :
    (key ∈ keys → (keys.foldl Index.erase index).expireTime? key = none) ∧
      (key ∉ keys → (keys.foldl Index.erase index).expireTime? key = index.expireTime? key) := by
  induction keys generalizing index with
  | nil => exact ⟨nofun, fun _ => rfl⟩
  | cons head rest ih =>
      obtain ⟨hmem, hnot⟩ := ih (index.erase head)
      by_cases hrest : key ∈ rest
      · exact ⟨fun _ => hmem hrest, fun h => absurd (List.mem_cons_of_mem head hrest) h⟩
      · rw [Index.expireTime?_erase] at hnot
        constructor
        · intro h
          rw [List.foldl_cons, hnot hrest, if_pos]
          rw [(List.mem_cons.1 h).resolve_right hrest]
          exact ReflCmp.compare_self
        · intro h
          rw [List.foldl_cons, hnot hrest, if_neg]
          exact fun hkey => h (List.mem_cons.2 (.inl (LawfulEqOrd.eq_of_compare hkey).symm))

/-- The scan that empties the index as it goes lists what it would have listed anyway. -/
theorem drain_eq (h : index.Agrees) (fuel : Nat) (scan : Scan κ) :
    drain fuel scan index =
      (list index fuel scan, ((list index fuel scan).map (·.key)).foldl Index.erase index) := by
  induction fuel generalizing index scan with
  | zero => rfl
  | succ fuel ih =>
      have hscan := scan.next_snd index
      unfold drain
      split
      next hnone =>
        rw [list_of_none (congrArg Prod.fst hnone)]
        rfl
      next hsome =>
        have hnext := congrArg Prod.fst hsome
        rw [hsome] at hscan
        simp only at hscan hnext
        rw [hscan, ih (h.erase _), list_of_some hnext, list_erase h (next_eq_some hnext).1]
        rfl

namespace Event

/-- A step for each of the deadlines, after which the key of it is taken out if `p` holds of it, and
one more step. -/
def taking (p : Deadline κ → Bool) (ds : List (Deadline κ)) : List (Event κ) :=
  ds.flatMap (fun d => .next :: if p d then [.remove d.key] else []) ++ [.next]

omit [Ord κ] [TransOrd κ] [LawfulEqOrd κ] [Hashable κ] in
theorem taking_cons (p : Deadline κ → Bool) (d : Deadline κ) (ds : List (Deadline κ)) :
    taking p (d :: ds) = .next :: ((if p d then [.remove d.key] else []) ++ taking p ds) := by
  simp [taking]

end Event

namespace Course

/-- Whatever is taken out of what has been listed, the scan goes on as it would have. -/
theorem run_taking (p : Deadline κ → Bool) {fuel : Nat} {c : Course κ} (h : c.index.Agrees)
    (hended : c.ended = false) (hfuel : (list c.index fuel c.scan).length < fuel) :
    let taken := c.run (Event.taking p (list c.index fuel c.scan))
    taken.listed = c.listed ++ list c.index fuel c.scan ∧ taken.ended = true ∧
      taken.index =
        (((list c.index fuel c.scan).filter p).map (·.key)).foldl Index.erase c.index := by
  induction fuel generalizing c with
  | zero => cases hfuel
  | succ fuel ih =>
      cases hnext : (c.scan.next c.index).1 with
      | none =>
          simp only [list_of_none hnext]
          have hrun : c.run (Event.taking p []) = _ := step_next_of_none hended hnext
          rw [hrun]
          exact ⟨(List.append_nil _).symm, rfl, rfl⟩
      | some d =>
          have hmem := (next_eq_some hnext).1
          rw [list_of_some hnext, List.length_cons] at hfuel
          simp only [list_of_some hnext, Event.taking_cons]
          rw [run_cons, step_next_of_some hended hnext, run_append]
          cases hp : p d with
          | false =>
              obtain ⟨hlisted, hover, hindex⟩ := ih (c := { c with
                scan := { c.scan with cursor := some d }, listed := c.listed ++ [d] })
                h hended (Nat.lt_of_succ_lt_succ hfuel)
              rw [List.filter_cons_of_neg (by simp [hp])]
              exact ⟨hlisted.trans (List.append_assoc ..), hover, hindex⟩
          | true =>
              have hsame := list_erase h hmem fuel c.scan.now
              obtain ⟨hlisted, hover, hindex⟩ := ih (c := { c with
                index := c.index.erase d.key, scan := { c.scan with cursor := some d },
                listed := c.listed ++ [d] })
                (h.erase d.key) hended (by rw [hsame]; exact Nat.lt_of_succ_lt_succ hfuel)
              simp only [hsame] at hlisted hover hindex
              rw [List.filter_cons_of_pos hp]
              simp only [if_true, run_cons, run_nil]
              rw [step_remove (by exact hended)]
              exact ⟨hlisted.trans (List.append_assoc ..), hover, hindex⟩

end Course

end Taking

/-- A scan and the changes that others make meanwhile. Whatever happens to an index between the
steps, a scan lists in strict order, and each deadline at a moment when the index holds it and it has
passed. A passed deadline that stays in the index until the scan has ended has been listed, and once
only. To take out some or all of what is listed, as it is listed, changes nothing about the list and
takes out nothing else. -/
theorem course_ordered_complete [LawfulEqOrd κ] [Hashable κ] (stripes : Nat)
    (calls : List (Index.Call κ)) (now : Millis) (events : List (Event κ)) :
    let index := (Index.callAll calls (.empty stripes)).1
    let course := fun events => (Course.start index now).run events
    ((course events).listed.Pairwise (compare · · = .lt) ∧ (course events).listed.Nodup) ∧
    (∀ d ∈ (course events).listed, ∃ before, before ++ [.next] <+: events ∧
      (course (before ++ [.next])).listed = (course before).listed ++ [d] ∧
      (course before).index.expireTime? d.key = some d.time ∧ d.time ≤ now) ∧
    ((course events).ended = true → ∀ d : Deadline κ, d.time ≤ now →
      (∀ before, before <+: events → (course before).index.expireTime? d.key = some d.time) →
      d ∈ (course events).listed) ∧
    (∀ p, let taken := course (Event.taking p (index.expired now))
      taken.listed = index.expired now ∧ taken.ended = true ∧
      (∀ d ∈ index.expired now, p d = true → taken.index.expireTime? d.key = none) ∧
      ∀ key, (∀ d ∈ index.expired now, p d = true → d.key ≠ key) →
        taken.index.expireTime? key = index.expireTime? key) ∧
    index.drain now =
      (index.expired now, (course (Event.taking (fun _ => true) (index.expired now))).index) := by
  intro index course
  have hagrees : index.Agrees := (Index.Agrees.empty stripes).callAll calls
  have hordered := ((Course.Sound.start hagrees now).run events).ordered
  have hlist : list index (index.size + 1) { now } = index.expired now :=
    hagrees.list_eq_expired (Nat.le_succ _) now
  have htaking : ∀ p, let taken := course (Event.taking p (index.expired now))
      taken.listed = index.expired now ∧ taken.ended = true ∧
        taken.index = (((index.expired now).filter p).map (·.key)).foldl Index.erase index := by
    rw [← hlist]
    refine fun p => Course.run_taking p (c := .start index now) hagrees rfl ?_
    exact hlist ▸ Nat.lt_succ_of_le (length_list_le ..)
  refine ⟨⟨hordered, nodup_of_ordered hordered⟩,
    fun d hd => Course.exists_of_mem_listed hagrees hd, ?_, ?_, ?_⟩
  · intro hended d hdue hstays
    refine (Course.listed_or_after hagrees hdue hstays).resolve_right fun hahead => ?_
    cases hended.symm.trans hahead.1
  · intro p taken
    obtain ⟨hlisted, hended, hindex⟩ := htaking p
    refine ⟨hlisted, hended, fun d hd hp => ?_, fun key hkeeps => ?_⟩
    · rw [hindex]
      refine (expireTime?_foldl_erase _ index d.key).1 (List.mem_map_of_mem ?_)
      exact List.mem_filter.2 ⟨hd, hp⟩
    · rw [hindex]
      refine (expireTime?_foldl_erase _ index key).2 fun hmem => ?_
      obtain ⟨d, hd, hkey⟩ := List.mem_map.1 hmem
      exact hkeeps d (List.mem_filter.1 hd).1 (List.mem_filter.1 hd).2 hkey
  · rw [(htaking _).2.2, List.filter_true]
    exact drain_eq hagrees index.size { now }

/-- A key is listed, indexed anew beyond the cursor and taken out before the scan comes to it again. -/
def meddling : List (Event Nat) :=
  [.next, .upsert 1 6, .next, .remove 1, .next]

theorem course_ordered_complete_meddling :
    let index : Index Nat := (Index.callAll [.upsert 1 4, .upsert 2 5] (.empty 2)).1
    let course := (Course.start index 7).run meddling
    course.listed = [⟨4, 1⟩, ⟨5, 2⟩] ∧ course.listed.Nodup ∧ ⟨5, 2⟩ ∈ course.listed ∧
      (index.drain 7).1 = index.expired 7 ∧ (index.drain 7).2.expireTime? 2 = none := by
  intro index course
  obtain ⟨hordered, -, hcomplete, htaken, hdrain⟩ :=
    course_ordered_complete 2 [.upsert 1 4, .upsert 2 5] 7 meddling
  have hstays : ∀ before, before <+: meddling →
      ((Course.start index 7).run before).index.expireTime? 2 = some 5 := by
    intro before hbefore
    have hlength : before.length ≤ 5 := hbefore.length_le
    rw [List.prefix_iff_eq_take.1 hbefore]
    match before.length, hlength with
    | 0, _ | 1, _ | 2, _ | 3, _ | 4, _ | 5, _ => cbv
  have hexpired : ⟨5, 2⟩ ∈ index.expired 7 := by
    have hlist : index.expired 7 = [⟨4, 1⟩, ⟨5, 2⟩] := by cbv
    rw [hlist]
    decide
  have hlisted : ((Course.start index 7).run meddling).listed = [⟨4, 1⟩, ⟨5, 2⟩] := by cbv
  have hended : ((Course.start index 7).run meddling).ended = true := by cbv
  refine ⟨hlisted, hordered.2, hcomplete hended ⟨5, 2⟩ (by decide) hstays,
    congrArg Prod.fst hdrain, ?_⟩
  rw [hdrain]
  exact (htaken fun _ => true).2.2.1 ⟨5, 2⟩ hexpired rfl

end Scan

end Ephemera
