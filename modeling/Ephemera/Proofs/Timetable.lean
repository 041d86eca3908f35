import Mathlib.Data.List.Perm.Subperm
import Ephemera.Proofs.Deadlines

/-! # The index as a finite map

To its callers an index is one map from keys to times other than zero. How many stripes there are and
which stripe a key belongs to shows in no answer. A scan that nothing disturbs lists what is due of the
map, in order of time and by key, although it only ever compares the heads of the stripes.
-/

namespace Ephemera

open Std

universe u

variable {κ : Type u} [Ord κ] [TransOrd κ]

/-! ## Scans of an index that does not change -/

namespace Scan

variable [LawfulEqOrd κ] {index : Index κ} {scan : Scan κ} {d : Deadline κ}

omit [LawfulEqOrd κ] in
theorem next_snd (scan : Scan κ) (index : Index κ) :
    (scan.next index).2 = { scan with cursor := (scan.next index).1 } := rfl

omit [LawfulEqOrd κ] in
theorem list_of_none (h : (scan.next index).1 = none) (fuel : Nat) : list index fuel scan = [] := by
  cases fuel with
  | zero => rfl
  | succ fuel =>
      unfold list
      split
      · rfl
      next hnext => rw [hnext] at h; cases h

omit [LawfulEqOrd κ] in
theorem list_of_some (h : (scan.next index).1 = some d) (fuel : Nat) :
    list index (fuel + 1) scan = d :: list index fuel { scan with cursor := some d } := by
  rw [list]
  split
  next hnext => rw [hnext] at h; cases h
  next hnext =>
    have hscan := scan.next_snd index
    rw [hnext] at h hscan
    cases h
    exact congrArg (fun scan => d :: list index fuel scan) hscan

/-- A scan lists expired deadlines after its cursor, in order. -/
theorem list_ordered (index : Index κ) (fuel : Nat) (scan : Scan κ) :
    (list index fuel scan).Pairwise (compare · · = .lt) ∧
      ∀ d ∈ list index fuel scan,
        d ∈ index.deadlines ∧ d.time ≤ scan.now ∧ Deadline.After scan.cursor d := by
  induction fuel generalizing scan with
  | zero => exact ⟨.nil, nofun⟩
  | succ fuel ih =>
      cases hnext : (scan.next index).1 with
      | none =>
          rw [list_of_none hnext]
          exact ⟨.nil, nofun⟩
      | some d =>
          obtain ⟨hd, hdue, hafter, -⟩ := next_eq_some hnext
          obtain ⟨hordered, hlisted⟩ := ih { scan with cursor := some d }
          have hlater : ∀ e ∈ list index fuel { scan with cursor := some d }, compare d e = .lt :=
            fun e he => (hlisted e he).2.2 d rfl
          rw [list_of_some hnext]
          refine ⟨List.pairwise_cons.2 ⟨hlater, hordered⟩, ?_⟩
          intro e he
          rcases List.mem_cons.1 he with rfl | he
          · exact ⟨hd, hdue, hafter⟩
          · exact ⟨(hlisted e he).1, (hlisted e he).2.1, hafter.trans (hlater e he)⟩

/-- A scan that has ended before its steps were used up has left nothing out. -/
theorem mem_list_of_length_lt {fuel : Nat} (hlength : (list index fuel scan).length < fuel)
    (hd : d ∈ index.deadlines) (hdue : d.time ≤ scan.now) (hafter : Deadline.After scan.cursor d) :
    d ∈ list index fuel scan := by
  induction fuel generalizing scan with
  | zero => cases hlength
  | succ fuel ih =>
      cases hnext : (scan.next index).1 with
      | none => exact absurd hafter (next_eq_none hnext hd hdue)
      | some head =>
          rw [list_of_some hnext, List.length_cons] at hlength
          rw [list_of_some hnext]
          by_cases hne : head = d
          · rw [hne]
            exact List.mem_cons_self
          · refine List.mem_cons_of_mem head (ih (Nat.lt_of_succ_lt_succ hlength) hdue ?_)
            rintro _ ⟨⟩
            exact Deadline.lt_of_isLE ((next_eq_some hnext).2.2.2 d hd hdue hafter) hne

end Scan

namespace Index

variable [Hashable κ] [LawfulEqOrd κ] {index : Index κ}

/-- With a step for each key that is indexed, a scan comes to its end. -/
theorem Agrees.mem_list_iff (h : index.Agrees) {fuel : Nat} (hfuel : index.size ≤ fuel) (scan : Scan κ)
    (d : Deadline κ) :
    d ∈ Scan.list index fuel scan ↔
      d ∈ index.deadlines ∧ d.time ≤ scan.now ∧ Deadline.After scan.cursor d := by
  obtain ⟨hordered, hlisted⟩ := Scan.list_ordered index fuel scan
  refine ⟨hlisted d, fun ⟨hd, hdue, hafter⟩ => ?_⟩
  rcases Nat.lt_or_ge (Scan.list index fuel scan).length fuel with hlt | hge
  · exact Scan.mem_list_of_length_lt hlt hd hdue hafter
  · -- As many deadlines have been listed as there are, so all of them.
    have hsubperm : (Scan.list index fuel scan).Subperm index.deadlines :=
      List.subperm_of_subset (nodup_of_ordered hordered) fun e he => (hlisted e he).1
    have hperm := hsubperm.perm_of_length_le (by
      rw [← h.size_eq_length]
      exact Nat.le_trans hfuel hge)
    exact hperm.mem_iff.2 hd

theorem Agrees.mem_expired_iff (h : index.Agrees) (now : Millis) (d : Deadline κ) :
    d ∈ index.expired now ↔ index.expireTime? d.key = some d.time ∧ d.time ≤ now := by
  rw [expired, h.mem_list_iff (Nat.le_refl _), h.mem_deadlines_iff]
  simp [Deadline.After]

/-- Further steps list nothing more. -/
theorem Agrees.list_eq_expired (h : index.Agrees) {fuel : Nat} (hfuel : index.size ≤ fuel)
    (now : Millis) : Scan.list index fuel { now } = index.expired now := by
  refine eq_of_ordered (Scan.list_ordered ..).1 (Scan.list_ordered ..).1 fun d => ?_
  rw [expired, h.mem_list_iff hfuel, h.mem_list_iff (Nat.le_refl _)]

/-! ## Calls -/

/-- A call of an index. -/
inductive Call (κ : Type u) where
  | upsert (key : κ) (time : Millis)
  | remove (key : κ)
  | expireTime (key : κ)
  | size
  | isEmpty
  /-- Scan the keys that have expired, to the end. -/
  | expired (now : Millis)
  deriving DecidableEq, Repr

/-- The result of a call. -/
inductive Result (κ : Type u) where
  | done
  | time (time : Option Millis)
  | size (n : Nat)
  | flag (holds : Bool)
  | listed (deadlines : List (Deadline κ))
  deriving DecidableEq, Repr

omit [LawfulEqOrd κ] in
/-- Make a call. -/
def call (index : Index κ) : Call κ → Index κ × Result κ
  | .upsert key time => (index.upsert key time, .done)
  | .remove key => (index.erase key, .time (index.expireTime? key))
  | .expireTime key => (index, .time (index.expireTime? key))
  | .size => (index, .size index.size)
  | .isEmpty => (index, .flag index.isEmpty)
  | .expired now => (index, .listed (index.expired now))

omit [LawfulEqOrd κ] in
/-- Make several calls, in turn. -/
def callAll : List (Call κ) → Index κ → Index κ × List (Result κ)
  | [], index => (index, [])
  | x :: rest, index =>
    let (index, result) := index.call x
    let (index, results) := callAll rest index
    (index, result :: results)

theorem Agrees.call (h : index.Agrees) (x : Call κ) : (index.call x).1.Agrees := by
  cases x with
  | upsert key time => exact h.upsert key time
  | remove key => exact h.erase key
  | expireTime | size | isEmpty | expired => exact h

theorem Agrees.callAll (h : index.Agrees) (calls : List (Call κ)) :
    (callAll calls index).1.Agrees := by
  induction calls generalizing index with
  | nil => exact h
  | cons x rest ih => exact ih (h.call x)

end Index

/-! ## The map -/

/-- The time each key is indexed at, as one map. -/
abbrev Timetable (κ : Type u) [Ord κ] := ExtTreeMap κ Millis

namespace Timetable

/-- Put `key` at `time` in place of any earlier one; zero takes it out. -/
def upsert (m : Timetable κ) (key : κ) (time : Millis) : Timetable κ :=
  if time = 0 then m.erase key else m.insert key time

/-- All deadlines up to `now`, in order. -/
def due (m : Timetable κ) (now : Millis) : List (Deadline κ) :=
  (ExtTreeSet.ofList
    ((m.toList.map fun (key, time) => ⟨time, key⟩).filter fun d : Deadline κ => d.time ≤ now)).toList

/-- Answer a call of an index. -/
def call (m : Timetable κ) : Index.Call κ → Timetable κ × Index.Result κ
  | .upsert key time => (m.upsert key time, .done)
  | .remove key => (m.erase key, .time m[key]?)
  | .expireTime key => (m, .time m[key]?)
  | .size => (m, .size m.size)
  | .isEmpty => (m, .flag m.isEmpty)
  | .expired now => (m, .listed (m.due now))

/-- Answer several calls, in turn. -/
def callAll : List (Index.Call κ) → Timetable κ → Timetable κ × List (Index.Result κ)
  | [], m => (m, [])
  | x :: rest, m =>
    let (m, result) := m.call x
    let (m, results) := callAll rest m
    (m, result :: results)

theorem getElem?_upsert (m : Timetable κ) (key other : κ) (time : Millis) :
    (m.upsert key time)[other]? =
      if compare key other = .eq then (if time = 0 then none else some time) else m[other]? := by
  unfold upsert
  split
  next htime => rw [ExtTreeMap.getElem?_erase]
  next htime => rw [ExtTreeMap.getElem?_insert]

theorem mem_due_iff [LawfulEqOrd κ] (m : Timetable κ) (now : Millis) (d : Deadline κ) :
    d ∈ m.due now ↔ m[d.key]? = some d.time ∧ d.time ≤ now := by
  let : DecidableEq κ := Classical.typeDecidableEq κ
  have hmem : (∃ key time, m[key]? = some time ∧ (⟨time, key⟩ : Deadline κ) = d) ↔
      m[d.key]? = some d.time := by
    constructor
    · rintro ⟨key, time, htime, rfl⟩
      exact htime
    · exact fun htime => ⟨d.key, d.time, htime, rfl⟩
  simp only [due, ExtTreeSet.mem_toList, ExtTreeSet.mem_ofList, List.contains_iff_mem,
    List.mem_filter, List.mem_map, Prod.exists, ExtTreeMap.mem_toList_iff_getElem?_eq_some, hmem,
    decide_eq_true_eq]

end Timetable

/-! ## Every stripe of it -/

namespace Index

variable [Hashable κ] [LawfulEqOrd κ]

omit [TransOrd κ] [Hashable κ] [LawfulEqOrd κ] in
theorem isEmpty_eq_size_beq_zero (index : Index κ) : index.isEmpty = (index.size == 0) := by
  unfold isEmpty size
  induction index.stripes with
  | nil => rfl
  | cons s rest ih =>
      rw [List.all_cons, ih, ExtTreeMap.isEmpty_eq_size_beq_zero, List.foldr_cons, Bool.eq_iff_iff]
      simp

/-- An index shows a map: every key is indexed at the time that the map has for it. -/
structure Shows (index : Index κ) (m : Timetable κ) : Prop where
  agrees : index.Agrees
  expireTime?_eq : ∀ key, index.expireTime? key = m[key]?

namespace Shows

variable {index : Index κ} {m : Timetable κ}

omit [LawfulEqOrd κ] in
theorem empty (stripes : Nat) : (Index.empty stripes : Index κ).Shows ∅ where
  agrees := .empty stripes
  expireTime?_eq key := by
    rw [expireTime?_empty, ExtTreeMap.getElem?_empty]

theorem upsert (h : index.Shows m) (key : κ) (time : Millis) :
    (index.upsert key time).Shows (m.upsert key time) where
  agrees := h.agrees.upsert key time
  expireTime?_eq other := by
    rw [expireTime?_upsert _ _ _ _ h.agrees.nonempty, Timetable.getElem?_upsert, h.expireTime?_eq]

/-- The keys of the map are those of the deadlines. -/
theorem size_eq (h : index.Shows m) : index.size = m.size := by
  have hkeys : ∀ key, key ∈ index.deadlines.map (·.key) ↔ key ∈ m.keys := by
    intro key
    rw [ExtTreeMap.mem_keys, ExtTreeMap.mem_iff_isSome_getElem?, ← h.expireTime?_eq,
      Option.isSome_iff_exists, List.mem_map]
    constructor
    · rintro ⟨d, hd, rfl⟩
      exact ⟨d.time, (h.agrees.mem_deadlines_iff d).1 hd⟩
    · rintro ⟨time, htime⟩
      exact ⟨⟨time, key⟩, (h.agrees.mem_deadlines_iff ⟨time, key⟩).2 htime, rfl⟩
  have hperm := (List.perm_ext_iff_of_nodup h.agrees.nodup_keys ExtTreeMap.nodup_keys).2 hkeys
  rw [h.agrees.size_eq_length, ← ExtTreeMap.length_keys, ← hperm.length_eq, List.length_map]

theorem isEmpty_eq (h : index.Shows m) : index.isEmpty = m.isEmpty := by
  rw [isEmpty_eq_size_beq_zero, h.size_eq, ExtTreeMap.isEmpty_eq_size_beq_zero]

theorem expired_eq (h : index.Shows m) (now : Millis) : index.expired now = m.due now := by
  refine eq_of_ordered (Scan.list_ordered ..).1 ExtTreeSet.ordered_toList fun d => ?_
  rw [h.agrees.mem_expired_iff, h.expireTime?_eq, m.mem_due_iff]

/-- Index and map answer a call alike. -/
theorem call (h : index.Shows m) (x : Call κ) :
    (index.call x).2 = (m.call x).2 ∧ (index.call x).1.Shows (m.call x).1 := by
  cases x with
  | upsert key time => exact ⟨rfl, h.upsert key time⟩
  | remove key =>
      refine ⟨congrArg Result.time (h.expireTime?_eq key), ?_⟩
      simp only [Index.call, Timetable.call, erase_eq_upsert]
      exact h.upsert key 0
  | expireTime key => exact ⟨congrArg Result.time (h.expireTime?_eq key), h⟩
  | size => exact ⟨congrArg Result.size h.size_eq, h⟩
  | isEmpty => exact ⟨congrArg Result.flag h.isEmpty_eq, h⟩
  | expired now => exact ⟨congrArg Result.listed (h.expired_eq now), h⟩

theorem callAll (h : index.Shows m) (calls : List (Call κ)) :
    (callAll calls index).2 = (Timetable.callAll calls m).2 ∧
      (callAll calls index).1.Shows (Timetable.callAll calls m).1 := by
  induction calls generalizing index m with
  | nil => exact ⟨rfl, h⟩
  | cons x rest ih =>
      obtain ⟨hresult, hcalled⟩ := h.call x
      obtain ⟨hresults, hrest⟩ := ih hcalled
      exact ⟨congrArg₂ List.cons hresult hresults, hrest⟩

end Shows

/-- The index as a finite map. Over any number of stripes, and wherever the hash puts the keys, every
call of an index has the result that it has of one plain map. A scan to the end lists each key whose
current time has passed, once, in strict order of time and key, and has then no step left to make. -/
theorem index_refines_map (stripes : Nat) (calls : List (Call κ)) :
    let index := callAll calls (.empty stripes)
    let plain := Timetable.callAll calls ∅
    index.2 = plain.2 ∧
    (∀ key : κ, plain.1[key]? ≠ some 0) ∧
    ∀ now, (index.1.expired now).Pairwise (compare · · = .lt) ∧
      ((index.1.expired now).map (·.key)).Nodup ∧
      (∀ d, d ∈ index.1.expired now ↔ plain.1[d.key]? = some d.time ∧ d.time ≤ now) ∧
      ∀ steps, Scan.list index.1 (index.1.size + steps) { now } = index.1.expired now := by
  intro index plain
  obtain ⟨hresults, hshows⟩ : index.2 = plain.2 ∧ index.1.Shows plain.1 :=
    (Shows.empty stripes).callAll calls
  have hmem : ∀ now d, d ∈ index.1.expired now ↔ plain.1[d.key]? = some d.time ∧ d.time ≤ now := by
    intro now d
    rw [hshows.agrees.mem_expired_iff, hshows.expireTime?_eq]
  refine ⟨hresults, fun key => ?_, fun now => ⟨(Scan.list_ordered ..).1, ?_, hmem now, ?_⟩⟩
  · rw [← hshows.expireTime?_eq]
    exact hshows.agrees.expireTime?_ne_zero key
  · -- Two deadlines of one key are both at the time that the map has for it.
    refine (nodup_of_ordered (Scan.list_ordered ..).1).map_on ?_
    intro d hd e he hkey
    have htime := ((hmem now d).1 hd).1.symm.trans (hkey ▸ ((hmem now e).1 he).1)
    obtain ⟨time, key⟩ := d
    obtain ⟨time', key'⟩ := e
    cases hkey
    cases htime
    rfl
  · exact fun steps => hshows.agrees.list_eq_expired (Nat.le_add_right _ _) now

/-- Keys are indexed out of order, two of them at one time. One is indexed anew, another taken out. -/
def reindexing : List (Call Nat) :=
  [.upsert 2 5, .upsert 1 5, .upsert 3 9, .upsert 3 4, .upsert 4 3, .upsert 4 0, .remove 6, .size,
    .expired 5]

theorem index_refines_map_reindexing :
    (callAll reindexing (.empty 3)).2 = (callAll reindexing (.empty 0)).2 ∧
      (callAll reindexing (.empty 3)).2.getLast? = some (.listed [⟨4, 3⟩, ⟨5, 1⟩, ⟨5, 2⟩]) ∧
      ⟨5, 2⟩ ∈ (callAll reindexing (.empty 3)).1.expired 7 ∧
      ⟨9, 3⟩ ∉ (callAll reindexing (.empty 3)).1.expired 10 := by
  obtain ⟨hthree, -, hexpired⟩ := index_refines_map 3 reindexing
  have hone := (index_refines_map 0 reindexing).1
  refine ⟨hthree.trans hone.symm, ?_, ?_, ?_⟩
  · rw [hthree]
    decide +kernel
  · exact ((hexpired 7).2.2.1 _).2 ⟨by decide +kernel, by decide⟩
  · intro hlisted
    exact absurd (((hexpired 10).2.2.1 _).1 hlisted).1 (by decide +kernel)

end Index

end Ephemera
