import Ephemera.Expiry.Plan
import Ephemera.Proofs.Deadlines

/-! # Moving the clock

When the clock is ahead by some gap, all that is computed from its readings should be ahead by the same
gap, and nothing else should differ. Here this is said of lifetimes, plans, indexes and stores: each of
them can be moved by a gap, as long as its expire times have room for it, and what is done to it at one
reading is, moved, what is done to the moved one at the moved reading. An expire time of zero stands for
no limit and is never moved.
-/

namespace Ephemera

open Std

universe u v w

/-! ## Readings -/

namespace Millis

variable {gap a b : Millis}

/-- The reading can be moved by the gap. -/
def RoomFor (gap time : Millis) : Prop :=
  time.toNat + gap.toNat ≤ latest.toNat

/-- An expire time, moved by the gap; zero stays zero. -/
def shiftLimit (gap time : Millis) : Millis :=
  if time = 0 then 0 else time + gap

theorem roomFor_zero (gap : Millis) : RoomFor gap 0 := by
  have hgap := gap.toNat_lt
  unfold RoomFor
  rw [UInt64.toNat_zero, toNat_latest]
  omega

theorem toNat_shift (h : RoomFor gap a) : (a + gap).toNat = a.toNat + gap.toNat := by
  rw [UInt64.toNat_add]
  exact Nat.mod_eq_of_lt (Nat.lt_succ_of_le h)

theorem shift_le_shift_iff (ha : RoomFor gap a) (hb : RoomFor gap b) : a + gap ≤ b + gap ↔ a ≤ b := by
  rw [UInt64.le_iff_toNat_le, UInt64.le_iff_toNat_le, toNat_shift ha, toNat_shift hb]
  omega

theorem shift_ne_zero (h : RoomFor gap a) (ha : a ≠ 0) : a + gap ≠ 0 := by
  intro hzero
  have hnat := congrArg UInt64.toNat hzero
  rw [toNat_shift h, UInt64.toNat_zero] at hnat
  exact ha (UInt64.toNat_inj.1 (by rw [UInt64.toNat_zero]; omega))

theorem shiftLimit_eq_zero_iff (h : RoomFor gap a) : shiftLimit gap a = 0 ↔ a = 0 := by
  unfold shiftLimit
  split
  next ha => simp [ha]
  next ha => simp [ha, shift_ne_zero h ha]

/-- Moved expire times are the same only if they were. -/
theorem shiftLimit_inj (ha : RoomFor gap a) (hb : RoomFor gap b) :
    shiftLimit gap a = shiftLimit gap b ↔ a = b := by
  refine ⟨fun h => ?_, fun h => h ▸ rfl⟩
  have hzero : a = 0 ↔ b = 0 := by
    rw [← shiftLimit_eq_zero_iff ha, ← shiftLimit_eq_zero_iff hb, h]
  by_cases hne : a = 0
  · rw [hne, hzero.1 hne]
  · simp only [shiftLimit, hne, mt hzero.2 hne, if_false] at h
    exact (UInt64.add_left_inj gap).1 h

end Millis

/-! ## Lifetimes -/

namespace Policy

/-- Counted from `now`, and from a reading that is ahead by the gap, every duration of the policy ends
before the clock does. A duration of zero is never counted. -/
def Fits (policy : Policy) (gap now : Millis) : Prop :=
  ∀ kind span, policy.on kind = some (.millis span) → span ≠ 0 →
    now.toNat + gap.toNat + span.toNat < Millis.latest.toNat

theorem Fits.span {policy : Policy} {gap now : Millis} (h : policy.Fits gap now) {kind : Touch}
    {duration : Duration} (hon : policy.on kind = some duration) (hspan : duration.span ≠ 0) :
    now.toNat + gap.toNat + duration.span.toNat < Millis.latest.toNat := by
  cases duration with
  | eternal => exact absurd rfl hspan
  | millis span => exact h kind span hon hspan

end Policy

namespace Ttl

variable {gap now : Millis} {t : Ttl}

/-- The lifetime with its expire time moved by the gap. -/
def shift (t : Ttl) (gap : Millis) : Ttl :=
  { t with expireTime := Millis.shiftLimit gap t.expireTime }

/-- The expire time can be moved by the gap. -/
def RoomFor (gap : Millis) (t : Ttl) : Prop :=
  Millis.RoomFor gap t.expireTime

@[simp]
theorem shift_eternal (gap : Millis) : eternal.shift gap = eternal := rfl

theorem roomFor_eternal (gap : Millis) : eternal.RoomFor gap :=
  Millis.roomFor_zero gap

/-- The second lifetime is the first, begun later by the gap. -/
structure Later (gap : Millis) (t later : Ttl) : Prop where
  span_eq : later.span = t.span
  deleted_eq : later.deleted = t.deleted
  unlimited : t.expireTime = 0 → later.expireTime = 0
  limited : t.expireTime ≠ 0 → later.expireTime.toNat = t.expireTime.toNat + gap.toNat

/-- With room to be moved, a moved lifetime is later by just the gap. -/
theorem later_shift (h : t.RoomFor gap) : t.Later gap (t.shift gap) where
  span_eq := rfl
  deleted_eq := rfl
  unlimited := (Millis.shiftLimit_eq_zero_iff h).2
  limited hlimit := by
    simp only [shift, Millis.shiftLimit, hlimit, if_false]
    exact Millis.toNat_shift h

theorem shift_inj {a b : Ttl} (ha : a.RoomFor gap) (hb : b.RoomFor gap) :
    a.shift gap = b.shift gap ↔ a = b := by
  refine ⟨fun h => ?_, fun h => h ▸ rfl⟩
  obtain ⟨aspan, atime, adeleted⟩ := a
  obtain ⟨bspan, btime, bdeleted⟩ := b
  simp only [shift, mk.injEq] at h ⊢
  exact ⟨h.1, (Millis.shiftLimit_inj ha hb).1 h.2.1, h.2.2⟩

/-- A moved lifetime ends at the moved reading. -/
theorem expiredAt_shift (h : t.RoomFor gap) (hnow : Millis.RoomFor gap now) :
    (t.shift gap).expiredAt (now + gap) = t.expiredAt now := by
  rw [Bool.eq_iff_iff, expiredAt_iff, expiredAt_iff]
  refine and_congr (not_congr (Millis.shiftLimit_eq_zero_iff h)) ?_
  by_cases hzero : t.expireTime = 0
  · have hstays : (t.shift gap).expireTime = 0 := (Millis.shiftLimit_eq_zero_iff h).2 hzero
    rw [hstays, hzero]
    simp
  · simp only [shift, Millis.shiftLimit, hzero, if_false]
    exact Millis.shift_le_shift_iff h hnow

section Lasting

variable {span : Millis}
  (hfits : span ≠ 0 → now.toNat + gap.toNat + span.toNat < Millis.latest.toNat)

include hfits

theorem roomFor_lasting : (lasting span now).RoomFor gap := by
  unfold lasting
  split
  next => exact roomFor_eternal gap
  next hspan =>
    have hroom := hfits hspan
    change Millis.RoomFor gap (Millis.after now span)
    unfold Millis.RoomFor
    rw [Millis.toNat_after]
    omega

/-- A lifetime that starts at a moved reading is the moved lifetime. -/
theorem lasting_shift (hnow : Millis.RoomFor gap now) :
    lasting span (now + gap) = (lasting span now).shift gap := by
  unfold lasting
  split
  next => rfl
  next hspan =>
    have hroom := hfits hspan
    have hpos : 0 < span.toNat := Nat.pos_of_ne_zero fun hzero => hspan (UInt64.toNat_inj.1 hzero)
    have hafter : (Millis.after now span).toNat = now.toNat + span.toNat := by
      rw [Millis.toNat_after]
      omega
    have hne : Millis.after now span ≠ 0 := by
      intro hzero
      rw [hzero, UInt64.toNat_zero] at hafter
      omega
    have hroom' : Millis.RoomFor gap (Millis.after now span) := by
      unfold Millis.RoomFor
      omega
    simp only [shift, Millis.shiftLimit, hne, if_false, mk.injEq, true_and, and_true]
    apply UInt64.toNat_inj.1
    rw [Millis.toNat_shift hroom', hafter, Millis.toNat_after, Millis.toNat_shift hnow]
    omega

end Lasting

/-- What a touch decides, moved. -/
def Verdict.shift (gap : Millis) : Verdict → Verdict
  | retain ttl => retain (ttl.shift gap)
  | expire => expire

theorem touch_shift (t : Ttl) (kind : Touch) {policy : Policy} (hfits : policy.Fits gap now)
    (hnow : Millis.RoomFor gap now) :
    (t.shift gap).touch kind (policy.on kind) (now + gap) =
      (t.touch kind (policy.on kind) now).shift gap := by
  cases hpolicy : policy.on kind with
  | none => cases kind <;> rfl
  | some duration =>
      rw [touch_some, touch_some]
      split
      next => rfl
      next => exact congrArg Verdict.retain (lasting_shift (hfits.span hpolicy) hnow)

theorem roomFor_touch {kind : Touch} {policy : Policy} (ht : kind ≠ .create → t.RoomFor gap)
    (hfits : policy.Fits gap now) {next : Ttl}
    (h : t.touch kind (policy.on kind) now = .retain next) : next.RoomFor gap := by
  cases hpolicy : policy.on kind with
  | none =>
      rw [hpolicy] at h
      cases kind with
      | create => cases h; exact roomFor_eternal gap
      | update | access => cases h; exact ht (by simp)
  | some duration =>
      rw [hpolicy, touch_some] at h
      split at h
      · cases h
      · cases h
        exact roomFor_lasting (hfits.span hpolicy)

end Ttl

/-! ## Plans -/

/-- A value with its lifetime, moved. -/
def shiftPair {V : Type v} (gap : Millis) (pair : V × Ttl) : V × Ttl :=
  (pair.1, pair.2.shift gap)

namespace Plan

variable {V : Type v} {gap now : Millis}

/-- The planned change, moved. -/
def shift (gap : Millis) : Plan V → Plan V
  | put value ttl kind => put value (ttl.shift gap) kind
  | unchanged => unchanged
  | remove => remove

end Plan

section Plan

variable {V : Type v} {gap now : Millis} {policy : Policy} {live : Option (V × Ttl)}

theorem roomFor_of_plan (hlive : ∀ pair, live = some pair → pair.2.RoomFor gap)
    (hfits : policy.Fits gap now) {intent : Intent V} {value : V} {ttl : Ttl} {kind : Touch}
    (h : plan live intent policy now = .put value ttl kind) : ttl.RoomFor gap := by
  obtain ⟨old, htouch, hold⟩ := touch_of_plan h
  refine Ttl.roomFor_touch (fun hkind => ?_) hfits htouch
  obtain ⟨pair, hpair, rfl⟩ := Option.map_eq_some_iff.1 (hold hkind)
  exact hlive pair hpair

/-- A plan made at a moved reading is the moved plan. -/
theorem plan_shift (hlive : ∀ pair, live = some pair → pair.2.RoomFor gap)
    (hfits : policy.Fits gap now) (hnow : Millis.RoomFor gap now) (intent : Intent V) :
    plan (live.map (shiftPair gap)) intent policy (now + gap) =
      (plan live intent policy now).shift gap := by
  cases live with
  | none =>
      cases intent with
      | write value =>
          have htouch := Ttl.touch_shift .eternal .create hfits hnow
          rw [Ttl.shift_eternal] at htouch
          simp only [plan, Option.map_none, htouch]
          cases Ttl.eternal.touch .create (policy.on .create) now <;> rfl
      | read | remove | ignore => rfl
  | some pair =>
      obtain ⟨value, ttl⟩ := pair
      have hroom : ttl.RoomFor gap := hlive _ rfl
      cases intent with
      | write next =>
          simp only [plan, Option.map_some, shiftPair, Ttl.touch_shift ttl .update hfits hnow]
          cases ttl.touch .update (policy.on .update) now <;> rfl
      | read =>
          simp only [plan, Option.map_some, shiftPair, Ttl.touch_shift ttl .access hfits hnow]
          cases htouch : ttl.touch .access (policy.on .access) now with
          | expire => rfl
          | retain next =>
              -- A read that leaves the lifetime as it is writes nothing, so moved lifetimes must
              -- not become the same.
              have hnext := Ttl.roomFor_touch (fun _ => hroom) hfits htouch
              simp only [Ttl.Verdict.shift, Ttl.shift_inj hnext hroom]
              split <;> rfl
      | remove | ignore => rfl

end Plan

/-! ## Indexes -/

namespace Deadline

variable {κ : Type u} [Ord κ] {gap : Millis}

/-- The deadline at the moved time. -/
def shift (d : Deadline κ) (gap : Millis) : Deadline κ :=
  { d with time := d.time + gap }

/-- The order of deadlines is that of the moved ones. -/
theorem compare_shift {d e : Deadline κ} (hd : Millis.RoomFor gap d.time)
    (he : Millis.RoomFor gap e.time) : compare (d.shift gap) (e.shift gap) = compare d e := by
  rw [compare_def, compare_def]
  have htime : compare (d.time + gap) (e.time + gap) = compare d.time e.time := by
    have hle := Millis.shift_le_shift_iff hd he
    have hge := Millis.shift_le_shift_iff he hd
    cases h : compare d.time e.time with
    | lt =>
        rw [Std.compare_eq_lt] at h ⊢
        rw [← UInt64.not_le] at h ⊢
        rwa [hge]
    | eq =>
        rw [Std.compare_eq_iff_eq] at h ⊢
        rw [h]
    | gt =>
        rw [Std.compare_eq_gt] at h ⊢
        rw [← UInt64.not_le] at h ⊢
        rwa [hle]
  change (compare (d.time + gap) (e.time + gap)).then _ = _
  rw [htime]
  rfl

end Deadline

section Index

variable {κ : Type u} [Ord κ] [TransOrd κ] [LawfulEqOrd κ] {gap : Millis}

namespace Stripe

omit [LawfulEqOrd κ] in
/-- The stripe with every deadline moved. -/
def shift (s : Stripe κ) (gap : Millis) : Stripe κ where
  byTime := .ofList (s.byTime.toList.map (·.shift gap))
  byKey := s.byKey.map fun _ time => time + gap

theorem mem_byTime_shift {s : Stripe κ} {d : Deadline κ} :
    d ∈ (s.shift gap).byTime ↔ ∃ e ∈ s.byTime, e.shift gap = d := by
  let : DecidableEq (Deadline κ) := Classical.typeDecidableEq _
  simp only [shift, ExtTreeSet.mem_ofList, List.contains_iff_mem, List.mem_map, ExtTreeSet.mem_toList]

theorem getElem?_byKey_shift (s : Stripe κ) (key : κ) :
    (s.shift gap).byKey[key]? = s.byKey[key]?.map (· + gap) :=
  ExtTreeMap.getElem?_map

/-- To index a key in the moved stripe is to index it and then move the stripe. -/
theorem upsert_shift (s : Stripe κ) (key : κ) {time : Millis} (htime : Millis.RoomFor gap time) :
    (s.shift gap).upsert key (Millis.shiftLimit gap time) = (s.upsert key time).shift gap := by
  -- A time of zero takes the key out of the stripe, so it has to be told apart from the others.
  have hzero := Millis.shiftLimit_eq_zero_iff htime
  refine ext_of (ExtTreeSet.ext_mem fun d => ?_) (ExtTreeMap.ext_getElem? fun other => ?_)
  · rw [mem_byTime_upsert, mem_byTime_shift, mem_byTime_shift, getElem?_byKey_shift]
    simp only [mem_byTime_upsert, ne_eq, hzero]
    constructor
    · rintro (⟨hne, rfl⟩ | ⟨⟨e, he, rfl⟩, hold⟩)
      · refine ⟨⟨time, key⟩, .inl ⟨hne, rfl⟩, ?_⟩
        simp only [Deadline.shift, Millis.shiftLimit, hne, if_false]
      · refine ⟨e, .inr ⟨he, fun h => hold ⟨h.1, ?_⟩⟩, rfl⟩
        rw [h.2]
        rfl
    · rintro ⟨e, ⟨hne, rfl⟩ | ⟨he, hold⟩, rfl⟩
      · left
        simp only [Deadline.shift, Millis.shiftLimit, hne, if_false, not_false_eq_true, and_self]
      · refine .inr ⟨⟨e, he, rfl⟩, fun h => hold ⟨h.1, ?_⟩⟩
        obtain ⟨time, htime, hsame⟩ := Option.map_eq_some_iff.1 h.2
        rw [htime, (UInt64.add_left_inj gap).1 hsame]
  · rw [getElem?_byKey_upsert, getElem?_byKey_shift, getElem?_byKey_shift, getElem?_byKey_upsert]
    simp only [hzero]
    split
    · split
      next => rfl
      next hne => simp only [Millis.shiftLimit, hne, if_false, Option.map_some]
    · rfl

end Stripe

namespace Index

omit [LawfulEqOrd κ] in
/-- The index with every deadline moved. -/
def shift (index : Index κ) (gap : Millis) : Index κ where
  stripes := index.stripes.map (·.shift gap)

/-- Every deadline of the index can be moved, and none is at zero, which is never moved. -/
def RoomFor (gap : Millis) (index : Index κ) : Prop :=
  ∀ d ∈ index.deadlines, d.time ≠ 0 ∧ Millis.RoomFor gap d.time

theorem mem_deadlines_shift {index : Index κ} {d : Deadline κ} :
    d ∈ (index.shift gap).deadlines ↔ ∃ e ∈ index.deadlines, e.shift gap = d := by
  simp only [deadlines, shift, List.flatMap_map, List.mem_flatMap, ExtTreeSet.mem_toList,
    Stripe.mem_byTime_shift]
  constructor
  · rintro ⟨s, hs, e, he, rfl⟩
    exact ⟨e, ⟨s, hs, he⟩, rfl⟩
  · rintro ⟨e, ⟨s, hs, he⟩, rfl⟩
    exact ⟨s, hs, e, he, rfl⟩

omit [LawfulEqOrd κ] in
theorem size_shift (index : Index κ) (gap : Millis) : (index.shift gap).size = index.size := by
  unfold size shift
  induction index.stripes with
  | nil => rfl
  | cons s rest ih =>
      rw [List.map_cons, List.foldr_cons, ih, List.foldr_cons]
      exact congrArg (· + _) ExtTreeMap.size_map

variable [Hashable κ]

theorem upsert_shift (index : Index κ) (key : κ) {time : Millis} (htime : Millis.RoomFor gap time) :
    (index.shift gap).upsert key (Millis.shiftLimit gap time) = (index.upsert key time).shift gap := by
  have hslot : (index.shift gap).slot key = index.slot key := by
    simp only [slot, shift, List.length_map]
  unfold upsert
  rw [hslot]
  refine congrArg mk (List.ext_getElem? fun i => ?_)
  simp only [shift, List.getElem?_modify, List.getElem?_map]
  cases index.stripes[i]? with
  | none => rfl
  | some s =>
      simp only [Option.map_some, Option.map_eq_map, Option.some.injEq]
      split
      · exact s.upsert_shift key htime
      · rfl

/-- An index that may be missing. -/
theorem map_upsert_shift (index : Option (Index κ)) (key : κ) {time : Millis}
    (htime : Millis.RoomFor gap time) :
    (index.map (·.shift gap)).map (·.upsert key (Millis.shiftLimit gap time)) =
      (index.map (·.upsert key time)).map (·.shift gap) := by
  cases index with
  | none => rfl
  | some index => exact congrArg some (index.upsert_shift key htime)

theorem RoomFor.upsert {index : Index κ} (h : index.RoomFor gap) (key : κ) {time : Millis}
    (htime : Millis.RoomFor gap time) : (index.upsert key time).RoomFor gap := by
  intro d hd
  obtain ⟨s, hs, hmem⟩ := List.mem_flatMap.1 hd
  rw [ExtTreeSet.mem_toList] at hmem
  obtain ⟨i, hi⟩ := List.mem_iff_getElem?.1 hs
  rw [Agrees.getElem?_upsert, Option.map_eq_some_iff] at hi
  obtain ⟨t, ht, rfl⟩ := hi
  have hold : d ∈ t.byTime → d.time ≠ 0 ∧ Millis.RoomFor gap d.time := fun hmem =>
    h d (List.mem_flatMap.2 ⟨t, List.mem_of_getElem? ht, ExtTreeSet.mem_toList.2 hmem⟩)
  split at hmem
  · rcases (Stripe.mem_byTime_upsert t key time d).1 hmem with ⟨hlimit, rfl⟩ | ⟨hbefore, -⟩
    · exact ⟨hlimit, htime⟩
    · exact hold hbefore
  · exact hold hmem

end Index

namespace Scan

/-- The scan at the moved reading, with the deadline listed last moved. -/
def shift (scan : Scan κ) (gap : Millis) : Scan κ where
  now := scan.now + gap
  cursor := scan.cursor.map (·.shift gap)

variable {scan : Scan κ} {index : Index κ}

omit [TransOrd κ] [LawfulEqOrd κ] in
/-- What is after the cursor of a scan is so when both are moved. -/
theorem after_shift {cursor : Option (Deadline κ)}
    (hcursor : ∀ c, cursor = some c → Millis.RoomFor gap c.time) {d : Deadline κ}
    (hd : Millis.RoomFor gap d.time) :
    Deadline.After (cursor.map (·.shift gap)) (d.shift gap) ↔ Deadline.After cursor d := by
  cases cursor with
  | none => simp [Deadline.After]
  | some c => simp [Deadline.After, Deadline.compare_shift (hcursor c rfl) hd]

/-- A moved scan of the moved index lists the moved deadline. -/
theorem next_shift (hindex : index.RoomFor gap) (hnow : Millis.RoomFor gap scan.now)
    (hcursor : ∀ c, scan.cursor = some c → Millis.RoomFor gap c.time) :
    (scan.shift gap).next (index.shift gap) =
      ((scan.next index).1.map (·.shift gap), (scan.next index).2.shift gap) := by
  have hfst : ((scan.shift gap).next (index.shift gap)).1 = (scan.next index).1.map (·.shift gap) := by
    cases hnext : (scan.next index).1 with
    | none =>
        cases hmoved : ((scan.shift gap).next (index.shift gap)).1 with
        | none => rfl
        | some d =>
            obtain ⟨hd, hdue, hafter, -⟩ := next_eq_some hmoved
            obtain ⟨e, he, rfl⟩ := Index.mem_deadlines_shift.1 hd
            have hroom := (hindex e he).2
            exact absurd ((after_shift hcursor hroom).1 hafter)
              (next_eq_none hnext he ((Millis.shift_le_shift_iff hroom hnow).1 hdue))
    | some d =>
        obtain ⟨hd, hdue, hafter, hleast⟩ := next_eq_some hnext
        have hroom := (hindex d hd).2
        have hd' : d.shift gap ∈ (index.shift gap).deadlines :=
          Index.mem_deadlines_shift.2 ⟨d, hd, rfl⟩
        have hdue' := (Millis.shift_le_shift_iff hroom hnow).2 hdue
        have hafter' := (after_shift hcursor hroom).2 hafter
        cases hmoved : ((scan.shift gap).next (index.shift gap)).1 with
        | none => exact absurd hafter' (next_eq_none hmoved hd' hdue')
        | some f =>
            obtain ⟨hf, hfdue, hfafter, hfleast⟩ := next_eq_some hmoved
            obtain ⟨e, he, rfl⟩ := Index.mem_deadlines_shift.1 hf
            have hroom' := (hindex e he).2
            -- Each of the two is no later than the other, so they are one deadline.
            have hle := hleast e he ((Millis.shift_le_shift_iff hroom' hnow).1 hfdue)
              ((after_shift hcursor hroom').1 hfafter)
            have hge := hfleast _ hd' hdue' hafter'
            rw [Deadline.compare_shift hroom' hroom] at hge
            rw [LawfulEqOrd.eq_of_compare (OrientedCmp.isLE_antisymm hle hge)]
            rfl
  refine Prod.ext hfst ?_
  have hsnd : ∀ (scan : Scan κ) (index : Index κ),
      (scan.next index).2 = { scan with cursor := (scan.next index).1 } := fun _ _ => rfl
  rw [hsnd, hsnd, hfst]
  rfl

end Scan

end Index

/-! ## Stores -/

namespace Entry

variable {V : Type v} {gap now : Millis}

/-- The copy with its expire time moved. -/
def shift (e : Entry V) (gap : Millis) : Entry V :=
  { e with ttl := e.ttl.shift gap }

theorem expiredAt_shift {e : Entry V} (h : e.ttl.RoomFor gap) (hnow : Millis.RoomFor gap now) :
    (e.shift gap).expiredAt (now + gap) = e.expiredAt now :=
  Ttl.expiredAt_shift h hnow

/-- Moved copies are live at a moved reading if they were. -/
theorem filter_live_shift {found : Option (Entry V)}
    (hroom : ∀ e, found = some e → e.ttl.RoomFor gap) (hnow : Millis.RoomFor gap now) :
    (found.map (·.shift gap)).filter (!·.expiredAt (now + gap)) =
      (found.filter (!·.expiredAt now)).map (·.shift gap) := by
  cases found with
  | none => rfl
  | some e =>
      rw [Option.map_some, Option.filter_some, Option.filter_some, expiredAt_shift (hroom e rfl) hnow]
      split <;> rfl

end Entry

namespace Write

variable {V : Type v}

/-- The write with the copy moved. -/
def shift (gap : Millis) : Write V → Write V
  | keep => keep
  | put entry => put (entry.shift gap)
  | remove => remove

/-- A copy that is put has room to be moved. -/
def RoomFor (gap : Millis) : Write V → Prop
  | put entry => entry.ttl.RoomFor gap
  | keep | remove => True

end Write

namespace Store

variable {κ : Type u} {V : Type v} [Ord κ] [TransOrd κ] {gap now : Millis}

/-- The store with all expire times moved. -/
def shift (s : Store κ V) (gap : Millis) : Store κ V where
  copies := s.copies.map fun _ entry => entry.shift gap
  index := s.index.map (·.shift gap)
  counters := s.counters

/-- All expire times of the store can be moved. -/
structure RoomFor (gap : Millis) (s : Store κ V) : Prop where
  copies : ∀ key entry, s.get? key = some entry → entry.ttl.RoomFor gap
  index : ∀ index, s.index = some index → index.RoomFor gap

variable [LawfulEqOrd κ]

theorem get?_shift (s : Store κ V) (key : κ) :
    (s.shift gap).get? key = (s.get? key).map (·.shift gap) :=
  ExtTreeMap.getElem?_map

omit [LawfulEqOrd κ] in
theorem stats_shift (s : Store κ V) : (s.shift gap).stats = s.stats := by
  simp only [stats, shift, ExtTreeMap.size_map]

theorem roomFor_empty (eager : Bool) : (empty eager : Store κ V).RoomFor gap where
  copies key entry h := by
    rw [get?_empty] at h
    cases h
  index index h d hd := by
    cases eager with
    | false => cases h
    | true =>
        cases h
        obtain ⟨s, hs, hd⟩ := List.mem_flatMap.1 hd
        rw [List.eq_of_mem_replicate hs] at hd
        simp at hd

theorem shift_empty (eager : Bool) : (empty eager : Store κ V).shift gap = empty eager := by
  have hstripe : ({} : Stripe κ).shift gap = {} := by
    refine Stripe.ext_of (ExtTreeSet.ext_mem fun d => ?_) (ExtTreeMap.ext_getElem? fun key => ?_)
    · simp [Stripe.mem_byTime_shift]
    · simp [Stripe.getElem?_byKey_shift]
  have hcopies : (∅ : ExtTreeMap κ (Entry V)).map (fun _ entry => entry.shift gap) = ∅ :=
    ExtTreeMap.map_eq_empty_iff.2 rfl
  cases eager with
  | false => simp only [shift, empty, hcopies, Bool.false_eq_true, if_false, Option.map_none]
  | true =>
      simp only [shift, empty, hcopies, if_true, Option.map_some, Index.shift, Index.empty,
        List.map_replicate, hstripe]

variable [Hashable κ]

/-- A moved write to the moved store. -/
theorem write_shift (s : Store κ V) (key : κ) {change : Write V} (h : change.RoomFor gap) :
    (s.shift gap).write key (change.shift gap) = (s.write key change).shift gap := by
  refine ext_of (fun other => ?_) ?_ ?_
  · rw [get?_write, get?_shift, get?_shift, get?_write]
    split
    · cases change <;> rfl
    · rfl
  · change ((s.shift gap).write key (change.shift gap)).index = (s.write key change).index.map _
    rw [index_write, index_write]
    change Index.moved (s.index.map (·.shift gap)) key _ = _
    cases change with
    | keep => rfl
    | put entry =>
        simp only [Write.shift, reindexed, Index.moved_some]
        exact Index.map_upsert_shift s.index key h
    | remove =>
        simp only [Write.shift, reindexed, get?_shift, Option.isSome_map]
        split
        · simp only [Index.moved_some]
          exact Index.map_upsert_shift s.index key (Millis.roomFor_zero gap)
        · rfl
  · change ((s.shift gap).write key (change.shift gap)).counters = (s.write key change).counters
    rw [counters_write, counters_write]
    cases change <;> rfl

omit [LawfulEqOrd κ] [Hashable κ] in
theorem RoomFor.record {s : Store κ V} (h : s.RoomFor gap) (event : StoreEvent) :
    (s.record event).RoomFor gap :=
  ⟨h.copies, h.index⟩

theorem RoomFor.write {s : Store κ V} (h : s.RoomFor gap) (key : κ) {change : Write V}
    (hchange : change.RoomFor gap) : (s.write key change).RoomFor gap where
  copies other entry hentry := by
    rw [get?_write] at hentry
    split at hentry
    · cases change with
      | keep => exact h.copies other entry hentry
      | put => cases hentry; exact hchange
      | remove => cases hentry
    · exact h.copies other entry hentry
  index index hindex := by
    rw [index_write] at hindex
    have hupsert : ∀ {time : Millis}, Millis.RoomFor gap time →
        s.index.map (·.upsert key time) = some index → index.RoomFor gap := by
      intro time htime hmap
      obtain ⟨old, hold, rfl⟩ := Option.map_eq_some_iff.1 hmap
      exact (h.index old hold).upsert key htime
    cases change with
    | keep => exact h.index index hindex
    | put entry => exact hupsert hchange hindex
    | remove =>
        simp only [reindexed] at hindex
        split at hindex
        · exact hupsert (Millis.roomFor_zero gap) hindex
        · exact h.index index hindex

section Operations

variable {s : Store κ V} (h : s.RoomFor gap) (key : κ)

include h

/-- What is decided on the moved copy, if it is decided on the copy and moved. -/
theorem update_shift {ρ : Type w} (decide decide' : Option (Entry V) → Write V × ρ)
    (hroom : (decide (s.get? key)).1.RoomFor gap)
    (hdecide : decide' ((s.get? key).map (·.shift gap)) =
      ((decide (s.get? key)).1.shift gap, (decide (s.get? key)).2)) :
    (s.update key decide).1.RoomFor gap ∧
      (s.shift gap).update key decide' =
        ((s.update key decide).1.shift gap, (s.update key decide).2) := by
  refine ⟨h.write key hroom, ?_⟩
  unfold update
  rw [get?_shift, hdecide]
  exact Prod.ext (s.write_shift key hroom) rfl

/-- A moved copy is accepted by the moved store if it is by the store. -/
theorem install_shift {entry : Entry V} (hentry : entry.ttl.RoomFor gap) :
    (s.install key entry).1.RoomFor gap ∧
      (s.shift gap).install key (entry.shift gap) =
        ((s.install key entry).1.shift gap, (s.install key entry).2) := by
  have hnewer : ((s.get? key).map (·.shift gap)).any (entry.version < ·.version) =
      (s.get? key).any (entry.version < ·.version) := by
    cases s.get? key <;> rfl
  refine update_shift h key _ _ ?_ ?_
  · split
    · trivial
    · exact hentry
  · change (if ((s.get? key).map (·.shift gap)).any (entry.version < ·.version) then _ else _) = _
    rw [hnewer]
    split <;> rfl

theorem removeVersion_shift (version : UInt64) :
    (s.removeVersion key version).1.RoomFor gap ∧
      (s.shift gap).removeVersion key version =
        ((s.removeVersion key version).1.shift gap, (s.removeVersion key version).2) := by
  have hnewer : ((s.get? key).map (·.shift gap)).any (·.version ≤ version) =
      (s.get? key).any (·.version ≤ version) := by
    cases s.get? key <;> rfl
  let decide : Option (Entry V) → Write V × Bool := fun current =>
    if current.any (·.version ≤ version) then (.remove, true) else (.keep, false)
  have hupdate := update_shift h key decide decide
    (by simp only [decide]; split <;> trivial) (by simp only [decide, hnewer]; split <;> rfl)
  unfold removeVersion
  rw [hupdate.2]
  simp only
  split
  · exact ⟨hupdate.1.record .removal, rfl⟩
  · exact ⟨hupdate.1, rfl⟩

/-- A copy is reclaimed at the moved time if it is at the time. -/
theorem reclaim_shift {time : Millis} (htime : Millis.RoomFor gap time)
    (hnow : Millis.RoomFor gap now) :
    (s.reclaim key time now).1.RoomFor gap ∧
      (s.shift gap).reclaim key (Millis.shiftLimit gap time) (now + gap) =
        ((s.reclaim key time now).1.shift gap, (s.reclaim key time now).2) := by
  have hdue : ((s.get? key).map (·.shift gap)).any (fun e =>
        e.ttl.expireTime = Millis.shiftLimit gap time && e.expiredAt (now + gap)) =
      (s.get? key).any fun e => e.ttl.expireTime = time && e.expiredAt now := by
    cases hcopy : s.get? key with
    | none => rfl
    | some entry =>
        have hroom := h.copies key entry hcopy
        simp only [Option.map_some, Option.any_some, Entry.expiredAt_shift hroom hnow]
        congr 2
        exact propext (Millis.shiftLimit_inj hroom htime)
  refine update_shift h key _ _ ?_ ?_
  · split <;> trivial
  · simp only [hdue]
    split <;> rfl

/-- A read at the moved reading finds the moved copy. -/
theorem read_shift (hnow : Millis.RoomFor gap now) :
    (s.read key now).1.RoomFor gap ∧
      (s.shift gap).read key (now + gap) =
        ((s.read key now).1.shift gap, (s.read key now).2.map (·.shift gap)) := by
  unfold read
  rw [get?_shift]
  cases hcopy : s.get? key with
  | none => exact ⟨h.record .miss, rfl⟩
  | some entry =>
      have hroom := h.copies key entry hcopy
      obtain ⟨hreclaimed, hshift⟩ := reclaim_shift h key hroom hnow
      have htime : (entry.shift gap).ttl.expireTime = Millis.shiftLimit gap entry.ttl.expireTime := rfl
      simp only [Option.map_some, Entry.expiredAt_shift hroom hnow, htime, hshift]
      split
      · split
        · exact ⟨(hreclaimed.record .expired).record .miss, rfl⟩
        · exact ⟨hreclaimed.record .miss, rfl⟩
      · exact ⟨h.record .hit, rfl⟩

end Operations

end Store

end Ephemera
