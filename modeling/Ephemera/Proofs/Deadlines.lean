import Mathlib.Data.List.Dedup
import Mathlib.Data.List.Nodup
import Ephemera.Proofs.Commute

/-! # The deadlines of an index

An index keeps every deadline twice: in order, for scans, and by key, to find the position that a key
is to be moved from. The two sides agree in every stripe, and every key is in the stripe of its hash,
so an index is in effect one finite map from keys to times other than zero. A scan lists the deadlines
of that map from its cursor on, the earliest first.
-/

namespace Ephemera

open Std

universe u

variable {κ : Type u} [Ord κ] [TransOrd κ]

theorem nodup_of_ordered {xs : List κ} (h : xs.Pairwise (compare · · = .lt)) : xs.Nodup := by
  refine h.imp ?_
  rintro a b hlt rfl
  simp at hlt

/-- Lists in strict order with the same members are the same. -/
theorem eq_of_ordered {xs ys : List κ} (hxs : xs.Pairwise (compare · · = .lt))
    (hys : ys.Pairwise (compare · · = .lt)) (h : ∀ x, x ∈ xs ↔ x ∈ ys) : xs = ys := by
  refine List.Perm.eq_of_pairwise ?_ hxs hys
    ((List.perm_ext_iff_of_nodup (nodup_of_ordered hxs) (nodup_of_ordered hys)).2 h)
  intro a b _ _ hab hba
  rw [OrientedOrd.eq_swap, hab] at hba
  cases hba

namespace Stripe

/-- The deadlines in order are the positions of the keys, and no key is indexed at zero. -/
structure Agrees (s : Stripe κ) : Prop where
  mem_iff : ∀ d, d ∈ s.byTime ↔ s.byKey[d.key]? = some d.time
  nonzero : ∀ key : κ, s.byKey[key]? ≠ some 0

namespace Agrees

theorem empty : ({} : Stripe κ).Agrees where
  mem_iff d := by simp
  nonzero key := by simp

variable [LawfulEqOrd κ] {s : Stripe κ}

/-- To index a key anew takes its old position out of both sides. -/
theorem upsert (h : s.Agrees) (key : κ) (time : Millis) : (s.upsert key time).Agrees where
  mem_iff d := by
    rw [mem_byTime_upsert, getElem?_byKey_upsert, h.mem_iff]
    by_cases hkey : key = d.key
    · subst hkey
      by_cases htime : time = 0
      · simp [htime]
      · simp only [htime, ne_eq, not_false_eq_true, true_and, and_not_self, or_false,
          ReflCmp.compare_self, if_true, if_false, Option.some.injEq]
        constructor
        · intro hd
          rw [hd]
        · rintro rfl
          rfl
    · have hne : d ≠ ⟨time, key⟩ := fun hd => hkey (hd ▸ rfl)
      simp [hkey, Ne.symm hkey, hne]
  nonzero other := by
    rw [getElem?_byKey_upsert]
    split
    · split
      next => exact nofun
      next htime => simpa using htime
    · exact h.nonzero other

/-- Each key has one deadline in order. -/
theorem nodup_keys (h : s.Agrees) : (s.byTime.toList.map (·.key)).Nodup := by
  refine List.Nodup.map_on ?_ ?_
  · intro d hd e he hkey
    have hdtime := (h.mem_iff d).1 (ExtTreeSet.mem_toList.1 hd)
    have hetime := (h.mem_iff e).1 (ExtTreeSet.mem_toList.1 he)
    rw [hkey, hetime] at hdtime
    cases d
    cases e
    cases hkey
    cases hdtime
    rfl
  · refine ExtTreeSet.distinct_toList.imp fun hne heq => hne ?_
    rw [heq]
    exact ReflCmp.compare_self

theorem size_byKey (h : s.Agrees) : s.byKey.size = s.byTime.toList.length := by
  have hkeys : ∀ key, key ∈ s.byKey.keys ↔ key ∈ s.byTime.toList.map (·.key) := by
    intro key
    rw [ExtTreeMap.mem_keys, ExtTreeMap.mem_iff_isSome_getElem?, Option.isSome_iff_exists,
      List.mem_map]
    constructor
    · rintro ⟨time, htime⟩
      exact ⟨⟨time, key⟩, ExtTreeSet.mem_toList.2 ((h.mem_iff ⟨time, key⟩).2 htime), rfl⟩
    · rintro ⟨d, hd, rfl⟩
      exact ⟨d.time, (h.mem_iff d).1 (ExtTreeSet.mem_toList.1 hd)⟩
  rw [← ExtTreeMap.length_keys,
    ((List.perm_ext_iff_of_nodup ExtTreeMap.nodup_keys h.nodup_keys).2 hkeys).length_eq,
    List.length_map]

end Agrees

end Stripe

namespace Index

/-- All deadlines of an index, stripe by stripe. -/
def deadlines (index : Index κ) : List (Deadline κ) :=
  index.stripes.flatMap (·.byTime.toList)

variable [Hashable κ]

/-- The two sides of every stripe agree, and every key is in the stripe that it belongs to. -/
structure Agrees (index : Index κ) : Prop where
  stripes : ∀ s ∈ index.stripes, s.Agrees
  slots : ∀ i s, index.stripes[i]? = some s → ∀ key : κ, (s.byKey[key]?).isSome → index.slot key = i
  nonempty : index.stripes ≠ []

theorem expireTime?_empty (stripes : Nat) (key : κ) :
    (Index.empty stripes : Index κ).expireTime? key = none := by
  unfold expireTime?
  cases hs : (Index.empty stripes : Index κ).stripes[(Index.empty stripes : Index κ).slot key]? with
  | none => rfl
  | some s =>
      rw [List.eq_of_mem_replicate (List.mem_of_getElem? hs)]
      simp

namespace Agrees

theorem empty (stripes : Nat) : (Index.empty stripes : Index κ).Agrees where
  stripes s hs := by
    rw [List.eq_of_mem_replicate hs]
    exact Stripe.Agrees.empty
  slots i s hs key hkey := by
    rw [List.eq_of_mem_replicate (List.mem_of_getElem? hs)] at hkey
    simp at hkey
  nonempty := stripes_empty_ne_nil stripes

variable [LawfulEqOrd κ] {index : Index κ}

omit [LawfulEqOrd κ] in
theorem getElem?_upsert (index : Index κ) (key : κ) (time : Millis) (i : Nat) :
    (index.upsert key time).stripes[i]? =
      index.stripes[i]?.map fun s => if index.slot key = i then s.upsert key time else s :=
  List.getElem?_modify ..

theorem upsert (h : index.Agrees) (key : κ) (time : Millis) : (index.upsert key time).Agrees where
  stripes s hs := by
    obtain ⟨i, hi⟩ := List.mem_iff_getElem?.1 hs
    rw [getElem?_upsert, Option.map_eq_some_iff] at hi
    obtain ⟨t, ht, rfl⟩ := hi
    have hagrees := h.stripes t (List.mem_of_getElem? ht)
    split
    · exact hagrees.upsert key time
    · exact hagrees
  slots i s hs other hother := by
    rw [slot_upsert]
    rw [getElem?_upsert, Option.map_eq_some_iff] at hs
    obtain ⟨t, ht, rfl⟩ := hs
    split at hother
    next hslot =>
      rw [Stripe.getElem?_byKey_upsert] at hother
      split at hother
      next hkey =>
        obtain rfl : key = other := by simpa using hkey
        exact hslot
      next => exact h.slots i t ht other hother
    next => exact h.slots i t ht other hother
  nonempty := by
    intro hnil
    apply h.nonempty
    rw [← List.length_eq_zero_iff] at hnil ⊢
    simpa [Index.upsert] using hnil

theorem erase (h : index.Agrees) (key : κ) : (index.erase key).Agrees := by
  rw [erase_eq_upsert]
  exact h.upsert key 0

/-- A key has a deadline if it is indexed at its time. -/
theorem mem_deadlines_iff (h : index.Agrees) (d : Deadline κ) :
    d ∈ index.deadlines ↔ index.expireTime? d.key = some d.time := by
  simp only [deadlines, List.mem_flatMap, ExtTreeSet.mem_toList, expireTime?,
    Option.bind_eq_some_iff]
  constructor
  · rintro ⟨s, hs, hd⟩
    have htime := ((h.stripes s hs).mem_iff d).1 hd
    obtain ⟨i, hi⟩ := List.mem_iff_getElem?.1 hs
    have hslot := h.slots i s hi d.key (Option.isSome_of_eq_some htime)
    exact ⟨s, hslot ▸ hi, htime⟩
  · rintro ⟨s, hs, htime⟩
    have hmem := List.mem_of_getElem? hs
    exact ⟨s, hmem, ((h.stripes s hmem).mem_iff d).2 htime⟩

omit [LawfulEqOrd κ] in
/-- No key is indexed at zero. -/
theorem expireTime?_ne_zero (h : index.Agrees) (key : κ) : index.expireTime? key ≠ some 0 := by
  intro hzero
  obtain ⟨s, hs, htime⟩ := Option.bind_eq_some_iff.1 hzero
  exact (h.stripes s (List.mem_of_getElem? hs)).nonzero key htime

/-- Each key has one deadline at most. -/
theorem nodup_keys (h : index.Agrees) : (index.deadlines.map (·.key)).Nodup := by
  rw [deadlines, List.map_flatMap, List.nodup_flatMap]
  refine ⟨fun s hs => (h.stripes s hs).nodup_keys, ?_⟩
  -- A key of two stripes would belong to both of them.
  rw [List.pairwise_iff_getElem]
  intro i j hi hj hij key hkeyi hkeyj
  have hslot : ∀ k (hk : k < index.stripes.length),
      key ∈ index.stripes[k].byTime.toList.map (·.key) → index.slot key = k := by
    intro k hk hmem
    obtain ⟨d, hd, rfl⟩ := List.mem_map.1 hmem
    have hagrees := h.stripes index.stripes[k] (List.getElem_mem hk)
    refine h.slots k _ (List.getElem?_eq_getElem hk) d.key ?_
    exact Option.isSome_of_eq_some ((hagrees.mem_iff d).1 (ExtTreeSet.mem_toList.1 hd))
  have hsame := (hslot i hi hkeyi).symm.trans (hslot j hj hkeyj)
  omega

theorem size_eq_length (h : index.Agrees) : index.size = index.deadlines.length := by
  have hstripes := h.stripes
  unfold size deadlines
  generalize index.stripes = stripes at hstripes
  induction stripes with
  | nil => rfl
  | cons s rest ih =>
      rw [List.foldr_cons, ih (fun t ht => hstripes t (List.mem_cons_of_mem s ht)),
        (hstripes s List.mem_cons_self).size_byKey, List.flatMap_cons, List.length_append]

end Agrees

end Index

/-! ## Scans -/

namespace Deadline

/-- Whether a deadline is beyond the cursor of a scan; at the start of a scan every one is. -/
def After (cursor : Option (Deadline κ)) (d : Deadline κ) : Prop :=
  ∀ c, cursor = some c → compare c d = .lt

theorem After.trans {cursor : Option (Deadline κ)} {d e : Deadline κ} (h : After cursor d)
    (hlt : compare d e = .lt) : After cursor e :=
  fun c hc => TransCmp.lt_trans (h c hc) hlt

omit [TransOrd κ] in
/-- What is no later than another deadline is before it or the same. -/
theorem lt_of_isLE [LawfulEqOrd κ] {d e : Deadline κ} (h : (compare d e).isLE) (hne : d ≠ e) :
    compare d e = .lt := by
  cases hcompare : compare d e with
  | lt => rfl
  | eq => exact absurd (LawfulEqOrd.eq_of_compare hcompare) hne
  | gt => simp [hcompare] at h

omit [TransOrd κ] in
/-- The deadlines of later keys are no earlier. -/
theorem time_le_of_isLE {d e : Deadline κ} (h : (compare d e).isLE) : d.time ≤ e.time := by
  rw [compare_def, Ordering.isLE_then_iff_and] at h
  exact Std.isLE_compare.1 h.1

omit [TransOrd κ] in
theorem foldl_earlier_eq_none {ds : List (Deadline κ)} {best : Option (Deadline κ)}
    (h : ds.foldl (fun best d => earlier best (some d)) best = none) : best = none ∧ ds = [] := by
  induction ds generalizing best with
  | nil => exact ⟨h, rfl⟩
  | cons d rest ih =>
      obtain ⟨hbest, -⟩ := ih h
      cases best with
      | none => cases hbest
      | some b =>
          simp only [earlier] at hbest
          split at hbest <;> cases hbest

theorem foldl_earlier_eq_some {ds : List (Deadline κ)} {best : Option (Deadline κ)} {d : Deadline κ}
    (h : ds.foldl (fun best d => earlier best (some d)) best = some d) :
    (best = some d ∨ d ∈ ds) ∧ (∀ e, best = some e → (compare d e).isLE) ∧
      ∀ e ∈ ds, (compare d e).isLE := by
  induction ds generalizing best with
  | nil =>
      refine ⟨.inl h, ?_, by simp⟩
      rintro e rfl
      cases h
      exact ReflCmp.isLE_rfl
  | cons head rest ih =>
      obtain ⟨hmem, hbest, hrest⟩ := ih h
      have hhead : (compare d head).isLE ∧ ∀ e, best = some e → (compare d e).isLE := by
        cases best with
        | none => exact ⟨hbest head rfl, by simp⟩
        | some b =>
            simp only [earlier] at hbest
            split at hbest
            next hlt =>
              have hle := hbest head rfl
              refine ⟨hle, ?_⟩
              rintro e ⟨⟩
              exact TransCmp.isLE_trans hle (Ordering.isLE_of_eq_lt hlt)
            next hnot =>
              have hle := hbest b rfl
              refine ⟨TransCmp.isLE_trans hle ?_, fun e he => Option.some.inj he ▸ hle⟩
              exact Decidable.byContradiction fun hgt => hnot (OrientedCmp.lt_of_not_isLE hgt)
      refine ⟨?_, hhead.2, ?_⟩
      · rcases hmem with hmem | hmem
        · cases best with
          | none =>
              cases hmem
              exact .inr List.mem_cons_self
          | some b =>
              simp only [earlier] at hmem
              split at hmem
              · cases hmem
                exact .inr List.mem_cons_self
              · exact .inl hmem
        · exact .inr (List.mem_cons_of_mem head hmem)
      · intro e he
        rcases List.mem_cons.1 he with rfl | he
        · exact hhead.1
        · exact hrest e he

end Deadline

namespace Stripe

variable [LawfulEqOrd κ] {s : Stripe κ} {cursor : Option (Deadline κ)}

theorem next_eq_none (h : s.next cursor = none) {d : Deadline κ} (hd : d ∈ s.byTime) :
    ¬Deadline.After cursor d := by
  cases cursor with
  | none =>
      rw [next, ExtTreeSet.min?_eq_none_iff] at h
      simp [h] at hd
  | some c =>
      intro hafter
      rw [next, ExtTreeSet.min?_eq_none_iff] at h
      have hmem : d ∈ s.byTime.filter fun d => compare c d = .lt :=
        ExtTreeSet.mem_filter.2 ⟨hd, by simpa [ExtTreeSet.get_eq] using hafter c rfl⟩
      simp [h] at hmem

/-- The next deadline of a stripe is the earliest after the cursor. -/
theorem next_eq_some {d : Deadline κ} (h : s.next cursor = some d) :
    d ∈ s.byTime ∧ Deadline.After cursor d ∧
      ∀ e ∈ s.byTime, Deadline.After cursor e → (compare d e).isLE := by
  cases cursor with
  | none =>
      rw [next, ExtTreeSet.min?_eq_some_iff_mem_and_forall] at h
      exact ⟨h.1, nofun, fun e he _ => h.2 e he⟩
  | some c =>
      rw [next, ExtTreeSet.min?_eq_some_iff_mem_and_forall] at h
      obtain ⟨hmem, hleast⟩ := h
      obtain ⟨hd, hafter⟩ := ExtTreeSet.mem_filter.1 hmem
      refine ⟨hd, ?_, ?_⟩
      · rintro _ ⟨⟩
        simpa [ExtTreeSet.get_eq] using hafter
      · intro e he heafter
        exact hleast e (ExtTreeSet.mem_filter.2
          ⟨he, by simpa [ExtTreeSet.get_eq] using heafter c rfl⟩)

end Stripe

namespace Scan

variable [LawfulEqOrd κ] {scan : Scan κ} {index : Index κ}

/-- A scan goes on as long as there is an expired deadline after its cursor. -/
theorem next_eq_none (h : (scan.next index).1 = none) {d : Deadline κ} (hd : d ∈ index.deadlines)
    (hdue : d.time ≤ scan.now) : ¬Deadline.After scan.cursor d := by
  intro hafter
  obtain ⟨s, hs, hmem⟩ := List.mem_flatMap.1 hd
  rw [ExtTreeSet.mem_toList] at hmem
  have hheads := (Deadline.foldl_earlier_eq_none h).2
  cases hnext : s.next scan.cursor with
  | none => exact Stripe.next_eq_none hnext hmem hafter
  | some head =>
      have hle := Deadline.time_le_of_isLE ((Stripe.next_eq_some hnext).2.2 d hmem hafter)
      have hhead : head ∈ (index.stripes.filterMap (·.next scan.cursor)).filter
          (·.time ≤ scan.now) := by
        rw [List.mem_filter, List.mem_filterMap]
        exact ⟨⟨s, hs, hnext⟩, by simpa using UInt64.le_trans hle hdue⟩
      rw [hheads] at hhead
      cases hhead

/-- A scan lists the earliest of the expired deadlines after its cursor. -/
theorem next_eq_some {d : Deadline κ} (h : (scan.next index).1 = some d) :
    d ∈ index.deadlines ∧ d.time ≤ scan.now ∧ Deadline.After scan.cursor d ∧
      ∀ e ∈ index.deadlines, e.time ≤ scan.now → Deadline.After scan.cursor e →
        (compare d e).isLE := by
  obtain ⟨hlisted, -, hleast⟩ := Deadline.foldl_earlier_eq_some h
  have hmem := hlisted.resolve_left nofun
  rw [List.mem_filter, List.mem_filterMap] at hmem
  obtain ⟨⟨s, hs, hnext⟩, hdue⟩ := hmem
  obtain ⟨hd, hafter, -⟩ := Stripe.next_eq_some hnext
  refine ⟨List.mem_flatMap.2 ⟨s, hs, ExtTreeSet.mem_toList.2 hd⟩, by simpa using hdue, hafter, ?_⟩
  intro e he hedue heafter
  obtain ⟨t, ht, hmem⟩ := List.mem_flatMap.1 he
  rw [ExtTreeSet.mem_toList] at hmem
  -- The head of the stripe of `e` is no later than `e`, and so it has expired as well.
  cases hhead : t.next scan.cursor with
  | none => exact absurd heafter (Stripe.next_eq_none hhead hmem)
  | some head =>
      have hle := (Stripe.next_eq_some hhead).2.2 e hmem heafter
      refine TransCmp.isLE_trans (hleast head ?_) hle
      rw [List.mem_filter, List.mem_filterMap]
      exact ⟨⟨t, ht, hhead⟩, by
        simpa using UInt64.le_trans (Deadline.time_le_of_isLE hle) hedue⟩

end Scan

end Ephemera
