import Ephemera.Expiry.Policy

/-! # Lifetimes of stored entries

Every stored entry carries its time to live together with the reading of the clock at which it
expires. Zero stands for no limit in both, and the two are always decided together: the expire time
is computed once, when the entry is touched, and from then on only copied.
-/

namespace Ephemera

/-- The lifetime of an entry. -/
structure Ttl where
  /-- Milliseconds to live, zero for an eternal entry. -/
  span : Millis := 0
  /-- The clock reading at which the entry expires, zero for never. -/
  expireTime : Millis := 0
  /-- Set only on the lifetime that a transaction reports for a key it will remove. -/
  deleted : Bool := false
  deriving DecidableEq, Repr

namespace Ttl

/-- No limit. -/
def eternal : Ttl := {}

/-- What a transaction reports for a key it will remove. -/
def tombstone : Ttl where
  deleted := true

/-- A lifetime of `span` that starts at `now`, without limit when `span` is zero. -/
def lasting (span now : Millis) : Ttl :=
  if span = 0 then eternal else { span, expireTime := Millis.after now span }

/-- Whether the entry never expires. -/
def isEternal (t : Ttl) : Bool :=
  t.expireTime == 0

theorem isEternal_iff (t : Ttl) : t.isEternal = true ↔ t.expireTime = 0 := by
  simp [isEternal]

/-- An entry has expired once the clock shows its expire time. -/
def expiredAt (t : Ttl) (now : Millis) : Bool :=
  t.expireTime != 0 && t.expireTime ≤ now

theorem expiredAt_iff (t : Ttl) (now : Millis) :
    t.expiredAt now = true ↔ t.expireTime ≠ 0 ∧ t.expireTime ≤ now := by
  simp [expiredAt]

@[simp]
theorem expiredAt_eternal (now : Millis) : eternal.expiredAt now = false := rfl

/-- The time left, if there is a limit. -/
def remaining (t : Ttl) (now : Millis) : Option Millis :=
  if t.isEternal then none else some (Millis.left now t.expireTime)

@[simp]
theorem lasting_zero (now : Millis) : lasting 0 now = eternal := rfl

@[simp]
theorem span_lasting (span now : Millis) : (lasting span now).span = span := by
  unfold lasting
  split
  next hspan => exact hspan.symm
  next => rfl

@[simp]
theorem deleted_lasting (span now : Millis) : (lasting span now).deleted = false := by
  unfold lasting
  split <;> rfl

theorem expiredAt_lasting {span now : Millis}
    (h : span ≠ 0 → now.toNat + span.toNat < Millis.latest.toNat) :
    (lasting span now).expiredAt now = false := by
  unfold lasting
  split
  next => rfl
  next hspan =>
    have hroom := h hspan
    have hpos : 0 < span.toNat := Nat.pos_of_ne_zero fun hzero =>
      hspan (UInt64.toNat_inj.1 hzero)
    have hafter : ¬Millis.after now span ≤ now := by
      rw [UInt64.le_iff_toNat_le, Millis.toNat_after]
      omega
    simp [expiredAt, hafter]

theorem not_expiredAt_of_le {t : Ttl} {earlier now : Millis} (hle : earlier ≤ now)
    (h : t.expiredAt now = false) : t.expiredAt earlier = false := by
  rw [← Bool.not_eq_true, expiredAt_iff] at h ⊢
  exact fun hexpired => h ⟨hexpired.1, UInt64.le_trans hexpired.2 hle⟩

/-- With room left on the clock, lifetimes of one span that began at different readings differ. -/
theorem lasting_inj {span earlier now : Millis} (hspan : span ≠ 0) (hle : earlier ≤ now)
    (hroom : now.toNat + span.toNat < Millis.latest.toNat)
    (h : lasting span earlier = lasting span now) : earlier = now := by
  simp only [lasting, hspan, if_false] at h
  have hexpire : Millis.after earlier span = Millis.after now span := congrArg expireTime h
  have hnat := congrArg UInt64.toNat hexpire
  rw [Millis.toNat_after, Millis.toNat_after] at hnat
  rw [UInt64.le_iff_toNat_le] at hle
  apply UInt64.toNat_inj.1
  omega

/-- What becomes of the lifetime of a touched entry. -/
inductive Verdict where
  /-- The entry stays, or becomes visible, with this lifetime. -/
  | retain (ttl : Ttl)
  /-- The entry disappears in the same operation. -/
  | expire
  deriving DecidableEq, Repr

/-- The lifetime after a touch at `now` for which the policy gives `duration`. Without a duration a
created entry is eternal and any other keeps its lifetime; a duration of zero expires the entry at
once; any other replaces the lifetime by one that starts at `now`. -/
def touch (t : Ttl) (kind : Touch) (duration : Option Duration) (now : Millis) : Verdict :=
  match duration, kind with
  | none, .create => .retain eternal
  | none, _ => .retain { t with deleted := false }
  | some .eternal, _ => .retain eternal
  | some (.millis span), _ => if span = 0 then .expire else .retain (lasting span now)

/-- A touch without a duration leaves the lifetime of an entry alone. -/
theorem touch_none {t : Ttl} (ht : t.deleted = false) {kind : Touch} (hkind : kind ≠ .create)
    (now : Millis) : t.touch kind none now = .retain t := by
  have hstays : ({ t with deleted := false } : Ttl) = t := by
    rw [← ht]
  cases kind with
  | create => exact absurd rfl hkind
  | update | access => exact congrArg Verdict.retain hstays

/-- A touch with a duration does not look at the lifetime that there was. -/
theorem touch_some (t : Ttl) (kind : Touch) (duration : Duration) (now : Millis) :
    t.touch kind (some duration) now =
      if duration.isZero then .expire else .retain (.lasting duration.span now) := by
  cases duration with
  | eternal => rfl
  | millis ms =>
      by_cases hms : ms = 0
      · simp [touch, Duration.isZero, hms]
      · simp [touch, Duration.isZero, Duration.span, hms]

/-- A lifetime that a touch leaves or gives is not that of a removed key. -/
theorem not_deleted_of_touch {t next : Ttl} {kind : Touch} {duration : Option Duration}
    {now : Millis} (h : t.touch kind duration now = .retain next) : next.deleted = false := by
  unfold touch at h
  split at h
  · cases h
    rfl
  · cases h
    rfl
  · cases h
    rfl
  · split at h
    · cases h
    · cases h
      exact deleted_lasting _ _

end Ttl

end Ephemera
