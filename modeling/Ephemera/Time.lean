/-! # Clock readings

Readings of the clock and spans of time are counts of milliseconds held in 64 bits. Arithmetic on
them never wraps: a sum past the latest reading stays at the latest reading, and a deadline that
has passed leaves nothing.
-/

namespace Ephemera

/-- Milliseconds: a span of time, or a reading of the clock since the Unix epoch. -/
abbrev Millis := UInt64

namespace Millis

/-- The latest reading of the clock. -/
def latest : Millis := 18446744073709551615

/-- The reading `span` after `now`, held at the latest reading. -/
def after (now span : Millis) : Millis :=
  if now ≤ latest - span then now + span else latest

/-- The time left at `now` before `deadline`, nothing once it has passed. -/
def left (now deadline : Millis) : Millis :=
  if now ≤ deadline then deadline - now else 0

theorem toNat_latest : latest.toNat = 18446744073709551615 := rfl

theorem toNat_after (now span : Millis) :
    (after now span).toNat = min (now.toNat + span.toNat) latest.toNat := by
  have hnow := now.toNat_lt
  have hspan := span.toNat_lt
  have hlatest := toNat_latest
  have hle : span ≤ latest := by
    rw [UInt64.le_iff_toNat_le]
    omega
  have hroom : (latest - span).toNat = latest.toNat - span.toNat :=
    UInt64.toNat_sub_of_le _ _ hle
  simp only [after, UInt64.le_iff_toNat_le, hroom]
  split
  · rw [UInt64.toNat_add]
    omega
  · omega

theorem toNat_left (now deadline : Millis) :
    (left now deadline).toNat = deadline.toNat - now.toNat := by
  simp only [left]
  split <;> rename_i h
  · rw [UInt64.toNat_sub_of_le _ _ h]
  · rw [UInt64.le_iff_toNat_le] at h
    simp only [UInt64.reduceToNat]
    omega

end Millis

end Ephemera
