/-! # Sets of code points

A set of code points is given by its runs: the first and the last member of each, in ascending
order.
-/

namespace Ephemera.Text

/-- Runs of code points. -/
abbrev CodePoints := List (Nat × Nat)

namespace CodePoints

/-- Whether a code point is in one of the runs. The search ends at the first run that begins after
it. -/
def contains : CodePoints → Nat → Bool
  | [], _ => false
  | (first, last) :: runs, n => first ≤ n && (n ≤ last || contains runs n)

/-- Whether every run is in order, with a gap before the next one. -/
def ascending : CodePoints → Bool
  | [] => true
  | [(first, last)] => first ≤ last
  | (first, last) :: (next, lastNext) :: runs =>
    first ≤ last && last + 1 < next && ascending ((next, lastNext) :: runs)

/-- The number of code points in the runs. -/
def size (runs : CodePoints) : Nat :=
  runs.foldr (fun (first, last) n => last + 1 - first + n) 0

/-- The first code point of a run is at most that of every run after it. -/
theorem first_le_of_ascending {run : Nat × Nat} {runs : CodePoints}
    (h : ascending (run :: runs) = true) {other : Nat × Nat} (hmem : other ∈ runs) :
    run.1 ≤ other.1 := by
  induction runs generalizing run with
  | nil => simp at hmem
  | cons next runs ih =>
    simp only [ascending, Bool.and_eq_true, decide_eq_true_eq] at h
    obtain ⟨⟨horder, hgap⟩, hrest⟩ := h
    rcases List.mem_cons.mp hmem with rfl | hmem
    · omega
    · have := ih hrest hmem
      omega

/-- Of ascending runs, the search finds every run. -/
theorem contains_iff {runs : CodePoints} (h : ascending runs = true) (n : Nat) :
    contains runs n = true ↔ ∃ run ∈ runs, run.1 ≤ n ∧ n ≤ run.2 := by
  induction runs with
  | nil => simp [contains]
  | cons run runs ih =>
    have hrest : ascending runs = true := by
      cases runs with
      | nil => rfl
      | cons next runs =>
        simp only [ascending, Bool.and_eq_true] at h
        exact h.2
    simp only [contains, Bool.and_eq_true, Bool.or_eq_true, decide_eq_true_eq, ih hrest,
      List.mem_cons, exists_eq_or_imp]
    constructor
    · rintro ⟨hfirst, hlast | hfound⟩
      · exact .inl ⟨hfirst, hlast⟩
      · exact .inr hfound
    · rintro (⟨hfirst, hlast⟩ | ⟨other, hmem, hfirst, hlast⟩)
      · exact ⟨hfirst, .inl hlast⟩
      · exact ⟨Nat.le_trans (first_le_of_ascending h hmem) hfirst,
          .inr ⟨other, hmem, hfirst, hlast⟩⟩

end CodePoints

end Ephemera.Text
