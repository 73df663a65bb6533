/-
  WordFormation/Proofs/Presence.lean
  ==================================
  **Whether a form is present at an edge of a word, said without positions.**

  Looking for a form at position `1` or `-1` cuts the word, reverses it where the
  position counts from the end, and chooses the longest form that fits.  All that
  remains of this for the question whether anything is there at all is that some
  form with letters begins, or ends, the word (`isAt_position`).  The question
  has always an answer, so a test at an edge never fails for want of one
  (`EdgeTest.holds_eq`).
-/
import WordFormation.Proofs.Choice
import WordFormation.EdgeCondition

namespace WordFormation

/-- Does a word begin, or end, with the given letters? -/
def Edge.isTouchedBy (edge : Edge) (letters w : Word) : Bool :=
  match edge with
  | .start => letters.isPrefixOf w
  | .final => letters.isSuffixOf w

/-- Does a form with letters stand at an edge of a word? -/
def Allomorphs.standsAt (a : Allomorphs) (edge : Edge) (w : Word) : Bool :=
  a.flatten.any fun letters => !letters.isEmpty && edge.isTouchedBy letters w

namespace Allomorphs

theorem solveAt_start (a : Allomorphs) (w : Word)
    (solve : Allomorphs → Word → Position → Nat → Edited Word) :
    a.solveAt w Position.start solve = solve a w Position.start 0 := rfl

theorem solveAt_final (a : Allomorphs) (w : Word)
    (solve : Allomorphs → Word → Position → Nat → Edited Word) :
    a.solveAt w Position.final solve =
      solveReversed Position.final w fun w' => solve a.reversed w' Position.start 0 := rfl

/-- Something is found in front of a word if some form with letters begins it. -/
theorem isEmpty_formAtGap_zero (a : Allomorphs) (w : Word) :
    (a.formAtGap w 0).isEmpty = !a.standsAt .start w := by
  have hnil := a.formAtGap_eq_nil_iff (w := w) (Nat.zero_le _)
  rw [Bool.eq_iff_iff, List.isEmpty_iff, hnil, Bool.not_eq_true', standsAt, List.any_eq_false]
  constructor
  · intro h f hf hstands
    simp only [Edge.isTouchedBy, Bool.and_eq_true, Bool.not_eq_true', List.isPrefixOf_iff_prefix]
      at hstands
    have := h f hf hstands.2
    simp [this] at hstands
  · intro h f hf hprefix
    have hf' := h f hf
    simp only [Edge.isTouchedBy, Bool.and_eq_true, Bool.not_eq_true', List.isPrefixOf_iff_prefix]
      at hf'
    cases f with
    | nil => rfl
    | cons c f => exact absurd ⟨rfl, hprefix⟩ hf'

/-- What stands at the end of a word stands, read backwards, in front of the word
    read backwards. -/
theorem standsAt_final (a : Allomorphs) (w : Word) :
    a.standsAt .final w = a.reversed.standsAt .start w.reverse := by
  simp only [standsAt, flatten_reversed, List.any_map]
  congr 1
  funext letters
  simp [Edge.isTouchedBy, List.isSuffixOf]

/-- Looking for a form at an edge always gives an answer. -/
theorem isAt_position (a : Allomorphs) (edge : Edge) (w : Word) :
    a.isAt w edge.position = .ok (a.standsAt edge w) := by
  cases edge with
  | start =>
    have hfound := a.isEmpty_formAtGap_zero w
    simp only [isAt, formAt, Edge.position, solveAt_start, Except.map, hfound, Bool.not_not]
  | final =>
    have hfound := a.reversed.isEmpty_formAtGap_zero w.reverse
    simp only [isAt, formAt, Edge.position, solveAt_final, solveReversed, Except.map,
      List.isEmpty_reverse, hfound, Bool.not_not, standsAt_final]

end Allomorphs

/-- A test is passed if a form with letters stands at its edge, or if none does
    where it is negated. -/
theorem EdgeTest.holds_eq (t : EdgeTest) (w : Word) :
    t.holds w = (t.form.standsAt t.edge w != t.negated) := by
  unfold EdgeTest.holds
  rw [t.form.isAt_position]

end WordFormation
