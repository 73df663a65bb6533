/-
  WordFormation/Proofs/Mirroring.lean
  ===================================
  **Counting from the end, without a reversed word.**

  What counts from the end of a word is solved on the reversed word at the
  opposite position.  Here the two are brought together: how far the opposite
  position reaches (`ordinal_mirrored`), and what becomes of an answer that was
  found in the reversed word (`solveReversed_eq_ok`).

  The most negative position has no opposite of its own and reaches exactly as
  far as the one next to it.  That is one less than its number, which makes no
  difference where both are beyond the word (`of_reach`).
-/
import WordFormation.Allomorphs.Placement
import WordFormation.Proofs.Lists

namespace WordFormation

namespace Position

/-- How many units a position counts off, from whichever end. -/
def reach (p : Position) : Nat := min p.val.natAbs 2147483647

theorem reach_eq_natAbs {p : Position} (h : p.val ≠ -2147483648) : p.reach = p.val.natAbs := by
  have hlower := p.lower
  have hupper := p.upper
  unfold reach
  omega

/-- The most negative position. -/
def lowest : Position := ⟨-2147483647 - 1, by decide, by decide⟩

theorem reach_lowest : lowest.reach = 2147483647 := rfl

theorem natAbs_lowest : lowest.val.natAbs = 2147483648 := rfl

/-- What does not tell apart numbers beyond `n` is true of the number of a position if
    it is true of how far the position reaches. -/
theorem of_reach {p : Position} {n : Nat} (hcounts : p.val ≠ -2147483648 ∨ n < 2147483647)
    {P : Nat → Prop} (hbeyond : ∀ k k', n < k → n < k' → P k → P k') (h : P p.reach) :
    P p.val.natAbs := by
  by_cases hmost : p.val = -2147483648
  · have hfew : n < 2147483647 := hcounts.resolve_left (absurd hmost)
    have hreach : n < p.reach := by
      unfold reach
      omega
    exact hbeyond p.reach p.val.natAbs hreach (by omega) h
  · rw [← reach_eq_natAbs hmost]
    exact h

theorem reach_pos {p : Position} (h : p.val ≠ 0) : 0 < p.reach := by
  unfold reach
  omega

theorem fromEnd_eq_false {p : Position} (h : 0 < p.val) : p.fromEnd = false := by
  simp only [fromEnd, decide_eq_false_iff_not]
  omega

theorem fromEnd_eq_true {p : Position} (h : p.val < 0) : p.fromEnd = true := by
  simp only [fromEnd, decide_eq_true_eq]
  exact h

theorem ordinal_eq_reach {p : Position} (h : 0 < p.val) : p.ordinal = p.reach := by
  have hupper := p.upper
  unfold ordinal reach
  omega

theorem val_mirrored {p : Position} (h : p.val ≠ -2147483648) : p.mirrored.val = -p.val := by
  unfold mirrored
  rw [dif_neg h]

theorem mirrored_mirrored {p : Position} (h : p.val ≠ -2147483648) : p.mirrored.mirrored = p := by
  have hupper := p.upper
  apply ext
  rw [val_mirrored (by rw [val_mirrored h]; omega), val_mirrored h]
  omega

theorem mirrored_neg {p : Position} (h : 0 < p.val) : p.mirrored.val < 0 := by
  rw [val_mirrored (by omega)]
  omega

theorem mirrored_pos {p : Position} (h : p.val < 0) : 0 < p.mirrored.val := by
  unfold mirrored
  split
  · show (0 : Int) < 2147483647
    omega
  · show 0 < -p.val
    omega

theorem ordinal_mirrored {p : Position} (h : p.val < 0) : p.mirrored.ordinal = p.reach := by
  have hlower := p.lower
  unfold mirrored
  split
  · rename_i hmost
    show Int.natAbs 2147483647 = p.reach
    rw [reach, hmost]
    rfl
  · show Int.natAbs (-p.val) = p.reach
    unfold reach
    omega

theorem reach_mirrored {p : Position} (h : p.val < 0) : p.mirrored.reach = p.reach := by
  rw [← ordinal_eq_reach (mirrored_pos h), ordinal_mirrored h]

end Position

/-! ### Problems solved on the reversed word -/

theorem solveReversed_eq_ok {p : Position} {w w' : Word} {solve : Word → Edited Word} :
    solveReversed p w solve = .ok w' ↔ solve w.reverse = .ok w'.reverse := by
  unfold solveReversed
  cases solve w.reverse with
  | error failure =>
    constructor <;> intro h <;> cases h
  | ok result =>
    constructor
    · intro h
      cases h
      rw [List.reverse_reverse]
    · intro h
      cases h
      show Except.ok w'.reverse.reverse = _
      rw [List.reverse_reverse]

theorem solveReversed_of_ok {p : Position} {w result : Word} {solve : Word → Edited Word}
    (h : solve w.reverse = .ok result) : solveReversed p w solve = .ok result.reverse := by
  unfold solveReversed
  rw [h]

theorem solveReversed_of_error {p : Position} {w : Word} {solve : Word → Edited Word}
    {failure : PositionError} (h : solve w.reverse = .error failure) :
    solveReversed p w solve = .error (failure.unmirrored p) := by
  unfold solveReversed
  rw [h]

namespace Allomorphs

theorem solveAt_of_pos {p : Position} (h : 0 < p.val) (a : Allomorphs) (w : Word)
    (solve : Allomorphs → Word → Position → Nat → Edited Word) :
    a.solveAt w p solve = solve a w p (p.reach - 1) := by
  unfold solveAt
  rw [if_neg (by omega), Position.fromEnd_eq_false h, Position.ordinal_eq_reach h]
  rfl

theorem solveAt_of_neg {p : Position} (h : p.val < 0) (a : Allomorphs) (w : Word)
    (solve : Allomorphs → Word → Position → Nat → Edited Word) :
    a.solveAt w p solve =
      solveReversed p w fun w' => solve a.reversed w' p.mirrored (p.reach - 1) := by
  unfold solveAt
  rw [if_neg (by omega), Position.fromEnd_eq_true h, Position.ordinal_mirrored h]
  rfl

end Allomorphs

end WordFormation
