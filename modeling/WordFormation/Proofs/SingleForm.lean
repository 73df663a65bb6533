/-
  WordFormation/Proofs/SingleForm.lean
  ====================================
  **A set with one form is placed as an edit with one text is.**

  There are two ways to put letters into a word or to take them out of it.  A set
  of forms looks for the one that fits at a gap; an edit looks for a unit, finds
  the window on its side, and replaces what stands there.  Where the set has only
  one form and the edit only one text, and it counts letters with no side named,
  they come to the same (`only_placed_as_edit`).

  Counted from the start, both land at the same gap (`IsAtGap`): one less than the
  position says, and the gap behind the last letter is the last one that exists.
  Counted from the end, both are solved on the reversed word.  The edit names its
  side there, in front of the unit, so that it is again an edit at a gap
  (`isAtGap_mirrored`).
-/
import WordFormation.Proofs.Outcome
import WordFormation.Proofs.EditWindow
import WordFormation.Proofs.Presence

namespace WordFormation

namespace Alphabet

/-- Every character is a letter. -/
theorem unitPositionsFrom_letters (a : Alphabet) (i : Nat) (w : Word) :
    a.unitPositionsFrom .letters i w = List.range' i w.length := by
  induction w generalizing i with
  | nil => rfl
  | cons c w ih =>
    have hunit : a.isUnit .letters c = true := rfl
    rw [unitPositionsFrom, if_pos hunit, ih, List.length_cons, List.range'_succ]

end Alphabet

/-! ### Edits at a gap -/

namespace Edit

/-- The edit counts letters from the start and lands in front of one. -/
structure IsAtGap (e : Edit) : Prop where
  unit : e.unit = .letters
  side : e.effectiveSide = .before
  pos : 0 < e.place.val

theorem isAtGap_of_pos {e : Edit} (hunit : e.unit = .letters) (hside : e.side = none)
    (hpos : 0 < e.place.val) : e.IsAtGap := by
  refine ⟨hunit, ?_, hpos⟩
  rw [effectiveSide, hside, Option.getD_none, Side.implied, if_pos hpos]

/-- Behind a unit of the word is in front of it in the reversed word. -/
theorem isAtGap_mirrored {e : Edit} (hunit : e.unit = .letters) (hside : e.side = none)
    (hneg : e.place.val < 0) : e.mirrored.IsAtGap := by
  have hafter : e.effectiveSide = .after := by
    rw [effectiveSide, hside, Option.getD_none, Side.implied, if_neg (by omega)]
  refine ⟨hunit, ?_, Position.mirrored_pos hneg⟩
  show e.effectiveSide.flipped = .before
  rw [hafter]
  rfl

/-- Where an edit comes to at a position that it counts letters for, with no side
    named. -/
inductive ComesTo (e : Edit) (p : Position) : Prop where
  | fromStart (hpos : 0 < p.val) (hfromEnd : e.place.fromEnd = false) (gap : e.IsAtGap)
  | nowhere (hzero : p.val = 0) (hfromEnd : e.place.fromEnd = false) (hplace : e.place.val = 0)
  | fromEnd (hneg : p.val < 0) (hfromEnd : e.place.fromEnd = true) (gap : e.mirrored.IsAtGap)
      (hreach : e.mirrored.place.reach = p.reach)

theorem comesTo {e : Edit} {p : Position} (hplace : e.place = p) (hunit : e.unit = .letters)
    (hside : e.side = none) : e.ComesTo p := by
  subst hplace
  rcases Int.lt_trichotomy e.place.val 0 with hneg | hzero | hpos
  · exact .fromEnd hneg (Position.fromEnd_eq_true hneg) (isAtGap_mirrored hunit hside hneg)
      (Position.reach_mirrored hneg)
  · have hfromEnd : e.place.fromEnd = false := by simp [Position.fromEnd, hzero]
    exact .nowhere hzero hfromEnd hzero
  · exact .fromStart hpos (Position.fromEnd_eq_false hpos) (isAtGap_of_pos hunit hside hpos)

section AtGap

variable {e : Edit} (h : e.IsAtGap) {w : Word}
include h

/-- The window lies behind the gap, as long as there is such a gap. -/
theorem IsAtGap.window_eq (expected : Word) :
    e.window w expected =
      if e.place.reach - 1 ≤ w.length then
        .ok ⟨e.place.reach - 1, e.place.reach - 1 + expected.length⟩
      else
        .error (.outOfRange e.place w.length) := by
  have hzero : e.place.val ≠ 0 := by
    have := h.pos
    omega
  have hreach := Position.reach_pos hzero
  have hunits : e.alphabet.unitPositions e.unit w = List.range' 0 w.length := by
    rw [h.unit]
    exact e.alphabet.unitPositionsFrom_letters 0 w
  have haddressed : e.addressed? w =
      if e.place.reach - 1 ≤ w.length then some (e.place.reach - 1) else none := by
    unfold addressed?
    simp only [hunits, Position.ordinal_eq_reach h.pos, h.side, List.length_range', and_true]
    rcases Nat.lt_trichotomy (e.place.reach - 1) w.length with hlt | heq | hgt
    · rw [List.getElem?_range' hlt, if_pos (Nat.le_of_lt hlt), Nat.zero_add, Nat.one_mul]
    · rw [List.getElem?_eq_none (by simp; omega), if_pos (Nat.le_of_eq heq)]
      show (if e.place.reach = w.length + 1 then some w.length else none) = _
      rw [if_pos (by omega), heq]
    · rw [List.getElem?_eq_none (by simp; omega), if_neg (Nat.not_le.mpr hgt)]
      show (if e.place.reach = w.length + 1 then some w.length else none) = none
      rw [if_neg (by omega)]
  unfold window
  simp only [hzero, if_false, haddressed, hunits, List.length_range']
  by_cases hgap : e.place.reach - 1 ≤ w.length
  · simp only [hgap, if_true, h.side, h.unit]
  · simp only [hgap, if_false]

theorem IsAtGap.carry_insertion (hremoved : e.removed = []) :
    e.carry w =
      if e.place.reach - 1 ≤ w.length then
        .ok (w.take (e.place.reach - 1) ++ e.inserted ++ w.drop (e.place.reach - 1))
      else
        .error (.outOfRange e.place w.length) := by
  unfold carry check
  rw [hremoved, h.window_eq]
  by_cases hgap : e.place.reach - 1 ≤ w.length
  · have htext : (Window.mk (e.place.reach - 1) (e.place.reach - 1)).text w = [] := by
      exact List.drop_eq_nil_of_le (List.length_take_le _ _)
    simp only [hgap, if_true, List.length_nil, Nat.add_zero, htext]
    rfl
  · simp only [hgap, if_false]
    rfl

/-- The window holds a text that begins what is behind the gap. -/
theorem IsAtGap.check_of_begins {expected : Word} (hne : expected ≠ [])
    (hbegins : expected <+: w.drop (e.place.reach - 1)) :
    e.check w expected =
      .ok ⟨e.place.reach - 1, e.place.reach - 1 + expected.length⟩ := by
  have hgap : e.place.reach - 1 ≤ w.length := by
    have hlength := hbegins.length_le
    have hpos := List.length_pos_iff.mpr hne
    rw [List.length_drop] at hlength
    omega
  have htext : (Window.mk (e.place.reach - 1) (e.place.reach - 1 + expected.length)).text w =
      expected := by
    rw [Window.text, List.drop_take, Nat.add_sub_cancel_left]
    exact (List.prefix_iff_eq_take.mp hbegins).symm
  unfold check
  rw [h.window_eq, if_pos hgap]
  simp only [htext, if_true]

/-- Any other text is refused, and not for the position `0`. -/
theorem IsAtGap.check_of_missing {expected : Word}
    (hbegins : ¬ expected <+: w.drop (e.place.reach - 1)) :
    ∃ failure, failure ≠ .zeroIndex ∧ e.check w expected = .error failure := by
  unfold check
  rw [h.window_eq]
  by_cases hgap : e.place.reach - 1 ≤ w.length
  · rw [if_pos hgap]
    have htext : (Window.mk (e.place.reach - 1) (e.place.reach - 1 + expected.length)).text w ≠
        expected := by
      rw [Window.text, List.drop_take, Nat.add_sub_cancel_left]
      intro heq
      exact hbegins (List.prefix_iff_eq_take.mpr heq.symm)
    refine ⟨e.mismatch expected _, ?_, if_neg htext⟩
    intro hzero
    cases hzero
  · rw [if_neg hgap]
    refine ⟨_, ?_, rfl⟩
    intro hzero
    cases hzero

end AtGap

end Edit

/-! ### Sets with a single form -/

namespace Allomorphs

variable {f w : Word} {k : Nat}

@[simp] theorem reversed_only (f : Word) : (only f).reversed = only f.reverse := by
  rw [reversed, forms_eq_flatten, flatten_only]
  rfl

theorem formAtGap_only_of_begins (hne : f ≠ []) (hbegins : f <+: w.drop k) :
    (only f).formAtGap w k = f := by
  have hk : k ≤ w.length := by
    have hlength := hbegins.length_le
    have hpos := List.length_pos_iff.mpr hne
    rw [List.length_drop] at hlength
    omega
  have hfound : (only f).formAtGap w k ≠ [] := by
    intro hnil
    exact hne (((only f).formAtGap_eq_nil_iff hk).mp hnil f (by simp) hbegins)
  have hmem := (only f).formAtGap_mem hfound
  rwa [flatten_only, List.mem_singleton] at hmem

theorem formAtGap_only_of_missing (hbegins : ¬ f <+: w.drop k) :
    (only f).formAtGap w k = [] := by
  rcases Nat.lt_or_ge w.length k with hlt | hk
  · exact (only f).formAtGap_of_length_lt hlt
  · refine ((only f).formAtGap_eq_nil_iff hk).mpr ?_
    intro g hg hstands
    rw [flatten_only, List.mem_singleton] at hg
    subst hg
    exact absurd hstands hbegins

/-- With nothing to choose from, the form is put at the gap. -/
theorem insertAtGap_only (f w : Word) (k : Nat) :
    (only f).insertAtGap w k =
      if k ≤ w.length then some (w.take k ++ f ++ w.drop k) else none := by
  by_cases hk : k ≤ w.length
  · rw [(only f).insertAtGap_eq hk, if_pos hk]
    rfl
  · rw [(only f).insertAtGap_of_length_lt (Nat.not_le.mp hk), if_neg hk]

end Allomorphs

/-! ### Both at the same gap -/

namespace Edit

open Allomorphs

variable {e : Edit} {f : Word}

theorem IsAtGap.insertAtGap_eq_carry (h : e.IsAtGap) (hremoved : e.removed = [])
    (w : Word) :
    (match (only e.inserted).insertAtGap w (e.place.reach - 1) with
      | some result => .ok result
      | none => .error (.outOfRange e.place w.length)) = e.carry w := by
  rw [h.carry_insertion hremoved, insertAtGap_only]
  by_cases hgap : e.place.reach - 1 ≤ w.length
  · simp only [hgap, if_true]
  · simp only [hgap, if_false]

/-- What removing does to a word, for an edit that counts from the start. -/
def takeOut (e : Edit) (w : Word) : Edited Word := do
  let window ← e.check w e.removed
  return window.replace w []

/-- Removing gives what is left without the form found at the gap; where none is
    found it fails. -/
theorem IsAtGap.takeOut_eq (h : e.IsAtGap) (hremoved : e.removed ≠ []) (w : Word) :
    e.takeOut w = .ok ((only e.removed).removeAtGap w (e.place.reach - 1)) ∨
      (only e.removed).removeAtGap w (e.place.reach - 1) = w ∧
        ∃ failure, failure ≠ .zeroIndex ∧ e.takeOut w = .error failure := by
  rw [removeAtGap_eq]
  by_cases hbegins : e.removed <+: w.drop (e.place.reach - 1)
  · left
    rw [takeOut, h.check_of_begins hremoved hbegins, formAtGap_only_of_begins hremoved hbegins,
      ok_bind, pure_eq_ok, Window.replace, List.append_nil]
  · right
    refine ⟨?_, ?_⟩
    · rw [formAtGap_only_of_missing hbegins, List.length_nil, Nat.add_zero,
        List.take_append_drop]
    · obtain ⟨failure, hne, hcheck⟩ := h.check_of_missing hbegins
      refine ⟨failure, hne, ?_⟩
      rw [takeOut, hcheck]
      rfl

theorem IsAtGap.isOk_check (h : e.IsAtGap) (hremoved : e.removed ≠ []) (w : Word) :
    (e.check w e.removed).isOk = !((only e.removed).formAtGap w (e.place.reach - 1)).isEmpty := by
  by_cases hbegins : e.removed <+: w.drop (e.place.reach - 1)
  · rw [h.check_of_begins hremoved hbegins, formAtGap_only_of_begins hremoved hbegins,
      List.isEmpty_eq_false_iff.mpr hremoved]
    rfl
  · obtain ⟨failure, -, hcheck⟩ := h.check_of_missing hbegins
    rw [hcheck, formAtGap_only_of_missing hbegins]
    rfl

end Edit

/-! ### At a position -/

namespace Allomorphs

open Edit

variable {f : Word} (hf : f ≠ []) (w : Word) (p : Position)
include hf

theorem insertAt_only : (only f).insertAt w p = (Edit.insertion f p).apply w := by
  have hcomes : (Edit.insertion f p).ComesTo p := comesTo rfl rfl rfl
  rw [apply_eq_solve rfl (.inr hf)]
  unfold insertAt Edit.solve
  cases hcomes with
  | fromStart hpos hfromEnd hgap =>
    rw [solveAt_of_pos hpos, hfromEnd]
    exact hgap.insertAtGap_eq_carry rfl w
  | nowhere hzero hfromEnd hplace =>
    rw [solveAt, if_pos hzero, hfromEnd]
    unfold carry check window
    simp only [hplace, if_true, Bool.false_eq_true, if_false]
    rfl
  | fromEnd hneg hfromEnd hgap hreach =>
    rw [solveAt_of_neg hneg, hfromEnd, if_pos rfl, reversed_only]
    show _ = solveReversed p w _
    congr 1
    funext w'
    have hcarry := hgap.insertAtGap_eq_carry rfl w'
    rw [hreach] at hcarry
    exact hcarry

theorem removeAt_only : (only f).removeAt w p = (Edit.removal f p).lenient.apply w := by
  have hcomes : (Edit.removal f p).lenient.ComesTo p := comesTo rfl rfl rfl
  have happly : (Edit.removal f p).lenient.apply w =
      (Edit.removal f p).lenient.attempt w takeOut := by
    unfold Edit.apply
    simp only [lenient, removal, List.isEmpty_eq_false_iff.mpr hf, List.isEmpty_nil]
    rfl
  rw [happly]
  unfold removeAt attempt Edit.solve
  cases hcomes with
  | fromStart hpos hfromEnd hgap =>
    have houtcome := hgap.takeOut_eq hf w
    rw [solveAt_of_pos hpos, hfromEnd]
    rcases houtcome with hout | ⟨hsame, failure, hne, hout⟩
    · simp only [Bool.false_eq_true, if_false, hout]
      rfl
    · have hsame' : (only f).removeAtGap w (p.reach - 1) = w := hsame
      simp only [Bool.false_eq_true, if_false, hout, hsame']
      cases failure with
      | zeroIndex => exact absurd rfl hne
      | outOfRange place units => rfl
      | mismatch expected found place => rfl
  | nowhere hzero hfromEnd hplace =>
    rw [solveAt, if_pos hzero, hfromEnd]
    unfold takeOut check window
    simp only [hplace, if_true, Bool.false_eq_true, if_false]
    rfl
  | fromEnd hneg hfromEnd hgap hreach =>
    have hremoved : (Edit.removal f p).lenient.mirrored.removed ≠ [] := by
      show f.reverse ≠ []
      simpa using hf
    have houtcome := hgap.takeOut_eq hremoved w.reverse
    rw [hreach] at houtcome
    rw [solveAt_of_neg hneg, hfromEnd, if_pos rfl, reversed_only]
    unfold solveReversed
    rcases houtcome with hout | ⟨hsame, failure, hne, hout⟩
    · rw [hout]
      rfl
    · rw [hout]
      have hsame' : (only f.reverse).removeAtGap w.reverse (p.reach - 1) = w.reverse := hsame
      simp only [hsame', List.reverse_reverse]
      cases failure with
      | zeroIndex => exact absurd rfl hne
      | outOfRange place units => rfl
      | mismatch expected found place => rfl

theorem isAt_only (hp : p.val ≠ 0) :
    (only f).isAt w p = .ok ((Edit.removal f p).isPresent w) := by
  have hcomes : (Edit.removal f p).ComesTo p := comesTo rfl rfl rfl
  have hpresent : (Edit.removal f p).isPresent w =
      (Edit.removal f p).probe w fun e w =>
        e.check w (if e.removed.isEmpty then e.inserted else e.removed) := by
    unfold isPresent
    rw [if_neg]
    intro hempty
    exact hf (List.isEmpty_iff.mp hempty.1)
  rw [hpresent]
  unfold isAt formAt probe
  cases hcomes with
  | fromStart hpos hfromEnd hgap =>
    have hremoved : (Edit.removal f p).removed ≠ [] := hf
    have hcheck := hgap.isOk_check hremoved w
    rw [solveAt_of_pos hpos, hfromEnd]
    simp only [List.isEmpty_eq_false_iff.mpr hremoved, Bool.false_eq_true, if_false, hcheck,
      Except.map]
    rfl
  | nowhere hzero => exact absurd hzero hp
  | fromEnd hneg hfromEnd hgap hreach =>
    have hremoved : (Edit.removal f p).mirrored.removed ≠ [] := by
      show f.reverse ≠ []
      simpa using hf
    have hcheck := hgap.isOk_check hremoved w.reverse
    rw [hreach] at hcheck
    rw [solveAt_of_neg hneg, hfromEnd, if_pos rfl, reversed_only]
    simp only [List.isEmpty_eq_false_iff.mpr hremoved, Bool.false_eq_true, if_false, hcheck,
      solveReversed, Except.map, List.isEmpty_reverse]
    rfl

end Allomorphs

/-- **Placing the only form of a set is a single edit.**  It comes to the same word
    or to the same failure, at every position: the most negative one, `0`, and
    those that are too far away included. -/
theorem Allomorphs.only_placed_as_edit (f : Word) (hf : f ≠ []) (w : Word) (p : Position) :
    (only f).insertAt w p = (Edit.insertion f p).apply w ∧
    (only f).removeAt w p = (Edit.removal f p).lenient.apply w ∧
    (p.val ≠ 0 → (only f).isAt w p = .ok ((Edit.removal f p).isPresent w)) := by
  refine ⟨insertAt_only hf w p, removeAt_only hf w p, ?_⟩
  intro hp
  exact isAt_only hf w p hp

/-- The first `ma` of `mama` ends at the third letter from the end.  The gap in front
    of the word is the fifth from the end, and there is no sixth. -/
theorem Allomorphs.only_placed_mama :
    let third : Position := { val := -3 }
    let beyond : Position := { val := -6 }
    third.val ≠ 0 ∧ ['m', 'a'] ≠ [] ∧
    (Edit.removal ['m', 'a'] third).isPresent ['m', 'a', 'm', 'a'] = true ∧
    (Edit.removal ['m', 'a'] third).lenient.apply ['m', 'a', 'm', 'a'] = .ok ['m', 'a'] ∧
    (Edit.insertion ['m', 'a'] beyond).apply ['m', 'a', 'm', 'a'] =
      .error (.outOfRange beyond 4) := by
  intro third beyond
  have hne : ['m', 'a'] ≠ [] := List.cons_ne_nil _ _
  have hthird : third.val ≠ 0 := by decide
  obtain ⟨-, hremove, hpresent⟩ := only_placed_as_edit ['m', 'a'] hne ['m', 'a', 'm', 'a'] third
  obtain ⟨hinsert, -, -⟩ := only_placed_as_edit ['m', 'a'] hne ['m', 'a', 'm', 'a'] beyond
  refine ⟨hthird, hne, ?_, ?_, ?_⟩
  · have hfound : (only ['m', 'a']).isAt ['m', 'a', 'm', 'a'] third = .ok true := rfl
    rw [hpresent hthird] at hfound
    exact Except.ok.inj hfound
  · rw [← hremove]
    rfl
  · rw [← hinsert]
    rfl

end WordFormation
