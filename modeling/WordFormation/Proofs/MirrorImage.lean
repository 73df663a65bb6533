/-
  WordFormation/Proofs/MirrorImage.lean
  =====================================
  **Whatever is done to a word can be done to the reversed word in the mirror.**

  What counts from the end of a word is solved in the mirror to begin with, and there
  its mirror image counts from the start.  What counts from the start has an image
  that counts from the end, and that is mirrored once more before it is carried out.
  Mirroring twice names the side that was only implied (`Edit.mirrored_mirrored`) and
  spells nested sets out, neither of which makes a difference, and it leaves texts
  and positions as they were, in failures as well
  (`PositionError.IsAbout.unmirrored_unmirrored`).

  Two positions need care.  `0` fails in the mirror as it does in front of it.  The
  most negative one is not its own image's image, but it counts from the end, and so
  the image of its image is not looked at.  The edit there comes back from two mirrors
  at the position next to it (`Edit.mirrored_twice`), where it makes the same words.
-/
import WordFormation.Edit
import WordFormation.Proofs.Mirroring
import WordFormation.Proofs.Presence

namespace WordFormation

/-! ### Failures -/

namespace PositionError

/-- The failure concerns the given position. -/
def IsAbout (p : Position) : PositionError → Prop
  | zeroIndex => True
  | outOfRange place _ => place = p
  | mismatch _ _ place => place = p

theorem IsAbout.unmirrored_unmirrored {p : Position} {failure : PositionError}
    (h : failure.IsAbout p) (q : Position) : (failure.unmirrored q).unmirrored p = failure := by
  cases failure with
  | zeroIndex => rfl
  | outOfRange place units =>
    cases h
    rfl
  | mismatch expected found place =>
    cases h
    simp [unmirrored]

end PositionError

/-- In two mirrors a problem looks as it is. -/
theorem solveReversed_solveReversed {p q : Position} {w : Word} {solve : Word → Edited Word}
    (h : ∀ failure, solve w = .error failure → failure.IsAbout p) :
    solveReversed p w (fun w' => solveReversed q w' solve) = solve w := by
  unfold solveReversed
  simp only [List.reverse_reverse]
  cases hw : solve w with
  | error failure => exact congrArg Except.error ((h failure hw).unmirrored_unmirrored q)
  | ok result => exact congrArg Except.ok (List.reverse_reverse result)

/-! ### Edits -/

namespace Edit

/-- The same edit with its side named. -/
def explicit (e : Edit) : Edit := { e with side := some e.effectiveSide }

/-- In two mirrors an edit names its side and is otherwise what it was, as far as its
    position is. -/
theorem mirrored_mirrored (e : Edit) :
    e.mirrored.mirrored = { e.explicit with place := e.place.mirrored.mirrored } := by
  simp [mirrored, explicit, effectiveSide]

/-- The ends that an edit and its mirror image count from. -/
theorem mirror_cases (e : Edit) :
    e.place.fromEnd = true ∧ e.mirrored.place.fromEnd = false ∨
      e.place.fromEnd = false ∧ e.mirrored.place.fromEnd = false ∧
        e.place.val = 0 ∧ e.mirrored.place.val = 0 ∨
      e.place.fromEnd = false ∧ e.mirrored.place.fromEnd = true ∧
        e.mirrored.mirrored = e.explicit := by
  rcases Int.lt_trichotomy e.place.val 0 with hneg | hzero | hpos
  · have himage := Position.fromEnd_eq_false (Position.mirrored_pos hneg)
    exact .inl ⟨Position.fromEnd_eq_true hneg, himage⟩
  · have himage : e.place.mirrored.val = 0 := by
      rw [Position.val_mirrored (by omega), hzero]
      rfl
    have hstart (p : Position) (h : p.val = 0) : p.fromEnd = false := by simp [Position.fromEnd, h]
    exact .inr (.inl ⟨hstart _ hzero, hstart _ himage, hzero, himage⟩)
  · have himage := Position.fromEnd_eq_true (Position.mirrored_neg hpos)
    have htwice : e.mirrored.mirrored = e.explicit := by
      rw [mirrored_mirrored, Position.mirrored_mirrored (by omega)]
      rfl
    exact .inr (.inr ⟨Position.fromEnd_eq_false hpos, himage, htwice⟩)

/-- What the parts of an edit have in common: they have nothing to do at position
    `0`, do not ask how the side is given, and fail at the position of the edit. -/
structure IsAct {α : Type} (act : Edit → Word → Edited α) : Prop where
  zero : ∀ (e : Edit) (w : Word), e.place.val = 0 → act e w = .error .zeroIndex
  explicit : ∀ (e : Edit) (w : Word), act e.explicit w = act e w
  about : ∀ (e : Edit) (w : Word) (failure : PositionError),
    act e w = .error failure → failure.IsAbout e.place

section IsAct

variable {α β : Type} {act : Edit → Word → Edited α} {expected : Edit → Word}

theorem isAct_window (hexpected : ∀ e : Edit, expected e.explicit = expected e) :
    IsAct fun e w => e.window w (expected e) where
  zero e w h := if_pos h
  explicit e w := by
    rw [hexpected]
    rfl
  about e w failure h := by
    unfold window at h
    split at h
    · cases h
      trivial
    · split at h
      · cases h
        rfl
      · split at h
        · cases h
        · cases h
        · split at h
          · cases h
          · split at h
            · cases h
            · cases h
              rfl

theorem isAct_check (hexpected : ∀ e : Edit, expected e.explicit = expected e) :
    IsAct fun e w => e.check w (expected e) where
  zero e w h := by
    unfold check
    rw [(isAct_window hexpected).zero e w h]
  explicit e w := by
    rw [hexpected]
    rfl
  about e w failure h := by
    unfold check at h
    cases hwindow : e.window w (expected e) with
    | error failure' =>
      rw [hwindow] at h
      cases h
      exact (isAct_window hexpected).about e w failure hwindow
    | ok window =>
      simp only [hwindow] at h
      split at h
      · cases h
      · cases h
        rfl

/-- What is made of a result cannot fail. -/
theorem IsAct.finish (hact : IsAct act) (result : Edit → Word → α → β)
    (hresult : ∀ e : Edit, result e.explicit = result e) :
    IsAct fun e w => do
      let found ← act e w
      return result e w found where
  zero e w h := by
    rw [hact.zero e w h]
    rfl
  explicit e w := by
    rw [hact.explicit, hresult]
  about e w failure h := by
    cases hfound : act e w with
    | error failure' =>
      rw [hfound] at h
      cases h
      exact hact.about e w failure hfound
    | ok found =>
      rw [hfound] at h
      cases h

end IsAct

section Mirrored

variable {act : Edit → Word → Edited Word} (hact : IsAct act) (e : Edit) (w : Word)
include hact

theorem solve_mirrored :
    e.solve w act = solveReversed e.place w fun w' => e.mirrored.solve w' act := by
  unfold solve
  rcases e.mirror_cases with ⟨h, himage⟩ | ⟨h, himage, hzero, hzero'⟩ | ⟨h, himage, htwice⟩
  · simp only [h, himage, if_true, Bool.false_eq_true, if_false]
  · simp only [h, himage, Bool.false_eq_true, if_false]
    rw [hact.zero e w hzero, solveReversed_of_error (hact.zero e.mirrored w.reverse hzero')]
    rfl
  · simp only [h, himage, if_true, Bool.false_eq_true, if_false]
    rw [htwice, solveReversed_solveReversed]
    · exact (hact.explicit e w).symm
    · exact hact.about e.explicit w

/-- A lenient edit gives back the reversed word in the mirror. -/
theorem attempt_mirrored :
    e.attempt w act = solveReversed e.place w fun w' => e.mirrored.attempt w' act := by
  have hstrict : e.mirrored.strict = e.strict := rfl
  unfold attempt
  rw [solve_mirrored hact]
  unfold solveReversed
  simp only [hstrict]
  cases e.mirrored.solve w.reverse act with
  | ok result => rfl
  | error failure =>
    cases failure with
    | zeroIndex => rfl
    | outOfRange place units => cases e.strict <;> simp [PositionError.unmirrored]
    | mismatch expected found place => cases e.strict <;> simp [PositionError.unmirrored]

end Mirrored

theorem probe_mirrored {test : Edit → Word → Edited Window} (htest : IsAct test) (e : Edit)
    (w : Word) : e.probe w test = e.mirrored.probe w.reverse test := by
  unfold probe
  rcases e.mirror_cases with ⟨h, himage⟩ | ⟨h, himage, hzero, hzero'⟩ | ⟨h, himage, htwice⟩
  · simp only [h, himage, if_true, Bool.false_eq_true, if_false]
  · simp only [h, himage, Bool.false_eq_true, if_false]
    rw [htest.zero e w hzero, htest.zero e.mirrored w.reverse hzero']
  · simp only [h, himage, if_true, Bool.false_eq_true, if_false]
    rw [htwice, htest.explicit, List.reverse_reverse]

section Whole

variable (e : Edit) (w : Word)

theorem insert_mirrored : e.insert w = solveReversed e.place w e.mirrored.insert := by
  have hwindow : IsAct fun e w => e.window w [] := isAct_window fun _ => rfl
  exact attempt_mirrored (hwindow.finish (fun e w window =>
    (Window.mk window.start window.start).replace w e.inserted) fun _ => rfl) e w

theorem isAct_check_removed : IsAct fun e w => e.check w e.removed := isAct_check fun _ => rfl

theorem remove_mirrored : e.remove w = solveReversed e.place w e.mirrored.remove :=
  attempt_mirrored (isAct_check_removed.finish (fun _ w window => window.replace w [])
    fun _ => rfl) e w

theorem replace_mirrored : e.replace w = solveReversed e.place w e.mirrored.replace :=
  attempt_mirrored (isAct_check_removed.finish (fun e w window => window.replace w e.inserted)
    fun _ => rfl) e w

theorem isEmpty_removed_mirrored : e.mirrored.removed.isEmpty = e.removed.isEmpty := by
  simp [mirrored]

theorem isEmpty_inserted_mirrored : e.mirrored.inserted.isEmpty = e.inserted.isEmpty := by
  simp [mirrored]

theorem apply_mirrored : e.apply w = solveReversed e.place w e.mirrored.apply := by
  have hremoved := e.isEmpty_removed_mirrored
  have hinserted := e.isEmpty_inserted_mirrored
  unfold apply
  rw [hremoved, hinserted]
  cases e.removed.isEmpty <;> cases e.inserted.isEmpty
  · exact e.replace_mirrored w
  · exact e.remove_mirrored w
  · exact e.insert_mirrored w
  · exact (congrArg Except.ok (List.reverse_reverse w)).symm

theorem isApplicable_mirrored : e.isApplicable w = e.mirrored.isApplicable w.reverse :=
  probe_mirrored isAct_check_removed e w

theorem isPresent_mirrored : e.isPresent w = e.mirrored.isPresent w.reverse := by
  have htest : IsAct fun e w =>
      e.check w (if e.removed.isEmpty then e.inserted else e.removed) :=
    isAct_check fun _ => rfl
  unfold isPresent
  rw [isEmpty_removed_mirrored, isEmpty_inserted_mirrored, probe_mirrored htest]

end Whole

end Edit

/-! ### Alternative forms -/

namespace Allomorphs

section Congr

variable {a b : Allomorphs} (h : a.flatten = b.flatten) (w : Word) (k : Nat)
include h

/-- Only the forms matter, not how they are nested. -/
theorem formAtGap_congr : a.formAtGap w k = b.formAtGap w k := by
  unfold formAtGap
  rw [forms_eq_flatten, forms_eq_flatten, h]

theorem removeAtGap_congr : a.removeAtGap w k = b.removeAtGap w k := by
  unfold removeAtGap
  rw [formAtGap_congr h]

theorem insertAtGap_congr : a.insertAtGap w k = b.insertAtGap w k := by
  unfold insertAtGap fit
  simp only [forms_eq_flatten, h, formAtGap_congr h]

end Congr

theorem solveAt_mirrored {solve : Allomorphs → Word → Position → Nat → Edited Word}
    (hforms : ∀ a b w p k, a.flatten = b.flatten → solve a w p k = solve b w p k)
    (habout : ∀ a w p k failure, solve a w p k = .error failure → failure.IsAbout p)
    (a : Allomorphs) (w : Word) (p : Position) :
    a.solveAt w p solve = solveReversed p w fun w' => a.reversed.solveAt w' p.mirrored solve := by
  rcases Int.lt_trichotomy p.val 0 with hneg | hzero | hpos
  · rw [solveAt_of_neg hneg]
    have himage (w' : Word) := solveAt_of_pos (Position.mirrored_pos hneg) a.reversed w' solve
    simp only [himage, Position.reach_mirrored hneg]
  · have himage : p.mirrored.val = 0 := by
      rw [Position.val_mirrored (by omega), hzero]
      rfl
    simp only [solveAt, hzero, himage, if_true]
    rfl
  · have hmirrored := Position.mirrored_neg hpos
    have htwice : p.mirrored.mirrored = p := Position.mirrored_mirrored (by omega)
    have hreach : p.mirrored.reach = p.reach := by
      rw [← Position.reach_mirrored hmirrored, htwice]
    have himage (w' : Word) := solveAt_of_neg hmirrored a.reversed w' solve
    simp only [himage, htwice, hreach]
    rw [solveAt_of_pos hpos, solveReversed_solveReversed]
    · exact hforms _ _ w p _ a.flatten_reversed_reversed.symm
    · exact habout _ w p _

section Whole

variable (a : Allomorphs) (w : Word) (p : Position)

theorem insertAt_mirrored :
    a.insertAt w p = solveReversed p w fun w' => a.reversed.insertAt w' p.mirrored := by
  refine solveAt_mirrored (fun a b w p k h => ?_) (fun a w p k failure h => ?_) a w p
  · rw [insertAtGap_congr h]
  · cases hinsert : a.insertAtGap w k with
    | some result =>
      rw [hinsert] at h
      cases h
    | none =>
      rw [hinsert] at h
      cases h
      rfl

theorem removeAt_mirrored :
    a.removeAt w p = solveReversed p w fun w' => a.reversed.removeAt w' p.mirrored := by
  refine solveAt_mirrored (fun a b w p k h => ?_) (fun a w p k failure h => ?_) a w p
  · rw [removeAtGap_congr h]
  · cases h

theorem formAt_mirrored :
    a.formAt w p = solveReversed p w fun w' => a.reversed.formAt w' p.mirrored := by
  refine solveAt_mirrored (fun a b w p k h => ?_) (fun a w p k failure h => ?_) a w p
  · rw [formAtGap_congr h]
  · cases h

end Whole

end Allomorphs

/-- **The mirror image has the mirrored outcome.**  This goes for edits of every kind,
    as a whole and in their parts, and for finding, deleting and inserting one of
    several forms.  The outcome in the mirror is the reversed word, or the failure with
    its texts reversed and with the opposite position. -/
theorem mirror_image_outcome :
    (∀ (e : Edit) (w : Word),
      e.apply w = solveReversed e.place w e.mirrored.apply ∧
      e.insert w = solveReversed e.place w e.mirrored.insert ∧
      e.remove w = solveReversed e.place w e.mirrored.remove ∧
      e.replace w = solveReversed e.place w e.mirrored.replace ∧
      e.isApplicable w = e.mirrored.isApplicable w.reverse ∧
      e.isPresent w = e.mirrored.isPresent w.reverse) ∧
    ∀ (a : Allomorphs) (w : Word) (p : Position),
      a.insertAt w p = solveReversed p w (a.reversed.insertAt · p.mirrored) ∧
      a.removeAt w p = solveReversed p w (a.reversed.removeAt · p.mirrored) ∧
      a.formAt w p = solveReversed p w (a.reversed.formAt · p.mirrored) :=
  ⟨fun e w => ⟨e.apply_mirrored w, e.insert_mirrored w, e.remove_mirrored w,
      e.replace_mirrored w, e.isApplicable_mirrored w, e.isPresent_mirrored w⟩,
    fun a w p => ⟨a.insertAt_mirrored w p, a.removeAt_mirrored w p, a.formAt_mirrored w p⟩⟩

/-! ### Twice in the mirror -/

/-- The most negative position comes back as the one next to it, every other one as
    itself. -/
theorem Position.mirrored_mirrored_eq (p : Position) :
    p.mirrored.mirrored = if p.val = -2147483648 then { val := -2147483647 } else p := by
  by_cases hlowest : p.val = -2147483648
  · have himage : p.mirrored.val = 2147483647 := by rw [mirrored, dif_pos hlowest]
    rw [if_pos hlowest]
    apply ext
    rw [val_mirrored (by omega), himage]
  · rw [if_neg hlowest]
    exact mirrored_mirrored hlowest

/-- Two mirrors do not change the words that an edit makes. -/
theorem Edit.mirrored_mirrored_apply_eq_ok (e : Edit) (w w' : Word) :
    e.mirrored.mirrored.apply w = .ok w' ↔ e.apply w = .ok w' := by
  rw [e.apply_mirrored w, solveReversed_eq_ok, e.mirrored.apply_mirrored w.reverse,
    solveReversed_eq_ok, List.reverse_reverse, List.reverse_reverse]

/-- **In two mirrors an edit is itself with its side named, and the antonym does not see
    the mirror.**  Only the most negative position is moved, to the one next to it.  Even
    there the edit makes the same words as before. -/
theorem Edit.mirrored_twice (e : Edit) :
    e.mirrored.mirrored =
      { e with
        side := some e.effectiveSide
        place := if e.place.val = -2147483648 then { val := -2147483647 } else e.place } ∧
    (∀ w w', e.mirrored.mirrored.apply w = .ok w' ↔ e.apply w = .ok w') ∧
    e.antonym.mirrored = e.mirrored.antonym := by
  refine ⟨?_, e.mirrored_mirrored_apply_eq_ok, rfl⟩
  rw [e.mirrored_mirrored, e.place.mirrored_mirrored_eq]
  rfl

/-- An `a` put in at the most negative position is put in next to it in two mirrors. -/
theorem Edit.mirrored_twice_moves_lowest :
    let e := Edit.insertion ['a'] { val := -2147483648 }
    e.mirrored.mirrored ≠ { e with side := some e.effectiveSide } := by
  decide

end WordFormation
