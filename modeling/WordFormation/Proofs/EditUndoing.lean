/-
  WordFormation/Proofs/EditUndoing.lean
  =====================================
  **The opposite edit takes an edit back.**

  An edit next to a unit changes the length of the word and with it the place of
  every unit behind.  What it leaves alone are the words in front of its text and
  behind it, and for an edit that stands beside its unit these two already say
  where it lands (`Frames`).  They say it without the texts, as long as the texts
  have no units that would be counted.  So the opposite edit finds its text
  between the same two words.

  Behind its unit the text is never counted, and neither is it where letters are:
  what is in front of the addressed letter is in front of the text as well.  In
  front of a unit of another class the text stands between the gap and the unit,
  and must not hold a further one.
-/
import WordFormation.Proofs.EditFailures
import WordFormation.Proofs.Outcome

namespace WordFormation

namespace Edit

/-- Do the units of the two words around the text place it where the edit lands?
    The side decides on which of the two the unit is. -/
def Frames (e : Edit) (front back : Word) : Prop :=
  match e.effectiveSide with
  | .before => e.units front + 1 = e.place.reach ∧
      ∀ x ∈ back.head?, e.alphabet.isUnit e.unit x = true
  | .after => e.units front = e.place.reach ∧
      ∃ x ∈ front.getLast?, e.alphabet.isUnit e.unit x = true
  | .upon => False

/-- A text whose characters do not disturb the count of the units. -/
def Uncounted (e : Edit) (text : Word) : Prop :=
  e.unit = .letters ∨ ∀ x ∈ text, e.alphabet.isUnit e.unit x = false

theorem isUnit_letters {e : Edit} (h : e.unit = .letters) (x : Char) :
    e.alphabet.isUnit e.unit x = true := by
  rw [h]
  rfl

/-! ### The unit beside a gap -/

section Gap

variable {e : Edit} {w front back : Word} {k : Nat}

/-- The unit behind a gap is addressed if as many units are in front. -/
theorem addresses_behind_gap (hpos : 0 < e.place.val) (hside : e.effectiveSide = .before)
    (hw : w = front ++ back) :
    e.Addresses w k front.length ↔
      e.units front + 1 = k ∧ ∀ x ∈ back.head?, e.alphabet.isUnit e.unit x = true := by
  unfold Addresses
  rw [if_pos hpos]
  constructor
  · rintro (⟨front', x, back', hw', hx, hk, hu⟩ | ⟨hk, -, hu⟩)
    · obtain ⟨rfl, rfl⟩ := List.append_inj (hw.symm.trans hw') (by omega)
      refine ⟨hk, ?_⟩
      rintro y hy
      cases hy
      exact hx
    · have hlength := congrArg List.length hw
      rw [List.length_append] at hlength
      obtain rfl : back = [] := List.eq_nil_of_length_eq_zero (by omega)
      rw [List.append_nil] at hw
      subst hw
      exact ⟨hk.symm, by simp⟩
  · rintro ⟨hk, hhead⟩
    cases back with
    | nil =>
      rw [List.append_nil] at hw
      subst hw
      exact .inr ⟨hk.symm, hside, rfl⟩
    | cons x back => exact .inl ⟨front, x, back, hw, hhead x rfl, hk, rfl⟩

/-- The unit in front of a gap is addressed if as many units are in front, itself
    included. -/
theorem addresses_before_gap (hpos : 0 < e.place.val) (hside : e.effectiveSide = .after)
    (hw : w = front ++ back) :
    e.Addresses w k (front.length - 1) ↔
      e.units front = k ∧ ∃ x ∈ front.getLast?, e.alphabet.isUnit e.unit x = true := by
  unfold Addresses
  rw [if_pos hpos]
  constructor
  · rintro (⟨front', x, back', hw', hx, hk, hu⟩ | ⟨-, hbefore, -⟩)
    · have hcut : front ++ back = (front' ++ [x]) ++ back' := by
        rw [← hw, hw', List.append_assoc]
        rfl
      have hlength : front.length = (front' ++ [x]).length := by
        rw [List.length_append, List.length_singleton]
        omega
      obtain ⟨rfl, -⟩ := List.append_inj hcut hlength
      have hunits : e.units (front' ++ [x]) = e.units front' + 1 := by
        simp [units, List.countP_append, hx]
      exact ⟨by rw [hunits, hk], x, by simp, hx⟩
    · rw [hside] at hbefore
      cases hbefore
  · rintro ⟨hk, x, hlast, hx⟩
    obtain ⟨front', rfl⟩ := List.getLast?_eq_some_iff.mp hlast
    have hunits : e.units (front' ++ [x]) = e.units front' + 1 := by
      simp [units, List.countP_append, hx]
    refine .inl ⟨front', x, back, ?_, hx, by rw [← hunits, hk], ?_⟩
    · rw [hw, List.append_assoc]
      rfl
    · rw [List.length_append, List.length_singleton]
      omega

end Gap

/-! ### An edit between two words -/

theorem Uncounted.units_append {e : Edit} {text : Word} (h : e.Uncounted text)
    (hclass : e.unit ≠ .letters) (front : Word) : e.units (front ++ text) = e.units front := by
  have htext : text.countP (e.alphabet.isUnit e.unit) = 0 := by
    rw [List.countP_eq_zero]
    intro x hx
    rw [h.resolve_left hclass x hx]
    decide
  rw [units, List.countP_append, htext]
  rfl

section Frames

variable {e : Edit} {w front back : Word} (hpos : 0 < e.place.val)
  (hw : w = front ++ e.removed ++ back)
include hpos hw

theorem frames_iff_after (hside : e.effectiveSide = .after) :
    e.Frames front back ↔
      ∃ u, e.Addresses w e.place.reach u ∧ e.windowStart u = front.length := by
  have hgap := addresses_before_gap (k := e.place.reach) hpos hside
    (hw.trans (List.append_assoc _ _ _))
  simp only [Frames, windowStart, hpos, if_true, hside]
  constructor
  · intro h
    exact ⟨_, hgap.mpr h, by omega⟩
  · rintro ⟨u, hu, hstart⟩
    obtain rfl : u = front.length - 1 := by omega
    exact hgap.mp hu

/-- In front of a letter the text stands behind the gap. -/
theorem frames_iff_letters (hside : e.effectiveSide = .before) (hletters : e.unit = .letters) :
    e.Frames front back ↔
      ∃ u, e.Addresses w e.place.reach u ∧ e.windowStart u = front.length := by
  have hgap := addresses_behind_gap (k := e.place.reach) hpos hside
    (hw.trans (List.append_assoc _ _ _))
  have hall : ∀ text : Word, ∀ x ∈ text.head?, e.alphabet.isUnit e.unit x = true := by
    intro text x _
    exact isUnit_letters hletters x
  have hframes : e.Frames front back ↔ e.units front + 1 = e.place.reach := by
    simp only [Frames, hside]
    exact and_iff_left (hall back)
  have hstart : ∀ u, e.windowStart u = u := by
    intro u
    simp only [windowStart, hpos, if_true, hside, hletters]
  rw [hframes]
  constructor
  · intro hk
    exact ⟨_, hgap.mpr ⟨hk, hall _⟩, hstart _⟩
  · rintro ⟨u, hu, hlength⟩
    rw [hstart] at hlength
    subst hlength
    exact (hgap.mp hu).1

/-- In front of a unit of a class the text stands between the gap and the unit. -/
theorem frames_iff_class (hside : e.effectiveSide = .before) (hclass : e.unit ≠ .letters)
    (huncounted : e.Uncounted e.removed) :
    e.Frames front back ↔
      ∃ u, e.Addresses w e.place.reach u ∧ e.windowStart u = front.length := by
  have hgap := addresses_behind_gap (k := e.place.reach) hpos hside hw
  rw [huncounted.units_append hclass, List.length_append] at hgap
  simp only [Frames, windowStart, hpos, if_true, hside, hclass, if_false]
  constructor
  · intro h
    exact ⟨_, hgap.mpr h, by omega⟩
  · rintro ⟨u, hu, hstart⟩
    obtain rfl : u = (front.length + e.removed.length : Nat) := by omega
    exact hgap.mp hu

end Frames

/-- The two words around the window say whether its unit is the one addressed. -/
theorem frames_iff {e : Edit} (hpos : 0 < e.place.val) (hside : e.effectiveSide ≠ .upon)
    (huncounted : e.Uncounted e.removed) {w front back : Word}
    (hw : w = front ++ e.removed ++ back) :
    e.Frames front back ↔
      ∃ u, e.Addresses w e.place.reach u ∧ e.windowStart u = front.length := by
  cases hkind : e.effectiveSide with
  | upon => exact absurd hkind hside
  | after => exact frames_iff_after hpos hw hkind
  | before =>
    by_cases hletters : e.unit = .letters
    · exact frames_iff_letters hpos hw hkind hletters
    · exact frames_iff_class hpos hw hkind hletters huncounted

/-- An edit that stands beside its unit puts the one text in place of the other,
    between two words that its position frames. -/
theorem carry_eq_ok_iff_frames {e : Edit} (hpos : 0 < e.place.val)
    (hside : e.effectiveSide ≠ .upon) (huncounted : e.Uncounted e.removed) {w w' : Word} :
    e.carry w = .ok w' ↔ ∃ front back, e.Frames front back ∧
      w = front ++ e.removed ++ back ∧ w' = front ++ e.inserted ++ back := by
  rw [carry_eq_ok_iff hpos]
  constructor
  · rintro ⟨u, front, back, hu, ⟨hw, hstart⟩, hw'⟩
    exact ⟨front, back, (frames_iff hpos hside huncounted hw).mpr ⟨u, hu, hstart.symm⟩, hw, hw'⟩
  · rintro ⟨front, back, hframes, hw, hw'⟩
    obtain ⟨u, hu, hstart⟩ := (frames_iff hpos hside huncounted hw).mp hframes
    exact ⟨u, front, back, hu, ⟨hw, hstart.symm⟩, hw'⟩

/-! ### The opposite edit -/

/-- The two words are the same for the opposite edit, whose texts have changed
    places. -/
theorem carry_antonym {e : Edit} (hpos : 0 < e.place.val) (hside : e.effectiveSide ≠ .upon)
    (hremoved : e.Uncounted e.removed) (hinserted : e.Uncounted e.inserted) {w w' : Word} :
    e.carry w = .ok w' ↔ e.antonym.carry w' = .ok w := by
  rw [carry_eq_ok_iff_frames hpos hside hremoved,
    carry_eq_ok_iff_frames (e := e.antonym) hpos hside hinserted]
  constructor
  · rintro ⟨front, back, hframes, hw, hw'⟩
    exact ⟨front, back, hframes, hw', hw⟩
  · rintro ⟨front, back, hframes, hw', hw⟩
    exact ⟨front, back, hframes, hw, hw'⟩

theorem Uncounted.mirrored {e : Edit} {text : Word} (h : e.Uncounted text) :
    e.mirrored.Uncounted text.reverse := by
  rcases h with hletters | htext
  · exact .inl hletters
  · exact .inr fun x hx => htext x (List.mem_reverse.mp hx)

/-- From whichever end it counts, an edit and its opposite take a word to and fro. -/
theorem solve_antonym {e : Edit} (hplace : e.place.val ≠ 0) (hside : e.effectiveSide ≠ .upon)
    (hremoved : e.Uncounted e.removed) (hinserted : e.Uncounted e.inserted) {w w' : Word} :
    e.solve w carry = .ok w' ↔ e.antonym.solve w' carry = .ok w := by
  rcases Int.lt_or_gt_of_ne hplace with hneg | hpos
  · have hmirrored : e.mirrored.effectiveSide ≠ .upon := by
      show e.effectiveSide.flipped ≠ .upon
      cases hkind : e.effectiveSide with
      | upon => exact absurd hkind hside
      | before => decide
      | after => decide
    have hfromEnd : e.antonym.place.fromEnd = true := Position.fromEnd_eq_true hneg
    rw [solve, solve, Position.fromEnd_eq_true hneg, hfromEnd, if_pos rfl, if_pos rfl,
      solveReversed_eq_ok, solveReversed_eq_ok]
    exact carry_antonym (e := e.mirrored) (Position.mirrored_pos hneg) hmirrored
      hremoved.mirrored hinserted.mirrored
  · have hfromEnd : e.antonym.place.fromEnd = false := Position.fromEnd_eq_false hpos
    simp only [solve, Position.fromEnd_eq_false hpos, hfromEnd, Bool.false_eq_true, if_false]
    exact carry_antonym hpos hside hremoved hinserted

theorem apply_of_solve {e : Edit} (htexts : e.removed ≠ [] ∨ e.inserted ≠ []) {w w' : Word}
    (h : e.solve w carry = .ok w') : e.apply w = .ok w' := by
  rw [apply_eq_attempt htexts, attempt, h]

/-- **The opposite edit takes an edit back.**  An edit with a text to remove or one to
    insert, which stands beside its unit and does not change the count of the units,
    can be carried out on every word that it is applicable to, and its opposite then
    gives the word back. -/
theorem antonym_apply_of_isApplicable {e : Edit} (hplace : e.place.val ≠ 0)
    (htexts : e.removed ≠ [] ∨ e.inserted ≠ []) (hside : e.effectiveSide ≠ .upon)
    (hremoved : e.Uncounted e.removed) (hinserted : e.Uncounted e.inserted) {w : Word}
    (happlicable : e.isApplicable w = true) :
    ∃ w', e.apply w = .ok w' ∧ e.antonym.apply w' = .ok w := by
  rw [isApplicable_eq] at happlicable
  obtain ⟨w', hsolve⟩ := exists_of_isOk happlicable
  refine ⟨w', apply_of_solve htexts hsolve, apply_of_solve (e := e.antonym) htexts.symm ?_⟩
  exact (solve_antonym hplace hside hremoved hinserted).mp hsolve

/-- In front of the last vowel of `kabto`, `bt` becomes `zzz` and then `bt` again. -/
theorem antonym_apply_in_front_of_vowel_from_end :
    let e : Edit :=
      { removed := ['b', 't'], inserted := ['z', 'z', 'z'], place := Position.final,
        unit := .vowels, side := some .before, strict := false }
    e.place.val ≠ 0 ∧ (e.removed ≠ [] ∨ e.inserted ≠ []) ∧ e.effectiveSide ≠ .upon ∧
      e.Uncounted e.removed ∧ e.Uncounted e.inserted ∧
      e.isApplicable ['k', 'a', 'b', 't', 'o'] = true ∧
      e.apply ['k', 'a', 'b', 't', 'o'] = .ok ['k', 'a', 'z', 'z', 'z', 'o'] ∧
      e.antonym.apply ['k', 'a', 'z', 'z', 'z', 'o'] = .ok ['k', 'a', 'b', 't', 'o'] := by
  intro e
  have hplace : e.place.val ≠ 0 := by decide
  have htexts : e.removed ≠ [] ∨ e.inserted ≠ [] := .inl (by decide)
  have hside : e.effectiveSide ≠ .upon := by decide
  have hz : e.alphabet.isUnit e.unit 'z' = false := rfl
  have hremoved : e.Uncounted e.removed :=
    .inr (List.forall_mem_cons.mpr ⟨rfl, List.forall_mem_singleton.mpr rfl⟩)
  have hinserted : e.Uncounted e.inserted := by
    refine .inr fun x hx => ?_
    rw [List.eq_of_mem_replicate (n := 3) hx]
    exact hz
  have happlicable : e.isApplicable ['k', 'a', 'b', 't', 'o'] = true := by decide
  obtain ⟨w', happly, hantonym⟩ :=
    antonym_apply_of_isApplicable hplace htexts hside hremoved hinserted happlicable
  have hcomputed : e.apply ['k', 'a', 'b', 't', 'o'] = .ok ['k', 'a', 'z', 'z', 'z', 'o'] := by rfl
  obtain rfl : ['k', 'a', 'z', 'z', 'z', 'o'] = w' := Except.ok.inj (hcomputed.symm.trans happly)
  exact ⟨hplace, htexts, hside, hremoved, hinserted, happlicable, happly, hantonym⟩

end Edit

end WordFormation
