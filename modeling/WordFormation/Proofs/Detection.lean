/-
  WordFormation/Proofs/Detection.lean
  ===================================
  **Which form is found at a position, whichever end it counts from.**

  A position names a gap of the word.  Counted from the start, a form stands there
  if it begins what is behind the gap; counted from the end, if it ends what is in
  front.  Both are a word taken apart into the form and what is on either side of
  it, with a length given on one of the sides (`IsSplitAt`).

  Of the forms that stand at the position the longest is found, and deleting it
  leaves the two sides (`Detected`).  There is at most one such form however often
  it is written, since forms of one length that stand in one place are equal.  So
  what is found does not depend on the order or the nesting of a set, but only on
  its members (`Detected.unique`).
-/
import WordFormation.Proofs.Presence
import WordFormation.Proofs.Mirroring

namespace WordFormation

/-! ### Forms at a position -/

/-- A word taken apart at a position that counts to its `k`-th gap: behind the gap,
    or in front of it where the position counts from the end, is the text. -/
def IsSplitAt (p : Position) (k : Nat) (w front text back : Word) : Prop :=
  w = front ++ text ++ back ∧
    (if 0 < p.val then front.length + 1 = k else back.length + 1 = k)

def StandsAt (p : Position) (k : Nat) (w text : Word) : Prop :=
  ∃ front back, IsSplitAt p k w front text back

/-- `found` is the longest form of the set that stands at the position, and `rest`
    is the word without it.  Where no form stands, nothing is found. -/
inductive Allomorphs.Detected (a : Allomorphs) (p : Position) (k : Nat) (w : Word) :
    (found rest : Word) → Prop where
  | form {found front back : Word} (mem : found ∈ a.forms)
      (split : IsSplitAt p k w front found back)
      (longest : ∀ f ∈ a.forms, StandsAt p k w f → f.length ≤ found.length) :
      a.Detected p k w found (front ++ back)
  | nothing (none_stands : ∀ f ∈ a.forms, ¬ StandsAt p k w f) : a.Detected p k w [] w

theorem IsSplitAt.eq_of_length {p : Position} {k : Nat} {w front text back front' text' back' : Word}
    (h : IsSplitAt p k w front text back) (h' : IsSplitAt p k w front' text' back')
    (hlength : text.length = text'.length) : text = text' ∧ front ++ back = front' ++ back' := by
  obtain ⟨hw, hcount⟩ := h
  obtain ⟨hw', hcount'⟩ := h'
  have htotal := congrArg List.length (hw.symm.trans hw')
  simp only [List.length_append] at htotal
  have hfront : front.length = front'.length := by
    by_cases hpos : 0 < p.val
    · rw [if_pos hpos] at hcount hcount'
      omega
    · rw [if_neg hpos] at hcount hcount'
      omega
  obtain ⟨hboth, rfl⟩ := List.append_inj (hw.symm.trans hw')
    (by rw [List.length_append, List.length_append, hfront, hlength])
  obtain ⟨rfl, rfl⟩ := List.append_inj hboth hfront
  exact ⟨rfl, rfl⟩

/-- No text stands at a gap that the word does not have. -/
theorem StandsAt.le_length {p : Position} {k : Nat} {w text : Word} (h : StandsAt p k w text) :
    k ≤ w.length + 1 := by
  obtain ⟨front, back, rfl, hcount⟩ := h
  simp only [List.length_append]
  split at hcount <;> omega

namespace Allomorphs

/-- What is found and what is left are determined by the members of the set. -/
theorem Detected.unique {a b : Allomorphs} (hforms : ∀ f, f ∈ a.forms ↔ f ∈ b.forms)
    {p : Position} {k : Nat} {w found rest found' rest' : Word}
    (h : a.Detected p k w found rest) (h' : b.Detected p k w found' rest') :
    found = found' ∧ rest = rest' := by
  rcases h with ⟨hmem, hsplit, hlongest⟩ | hnone
  · rcases h' with ⟨hmem', hsplit', hlongest'⟩ | hnone'
    · have hle := hlongest' _ ((hforms _).mp hmem) ⟨_, _, hsplit⟩
      have hge := hlongest _ ((hforms _).mpr hmem') ⟨_, _, hsplit'⟩
      exact hsplit.eq_of_length hsplit' (Nat.le_antisymm hle hge)
    · exact absurd ⟨_, _, hsplit⟩ (hnone' _ ((hforms _).mp hmem))
  · rcases h' with ⟨hmem', hsplit', -⟩ | -
    · exact absurd ⟨_, _, hsplit'⟩ (hnone _ ((hforms _).mpr hmem'))
    · exact ⟨rfl, rfl⟩

/-- Nothing is found at a gap that the word does not have. -/
theorem Detected.eq_nothing {a : Allomorphs} {p : Position} {k : Nat} {w found rest : Word}
    (h : a.Detected p k w found rest) (hk : w.length + 1 < k) : found = [] ∧ rest = w := by
  rcases h with ⟨-, hsplit, -⟩ | -
  · have := StandsAt.le_length ⟨_, _, hsplit⟩
    omega
  · exact ⟨rfl, rfl⟩

/-- Gaps that the word does not have are all alike. -/
theorem Detected.of_length_lt {a : Allomorphs} {p : Position} {k k' : Nat} {w found rest : Word}
    (hk : w.length + 1 < k) (hk' : w.length + 1 < k') (h : a.Detected p k w found rest) :
    a.Detected p k' w found rest := by
  obtain ⟨rfl, rfl⟩ := h.eq_nothing hk
  refine .nothing fun f _ hstands => ?_
  have := hstands.le_length
  omega

/-! ### Positions that count from the start -/

theorem standsAt_iff_begins {p : Position} (hpos : 0 < p.val) {k : Nat} {w text : Word} :
    StandsAt p (k + 1) w text ↔ k ≤ w.length ∧ text <+: w.drop k := by
  unfold StandsAt IsSplitAt
  simp only [hpos, if_true]
  constructor
  · rintro ⟨front, back, rfl, hcount⟩
    obtain rfl : front.length = k := by omega
    simp
  · rintro ⟨hk, back, hback⟩
    refine ⟨w.take k, back, ?_, by rw [List.length_take]; omega⟩
    rw [List.append_assoc, hback, List.take_append_drop]

section FormAtGap

variable (a : Allomorphs) {p : Position} (hpos : 0 < p.val) {k : Nat} {w : Word}
include hpos

/-- What is found at a gap stands there, with what is in front of the gap and behind
    the form on its sides. -/
theorem isSplitAt_formAtGap (hk : k ≤ w.length) :
    IsSplitAt p (k + 1) w (w.take k) (a.formAtGap w k) (w.drop (k + (a.formAtGap w k).length)) := by
  obtain ⟨back, hback⟩ := a.formAtGap_prefix (w := w) (k := k)
  have hdrop : w.drop (k + (a.formAtGap w k).length) = back := by
    rw [← List.drop_drop, ← hback, List.drop_left]
  refine ⟨?_, ?_⟩
  · rw [hdrop, List.append_assoc, hback, List.take_append_drop]
  · rw [if_pos hpos, List.length_take]
    omega

theorem length_le_of_standsAt {f : Word} (hf : f ∈ a.forms) (hstands : StandsAt p (k + 1) w f) :
    f.length ≤ (a.formAtGap w k).length := by
  obtain ⟨hk, hbegins⟩ := (standsAt_iff_begins hpos).mp hstands
  rw [forms_eq_flatten] at hf
  exact a.length_le_formAtGap hk hf hbegins

/-- Where a form stands, even if it is the empty one, what is found is a form. -/
theorem formAtGap_mem_of_standsAt {f : Word} (hf : f ∈ a.forms)
    (hstands : StandsAt p (k + 1) w f) : a.formAtGap w k ∈ a.forms := by
  by_cases hfound : a.formAtGap w k = []
  · have hlength := a.length_le_of_standsAt hpos hf hstands
    rw [hfound] at hlength ⊢
    obtain rfl := List.eq_nil_of_length_eq_zero (Nat.le_zero.mp hlength)
    exact hf
  · rw [forms_eq_flatten]
    exact a.formAtGap_mem hfound

theorem formAtGap_of_none_stands (hnone : ∀ f ∈ a.forms, ¬ StandsAt p (k + 1) w f) :
    a.formAtGap w k = [] := by
  refine Decidable.byContradiction fun hfound => ?_
  have hk : k ≤ w.length := Nat.not_lt.mp fun hk => hfound (a.formAtGap_of_length_lt hk)
  have hmem := a.formAtGap_mem hfound
  rw [← forms_eq_flatten] at hmem
  exact hnone _ hmem ((standsAt_iff_begins hpos).mpr ⟨hk, a.formAtGap_prefix⟩)

theorem detected_formAtGap : a.Detected p (k + 1) w (a.formAtGap w k) (a.removeAtGap w k) := by
  rw [removeAtGap_eq]
  by_cases hstands : ∃ f ∈ a.forms, StandsAt p (k + 1) w f
  · obtain ⟨f, hf, hstands⟩ := hstands
    obtain ⟨hk, -⟩ := (standsAt_iff_begins hpos).mp hstands
    exact .form (a.formAtGap_mem_of_standsAt hpos hf hstands) (a.isSplitAt_formAtGap hpos hk)
      fun g hg hstands' => a.length_le_of_standsAt hpos hg hstands'
  · have hnone : ∀ f ∈ a.forms, ¬ StandsAt p (k + 1) w f := fun f hf h => hstands ⟨f, hf, h⟩
    rw [a.formAtGap_of_none_stands hpos hnone, List.length_nil, Nat.add_zero k,
      List.take_append_drop]
    exact .nothing hnone

end FormAtGap

/-! ### Positions that count from the end -/

theorem isSplitAt_mirrored {p : Position} (hneg : p.val < 0) {k : Nat}
    {w front text back : Word} :
    IsSplitAt p.mirrored k w.reverse front text back ↔
      IsSplitAt p k w back.reverse text.reverse front.reverse := by
  have hnotpos : ¬ 0 < p.val := by omega
  unfold IsSplitAt
  rw [if_pos (Position.mirrored_pos hneg), if_neg hnotpos, reverse_eq_append,
    List.length_reverse]

theorem standsAt_mirrored {p : Position} (hneg : p.val < 0) {k : Nat} {w text : Word} :
    StandsAt p.mirrored k w.reverse text.reverse ↔ StandsAt p k w text := by
  constructor
  · rintro ⟨front, back, hsplit⟩
    have himage := (isSplitAt_mirrored hneg).mp hsplit
    rw [List.reverse_reverse] at himage
    exact ⟨_, _, himage⟩
  · rintro ⟨front, back, hsplit⟩
    refine ⟨back.reverse, front.reverse, (isSplitAt_mirrored hneg).mpr ?_⟩
    simpa using hsplit

theorem mem_forms_reversed {a : Allomorphs} {f : Word} :
    f ∈ a.reversed.forms ↔ f.reverse ∈ a.forms := by
  rw [forms_eq_flatten, forms_eq_flatten, flatten_reversed, List.mem_map]
  constructor
  · rintro ⟨g, hg, rfl⟩
    rw [List.reverse_reverse]
    exact hg
  · intro hf
    exact ⟨_, hf, List.reverse_reverse f⟩

/-- What is found in the reversed word is, read backwards, what is found in the
    word. -/
theorem Detected.of_mirrored {a : Allomorphs} {p : Position} (hneg : p.val < 0) {k : Nat}
    {w found rest : Word} (h : a.reversed.Detected p.mirrored k w.reverse found rest) :
    a.Detected p k w found.reverse rest.reverse := by
  rcases h with ⟨hmem, hsplit, hlongest⟩ | hnone
  · rw [List.reverse_append]
    refine .form (mem_forms_reversed.mp hmem) ((isSplitAt_mirrored hneg).mp hsplit) ?_
    intro f hf hstands
    have hf' : f.reverse ∈ a.reversed.forms := by
      rw [mem_forms_reversed, List.reverse_reverse]
      exact hf
    have hle := hlongest _ hf' ((standsAt_mirrored hneg).mpr hstands)
    rw [List.length_reverse] at hle ⊢
    exact hle
  · rw [List.reverse_reverse]
    refine .nothing fun f hf hstands => ?_
    have hf' : f.reverse ∈ a.reversed.forms := by
      rw [mem_forms_reversed, List.reverse_reverse]
      exact hf
    exact hnone _ hf' ((standsAt_mirrored hneg).mpr hstands)

/-! ### All positions -/

/-- The three questions that can be asked of a set at a position are about the one
    form found there. -/
structure FindsAt (a : Allomorphs) (w : Word) (p : Position) (found rest : Word) : Prop where
  formAt_eq : a.formAt w p = .ok found
  isAt_eq : a.isAt w p = .ok (!found.isEmpty)
  removeAt_eq : a.removeAt w p = .ok rest

theorem findsAt_of_ok {a : Allomorphs} {w : Word} {p : Position} {found rest : Word}
    (hform : a.formAt w p = .ok found) (hrest : a.removeAt w p = .ok rest) :
    a.FindsAt w p found rest := by
  refine ⟨hform, ?_, hrest⟩
  rw [isAt, hform]
  rfl

theorem exists_findsAt (a : Allomorphs) {p : Position} (hplace : p.val ≠ 0) (w : Word) :
    ∃ found rest, a.FindsAt w p found rest ∧ a.Detected p p.reach w found rest := by
  obtain ⟨k, hreach⟩ : ∃ k, p.reach = k + 1 :=
    Nat.exists_eq_succ_of_ne_zero (Nat.ne_of_gt (Position.reach_pos hplace))
  have hgap : p.reach - 1 = k := by omega
  rcases Int.lt_or_gt_of_ne hplace with hneg | hpos
  · refine ⟨(a.reversed.formAtGap w.reverse k).reverse, (a.reversed.removeAtGap w.reverse k).reverse,
      findsAt_of_ok ?_ ?_, ?_⟩
    · rw [formAt, solveAt_of_neg hneg, hgap]
      rfl
    · rw [removeAt, solveAt_of_neg hneg, hgap]
      rfl
    · rw [hreach]
      exact (a.reversed.detected_formAtGap (Position.mirrored_pos hneg)).of_mirrored hneg
  · refine ⟨a.formAtGap w k, a.removeAtGap w k, findsAt_of_ok ?_ ?_, ?_⟩
    · rw [formAt, solveAt_of_pos hpos, hgap]
    · rw [removeAt, solveAt_of_pos hpos, hgap]
    · rw [hreach]
      exact a.detected_formAtGap hpos

/-- Sets with the same members give the same answers. -/
structure AnswersAlike (a b : Allomorphs) (w : Word) : Prop where
  formAt_eq : ∀ p, a.formAt w p = b.formAt w p
  isAt_eq : ∀ p, a.isAt w p = b.isAt w p
  removeAt_eq : ∀ p, a.removeAt w p = b.removeAt w p
  holds_eq : ∀ negated edge,
    (EdgeTest.mk negated edge a).holds w = (EdgeTest.mk negated edge b).holds w

theorem answersAlike {a b : Allomorphs} (hforms : ∀ f, f ∈ a.forms ↔ f ∈ b.forms) (w : Word) :
    a.AnswersAlike b w := by
  have hboth : ∀ p, a.formAt w p = b.formAt w p ∧ a.removeAt w p = b.removeAt w p := by
    intro p
    by_cases hplace : p.val = 0
    · simp only [formAt, removeAt, solveAt, hplace, if_true, and_self]
    · obtain ⟨found, rest, hfinds, hdetected⟩ := a.exists_findsAt hplace w
      obtain ⟨found', rest', hfinds', hdetected'⟩ := b.exists_findsAt hplace w
      obtain ⟨rfl, rfl⟩ := hdetected.unique hforms hdetected'
      exact ⟨hfinds.formAt_eq.trans hfinds'.formAt_eq.symm,
        hfinds.removeAt_eq.trans hfinds'.removeAt_eq.symm⟩
  have hisAt : ∀ p, a.isAt w p = b.isAt w p := fun p => by rw [isAt, isAt, (hboth p).1]
  refine ⟨fun p => (hboth p).1, hisAt, fun p => (hboth p).2, fun negated edge => ?_⟩
  simp only [EdgeTest.holds, hisAt]

/-- **The longest form that stands at a position is found there.**  It stands behind
    the gap, or in front of it where the position counts from the end, and deleting
    it deletes this occurrence.  The answers depend on the members of the set only. -/
theorem detected_from_either_end (a : Allomorphs) (w : Word) :
    (∀ p : Position, p.val ≠ 0 → ∃ found rest, a.FindsAt w p found rest ∧
      a.Detected p p.reach w found rest ∧
      (p.val ≠ -2147483648 ∨ w.length + 1 < 2147483647 →
        a.Detected p p.val.natAbs w found rest)) ∧
    ∀ b : Allomorphs, (∀ f, f ∈ a.forms ↔ f ∈ b.forms) → a.AnswersAlike b w := by
  refine ⟨fun p hplace => ?_, fun b hforms => answersAlike hforms w⟩
  obtain ⟨found, rest, hfinds, hdetected⟩ := a.exists_findsAt hplace w
  refine ⟨found, rest, hfinds, hdetected, fun hcounts => ?_⟩
  exact Position.of_reach (P := fun k => a.Detected p k w found rest) hcounts
    (fun _ _ hk hk' h => h.of_length_lt hk hk') hdetected

/-- In front of the last three letters of `gemachtest` stand `cht` and `macht`. -/
theorem detected_in_front_of_ending :
    let w := ['g', 'e', 'm', 'a', 'c', 'h', 't', 'e', 's', 't']
    let p : Position := { val := -4 }
    let cht := ['c', 'h', 't']
    let macht := ['m', 'a', 'c', 'h', 't']
    let a := ofForms [cht, macht, ['e', 's', 't']]
    let b := nested (ofForms [['e', 's', 't'], macht]) (ofForms [cht, cht])
    p.val ≠ 0 ∧ (∀ f, f ∈ a.forms ↔ f ∈ b.forms) ∧
      a.Detected p p.val.natAbs w macht ['g', 'e', 'e', 's', 't'] ∧
      b.removeAt w p = .ok ['g', 'e', 'e', 's', 't'] := by
  intro w p cht macht a b
  have hplace : p.val ≠ 0 := by decide
  have hcounts : p.val ≠ -2147483648 ∨ w.length + 1 < 2147483647 := .inl (by decide)
  have hforms : ∀ f, f ∈ a.forms ↔ f ∈ b.forms := by
    intro f
    rw [forms_eq_flatten, forms_eq_flatten]
    simp only [a, b, ofForms, flatten, List.cons_append, List.nil_append, List.mem_cons,
      List.not_mem_nil, or_false]
    grind
  obtain ⟨hfound, halike⟩ := detected_from_either_end a w
  obtain ⟨found, rest, hfinds, -, hdetected⟩ := hfound p hplace
  have hform : found = macht := (Except.ok.inj hfinds.formAt_eq).symm
  have hrest : rest = ['g', 'e', 'e', 's', 't'] := (Except.ok.inj hfinds.removeAt_eq).symm
  rw [hform, hrest] at hdetected
  rw [hrest] at hfinds
  exact ⟨hplace, hforms, hdetected hcounts,
    ((halike b hforms).removeAt_eq p).symm.trans hfinds.removeAt_eq⟩

/-- The most negative position finds the `a` that begins a word of 2147483647 letters.  This
    `a` stands in front of the last 2147483646 of them, and nothing can stand in front of one
    more. -/
theorem formAt_lowest :
    let w : Word := List.replicate 2147483647 'a'
    let p := Position.lowest
    let a := only ['a']
    a.formAt w p = .ok ['a'] ∧ ¬ StandsAt p p.val.natAbs w ['a'] ∧
      ∀ found rest, a.FindsAt w p found rest → ¬ a.Detected p p.val.natAbs w found rest := by
  intro w p a
  have hlength : w.length = 2147483647 := List.length_replicate
  have hneg : ¬ 0 < p.val := by decide
  have hforms : ∀ f ∈ a.forms, f = ['a'] := fun f hf => List.mem_singleton.mp hf
  have hsplit : IsSplitAt p p.reach w [] ['a'] (List.replicate 2147483646 'a') :=
    ⟨rfl, by rw [if_neg hneg, List.length_replicate, Position.reach_lowest]⟩
  have hform : a.Detected p p.reach w ['a'] (List.replicate 2147483646 'a') :=
    .form (List.mem_singleton_self ['a']) hsplit fun f hf _ => by rw [hforms f hf]
  obtain ⟨found, rest, hfinds, hdetected⟩ := a.exists_findsAt (p := p) (by decide) w
  obtain ⟨rfl, rfl⟩ := hdetected.unique (fun _ => Iff.rfl) hform
  have hnone : ¬ StandsAt p p.val.natAbs w ['a'] := by
    rintro ⟨front, back, hw, hcount⟩
    rw [if_neg hneg, Position.natAbs_lowest] at hcount
    rw [hw, List.length_append, List.length_append, List.length_singleton] at hlength
    omega
  refine ⟨hfinds.formAt_eq, hnone, fun found rest hfinds' hdetected' => ?_⟩
  have hfound : found = ['a'] := Except.ok.inj (hfinds'.formAt_eq.symm.trans hfinds.formAt_eq)
  cases hdetected' with
  | form hmem hsplit' _ =>
    rw [hfound] at hsplit'
    exact hnone ⟨_, _, hsplit'⟩
  | nothing => cases hfound

end Allomorphs

end WordFormation
