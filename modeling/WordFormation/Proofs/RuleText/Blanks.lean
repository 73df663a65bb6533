/-
  WordFormation/Proofs/RuleText/Blanks.lean
  =========================================
  **Texts that differ in blanks are matched in the same way.**

  The grammar allows blanks around separators and at the end of a text.  `Respaced`
  relates texts that differ in nothing but the blanks in such places.  Where one of
  them goes on with blanks, the other goes on with blanks or a separator or is at its
  end (`Respaced.begins`), and no production that does not expect a blank can tell the
  two apart.  Those that do expect blanks read as many as there are
  (`Respaced.behind_blanks`), so that every production gives the same answer on both
  texts (`Blankwise`).

  The text without any blanks is one of the texts that a text is related to.  `Sheds`
  is the relation to it, and an answer on the one text is one on the other.
-/
import Mathlib.Data.List.TakeWhile
import WordFormation.Proofs.RuleText.Likeness

namespace WordFormation.RuleText

open Production Grammar

/-! ### Blanks -/

theorem filter_of_isBlank {s : Word} (h : ∀ c ∈ s, isBlank c = true) :
    (s.filter fun c => !isBlank c) = [] := by
  refine List.filter_eq_nil_iff.mpr fun c hc => ?_
  simp [h c hc]

theorem filter_dropBlanks (s : Word) :
    ((s.dropWhile isBlank).filter fun c => !isBlank c) = s.filter fun c => !isBlank c := by
  have hblank : ∀ c ∈ s.takeWhile isBlank, isBlank c = true :=
    List.all_eq_true.mp List.all_takeWhile
  calc ((s.dropWhile isBlank).filter fun c => !isBlank c)
      = ((s.takeWhile isBlank).filter fun c => !isBlank c) ++
          (s.dropWhile isBlank).filter fun c => !isBlank c := by
        rw [filter_of_isBlank hblank, List.nil_append]
    _ = s.filter fun c => !isBlank c := by
        rw [← List.filter_append, List.takeWhile_append_dropWhile]

theorem dropWhile_isBlank_append {before : Word} (h : ∀ b ∈ before, isBlank b = true) (s : Word) :
    (before ++ s).dropWhile isBlank = s.dropWhile isBlank :=
  List.dropWhile_append_of_pos h

/-! ### Texts with other blanks -/

/-- The texts are the same up to blanks around separators and at the end. -/
inductive Respaced : Word → Word → Prop where
  | final {s s' : Word} (h : ∀ c ∈ s, isBlank c = true) (h' : ∀ c ∈ s', isBlank c = true) :
      Respaced s s'
  | char (c : Char) {s s' : Word} (more : Respaced s s') : Respaced (c :: s) (c :: s')
  | separator {c : Char} {before before' after after' s s' : Word} (hc : isSeparator c = true)
      (hbefore : ∀ b ∈ before, isBlank b = true) (hbefore' : ∀ b ∈ before', isBlank b = true)
      (hafter : ∀ b ∈ after, isBlank b = true) (hafter' : ∀ b ∈ after', isBlank b = true)
      (more : Respaced s s') : Respaced (before ++ c :: (after ++ s)) (before' ++ c :: (after' ++ s'))

namespace Respaced

variable {s s' : Word}

theorem refl (s : Word) : Respaced s s := by
  induction s with
  | nil => exact .final (by simp) (by simp)
  | cons c s ih => exact .char c ih

theorem symm (h : Respaced s s') : Respaced s' s := by
  induction h with
  | final hs hs' => exact .final hs' hs
  | char c more ih => exact .char c ih
  | separator hc hbefore hbefore' hafter hafter' more ih =>
    exact .separator hc hbefore' hbefore hafter' hafter ih

theorem append_left (u : Word) (h : Respaced s s') : Respaced (u ++ s) (u ++ s') := by
  induction u with
  | nil => exact h
  | cons c u ih => exact .char c ih

theorem append_blanks (u : Word) {b : Word} (hb : ∀ c ∈ b, isBlank c = true) :
    Respaced (u ++ b) u := by
  have hfinal : Respaced b [] := .final hb (by simp)
  simpa using hfinal.append_left u

theorem filter_eq (h : Respaced s s') :
    (s.filter fun c => !isBlank c) = s'.filter fun c => !isBlank c := by
  induction h with
  | final hs hs' => rw [filter_of_isBlank hs, filter_of_isBlank hs']
  | char c more ih => simp [List.filter_cons, ih]
  | separator hc hbefore hbefore' hafter hafter' more ih =>
    simp [filter_of_isBlank hbefore, filter_of_isBlank hbefore', filter_of_isBlank hafter,
      filter_of_isBlank hafter', isBlank_of_isSeparator hc, ih]

theorem begins {test : Char → Bool} (htest : IsInner test) (h : Respaced s s') :
    (∃ c r r', s = c :: r ∧ s' = c :: r' ∧ test c = true ∧ Respaced r r') ∨
      Stops test s ∧ Stops test s' := by
  cases h with
  | final hs hs' =>
    have hstops {w : Word} (hw : ∀ c ∈ w, isBlank c = true) : Stops test w := by
      have := htest.stops_append hw (stops_nil test)
      rwa [List.append_nil] at this
    exact .inr ⟨hstops hs, hstops hs'⟩
  | @char c r r' more =>
    cases hpass : test c with
    | true => exact .inl ⟨c, r, r', rfl, rfl, hpass, more⟩
    | false => exact .inr ⟨stops_cons hpass r, stops_cons hpass r'⟩
  | separator hc hbefore hbefore' hafter hafter' more =>
    have hfails := htest.of_isSeparator hc
    exact .inr ⟨htest.stops_append hbefore (stops_cons hfails _),
      htest.stops_append hbefore' (stops_cons hfails _)⟩

/-- Blanks at the start may be dropped on both sides. -/
theorem dropBlanks (h : Respaced s s') : Respaced (s.dropWhile isBlank) (s'.dropWhile isBlank) := by
  induction h with
  | final hs hs' =>
    rw [List.dropWhile_eq_nil_iff.mpr hs, List.dropWhile_eq_nil_iff.mpr hs']
    exact .refl []
  | @char c r r' more ih =>
    cases hc : isBlank c with
    | true =>
      rw [List.dropWhile_cons_of_pos hc, List.dropWhile_cons_of_pos hc]
      exact ih
    | false =>
      rw [List.dropWhile_cons_of_neg (by simp [hc]), List.dropWhile_cons_of_neg (by simp [hc])]
      exact .char c more
  | separator hc hbefore hbefore' hafter hafter' more _ =>
    have hblank := isBlank_of_isSeparator hc
    have hnone : ∀ b ∈ ([] : Word), isBlank b = true := by simp
    rw [dropWhile_isBlank_append hbefore, dropWhile_isBlank_append hbefore',
      List.dropWhile_cons_of_neg (by simp [hblank]), List.dropWhile_cons_of_neg (by simp [hblank])]
    exact Respaced.separator hc hnone hnone hafter hafter' more

/-- What comes next behind blanks, and what follows behind more of them. -/
theorem behind_blanks (h : Respaced s s') :
    s.dropWhile isBlank = [] ∧ s'.dropWhile isBlank = [] ∨
      ∃ c r r', s.dropWhile isBlank = c :: r ∧ s'.dropWhile isBlank = c :: r' ∧
        Respaced (r.dropWhile isBlank) (r'.dropWhile isBlank) := by
  induction h with
  | final hs hs' => exact .inl ⟨List.dropWhile_eq_nil_iff.mpr hs, List.dropWhile_eq_nil_iff.mpr hs'⟩
  | @char c r r' more ih =>
    cases hc : isBlank c with
    | true =>
      rw [List.dropWhile_cons_of_pos hc, List.dropWhile_cons_of_pos hc]
      exact ih
    | false =>
      rw [List.dropWhile_cons_of_neg (by simp [hc]), List.dropWhile_cons_of_neg (by simp [hc])]
      exact .inr ⟨c, r, r', rfl, rfl, more.dropBlanks⟩
  | @separator c before before' after after' r r' hc hbefore hbefore' hafter hafter' more _ =>
    have hblank := isBlank_of_isSeparator hc
    rw [dropWhile_isBlank_append hbefore, dropWhile_isBlank_append hbefore',
      List.dropWhile_cons_of_neg (by simp [hblank]), List.dropWhile_cons_of_neg (by simp [hblank])]
    refine .inr ⟨c, after ++ r, after' ++ r', rfl, rfl, ?_⟩
    rw [dropWhile_isBlank_append hafter, dropWhile_isBlank_append hafter']
    exact more.dropBlanks

theorem blankwise : Blankwise Respaced where
  begins htest _ _ h := h.begins htest
  dropBlanks h := h.dropBlanks
  behind_blanks h := h.behind_blanks

end Respaced

/-! ### Texts that lose their blanks -/

/-- The second text is the first without its blanks, all of which stand around
    separators or at the end. -/
inductive Sheds : Word → Word → Prop where
  | final {s : Word} (h : ∀ c ∈ s, isBlank c = true) : Sheds s []
  | char {c : Char} {s s' : Word} (hc : isBlank c = false) (more : Sheds s s') :
      Sheds (c :: s) (c :: s')
  | separator {c : Char} {before after s s' : Word} (hc : isSeparator c = true)
      (hbefore : ∀ b ∈ before, isBlank b = true) (hafter : ∀ b ∈ after, isBlank b = true)
      (more : Sheds s s') : Sheds (before ++ c :: (after ++ s)) (c :: s')

namespace Sheds

variable {s s' : Word}

theorem respaced (h : Sheds s s') : Respaced s s' := by
  have hnone : ∀ b ∈ ([] : Word), isBlank b = true := by simp
  induction h with
  | final hs => exact .final hs hnone
  | @char c s s' hc more ih => exact .char c ih
  | separator hc hbefore hafter more ih => exact Respaced.separator hc hbefore hnone hafter hnone ih

theorem isBlank_eq_false (h : Sheds s s') : ∀ c ∈ s', isBlank c = false := by
  induction h with
  | final hs => simp
  | char hc more ih => exact List.forall_mem_cons.mpr ⟨hc, ih⟩
  | separator hc hbefore hafter more ih =>
    exact List.forall_mem_cons.mpr ⟨isBlank_of_isSeparator hc, ih⟩

theorem eq_filter (h : Sheds s s') : s' = s.filter fun c => !isBlank c := by
  rw [h.respaced.filter_eq, List.filter_eq_self.mpr]
  intro c hc
  rw [h.isBlank_eq_false c hc, Bool.not_false]

/-- A text that differs from another in blanks and has none itself is the other without
    its blanks. -/
theorem of_respaced (h : Respaced s s') (hs' : ∀ c ∈ s', isBlank c = false) : Sheds s s' := by
  have hnil {w : Word} (rest : Word) (hw : ∀ c ∈ w, isBlank c = true)
      (hrest : ∀ c ∈ w ++ rest, isBlank c = false) : w = [] := by
    cases w with
    | nil => rfl
    | cons c w =>
      have hblank := hw c List.mem_cons_self
      rw [hrest c (by simp)] at hblank
      cases hblank
  induction h with
  | @final s s' hs hblank =>
    rw [hnil [] hblank (by rwa [List.append_nil])]
    exact .final hs
  | char c more ih =>
    obtain ⟨hc, hs'⟩ := List.forall_mem_cons.mp hs'
    exact .char hc (ih hs')
  | @separator c before before' after after' s s' hc hbefore hbefore' hafter hafter' more ih =>
    obtain rfl := hnil _ hbefore' hs'
    obtain ⟨-, hs'⟩ := List.forall_mem_cons.mp hs'
    obtain rfl := hnil _ hafter' hs'
    exact .separator hc hbefore hafter (ih hs')

end Sheds

theorem sheds_iff {s s' : Word} :
    Sheds s s' ↔ Respaced s s' ∧ ∀ c ∈ s', isBlank c = false :=
  ⟨fun h => ⟨h.respaced, h.isBlank_eq_false⟩, fun h => .of_respaced h.1 h.2⟩

namespace Grammar

/-- What follows in a text without blanks has none either. -/
theorem Blankwise.bare {R : Word → Word → Prop} (hR : Blankwise R) :
    Blankwise fun s s' => R s s' ∧ ∀ c ∈ s', isBlank c = false where
  begins htest s s' h := by
    obtain ⟨h, hs'⟩ := h
    rcases hR.begins htest h with ⟨c, r, r', rfl, rfl, hc, hr⟩ | hstops
    · exact .inl ⟨c, r, r', rfl, rfl, hc, hr, (List.forall_mem_cons.mp hs').2⟩
    · exact .inr hstops
  dropBlanks h := ⟨hR.dropBlanks h.1, fun c hc => h.2 c ((List.dropWhile_suffix _).subset hc)⟩
  behind_blanks {s s'} h := by
    obtain ⟨h, hs'⟩ := h
    rcases hR.behind_blanks h with hnil | ⟨c, r, r', hs, hrest, hr⟩
    · exact .inl hnil
    · have hmore : ∀ d ∈ c :: r', isBlank d = false := by
        rw [← hrest]
        exact fun d hd => hs' d ((List.dropWhile_suffix _).subset hd)
      exact .inr ⟨c, r, r', hs, hrest, hr, fun d hd =>
        hmore d (List.mem_cons_of_mem c ((List.dropWhile_suffix _).subset hd))⟩

theorem blankwise_sheds : Blankwise Sheds := by
  have hsheds : Sheds = fun s s' => Respaced s s' ∧ ∀ c ∈ s', isBlank c = false :=
    funext fun s => funext fun s' => propext sheds_iff
  rw [hsheds]
  exact Respaced.blankwise.bare

end Grammar

/-- Blanks at the start may be dropped first. -/
theorem Sheds.dropBlanks {s s' : Word} (h : Sheds s s') : Sheds (s.dropWhile isBlank) s' := by
  have hstops : Stops isBlank s' := fun c hc => h.isBlank_eq_false c (List.mem_of_mem_head? hc)
  rw [← hstops.dropWhile]
  exact blankwise_sheds.dropBlanks h

end WordFormation.RuleText
