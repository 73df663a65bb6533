/-
  WordFormation/Proofs/RuleText/Spacing.lean
  ==========================================
  **Blanks next to separators do not matter, whether or not the text is a rule.**

  Texts that differ in nothing but the blanks around separators and at the end
  (`Respaced`) get the same answers from every production, and what a rule leaves
  over is nothing in both or something in both.  Nothing has to be known of the texts
  themselves: a separator may stand where the grammar has no place for it, and blanks
  that are the same in both texts may stand anywhere.
-/
import WordFormation.Proofs.RuleText.TreeText

namespace WordFormation.RuleText

open Production Grammar

/-! ### Reading texts with other blanks -/

/-- The same tree from both texts, or no tree from either. -/
inductive SameOutcome : Except ParseError Tree → Except ParseError Tree → Prop where
  | read (t : Tree) : SameOutcome (.ok t) (.ok t)
  | refused (e e' : ParseError) : SameOutcome (.error e) (.error e')

theorem SameOutcome.of_iff {outcome outcome' : Except ParseError Tree}
    (h : ∀ t, outcome = .ok t ↔ outcome' = .ok t) : SameOutcome outcome outcome' := by
  cases outcome with
  | ok t =>
    rw [(h t).mp rfl]
    exact .read t
  | error e =>
    cases outcome' with
    | ok t => cases (h t).mpr rfl
    | error e' => exact .refused e e'

/-- A rule takes all blanks behind it. -/
theorem stops_of_rule {s rest : Word} {t : Tree} (h : rule s = .matched t rest) :
    Stops isBlank rest := by
  obtain ⟨_, r₁, -, hcontext⟩ := bind_matched h
  obtain ⟨before, r₂, -, hstages⟩ := bind_matched hcontext
  obtain ⟨body, r₃, -, hblanks⟩ := bind_matched hstages
  obtain ⟨_, r₄, hskip, htree⟩ := bind_matched hblanks
  have hrest : r₄ = rest := by
    cases before with
    | none =>
      cases htree
      rfl
    | some before =>
      cases htree
      rfl
  cases hskip
  rw [← hrest]
  exact stops_dropBlanks r₃

theorem Respaced.eq_nil {rest rest' : Word} (h : Respaced rest rest') (hstops : Stops isBlank rest)
    (hnil : rest' = []) : rest = [] := by
  have hfilter := h.filter_eq
  rw [hnil, List.filter_nil, List.filter_eq_nil_iff] at hfilter
  cases rest with
  | nil => rfl
  | cons c rest =>
    have hblank := hfilter c List.mem_cons_self
    rw [hstops c rfl] at hblank
    simp at hblank

theorem rule_of_respaced {s s' : Word} {t : Tree}
    (h : Respaced (s.dropWhile isBlank) (s'.dropWhile isBlank)) (hrule : rule s' = .matched t []) :
    rule s = .matched t [] := by
  have hreply := Respaced.blankwise.respects_rule _ _ h
  rw [rule_dropBlanks, rule_dropBlanks] at hreply
  obtain ⟨rest, hmatched, hrest⟩ := hreply.exists_left hrule
  rw [hmatched, hrest.eq_nil (stops_of_rule hmatched) rfl]

/-- Texts that are the same up to blanks at the start, around separators and at the
    end are read in the same way. -/
theorem parse_of_respaced {s s' : Word}
    (h : Respaced (s.dropWhile isBlank) (s'.dropWhile isBlank)) :
    SameOutcome (parse s) (parse s') := by
  have hfilter := h.filter_eq
  rw [filter_dropBlanks, filter_dropBlanks] at hfilter
  have hdepth : tooDeep? 0 s = none ↔ tooDeep? 0 s' = none := by
    rw [← tooDeep?_filter_eq_none, hfilter, tooDeep?_filter_eq_none]
  apply SameOutcome.of_iff
  intro t
  rw [parse_eq_ok, parse_eq_ok, hdepth]
  exact and_congr_right fun _ => ⟨rule_of_respaced h.symm, rule_of_respaced h⟩

/-- **Blanks around a separator and at the ends of a text do not matter.**  With and
    without them the text is read into the same tree, or it is refused both times. -/
theorem parse_blanks (u v : Word) {a b : Word} (ha : ∀ c ∈ a, isBlank c = true)
    (hb : ∀ c ∈ b, isBlank c = true) :
    (∀ c, isSeparator c = true →
      SameOutcome (parse (u ++ a ++ [c] ++ b ++ v)) (parse (u ++ [c] ++ v))) ∧
    SameOutcome (parse (a ++ u ++ b)) (parse u) := by
  have hnone : ∀ c ∈ ([] : Word), isBlank c = true := by simp
  constructor
  · intro c hc
    have hseparator : Respaced (a ++ c :: (b ++ v)) ([] ++ c :: ([] ++ v)) :=
      .separator hc ha hnone hb hnone (.refl v)
    have hwhole := hseparator.append_left u
    apply parse_of_respaced
    simpa using hwhole.dropBlanks
  · apply parse_of_respaced
    rw [List.append_assoc, dropWhile_isBlank_append ha]
    exact (Respaced.append_blanks u hb).dropBlanks

/-- A separator that the grammar has no place for, and a text that is a rule. -/
theorem parse_blanks_misplaced :
    SameOutcome (parse "a+\t| t".toList) (parse "a+|t".toList) ∧
    SameOutcome (parse "\r\n ge+t , +e ".toList) (parse "ge+t , +e".toList) := by
  have htab : ∀ c ∈ ['\t'], isBlank c = true := List.all_eq_true.mp rfl
  have hspace : ∀ c ∈ [' '], isBlank c = true := List.all_eq_true.mp rfl
  have hfront : ∀ c ∈ ['\r', '\n', ' '], isBlank c = true := List.all_eq_true.mp rfl
  exact ⟨(parse_blanks ['a', '+'] ['t'] htab hspace).1 '|' (by decide),
    (parse_blanks "ge+t , +e".toList [] hfront hspace).2⟩

end WordFormation.RuleText
