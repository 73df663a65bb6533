/-
  WordFormation/Proofs/RuleText/TreeText.lean
  ===========================================
  **The text of a tree is the text that it was parsed from, blanks apart.**

  Every part of the grammar spells out what it has taken, without the blanks
  (`Spelt`).  The blanks that were taken stand around separators, and those at the
  end of a text belong to the rule, so the text of the tree and the text that was
  parsed are related by `Sheds`.  By the relation the one is parsed as the other
  was, and the same tree results (`text_of_parse`).
-/
import WordFormation.RuleText.Parse
import WordFormation.Proofs.RuleText.Blanks
import WordFormation.Proofs.RuleText.Consumption

namespace WordFormation.RuleText

open Production Grammar

/-! ### Stretches and the trees that spell them out -/

/-- The trees spell out the stretch without its blanks, all of which stand around
    separators, whatever comes behind. -/
def Spelt (used : Word) (ts : List Tree) : Prop :=
  ∀ s s', Sheds s s' → Sheds (used ++ s) (ts.flatMap Tree.text ++ s')

namespace Spelt

variable {used used' : Word} {ts ts' : List Tree}

theorem nil : Spelt [] [] := by
  intro s s' h
  exact h

theorem append (h : Spelt used ts) (h' : Spelt used' ts') : Spelt (used ++ used') (ts ++ ts') := by
  intro s s' hs
  rw [List.flatMap_append, List.append_assoc, List.append_assoc]
  exact h _ _ (h' s s' hs)

theorem node (h : Spelt used ts) (label : Label) : Spelt used [.node label ts] := by
  intro s s' hs
  have htext : [Tree.node label ts].flatMap Tree.text = ts.flatMap Tree.text := by
    simp [Tree.text]
  rw [htext]
  exact h s s' hs

/-- No blank is lost of a stretch that has none. -/
theorem leaf (h : ∀ c ∈ used, isBlank c = false) : Spelt used [.leaf used] := by
  intro s s' hs
  have htext : [Tree.leaf used].flatMap Tree.text = used := by simp [Tree.text]
  rw [htext]
  clear htext
  induction used with
  | nil => exact hs
  | cons c used ih =>
    refine .char (h c List.mem_cons_self) (ih fun d hd => ?_)
    exact h d (List.mem_cons_of_mem c hd)

theorem char {c : Char} (hc : isBlank c = false) : Spelt [c] [.leaf [c]] :=
  leaf fun d hd => by rw [List.mem_singleton.mp hd, hc]

theorem separator {c : Char} (hc : isSeparator c = true) {before after : Word}
    (hbefore : ∀ b ∈ before, isBlank b = true) (hafter : ∀ b ∈ after, isBlank b = true) :
    Spelt (before ++ c :: after) [.leaf [c]] := by
  intro s s' hs
  have h := Sheds.separator hc hbefore hafter hs
  simpa [Tree.text] using h

theorem of_each {tss : List (List Tree)} (h : Each Spelt used tss) : Spelt used tss.flatten := by
  induction h with
  | nil => exact nil
  | cons first others ih => exact first.append ih

end Spelt

/-! ### Letters and marks -/

theorem spelt_satisfying {test : Char → Bool} (htest : IsInner test) :
    Consumes (satisfying test) fun used c => Spelt used [.leaf [c]] := by
  refine (consumes_satisfying test).mono ?_
  rintro used c ⟨rfl, hc⟩
  exact Spelt.char (htest.isBlank_eq_false hc)

theorem spelt_mark {c : Char} (hc : isBlank c = false) :
    Consumes (mark c) fun used _ => Spelt used [.leaf [c]] := by
  refine (consumes_mark c).mono ?_
  rintro used d ⟨rfl, -⟩
  exact Spelt.char hc

theorem Spelt.optional {u : Word} {t : Tree} (h : Spelt u [t]) :
    Spelt (u ++ ['^']) [.node .optional [t, .leaf ['^']]] := by
  have hcaret := Spelt.char (by decide : isBlank '^' = false)
  exact (h.append hcaret).node .optional

theorem Spelt.parens {u : Word} {t : Tree} (h : Spelt u [t]) :
    Spelt ('(' :: (u ++ [')'])) [.parens t] := by
  have hopening := Spelt.char (by decide : isBlank '(' = false)
  have hclosing := Spelt.char (by decide : isBlank ')' = false)
  exact (hopening.append (h.append hclosing)).node .parens

theorem spelt_letterRun : Consumes letterRun Spelt := by
  have hrun {w : Word} (hw : ∀ c ∈ w, isLetter c = true) : Spelt w [.leaf w] :=
    Spelt.leaf fun c hc => isInner_isLetter.isBlank_eq_false (hw c hc)
  refine consumes_letterRun_trees.mono ?_
  intro used ts h
  cases h with
  | plain hne hletters => exact hrun hletters
  | optional hlast => exact (hrun hlast).optional
  | cut hne hfront hlast => exact (hrun hfront).append (hrun hlast).optional

theorem spelt_letterParens {inner : Production Tree}
    (h : Consumes inner fun used t => Spelt used [t]) : Consumes (letterParens inner) Spelt := by
  refine (consumes_letterParens_trees h).mono ?_
  intro used ts htrees
  cases htrees with
  | plain ht => exact ht.parens
  | optional ht => exact ht.parens.optional

theorem spelt_lettersAround {inner : Production Tree}
    (h : Consumes inner fun used t => Spelt used [t]) :
    Consumes (lettersAround inner) fun used t => Spelt used [t] := by
  have hpart := consumes_orElse spelt_letterRun (spelt_letterParens h)
  apply consumes_bind (consumes_expecting (consumes_many1 hpart))
  intro used parts hparts
  apply consumes_pure
  rw [List.append_nil]
  exact (Spelt.of_each hparts.1).node .letters

theorem spelt_letters : Consumes letters fun used t => Spelt used [t] :=
  consumes_letters_of_around fun _ => spelt_lettersAround

/-! ### Segments -/

theorem spelt_affixMark : Consumes affixMark fun used t => Spelt used [t] := by
  refine consumes_expecting (consumes_bind (spelt_satisfying isInner_isAffixMark) ?_)
  intro used c hc
  apply consumes_pure
  rw [List.append_nil]
  exact hc

theorem spelt_shortMark : Consumes shortMark fun used t => Spelt used [t] := by
  apply consumes_bind (spelt_satisfying (by decide))
  intro used c hc
  apply consumes_pure
  rw [List.append_nil]
  exact hc

theorem spelt_pair {p q : Production Tree} (hp : Consumes p fun used t => Spelt used [t])
    (hq : Consumes q fun used t => Spelt used [t]) : Consumes (pair p q) Spelt := by
  apply consumes_bind hp
  intro u first hfirst
  apply consumes_bind hq
  intro v second hsecond
  apply consumes_pure
  rw [List.append_nil]
  exact hfirst.append hsecond

theorem spelt_postfixes : Consumes postfixes fun used t => Spelt used [t] := by
  apply consumes_bind (consumes_many1 (spelt_pair spelt_affixMark spelt_letters))
  intro used links hlinks
  apply consumes_pure
  rw [List.append_nil]
  exact (Spelt.of_each hlinks.1).node .postfixes

theorem spelt_prefixes : Consumes prefixes fun used t => Spelt used [t] := by
  apply consumes_bind (consumes_many1 (spelt_pair spelt_letters spelt_affixMark))
  intro used links hlinks
  have hfront := Spelt.of_each hlinks.1
  apply consumes_bind (consumes_optionally spelt_postfixes)
  intro more tail htail
  apply consumes_pure
  rw [List.append_nil]
  rcases htail with ⟨rfl, rfl⟩ | ⟨t, rfl, ht⟩
  · exact (hfront.append Spelt.nil).node .prefixes
  · exact (hfront.append ht).node .prefixes

theorem spelt_circumfix : Consumes circumfix fun used t => Spelt used [t] := by
  apply consumes_bind spelt_letters
  intro u front hfront
  apply consumes_bind spelt_affixMark
  intro m between hbetween
  apply consumes_bind spelt_letters
  intro v back hback
  apply consumes_pure
  rw [List.append_nil]
  exact (hfront.append (hbetween.append hback)).node .circumfix

theorem spelt_interfix : Consumes interfix fun used t => Spelt used [t] := by
  apply consumes_bind (consumes_satisfying isAffixMark)
  rintro m opening ⟨rfl, hmark⟩
  have hblank := isInner_isAffixMark.isBlank_eq_false hmark
  apply consumes_bind spelt_letters
  intro u form hform
  apply consumes_bind (consumes_mark opening)
  rintro m' closing ⟨rfl, rfl⟩
  apply consumes_pure
  rw [List.append_nil]
  exact ((Spelt.char hblank).append (hform.append (Spelt.char hblank))).node .interfix

theorem spelt_edgeSegment : Consumes edgeSegment fun used t => Spelt used [t] :=
  consumes_orElse spelt_circumfix (consumes_orElse spelt_prefixes spelt_postfixes)

theorem spelt_segment : Consumes segment fun used t => Spelt used [t] := by
  apply consumes_bind (consumes_expecting (consumes_orElse spelt_interfix spelt_edgeSegment))
  intro used inner hinner
  apply consumes_pure
  rw [List.append_nil]
  exact hinner.node .segment

/-! ### Parts with separators between them -/

theorem spelt_separator {c : Char} (hc : isSeparator c = true) :
    Consumes (separator c) fun used t => t = .leaf [c] ∧ Spelt used [t] := by
  refine (consumes_separator_blanks c).mono ?_
  rintro used t ⟨rfl, before, after, rfl, hbefore, hafter⟩
  exact ⟨rfl, Spelt.separator hc hbefore hafter⟩

theorem spelt_parenthesised {p : Production Tree} (hp : Consumes p fun used t => Spelt used [t]) :
    Consumes (parenthesised p) fun used t => Spelt used [t] := by
  refine (consumes_parenthesised hp).mono ?_
  rintro used t ⟨u, inner, rfl, rfl, hinner⟩
  exact hinner.parens

theorem spelt_separated {c : Char} (hc : isSeparator c = true) {part : Production Tree}
    (hpart : Consumes part fun used t => Spelt used [t]) : Consumes (separated c part) Spelt := by
  have hseparator := (spelt_separator hc).mono fun used t ht => ht.2
  apply consumes_bind hpart
  intro used first hfirst
  apply consumes_bind (consumes_many (spelt_pair hseparator hpart))
  intro more others hothers
  apply consumes_pure
  rw [List.append_nil]
  exact hfirst.append (Spelt.of_each hothers)

/-! ### Conditionals -/

theorem spelt_testBody : Consumes (orElse startTest finalTest) Spelt := by
  have hdash : Spelt ['-'] [.leaf ['-']] := Spelt.char (by decide)
  refine (consumes_testBody spelt_letters).mono ?_
  rintro _ _ ⟨edge, u, form, rfl, rfl, hform⟩
  cases edge with
  | start => exact hform.append hdash
  | final => exact hdash.append hform

theorem spelt_test : Consumes test fun used t => Spelt used [t] := by
  apply consumes_bind (consumes_optionally (spelt_mark (by decide)))
  intro used negation hnegation
  apply consumes_bind spelt_testBody
  intro more body hbody
  apply consumes_pure
  rw [List.append_nil]
  rcases hnegation with ⟨rfl, rfl⟩ | ⟨c, rfl, htilde⟩
  · exact hbody.node .test
  · exact (htilde.append hbody).node .test

theorem spelt_condition : Consumes condition fun used t => Spelt used [t] := by
  apply consumes_bind (spelt_separated (by decide) spelt_test)
  intro used tests htests
  apply consumes_pure
  rw [List.append_nil]
  exact htests.node .condition

theorem spelt_branch : Consumes branch fun used t => Spelt used [t] := by
  apply consumes_bind (consumes_orElse spelt_edgeSegment spelt_shortMark)
  intro used inner hinner
  apply consumes_pure
  rw [List.append_nil]
  exact hinner.node .branch

/-- The colon is spelt out although the branch does not hold it. -/
theorem spelt_elseBranch : Consumes elseBranch fun used t => Spelt used [.leaf [':'], t] := by
  apply consumes_bind (spelt_separator (by decide))
  rintro between colon ⟨rfl, hcolon⟩
  refine spelt_branch.mono fun more t ht => ?_
  exact hcolon.append ht

theorem spelt_conditionalMet : Consumes conditionalMet fun used t => Spelt used [t] := by
  apply consumes_bind spelt_condition
  intro u asked hasked
  apply consumes_bind (spelt_separator (by decide))
  intro m question hquestion
  apply consumes_bind spelt_branch
  intro v met hmet
  have hfront := hasked.append (hquestion.2.append hmet)
  apply consumes_bind (consumes_optionally spelt_elseBranch)
  intro w unmet hunmet
  rcases hunmet with ⟨rfl, rfl⟩ | ⟨unmet, rfl, hunmet⟩
  · apply consumes_pure
    simp only [List.append_nil]
    exact hfront.node .conditional
  · apply consumes_pure
    have hwhole := (hfront.append hunmet).node .conditional
    simpa using hwhole

theorem spelt_conditionalUnmet : Consumes conditionalUnmet fun used t => Spelt used [t] := by
  apply consumes_bind spelt_condition
  intro u asked hasked
  apply consumes_bind (spelt_separator (by decide))
  intro m question hquestion
  apply consumes_bind (spelt_separator (by decide))
  intro v colon hcolon
  apply consumes_bind spelt_branch
  intro w unmet hunmet
  apply consumes_pure
  rw [List.append_nil]
  exact (hasked.append (hquestion.2.append (hcolon.2.append hunmet))).node .conditional

theorem spelt_conditional : Consumes conditional fun used t => Spelt used [t] :=
  consumes_orElse spelt_conditionalMet spelt_conditionalUnmet

/-! ### Groups and rules -/

theorem spelt_item : Consumes item fun used t => Spelt used [t] := by
  apply consumes_bind (consumes_orElse spelt_conditional spelt_segment)
  intro used inner hinner
  apply consumes_pure
  rw [List.append_nil]
  exact hinner.node .item

theorem spelt_group : Consumes group fun used t => Spelt used [t] := by
  have hpart := consumes_orElse spelt_item (spelt_parenthesised spelt_item)
  apply consumes_bind (spelt_separated (by decide) hpart)
  intro used items hitems
  apply consumes_pure
  rw [List.append_nil]
  exact hitems.node .group

theorem spelt_stages : Consumes stages fun used t => Spelt used [t] := by
  have hpart := consumes_orElse spelt_group (spelt_parenthesised spelt_group)
  apply consumes_bind (spelt_separated (by decide) hpart)
  intro used groups hgroups
  apply consumes_pure
  rw [List.append_nil]
  exact hgroups.node .stages

/-- The context itself is empty; the mark behind it is put next to it. -/
theorem spelt_context : Consumes context fun used t => Spelt used [t, .leaf ['@']] := by
  apply consumes_bind (spelt_separator (by decide))
  rintro used mark ⟨rfl, hmark⟩
  apply consumes_pure
  rw [List.append_nil]
  have hempty : Spelt [] [.leaf []] := Spelt.leaf (by simp)
  exact (hempty.node .context).append hmark

/-- Blanks at the start belong to the rule as well. -/
theorem sheds_rule :
    Consumes rule fun used t => Sheds (used.dropWhile isBlank) t.text := by
  apply consumes_bind (consumes_skip isBlank)
  intro before _ hbefore
  apply consumes_bind (consumes_optionally spelt_context)
  intro u context hcontext
  apply consumes_bind spelt_stages
  intro v body hbody
  apply consumes_bind (consumes_skip isBlank)
  intro after _ hafter
  have hwhole {front : List Tree} (hfront : Spelt u front) :
      Sheds ((before ++ (u ++ (v ++ (after ++ [])))).dropWhile isBlank)
        (Tree.node .rule (front ++ [body])).text := by
    have hsheds := hfront.append hbody after [] (.final hafter)
    rw [dropWhile_isBlank_append hbefore]
    simpa [Tree.text] using hsheds.dropBlanks
  rcases hcontext with ⟨rfl, rfl⟩ | ⟨context, rfl, hcontext⟩
  · exact consumes_pure (hwhole Spelt.nil)
  · exact consumes_pure (hwhole hcontext)

/-! ### Parsing the text of a tree -/

theorem stops_dropBlanks (s : Word) : Stops isBlank (s.dropWhile isBlank) := by
  intro c hc
  have h := List.head?_dropWhile_not isBlank s
  rw [hc] at h
  simpa using h

theorem rule_dropBlanks (s : Word) : rule (s.dropWhile isBlank) = rule s := by
  have hblanks : blanks (s.dropWhile isBlank) = blanks s := by
    unfold blanks skip
    rw [(stops_dropBlanks s).dropWhile]
  unfold rule
  rw [bind_apply, bind_apply, hblanks]

/-- Taking out the blanks takes out no parenthesis. -/
theorem tooDeep?_filter (depth : Nat) (s : Word) :
    tooDeep? depth (s.filter fun c => !isBlank c) =
      (tooDeep? depth s).map (List.filter fun c => !isBlank c) := by
  induction s generalizing depth with
  | nil => rfl
  | cons c s ih =>
    cases hc : isBlank c with
    | true =>
      have hopening : c ≠ '(' := by
        rintro rfl
        cases hc
      have hclosing : c ≠ ')' := by
        rintro rfl
        cases hc
      have hfilter : (c :: s).filter (fun c => !isBlank c) = s.filter fun c => !isBlank c := by
        simp [hc]
      rw [hfilter, tooDeep?, if_neg hopening, if_neg hclosing]
      exact ih depth
    | false =>
      have hfilter : (c :: s).filter (fun c => !isBlank c) = c :: s.filter fun c => !isBlank c := by
        simp [hc]
      rw [hfilter, tooDeep?, tooDeep?]
      by_cases hopening : c = '('
      · rw [if_pos hopening, if_pos hopening]
        by_cases hdepth : maxNesting < depth + 1
        · rw [if_pos hdepth, if_pos hdepth, Option.map_some, hfilter]
        · rw [if_neg hdepth, if_neg hdepth]
          exact ih (depth + 1)
      · rw [if_neg hopening, if_neg hopening]
        by_cases hclosing : c = ')'
        · rw [if_pos hclosing, if_pos hclosing]
          exact ih (depth - 1)
        · rw [if_neg hclosing, if_neg hclosing]
          exact ih depth

theorem tooDeep?_filter_eq_none {depth : Nat} {s : Word} :
    tooDeep? depth (s.filter fun c => !isBlank c) = none ↔ tooDeep? depth s = none := by
  rw [tooDeep?_filter, Option.map_eq_none_iff]

/-- The tree of a rule spells out the text without its blanks. -/
theorem text_of_rule {text : Word} {t : Tree} (h : rule text = .matched t []) :
    Sheds (text.dropWhile isBlank) t.text ∧ t.text = text.filter fun c => !isBlank c := by
  obtain ⟨used, htext, hsheds⟩ := sheds_rule text t [] h
  rw [List.append_nil] at htext
  subst htext
  exact ⟨hsheds, by rw [hsheds.eq_filter, filter_dropBlanks]⟩

/-- A tree that a text is parsed into spells out the text without its blanks, and
    parsing that gives the same tree. -/
theorem text_of_parse {text : Word} {t : Tree} (h : parse text = .ok t) :
    t.text = text.filter (fun c => !isBlank c) ∧ parse t.text = .ok t := by
  obtain ⟨hdepth, hrule⟩ := parse_eq_ok.mp h
  obtain ⟨hsheds, hfilter⟩ := text_of_rule hrule
  refine ⟨hfilter, parse_eq_ok.mpr ⟨?_, ?_⟩⟩
  · rw [hfilter]
    exact tooDeep?_filter_eq_none.mpr hdepth
  · have hreply := blankwise_sheds.respects_rule _ _ hsheds
    rw [rule_dropBlanks, hrule] at hreply
    generalize hagain : rule t.text = reply at hreply ⊢
    cases hreply with
    | matched t hrest =>
      cases hrest.eq_filter
      rfl

/-- Blanks around every separator, an empty context, parentheses, a test for the
    opposite and optional letters. -/
def spacedText : Word := " @ (a(bc)^+.t , e+x) ;\t~-t | g^e- ? a+n : -\n".toList

theorem text_of_parse_spacedText :
    ∃ t, parse spacedText = .ok t ∧ t.text = "@(a(bc)^+.t,e+x);~-t|g^e-?a+n:-".toList ∧
      parse t.text = .ok t := by
  have hok : (parse spacedText).isOk = true := by decide +kernel
  cases hparse : parse spacedText with
  | error e =>
    rw [hparse] at hok
    cases hok
  | ok t =>
    obtain ⟨htext, hagain⟩ := text_of_parse hparse
    refine ⟨t, rfl, ?_, hagain⟩
    rw [htext]
    decide

end WordFormation.RuleText
