/-
  WordFormation/Proofs/RuleText/WrittenLetters.lean
  =================================================
  **Letters that can be read are written as an expression.**

  Every expression is a stretch of letters, and this is the other direction.  The
  grammar takes groups of any letters, also an optional group in which something is
  optional again, but that is refused when the tree is read.  So what is said of a
  stretch is said under the condition that its tree is read (`ReadLeads`).  Parts are
  put together from behind: a part is no expression of its own, it makes one of the
  expression that follows (`Expression.Leads`).

  From this the rules `X+` are known for every text `X` of letters, parentheses and
  `^`: the mark is the last character, so the rule is one item that is not in
  parentheses, and the item is letters with the mark behind them
  (`TakesMarked`).
-/
import WordFormation.Proofs.RuleText.OptionalParts
import WordFormation.Proofs.RuleText.Parentheses

namespace WordFormation

open RuleText RuleText.Production RuleText.Grammar

/-! ### Texts in front of an expression -/

namespace Expression

/-- The text in front of an expression makes an expression of both. -/
def Leads (used : Word) : Prop :=
  ∀ e : Expression, e.IsWritten → ∃ e' : Expression, e'.IsWritten ∧ e'.text = used ++ e.text

namespace Leads

variable {u v : Word}

theorem nil : Leads [] := fun e he => ⟨e, he, rfl⟩

theorem append (hu : Leads u) (hv : Leads v) : Leads (u ++ v) := by
  intro e he
  obtain ⟨middle, hmiddle, htext⟩ := hv e he
  obtain ⟨whole, hwhole, htext'⟩ := hu middle hmiddle
  exact ⟨whole, hwhole, by rw [htext', htext, List.append_assoc]⟩

theorem letters (h : ∀ c ∈ u, isLetter c = true) : Leads u :=
  fun e he => ⟨behind u e, he.behind h, text_behind u e⟩

theorem optionalLetter {c : Char} (hc : isLetter c = true) : Leads [c, '^'] :=
  fun e he => ⟨.optionalLetter c e, .optionalLetter hc he, rfl⟩

theorem exists_expression (h : Leads u) (hne : u ≠ []) :
    ∃ e : Expression, e.IsWritten ∧ e ≠ .done ∧ e.text = u := by
  obtain ⟨e, he, htext⟩ := h .done .done
  rw [text, List.append_nil] at htext
  refine ⟨e, he, ?_, htext⟩
  rintro rfl
  exact hne htext.symm

end Leads

end Expression

open Expression

/-! ### Parts of a stretch of letters -/

theorem LettersOf.ne_nil {used : Word} {t : RuleText.Tree} (h : LettersOf used t) : used ≠ [] := by
  rintro rfl
  exact (h.run (by simp)).1 rfl

/-- If the trees can be read, the text that they were made of leads. -/
def ReadLeads (used : Word) (ts : List RuleText.Tree) : Prop :=
  ∀ front a, Tree.readParts front ts = .ok a → Leads used

/-- If the stretch can be read, its text leads. -/
def LettersLead (used : Word) (t : RuleText.Tree) : Prop :=
  LettersOf used t ∧ ∀ a, t.readLetters = .ok a → Leads used

theorem LettersLead.exists_expression {used : Word} {t : RuleText.Tree} (h : LettersLead used t)
    {a : Allomorphs} (ha : t.readLetters = .ok a) :
    ∃ e : Expression, e.IsWritten ∧ e ≠ .done ∧ e.text = used :=
  (h.2 a ha).exists_expression h.1.ne_nil

/-- A `^` makes the last letter of its run optional. -/
theorem leads_letterRun : Consumes letterRun fun used _ => Leads used := by
  apply consumes_bind (consumes_run isLetter)
  rintro used taken ⟨rfl, hne, hletters⟩
  apply consumes_bind (consumes_optionally (consumes_mark '^'))
  rintro more optional (⟨rfl, rfl⟩ | ⟨c, rfl, rfl, -⟩)
  · apply consumes_pure
    rw [List.append_nil, List.append_nil]
    exact Leads.letters hletters
  · apply consumes_pure
    have hfront : ∀ c ∈ used.dropLast, isLetter c = true := fun c hc =>
      hletters c ((List.dropLast_sublist used).subset hc)
    have hlast := hletters _ (List.getLast_mem hne)
    have hboth := (Leads.letters hfront).append (Leads.optionalLetter hlast)
    have htext : used.dropLast ++ [used.getLast hne, '^'] = used ++ ['^'] := by
      rw [← List.singleton_append, ← List.append_assoc, List.dropLast_concat_getLast]
    rw [htext] at hboth
    rw [List.append_nil]
    exact hboth

theorem leads_letterParens {inner : Production RuleText.Tree} (h : Consumes inner LettersLead) :
    Consumes (letterParens inner) ReadLeads := by
  refine (consumes_letterParens_trees h).mono ?_
  intro used ts htrees front a hread e he
  cases htrees with
  | @plain u t ht =>
    obtain ⟨forms, hforms, -⟩ := bind_eq_ok.mp hread
    rw [Tree.readPart_parens] at hforms
    obtain ⟨inside, hinside, hne, rfl⟩ := ht.exists_expression hforms
    exact ⟨.group inside e, .group hne hinside he, by simp [Expression.text]⟩
  | @optional u t ht =>
    obtain ⟨forms, hforms, -⟩ := bind_eq_ok.mp hread
    obtain ⟨hcaret, kept, hkept, -⟩ := Tree.readPart_optional_eq_ok hforms
    rw [Tree.readPart_parens] at hkept
    obtain ⟨inside, hinside, hne, rfl⟩ := ht.exists_expression hkept
    have hnone : '^' ∉ inside.text := by
      rw [Tree.text_parens, ht.1.text] at hcaret
      simpa using hcaret
    exact ⟨.optionalGroup inside e, .optionalGroup hne hinside hnone he, by simp [Expression.text]⟩

theorem ReadLeads.of_each {used : Word} {tss : List (List RuleText.Tree)}
    (h : Each ReadLeads used tss) : ReadLeads used tss.flatten := by
  induction h with
  | nil => exact fun _ _ _ => Leads.nil
  | cons first others ih =>
    intro front a hread
    rw [List.flatten_cons, PartsOf.readParts_append] at hread
    obtain ⟨middle, hmiddle, hread⟩ := bind_eq_ok.mp hread
    exact (first front middle hmiddle).append (ih middle a hread)

theorem lettersLead_lettersAround {inner : Production RuleText.Tree}
    (h : Consumes inner LettersLead) : Consumes (lettersAround inner) LettersLead := by
  have hrun : Consumes letterRun ReadLeads := leads_letterRun.mono fun _ _ hleads _ _ _ => hleads
  have hpart := consumes_orElse hrun (leads_letterParens h)
  refine (consumes_lettersAround (h.mono fun _ _ ht => ht.1)).and ?_
  refine consumes_bind (consumes_expecting (consumes_many1 hpart)) fun used tss htss => ?_
  apply consumes_pure
  rw [List.append_nil]
  exact fun a ha => ReadLeads.of_each htss.1 (.only []) a ha

theorem lettersLead_letters : Consumes letters LettersLead :=
  consumes_letters_of_around fun _ => lettersLead_lettersAround

/-- Letters that can be read are an expression. -/
theorem exists_expression_of_letters {s rest : Word} {t : RuleText.Tree}
    (h : letters s = .matched t rest) {a : Allomorphs} (ha : t.readLetters = .ok a) :
    ∃ e : Expression, e.IsWritten ∧ e ≠ .done ∧ s = e.text ++ rest := by
  obtain ⟨used, rfl, hlead⟩ := lettersLead_letters s t rest h
  obtain ⟨e, he, hne, rfl⟩ := hlead.exists_expression ha
  exact ⟨e, he, hne, rfl⟩

/-! ### Letters with a mark behind them -/

/-- The text has only letters, parentheses and `^`. -/
def IsLetterText (text : Word) : Prop := ∀ c ∈ text, isLetter c = true ∨ c ∈ ['(', ')', '^']

instance (text : Word) : Decidable (IsLetterText text) := List.decidableBAll _ text

namespace IsLetterText

variable {text : Word} (h : IsLetterText text)
include h

theorem of_cons {c : Char} {more : Word} (htext : text = c :: more) : IsLetterText more :=
  fun d hd => h d (by rw [htext]; exact List.mem_cons_of_mem c hd)

/-- The text has no characters of other kinds. -/
theorem test_eq_false {test : Char → Bool} (hletter : ∀ c, isLetter c = true → test c = false)
    (hothers : ['(', ')', '^'].any test = false) : ∀ c ∈ text, test c = false := by
  intro c hc
  rcases h c hc with hc | hc
  · exact hletter c hc
  · exact Bool.eq_false_iff.mpr (List.any_eq_false.mp hothers c hc)

theorem not_mem_append_plus {c : Char} (hletter : isLetter c = false)
    (hothers : c ∉ ['(', ')', '^']) (hplus : c ≠ '+') : c ∉ text ++ ['+'] := by
  intro hmem
  rcases List.mem_append.mp hmem with hmem | hmem
  · rcases h c hmem with hc | hc
    · exact Bool.noConfusion (hletter.symm.trans hc)
    · exact hothers hc
  · exact hplus (List.mem_singleton.mp hmem)

/-- A mark behind the text is its only one. -/
theorem eq_plus {used rest : Word} (hsplit : text ++ ['+'] = used ++ rest)
    (hmark : ¬ Stops isAffixMark rest) : rest = ['+'] := by
  have hnone : ∀ c ∈ text, isAffixMark c = false :=
    h.test_eq_false (fun _ => isAffixMark_of_isLetter) (by decide)
  rcases List.append_eq_append_iff.mp hsplit with ⟨front, -, hplus⟩ | ⟨back, htext, rfl⟩
  · cases front with
    | nil => exact hplus.symm
    | cons c front =>
      obtain ⟨-, hnil⟩ := List.cons.inj hplus
      obtain ⟨-, rfl⟩ := List.append_eq_nil_iff.mp hnil.symm
      exact absurd (stops_nil isAffixMark) hmark
  · cases back with
    | nil => rfl
    | cons c back =>
      exact absurd (stops_cons (hnone c (by simp [htext])) _) hmark

end IsLetterText

/-! ### Items -/

/-- The tree of letters with the mark behind them. -/
def plusTree (form : RuleText.Tree) : RuleText.Tree :=
  .node .item [.node .segment [.node .prefixes [form, .leaf ['+']]]]

section Item

variable {s : Word} {form : RuleText.Tree} (h : letters s = .matched form ['+'])
include h

theorem fails_test_of_letters : Fails test s := by
  obtain ⟨hmark, htilde⟩ := stops_isAffixMark_of_letters h
  have hnegation : optionally (mark '~') s = .matched none s :=
    optionally_of_fails (fails_mark htilde)
  have hstart : Fails startTest s :=
    fails_bind_of_matched h (fails_bind (fails_mark (by decide)))
  have hfinal : Fails finalTest s :=
    fails_bind (fails_mark fun hhead => Bool.noConfusion (hmark '-' hhead))
  exact fails_bind_of_matched hnegation (fails_bind (fails_orElse hstart hfinal))

/-- The mark ends the text, so there is neither a circumfix nor another prefix. -/
theorem edgeSegment_of_letters :
    edgeSegment s = .matched (.node .prefixes [form, .leaf ['+']]) [] := by
  have hplus : affixMark ['+'] = .matched (.leaf ['+']) [] := affixMark_symbol .insert []
  have hnil : Fails letters [] := fails_letters (stops_nil _)
  have hcircumfix : Fails circumfix s :=
    fails_bind_of_matched h (fails_bind_of_matched hplus (fails_bind hnil))
  have hlink : pair letters affixMark s = .matched [form, .leaf ['+']] [] := by
    unfold pair
    rw [bind_of_matched h, bind_of_matched hplus]
    rfl
  have hmore : many (pair letters affixMark) [] = .matched [] [] := many_of_fails (fails_bind hnil)
  have htail : optionally postfixes [] = .matched none [] :=
    optionally_of_fails
      (fails_bind (fails_many1 (fails_bind (fails_affixMark (stops_nil isAffixMark)))))
  have hprefixes : prefixes s = .matched (.node .prefixes [form, .leaf ['+']]) [] := by
    unfold prefixes
    rw [bind_of_matched (many1_of_matched hlink hmore), bind_of_matched htail]
    rfl
  exact (orElse_of_fails hcircumfix).trans (orElse_of_matched hprefixes)

theorem item_of_letters : item s = .matched (plusTree form) [] := by
  have hinterfix : Fails interfix s :=
    fails_bind (fails_satisfying (stops_isAffixMark_of_letters h).1)
  have hsegment : Grammar.segment s =
      .matched (.node .segment [.node .prefixes [form, .leaf ['+']]]) [] := by
    unfold Grammar.segment
    exact bind_of_matched (expecting_of_matched
      ((orElse_of_fails hinterfix).trans (edgeSegment_of_letters h)))
  have hconditional := fails_conditional (.inl (fails_test_of_letters h))
  unfold item
  exact bind_of_matched ((orElse_of_fails hconditional).trans hsegment)

end Item

namespace IsLetterText

variable {text : Word} (h : IsLetterText text)
include h

/-- Either the text is letters up to its end, or no mark follows the letters that it
    begins with. -/
theorem letters_or_noMarkedLetters : (∃ form, letters (text ++ ['+']) = .matched form ['+']) ∨
    NoMarkedLetters (text ++ ['+']) := by
  cases hletters : letters (text ++ ['+']) with
  | failed r es => exact .inr (.inl ⟨r, es, hletters⟩)
  | stalled => exact absurd hletters (settles_letters _ _ le_rfl)
  | matched form r =>
    by_cases hmark : Stops isAffixMark r
    · exact .inr (.inr ⟨form, r, hletters, hmark⟩)
    · obtain ⟨used, hsplit, -⟩ := consumes_letters _ _ _ hletters
      obtain rfl := h.eq_plus hsplit hmark
      exact .inl ⟨form, rfl⟩

theorem fails_item (hnone : NoMarkedLetters (text ++ ['+'])) : Fails item (text ++ ['+']) := by
  rcases text with _ | ⟨c, more⟩
  · exact ⟨_, _, rfl⟩
  · have hmark : isAffixMark c = false :=
      h.test_eq_false (fun _ => isAffixMark_of_isLetter) (by decide) c List.mem_cons_self
    have htilde : '~' ∉ c :: more ++ ['+'] :=
      h.not_mem_append_plus (by decide) (by decide) (by decide)
    exact hnone.fails_item (stops_cons hmark _) fun hhead => htilde (List.mem_of_mem_head? hhead)

end IsLetterText

/-! ### Rules -/

/-- Of letters with the mark behind them nothing is left, and of other such texts the
    production matches none. -/
def TakesMarked {α : Type} (p : Production α) : Prop :=
  ∀ text, IsLetterText text → ∀ v rest, p (text ++ ['+']) = .matched v rest →
    rest = [] ∧ ∃ form, letters (text ++ ['+']) = .matched form ['+']

theorem takesMarked_item : TakesMarked item := by
  intro text htext t rest hmatched
  rcases htext.letters_or_noMarkedLetters with ⟨form, hform⟩ | hnone
  · rw [item_of_letters hform] at hmatched
    cases hmatched
    exact ⟨rfl, form, hform⟩
  · obtain ⟨r, es, hfails⟩ := htext.fails_item hnone
    rw [hfails] at hmatched
    cases hmatched

/-- Nothing that takes the mark is in parentheses, since none is left to be closed. -/
theorem TakesMarked.perhapsParenthesised {p : Production RuleText.Tree} (h : TakesMarked p) :
    TakesMarked (orElse p (parenthesised p)) := by
  intro text htext t rest hmatched
  rcases orElse_eq_matched hmatched with hp | ⟨-, hparens⟩
  · exact h text htext t rest hp
  · obtain ⟨_, r, hopening, hparens⟩ := bind_matched hparens
    obtain ⟨inner, r', hinner, hparens⟩ := bind_matched hparens
    obtain ⟨_, r'', hclosing, -⟩ := bind_matched hparens
    cases text with
    | nil => cases hopening
    | cons c more =>
      obtain ⟨hsplit, -⟩ := satisfying_eq_matched hopening
      obtain ⟨-, rfl⟩ := List.cons.inj hsplit
      obtain ⟨rfl, -⟩ := h more (htext.of_cons rfl) inner r' hinner
      cases hclosing

theorem TakesMarked.separated {p : Production RuleText.Tree} (h : TakesMarked p) (c : Char) :
    TakesMarked (separated c p) := by
  intro text htext ts rest hmatched
  obtain ⟨t, r, hfirst, hmatched⟩ := bind_matched hmatched
  obtain ⟨rfl, hform⟩ := h text htext t r hfirst
  rw [bind_of_matched (many_separated_of_end (stops_nil isBlank) (by simp))] at hmatched
  cases hmatched
  exact ⟨rfl, hform⟩

theorem takesMarked_group : TakesMarked group := by
  intro text htext t rest hmatched
  obtain ⟨ts, r, hitems, hmatched⟩ := bind_matched hmatched
  cases hmatched
  exact takesMarked_item.perhapsParenthesised.separated ',' text htext ts _ hitems

/-- Such a text is a rule only if it is a lone item. -/
theorem letters_of_rule {text : Word} (htext : IsLetterText text) {t : RuleText.Tree}
    (h : rule (text ++ ['+']) = .matched t []) :
    ∃ form, letters (text ++ ['+']) = .matched form ['+'] ∧ t = loneItemTree (plusTree form) := by
  have hat : '@' ∉ text ++ ['+'] := htext.not_mem_append_plus (by decide) (by decide) (by decide)
  have hstart : Stops isBlank (text ++ ['+']) := by
    intro c hc
    have hnone : ∀ c ∈ text ++ ['+'], isBlank c = false := List.forall_mem_append.mpr
      ⟨htext.test_eq_false (fun _ => isBlank_of_isLetter) (by decide),
        List.forall_mem_singleton.mpr rfl⟩
    exact hnone c (List.mem_of_mem_head? hc)
  have hcontext : optionally context (text ++ ['+']) = .matched none (text ++ ['+']) :=
    optionally_of_fails (fails_context hat)
  obtain ⟨before, r, ts, hbefore, ⟨rest, hts, -⟩, -⟩ := rule_eq_matched.mp h
  rw [hstart.dropWhile, hcontext] at hbefore
  cases hbefore
  obtain ⟨-, form, hform⟩ :=
    takesMarked_group.perhapsParenthesised.separated ';' text htext ts rest hts
  have hrule := rule_of_lone_item (item_of_letters hform) hstart
    (fun hhead => hat (List.mem_of_mem_head? hhead)) (stops_nil isBlank) (by simp) (by simp)
  rw [hrule] at h
  cases h
  exact ⟨form, hform, rfl⟩

/-- Such a rule is read only if its letters are. -/
theorem exists_readLetters {form : RuleText.Tree} {b : Blueprint}
    (h : (loneItemTree (plusTree form)).readRule = .ok b) :
    ∃ a, form.readLetters = .ok a ∧ b = ⟨none, [[.putBefore a .insert]]⟩ := by
  have hitem : (plusTree form).unparenthesised.readItem =
      RuleText.Tree.readPrefixLinks [form, .leaf ['+']] :=
    (Tree.readItem_segment rfl (by decide) _).trans (Tree.readSegment_prefixes _)
  rw [readRule_loneItemTree_eq, hitem, Tree.readPrefixLinks] at h
  obtain ⟨xs, hxs, h⟩ := bind_eq_ok.mp h
  obtain ⟨p, hp, hxs⟩ := bind_eq_ok.mp hxs
  obtain ⟨a, ha, hxs⟩ := bind_eq_ok.mp hxs
  cases hp
  cases hxs
  exact ⟨a, ha, (Except.ok.inj h).symm⟩

/-- **Letters that a mark makes a rule are an expression.**  No other text of letters,
    parentheses and `^` is a rule with a mark behind it, and the rule puts the forms of
    the expression in front. -/
theorem exists_expression_of_ofText {text : Word} (htext : IsLetterText text) {r : Rule}
    (h : Rule.ofText (text ++ ['+']) = .ok r) :
    ∃ e : Expression, e.IsWritten ∧ e ≠ .done ∧ e.text = text ∧ tooDeep? 0 text = none ∧
      r.blueprint = ⟨none, [[.putBefore (.ofForms e.forms) .insert]]⟩ := by
  obtain ⟨hblueprint, -⟩ := Rule.ofBlueprint_of_ofText h
  obtain ⟨t, hparse, hread⟩ := Blueprint.exists_tree_of_ofText hblueprint
  obtain ⟨hdepth, hrule⟩ := parse_eq_ok.mp hparse
  obtain ⟨form, hform, rfl⟩ := letters_of_rule htext hrule
  obtain ⟨a, ha, hblueprint⟩ := exists_readLetters hread
  obtain ⟨e, he, hne, hsplit⟩ := exists_expression_of_letters hform ha
  obtain rfl : text = e.text := List.append_cancel_right hsplit
  have hshallow := (he.balanced.tooDeep?_eq_none.mp hdepth).1
  -- letters are read in one way only
  obtain ⟨form', hstretch⟩ := he.exists_isStretch hne
  have hmatched : letters (e.text ++ ['+']) = .matched form' ['+'] :=
    hstretch.matched (stops_cons (by decide) [])
  rw [hform] at hmatched
  cases hmatched
  rw [hstretch.read] at ha
  cases ha
  exact ⟨e, he, hne, rfl, hshallow, hblueprint⟩

end WordFormation
