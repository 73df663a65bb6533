/-
  WordFormation/Proofs/RuleText/Chains.lean
  =========================================
  **Letters and chains of affixes are read as what they were written for.**

  The grammar tries its parts in a fixed order and never comes back to a choice.
  So it is not enough that the right part matches a text: everything that is
  tried before it has to fail, and every repetition has to stop where the text of
  its last round ends.  Both depend on the characters behind a text.

  A literal is followed by anything that is no part of letters.  It shares this
  with every other stretch of letters (`IsStretch`), and where an affix has only
  one of them nothing more is asked of it.  Behind a chain no mark may stand
  either, since it would be taken for a further link.  Given that, each kind of
  chain is found by `edgeSegment`, which tries a circumfix first, then a prefix
  with postfixes behind it, then postfixes alone (`edgeSegment_standsFor`).
-/
import WordFormation.Proofs.RuleText.Shapes
import WordFormation.Proofs.RuleText.Replies
import WordFormation.Proofs.RuleText.Writing
import WordFormation.Rule.OfText

namespace WordFormation

open RuleText RuleText.Production RuleText.Grammar

/-- The characters with which letters can go on. -/
def isLetterPart (c : Char) : Bool := isLetter c || c == '^' || c == '('

/-! ### Literals -/

namespace Allomorphs

/-- The tree of a literal. -/
def tree (a : Allomorphs) : Tree := .node .letters [.leaf a.spelling]

variable {a : Allomorphs}

theorem IsLiteral.spelling_ne_nil (h : a.IsLiteral) : a.spelling ≠ [] := by
  obtain ⟨l, rfl, hne, _⟩ := h
  simpa [spelling] using hne

theorem IsLiteral.isLetter_of_mem (h : a.IsLiteral) : ∀ c ∈ a.spelling, isLetter c = true := by
  obtain ⟨l, rfl, _, hl⟩ := h
  simpa [spelling] using hl

theorem IsLiteral.readLetters_tree (h : a.IsLiteral) : a.tree.readLetters = .ok a := by
  obtain ⟨l, rfl, _⟩ := h
  have hcross : (Allomorphs.only []).cross (.only l) = .only l := by
    rw [cross, forms_eq_flatten, forms_eq_flatten]
    rfl
  simp [tree, spelling, Tree.readLetters, Tree.readParts, Tree.readPart, hcross]

/-- A text that begins with a literal begins with a letter. -/
theorem IsLiteral.stops (h : a.IsLiteral) {test : Char → Bool}
    (htest : ∀ c, isLetter c = true → test c = false) (rest : Word) :
    Stops test (a.spelling ++ rest) := by
  intro c hc
  cases hs : a.spelling with
  | nil => exact absurd hs h.spelling_ne_nil
  | cons d l =>
    rw [hs] at hc
    cases hc
    exact htest _ (h.isLetter_of_mem _ (by simp [hs]))

theorem IsLiteral.head_ne (h : a.IsLiteral) {c : Char} (hc : isLetter c = false) (rest : Word) :
    (a.spelling ++ rest).head? ≠ some c := by
  have htest : ∀ d, isLetter d = true → (d == c) = false :=
    fun d hd => beq_eq_false_iff_ne.mpr (ne_of_isLetter hd hc)
  exact (h.stops htest rest).head_ne

end Allomorphs

/-! ### Parts of letters -/

section Part

variable {s : Word} (h : Stops isLetterPart s)
include h

theorem stops_isLetter : Stops isLetter s := by
  intro c hc
  have hpart := h c hc
  simp only [isLetterPart, Bool.or_eq_false_iff] at hpart
  exact hpart.1.1

theorem stops_caret : Stops (· == '^') s := by
  intro c hc
  have hpart := h c hc
  simp only [isLetterPart, Bool.or_eq_false_iff] at hpart
  exact hpart.1.2

theorem fails_part : Fails (orElse letterRun (letterParens letters)) s := by
  have hparen : s.head? ≠ some '(' := by
    intro hhead
    have hpart := h '(' hhead
    simp [isLetterPart] at hpart
  exact fails_orElse (fails_bind (fails_run (stops_isLetter h)))
    (fails_bind (fails_bind (fails_mark hparen)))

theorem fails_letters : Fails letters s := by
  have haround : Fails (lettersAround letters) s :=
    fails_bind (fails_expecting (fails_many1 (fails_part h)))
  obtain ⟨r, es, haround⟩ := haround
  exact ⟨r, es, by rw [letters_unfold, haround]⟩

end Part

/-- A run of letters is one part, unless a `^` behind it takes its last letter. -/
theorem letterRun_plain {run rest : Word} (hne : run ≠ [])
    (hrun : ∀ c ∈ run, isLetter c = true) (hletter : Stops isLetter rest)
    (hcaret : Stops (· == '^') rest) : letterRun (run ++ rest) = .matched [.leaf run] rest := by
  have hmark : Fails (mark '^') rest := fails_satisfying hcaret
  unfold letterRun
  rw [bind_of_matched (run_append hne hrun hletter), bind_of_matched (optionally_of_fails hmark)]
  rfl

/-- Parts up to where they end make up a stretch of letters. -/
theorem letters_of_parts {s r rest : Word} {ts : List RuleText.Tree}
    {tss : List (List RuleText.Tree)}
    (hpart : orElse letterRun (letterParens letters) s = .matched ts r)
    (hmore : many (orElse letterRun (letterParens letters)) r = .matched tss rest) :
    letters s = .matched (.node .letters (ts :: tss).flatten) rest := by
  rw [letters_unfold]
  unfold lettersAround
  rw [bind_of_matched (expecting_of_matched (many1_of_matched hpart hmore))]
  rfl

theorem letters_spelling {a : Allomorphs} (ha : a.IsLiteral) {rest : Word}
    (h : Stops isLetterPart rest) : letters (a.spelling ++ rest) = .matched a.tree rest := by
  have hrun := letterRun_plain ha.spelling_ne_nil ha.isLetter_of_mem (stops_isLetter h)
    (stops_caret h)
  exact letters_of_parts (orElse_of_matched hrun) (many_of_fails (fails_part h))

/-! ### Stretches of letters -/

/-- Whatever goes on behind the text that is no part of letters, it is matched as
    the tree, which is read as the given forms. -/
structure IsStretch (text : Word) (t : RuleText.Tree) (a : Allomorphs) : Prop where
  begins : ∃ c more, text = c :: more ∧ (isLetter c = true ∨ c = '(')
  matched : ∀ {rest : Word}, Stops isLetterPart rest → letters (text ++ rest) = .matched t rest
  text_eq : t.text = text
  read : t.readLetters = .ok a

theorem Allomorphs.IsLiteral.isStretch {a : Allomorphs} (h : a.IsLiteral) :
    IsStretch a.spelling a.tree a where
  begins := by
    obtain ⟨c, more, htext⟩ := List.exists_cons_of_ne_nil h.spelling_ne_nil
    have hc : c ∈ a.spelling := by simp [htext]
    exact ⟨c, more, htext, .inl (h.isLetter_of_mem c hc)⟩
  matched := letters_spelling h
  text_eq := List.append_nil a.spelling
  read := h.readLetters_tree

section Stretch

variable {text : Word} {t : RuleText.Tree} {a : Allomorphs} (h : IsStretch text t a)
include h

/-- Neither letters nor parentheses pass the test, and so the text does not begin
    with a character that does. -/
theorem IsStretch.stops {test : Char → Bool} (hletter : ∀ c, isLetter c = true → test c = false)
    (hparen : test '(' = false) (rest : Word) : Stops test (text ++ rest) := by
  obtain ⟨c, more, rfl, hc⟩ := h.begins
  refine stops_cons ?_ (more ++ rest)
  rcases hc with hc | rfl
  · exact hletter c hc
  · exact hparen

theorem IsStretch.head_ne {c : Char} (hletter : isLetter c = false) (hparen : c ≠ '(')
    (rest : Word) : (text ++ rest).head? ≠ some c := by
  have htest : ∀ d, isLetter d = true → (d == c) = false :=
    fun d hd => beq_eq_false_iff_ne.mpr (ne_of_isLetter hd hletter)
  exact (h.stops htest (beq_eq_false_iff_ne.mpr hparen.symm) rest).head_ne

end Stretch

/-! ### Marks and separators -/

theorem stops_symbol {test : Char → Bool} (h : ['+', '-', '.'].any test = false)
    (p : Polarity) (rest : Word) : Stops test (p.symbol :: rest) := by
  simp only [List.any_cons, List.any_nil, Bool.or_false, Bool.or_eq_false_iff] at h
  obtain ⟨hplus, hminus, hdot⟩ := h
  cases p with
  | insert => exact stops_cons hplus rest
  | remove => exact stops_cons hminus rest
  | toggle => exact stops_cons hdot rest

theorem satisfying_symbol (p : Polarity) (rest : Word) :
    satisfying isAffixMark (p.symbol :: rest) = .matched p.symbol rest := by
  cases p <;> rfl

theorem affixMark_symbol (p : Polarity) (rest : Word) :
    affixMark (p.symbol :: rest) = .matched (.leaf [p.symbol]) rest := by
  cases p <;> rfl

theorem fails_affixMark {s : Word} (h : Stops isAffixMark s) : Fails affixMark s :=
  fails_expecting (fails_bind (fails_satisfying h))

theorem separator_cons {c : Char} (hc : isBlank c = false) {rest : Word}
    (hrest : Stops isBlank rest) : separator c (c :: rest) = .matched (.leaf [c]) rest := by
  unfold separator blanks
  rw [bind_of_matched (skip_eq (stops_cons hc rest)), bind_of_matched (mark_cons c rest),
    bind_of_matched (skip_eq hrest)]
  rfl

theorem fails_separator {c : Char} {s : Word} (hblank : Stops isBlank s)
    (hc : s.head? ≠ some c) : Fails (separator c) s :=
  fails_bind_of_matched (skip_eq hblank) (fails_bind (fails_mark hc))

/-! ### Chains of affixes -/

namespace RuleText.Tree

/-- The tree is one of affixes and is read as the given operations. -/
def StandsFor (t : Tree) (xs : List Operation) : Prop :=
  ∃ label ts, t = .node label ts ∧ label.isWrapper = false ∧ label ≠ .conditional ∧
    t.readSegment = .ok xs

variable {t : Tree} {xs : List Operation}

theorem StandsFor.readItem (h : t.StandsFor xs) :
    (node .item [node .segment [t]]).readItem = .ok xs := by
  obtain ⟨label, ts, rfl, hwrapper, hlabel, hread⟩ := h
  rw [readItem_segment hwrapper hlabel ts, hread]

theorem StandsFor.readBranch (h : t.StandsFor xs) :
    (node .branch [t]).readBranch = .ok (.operations xs) := by
  obtain ⟨label, ts, rfl, -, -, hread⟩ := h
  rw [readBranch_node, hread, ok_bind]

end RuleText.Tree

/-- The trees of a link of a chain of postfixes. -/
def linkTrees (link : Allomorphs × Polarity) : List Tree :=
  [.leaf [link.2.symbol], link.1.tree]

section Links

variable {links : List (Allomorphs × Polarity)} (h : ∀ link ∈ links, link.1.IsLiteral)
include h

theorem readPostfixLinks_linkTrees (chain : Tree) :
    Tree.readPostfixLinks chain (links.map linkTrees).flatten = .ok (postfixChain links) := by
  induction links with
  | nil => rfl
  | cons link links ih =>
    have hform : link.1.tree.readLetters = .ok link.1 := (h link (by simp)).readLetters_tree
    have hlinks := ih fun other hother => h other (by simp [hother])
    simp only [List.map_cons, List.flatten_cons, linkTrees, List.cons_append, List.nil_append,
      Tree.readPostfixLinks, Tree.readPolarity_symbol, ok_bind, hform, hlinks]
    rfl

end Links

theorem pair_link {text : Word} {t : RuleText.Tree} {a : Allomorphs} (h : IsStretch text t a)
    (p : Polarity) {rest : Word} (hrest : Stops isLetterPart rest) :
    pair affixMark letters (p.symbol :: (text ++ rest)) = .matched [.leaf [p.symbol], t] rest := by
  unfold pair
  rw [bind_of_matched (affixMark_symbol _ _), bind_of_matched (h.matched hrest)]
  rfl

theorem stops_postfixChain {test : Char → Bool} (htest : ['+', '-', '.'].any test = false)
    {rest : Word} (hrest : Stops test rest) (links : List (Allomorphs × Polarity)) :
    Stops test ((postfixChain links).flatMap Operation.writeAffix ++ rest) := by
  cases links with
  | nil => exact hrest
  | cons link links => exact stops_symbol htest link.2 _

theorem many_links {links : List (Allomorphs × Polarity)} (h : ∀ link ∈ links, link.1.IsLiteral)
    {rest : Word} (hrest : Stops isLetterPart rest) (hmark : Stops isAffixMark rest) :
    many (pair affixMark letters) ((postfixChain links).flatMap Operation.writeAffix ++ rest) =
      .matched (links.map linkTrees) rest := by
  induction links with
  | nil => exact many_of_fails (fails_bind (fails_affixMark hmark))
  | cons link links ih =>
    have hform := h link (by simp)
    have hmore := ih fun other hother => h other (by simp [hother])
    have hstop := stops_postfixChain (by decide) hrest links
    have hlink := pair_link hform.isStretch link.2 hstop
    rw [writeAffix_postfixChain_cons]
    exact many_of_matched (advances_pair advances_affixMark advances_letters.forward) hlink hmore

/-! ### Affixes at the edges -/

/-- A circumfix needs letters behind its mark. -/
theorem fails_circumfix {text : Word} {t : RuleText.Tree} {a : Allomorphs}
    (h : IsStretch text t a) (p : Polarity) {rest : Word} (hrest : Stops isLetterPart rest) :
    Fails circumfix (text ++ p.symbol :: rest) := by
  have hstop : Stops isLetterPart (p.symbol :: rest) := stops_symbol (by decide) p rest
  refine fails_bind_of_matched (h.matched hstop) ?_
  exact fails_bind_of_matched (affixMark_symbol p rest) (fails_bind (fails_letters hrest))

theorem circumfix_standsFor {front back : Allomorphs} (hfront : front.IsLiteral)
    (hback : back.IsLiteral) (p : Polarity) {rest : Word} (hrest : Stops isLetterPart rest) :
    ∃ t, circumfix (front.spelling ++ p.symbol :: (back.spelling ++ rest)) = .matched t rest ∧
      t.StandsFor [.putAround front back p] := by
  have hstop : Stops isLetterPart (p.symbol :: (back.spelling ++ rest)) :=
    stops_symbol (by decide) p _
  refine ⟨.node .circumfix [front.tree, .leaf [p.symbol], back.tree], ?_, _, _, rfl, rfl,
    by decide, ?_⟩
  · unfold circumfix
    rw [bind_of_matched (letters_spelling hfront hstop), bind_of_matched (affixMark_symbol p _),
      bind_of_matched (letters_spelling hback hrest)]
    rfl
  · simp [Tree.readSegment_circumfix, hfront.readLetters_tree, hback.readLetters_tree]

theorem postfixes_links {link : Allomorphs × Polarity} {links : List (Allomorphs × Polarity)}
    (h : ∀ other ∈ link :: links, other.1.IsLiteral) {rest : Word}
    (hrest : Stops isLetterPart rest) (hmark : Stops isAffixMark rest) :
    postfixes ((postfixChain (link :: links)).flatMap Operation.writeAffix ++ rest) =
      .matched (.node .postfixes ((link :: links).map linkTrees).flatten) rest := by
  have hform := h link (by simp)
  have hforms : ∀ other ∈ links, other.1.IsLiteral := fun other hother => h other (by simp [hother])
  have hmore := many_links hforms hrest hmark
  have hlink := pair_link hform.isStretch link.2 (stops_postfixChain (by decide) hrest links)
  unfold postfixes
  rw [writeAffix_postfixChain_cons, bind_of_matched (many1_of_matched hlink hmore)]
  rfl

theorem readSegment_postfixes {links : List (Allomorphs × Polarity)}
    (h : ∀ link ∈ links, link.1.IsLiteral) :
    (RuleText.Tree.node .postfixes (links.map linkTrees).flatten).readSegment =
      .ok (postfixChain links) := by
  rw [Tree.readSegment_postfixes]
  exact readPostfixLinks_linkTrees h _

/-- A prefix takes with it the postfixes behind it. -/
theorem prefixes_standsFor {text : Word} {t : RuleText.Tree} {a : Allomorphs}
    (h : IsStretch text t a) (p : Polarity) {links : List (Allomorphs × Polarity)}
    (hlinks : ∀ link ∈ links, link.1.IsLiteral) {rest : Word} (hrest : Stops isLetterPart rest)
    (hmark : Stops isAffixMark rest) :
    ∃ chain, prefixes (text ++ p.symbol ::
        ((postfixChain links).flatMap Operation.writeAffix ++ rest)) = .matched chain rest ∧
      chain.StandsFor (.putBefore a p :: postfixChain links) := by
  have hstop := stops_postfixChain (by decide) hrest links
  have hfirst : pair letters affixMark (text ++ p.symbol ::
      ((postfixChain links).flatMap Operation.writeAffix ++ rest)) =
        .matched [t, .leaf [p.symbol]]
          ((postfixChain links).flatMap Operation.writeAffix ++ rest) := by
    unfold pair
    rw [bind_of_matched (h.matched (stops_symbol (by decide) p _)),
      bind_of_matched (affixMark_symbol p _)]
    rfl
  have hmore : many (pair letters affixMark)
      ((postfixChain links).flatMap Operation.writeAffix ++ rest) =
        .matched [] ((postfixChain links).flatMap Operation.writeAffix ++ rest) :=
    many_of_fails (fails_bind (fails_letters hstop))
  cases links with
  | nil =>
    have htail : optionally postfixes rest = .matched none rest :=
      optionally_of_fails (fails_bind (fails_many1 (fails_bind (fails_affixMark hmark))))
    refine ⟨.node .prefixes [t, .leaf [p.symbol]], ?_, _, _, rfl, rfl, by decide, ?_⟩
    · unfold prefixes
      rw [bind_of_matched (many1_of_matched hfirst hmore)]
      show (optionally postfixes >>= _) rest = _
      rw [bind_of_matched htail]
      rfl
    · simp [Tree.readSegment_prefixes, Tree.readPrefixLinks, h.read, postfixChain]
  | cons link links =>
    have htail := optionally_of_matched (postfixes_links hlinks hrest hmark)
    have hread := readPostfixLinks_linkTrees hlinks
    refine ⟨.node .prefixes [t, .leaf [p.symbol],
      .node .postfixes ((link :: links).map linkTrees).flatten], ?_, _, _, rfl, rfl,
      by decide, ?_⟩
    · unfold prefixes
      rw [bind_of_matched (many1_of_matched hfirst hmore), bind_of_matched htail]
      rfl
    · simp only [Tree.readSegment_prefixes, Tree.readPrefixLinks, Tree.readPolarity_symbol, ok_bind,
        h.read, Tree.childrenOf, if_true, hread, pure_eq_ok]

/-- A prefix is found behind the circumfix that it is not. -/
theorem edgeSegment_prefix {text : Word} {t : RuleText.Tree} {a : Allomorphs}
    (h : IsStretch text t a) (p : Polarity) {links : List (Allomorphs × Polarity)}
    (hlinks : ∀ link ∈ links, link.1.IsLiteral) {rest : Word} (hrest : Stops isLetterPart rest)
    (hmark : Stops isAffixMark rest) :
    ∃ chain, edgeSegment (text ++ p.symbol ::
        ((postfixChain links).flatMap Operation.writeAffix ++ rest)) = .matched chain rest ∧
      chain.StandsFor (.putBefore a p :: postfixChain links) := by
  obtain ⟨chain, hchain, hstands⟩ := prefixes_standsFor h p hlinks hrest hmark
  have hcircumfix := fails_circumfix h p (stops_postfixChain (by decide) hrest links)
  exact ⟨chain, (orElse_of_fails hcircumfix).trans (orElse_of_matched hchain), hstands⟩

/-- Where a mark comes first, only postfixes are found. -/
theorem edgeSegment_symbol (p : Polarity) (rest : Word) :
    edgeSegment (p.symbol :: rest) = postfixes (p.symbol :: rest) := by
  have hletters : Fails letters (p.symbol :: rest) :=
    fails_letters (stops_symbol (by decide) p rest)
  have hprefixes : Fails prefixes (p.symbol :: rest) :=
    fails_bind (fails_many1 (fails_bind hletters))
  exact (orElse_of_fails (fails_bind hletters)).trans (orElse_of_fails hprefixes)

/-- A single postfix of any letters. -/
theorem edgeSegment_postfix {text : Word} {t : RuleText.Tree} {a : Allomorphs}
    (h : IsStretch text t a) (p : Polarity) {rest : Word} (hrest : Stops isLetterPart rest)
    (hmark : Stops isAffixMark rest) :
    ∃ chain, edgeSegment (p.symbol :: (text ++ rest)) = .matched chain rest ∧
      chain.StandsFor [.putAfter a p] := by
  have hmore : many (pair affixMark letters) rest = .matched [] rest :=
    many_of_fails (fails_bind (fails_affixMark hmark))
  refine ⟨.node .postfixes [.leaf [p.symbol], t], ?_, _, _, rfl, rfl, by decide, ?_⟩
  · rw [edgeSegment_symbol]
    unfold postfixes
    rw [bind_of_matched (many1_of_matched (pair_link h p hrest) hmore)]
    rfl
  · simp [Tree.readSegment_postfixes, Tree.readPostfixLinks, h.read]

/-- Each kind of chain is found, though circumfixes are tried before prefixes and
    these before postfixes. -/
theorem edgeSegment_standsFor {xs : List Operation} (hchain : IsChain xs)
    (h : ∀ x ∈ xs, x.HasLiterals) {rest : Word} (hrest : Stops isLetterPart rest)
    (hmark : Stops isAffixMark rest) :
    ∃ t, edgeSegment (xs.flatMap Operation.writeAffix ++ rest) = .matched t rest ∧
      t.StandsFor xs := by
  cases hchain with
  | around front back p =>
    have hforms := h _ (List.mem_singleton_self _)
    have hfront : front.IsLiteral := hforms front (by simp)
    have hback : back.IsLiteral := hforms back (by simp)
    obtain ⟨t, ht, hstands⟩ := circumfix_standsFor hfront hback p hrest
    refine ⟨t, ?_, hstands⟩
    have htext : [Operation.putAround front back p].flatMap Operation.writeAffix ++ rest =
        front.spelling ++ p.symbol :: (back.spelling ++ rest) := by
      simp
    rw [htext]
    exact orElse_of_matched ht
  | before form p links =>
    have hform : form.IsLiteral := h (.putBefore form p) (by simp) form (by simp)
    have hlinks : ∀ link ∈ links, link.1.IsLiteral :=
      hasLiterals_postfixChain.mp fun x hx => h x (by simp [hx])
    obtain ⟨t, ht, hstands⟩ := edgeSegment_prefix hform.isStretch p hlinks hrest hmark
    refine ⟨t, ?_, hstands⟩
    have htext : (Operation.putBefore form p :: postfixChain links).flatMap Operation.writeAffix
        ++ rest = form.spelling ++ p.symbol ::
          ((postfixChain links).flatMap Operation.writeAffix ++ rest) := by
      simp
    rw [htext]
    exact ht
  | after form p links =>
    have hlinks : ∀ link ∈ (form, p) :: links, link.1.IsLiteral :=
      hasLiterals_postfixChain.mp h
    refine ⟨_, ?_, _, _, rfl, rfl, by decide, readSegment_postfixes hlinks⟩
    exact (edgeSegment_symbol p _).trans (postfixes_links hlinks hrest hmark)

end WordFormation
