/-
  WordFormation/Proofs/RuleText/PostfixChains.lean
  ================================================
  **A chain of postfixes that is a whole rule.**

  In a branch of a conditional, and behind a prefix, postfixes can be chained
  whatever their marks are.  As an item of its own a chain meets one more
  competitor: an interfix is tried before it, and an interfix is a mark, letters,
  and the same mark once more.  A chain whose first two marks are equal begins like
  that.  The choice is not taken back, so the letters of the second link are left
  over and the text is no rule; every other chain is one (`ofText_postfixChain`).

  A rule of one item has no list for the item to stand in: what follows the item
  follows the rule (`rule_of_lone_item`).
-/
import WordFormation.Proofs.RuleText.Items

namespace WordFormation

open RuleText RuleText.Production RuleText.Grammar

/-! ### Rules of one item -/

/-- The tree of a rule whose one item has the given tree. -/
def loneItemTree (t : Tree) : Tree := .node .rule [.node .stages [.node .group [t]]]

/-- Where neither a further item nor a further group follows, the rule ends with
    its item. -/
theorem rule_of_lone_item {s rest : Word} {t : Tree} (hitem : item s = .matched t rest)
    (hstart : Stops isBlank s) (hat : s.head? ≠ some '@') (hblank : Stops isBlank rest)
    (hcomma : rest.head? ≠ some ',') (hsemicolon : rest.head? ≠ some ';') :
    rule s = .matched (loneItemTree t) rest := by
  have hitems : separated ',' (orElse item (parenthesised item)) s = .matched [t] rest :=
    separated_single (orElse_of_matched hitem) hblank hcomma
  have hgroup : group s = .matched (.node .group [t]) rest := by
    unfold group
    exact bind_of_matched hitems
  have hgroups : separated ';' (orElse group (parenthesised group)) s =
      .matched [.node .group [t]] rest :=
    separated_single (orElse_of_matched hgroup) hblank hsemicolon
  have hstages : stages s = .matched (.node .stages [.node .group [t]]) rest := by
    unfold stages
    exact bind_of_matched hgroups
  have hcontext : optionally context s = .matched none s :=
    optionally_of_fails (fails_bind (fails_separator hstart hat))
  unfold rule blanks
  rw [bind_of_matched (skip_eq hstart), bind_of_matched hcontext, bind_of_matched hstages,
    bind_of_matched (skip_eq hblank)]
  rfl

/-- Such a rule is read as its item is. -/
theorem readRule_loneItemTree_eq (t : Tree) :
    (loneItemTree t).readRule = t.unparenthesised.readItem >>= fun xs => .ok ⟨none, [xs]⟩ := by
  have hitems (u : Tree) : Tree.items [u] = [u] := rfl
  have hgroup : (RuleText.Tree.node .group [t]).unparenthesised = .node .group [t] := rfl
  rw [loneItemTree, ← List.nil_append [RuleText.Tree.node .stages _], Tree.readRule_groups,
    Tree.readStages_node, hitems, List.mapM_cons, hgroup, Tree.readGroup_node, hitems,
    List.mapM_cons]
  cases t.unparenthesised.readItem with
  | error failure => rfl
  | ok xs => simp

theorem readRule_loneItemTree {t : Tree} {xs : List Operation}
    (h : t.unparenthesised.readItem = .ok xs) :
    (loneItemTree t).readRule = .ok ⟨none, [xs]⟩ := by
  rw [readRule_loneItemTree_eq, h, ok_bind]

/-- A text that is one item is a rule with what the item is read as in its one
    group. -/
theorem exists_ofText_of_lone_item {text : Word} {xs : List Operation}
    (hshallow : tooDeep? 0 text = none) (hstart : Stops isBlank text)
    (hat : text.head? ≠ some '@') (hitem : ItemMatches text [] xs)
    (hassembles : ∀ x ∈ xs, x.Assembles) :
    ∃ r, Rule.ofText text = .ok r ∧ r.blueprint = ⟨none, [xs]⟩ := by
  obtain ⟨t, hitem, hread⟩ := hitem
  rw [List.append_nil] at hitem
  have hrule := rule_of_lone_item hitem hstart hat (stops_nil isBlank) (by simp) (by simp)
  have hparse : parse text = .ok (loneItemTree t) := parse_eq_ok.mpr ⟨hshallow, hrule⟩
  have hgroups : ∀ g ∈ [xs], ∀ x ∈ g, x.Assembles := List.forall_mem_singleton.mpr hassembles
  obtain ⟨assembled, hassembled⟩ := exists_assembleGroups hgroups
  refine ⟨⟨_, assembled⟩, ?_, rfl⟩
  simp [Rule.ofText, Blueprint.ofText, hparse, readRule_loneItemTree hread, Rule.ofBlueprint,
    hassembled]

/-! ### Chains -/

/-- The text of a chain, its links side by side. -/
abbrev writeChain (links : List (Allomorphs × Polarity)) : Word :=
  (postfixChain links).flatMap Operation.writeAffix

section Chain

variable {link : Allomorphs × Polarity} {links : List (Allomorphs × Polarity)}
  (h : ∀ other ∈ link :: links, other.1.IsLiteral)
include h

theorem isPlain_writeChain : IsPlain (writeChain (link :: links)) := by
  apply IsPlain.flatMap
  intro x hx
  exact Operation.isPlain_writeAffix (hasLiterals_postfixChain.mpr h x hx)

/-- A chain is found where its second mark is not the first one again. -/
theorem itemMatches_postfixChain (hmarks : links.head?.map Prod.snd ≠ some link.2) :
    ItemMatches (writeChain (link :: links)) [] (postfixChain (link :: links)) := by
  have hform : link.1.IsLiteral := h link List.mem_cons_self
  have htext : writeChain (link :: links) ++ [] =
      link.2.symbol :: (link.1.spelling ++ writeChain links) := by
    simp [writeChain, postfixChain]
  have hletters : Stops isLetterPart (writeChain links) := by
    have := stops_postfixChain (by decide) (stops_nil isLetterPart) links
    rwa [List.append_nil] at this
  have hends : EndsTest (writeChain links) := by
    cases links with
    | nil => exact (endsAt_nil itemEnds).endsTest
    | cons next links => exact endsTest_symbol next.2 _
  have hmark : (writeChain links).head? ≠ some link.2.symbol := by
    cases links with
    | nil => simp [writeChain, postfixChain]
    | cons next links =>
      intro hhead
      have hsymbols : next.2.symbol = link.2.symbol := Option.some.inj hhead
      have hpolarities : Polarity.ofSymbol? next.2.symbol = Polarity.ofSymbol? link.2.symbol := by
        rw [hsymbols]
      rw [Polarity.ofSymbol?_symbol, Polarity.ofSymbol?_symbol] at hpolarities
      exact hmarks hpolarities
  have hchain : IsChain (postfixChain (link :: links)) := IsChain.after link.1 link.2 links
  obtain ⟨t, ht, hstands⟩ := edgeSegment_standsFor hchain (hasLiterals_postfixChain.mpr h)
    (stops_nil isLetterPart) (stops_nil isAffixMark)
  have hno : NoTest (writeChain (link :: links) ++ []) := by
    rw [htext]
    exact noTest_symbol hform.isStretch link.2 hletters hends
  have hinterfix : Fails interfix (writeChain (link :: links) ++ []) := by
    rw [htext]
    exact fails_interfix hform.isStretch link.2 hletters hmark
  exact itemMatches_segment hno ((orElse_of_fails hinterfix).trans ht) hstands

/-- **A chain of postfixes is a rule of these postfixes, unless its first two marks
    are equal.**  If they are, the chain is taken for an interfix up to the second
    mark, and the text is refused in front of the letters behind it. -/
theorem Rule.ofText_postfixChain :
    (links.head?.map Prod.snd ≠ some link.2 →
      ∃ r, Rule.ofText (writeChain (link :: links)) = .ok r ∧
        r.blueprint = ⟨none, [postfixChain (link :: links)]⟩) ∧
    ∀ next others, links = next :: others → next.2 = link.2 →
      Rule.ofText (writeChain (link :: links)) =
        .error (.parsing ⟨writeChain (link :: links), next.1.spelling ++ writeChain others,
          .leftover⟩) := by
  have hplain : IsPlain (writeChain (link :: links)) := isPlain_writeChain h
  have hshallow : tooDeep? 0 (writeChain (link :: links)) = none := tooDeep?_of_isPlain hplain 0
  have hstart : Stops isBlank (writeChain (link :: links)) := stops_symbol (by decide) link.2 _
  have hat : (writeChain (link :: links)).head? ≠ some '@' := by
    intro hhead
    have hmem : '@' ∈ writeChain (link :: links) := List.mem_of_head? hhead
    exact ne_of_isPlain (hplain '@' hmem) (by decide) rfl
  constructor
  · intro hmarks
    obtain ⟨t, hitem, hread⟩ := itemMatches_postfixChain h hmarks
    rw [List.append_nil] at hitem
    have hrule := rule_of_lone_item hitem hstart hat (stops_nil isBlank) (by simp) (by simp)
    have hparse : parse (writeChain (link :: links)) = .ok (loneItemTree t) :=
      parse_eq_ok.mpr ⟨hshallow, hrule⟩
    have hassembles : ∀ g ∈ [postfixChain (link :: links)], ∀ x ∈ g, x.Assembles := by
      intro g hg
      rw [List.mem_singleton.mp hg]
      exact (IsChain.after link.1 link.2 links).assembles
    obtain ⟨assembled, hassembled⟩ := exists_assembleGroups hassembles
    refine ⟨⟨_, assembled⟩, ?_, rfl⟩
    simp [Rule.ofText, Blueprint.ofText, hparse, readRule_loneItemTree hread, Rule.ofBlueprint,
      hassembled]
  · rintro next others rfl hmark
    have hform : link.1.IsLiteral := h link List.mem_cons_self
    have hnext : next.1.IsLiteral := h next (List.mem_cons_of_mem link List.mem_cons_self)
    let rest := next.1.spelling ++ writeChain others
    have hrest : rest ≠ [] := List.append_ne_nil_of_left_ne_nil hnext.spelling_ne_nil _
    have htext : writeChain (link :: next :: others) =
        (Operation.putBetween link.1 link.2).writeAffix ++ rest := by
      simp [writeChain, postfixChain, hmark, rest]
    obtain ⟨t, hitem, -⟩ := itemMatches_interfix hform link.2 rest
    rw [← htext] at hitem
    have hrule := rule_of_lone_item hitem hstart hat (hnext.stops (fun _ => isBlank_of_isLetter) _)
      (hnext.head_ne (by decide) _) (hnext.head_ne (by decide) _)
    have hparse : parse (writeChain (link :: next :: others)) =
        .error ⟨writeChain (link :: next :: others), rest, .leftover⟩ := by
      rw [parse, hshallow]
      cases hrest' : rest with
      | nil => exact absurd hrest' hrest
      | cons c more => simp [parseAnyDepth, hrule, hrest']
    simp [Rule.ofText, Blueprint.ofText, hparse, rest]

end Chain

/-- Two links with different marks, side by side in one group. -/
theorem Rule.ofText_postfixChain_alternating :
    (∀ link ∈ [(Allomorphs.only ['t'], Polarity.toggle), (.only ['e', 'n'], .insert)],
      link.1.IsLiteral) ∧
    ∃ r, Rule.ofText ".t+en".toList = .ok r ∧ r.blueprint =
      ⟨none, [[.putAfter (.only ['t']) .toggle, .putAfter (.only ['e', 'n']) .insert]]⟩ := by
  have ht : (Allomorphs.only ['t']).IsLiteral := Allomorphs.isLiteral_only (by decide) (by decide)
  have hen : (Allomorphs.only ['e', 'n']).IsLiteral :=
    Allomorphs.isLiteral_only (by decide) (by decide)
  have h : ∀ link ∈ [(Allomorphs.only ['t'], Polarity.toggle), (.only ['e', 'n'], .insert)],
      link.1.IsLiteral := List.forall_mem_cons.mpr ⟨ht, List.forall_mem_singleton.mpr hen⟩
  exact ⟨h, (Rule.ofText_postfixChain h).1 (by decide)⟩

/-- Two links with one mark are no rule: `+a+` is taken for an interfix. -/
theorem Rule.ofText_doubled_mark :
    ¬ ∀ links : List (Allomorphs × Polarity), links ≠ [] → (∀ link ∈ links, link.1.IsLiteral) →
      ∃ r, Rule.ofText (writeChain links) = .ok r ∧ r.blueprint = ⟨none, [postfixChain links]⟩ := by
  intro hall
  have ha : (Allomorphs.only ['a']).IsLiteral := Allomorphs.isLiteral_only (by decide) (by decide)
  have hb : (Allomorphs.only ['b']).IsLiteral := Allomorphs.isLiteral_only (by decide) (by decide)
  have h : ∀ link ∈ [(Allomorphs.only ['a'], Polarity.insert), (.only ['b'], .insert)],
      link.1.IsLiteral := List.forall_mem_cons.mpr ⟨ha, List.forall_mem_singleton.mpr hb⟩
  obtain ⟨r, hr, -⟩ := hall _ (by decide) h
  have hrefused : Rule.ofText (writeChain [(.only ['a'], .insert), (.only ['b'], .insert)]) =
      .error (.parsing ⟨"+a+b".toList, ['b'], .leftover⟩) := rfl
  rw [hrefused] at hr
  cases hr

end WordFormation
