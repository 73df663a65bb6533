/-
  WordFormation/Proofs/RuleText/Items.lean
  ========================================
  **Items, groups and whole rules are read as what they were written for.**

  An item is tried as a conditional first.  The text of an affix can begin like a
  test, `ge-` and `-t` even are tests, but then neither a bar nor a question mark
  follows (`fails_conditional`).  Next it is tried as an interfix, which needs
  its mark once more behind the letters (`fails_interfix`).

  With this every item, and so every group and every list of groups, is matched
  up to its end and read as what it was written for (`ofText_write`).
-/
import WordFormation.Proofs.Assembling
import WordFormation.Proofs.RuleText.Recognition

namespace WordFormation

open RuleText RuleText.Production RuleText.Grammar

/-! ### No affix is a conditional -/

/-- Neither a further test nor a branch follows. -/
structure EndsTest (rest : Word) : Prop where
  blank : Stops isBlank rest
  bar : rest.head? ≠ some '|'
  question : rest.head? ≠ some '?'

theorem EndsAt.endsTest {rest : Word} (h : EndsAt itemEnds rest) : EndsTest rest :=
  ⟨h.stops (by decide), h.head_ne (by decide), h.head_ne (by decide)⟩

theorem Allomorphs.IsLiteral.endsTest {a : Allomorphs} (h : a.IsLiteral) (rest : Word) :
    EndsTest (a.spelling ++ rest) :=
  ⟨h.stops (fun _ => isBlank_of_isLetter) rest, h.head_ne (by decide) rest,
    h.head_ne (by decide) rest⟩

theorem endsTest_symbol (p : Polarity) (rest : Word) : EndsTest (p.symbol :: rest) := by
  cases p <;> exact ⟨stops_cons (by decide) rest, by simp [Polarity.symbol],
    by simp [Polarity.symbol]⟩

/-- The text does not begin with a test, or with one that nothing is asked of. -/
def NoTest (s : Word) : Prop :=
  Fails test s ∨ ∃ tree rest, test s = .matched tree rest ∧ EndsTest rest

theorem fails_conditional {s : Word} (h : NoTest s) : Fails conditional s := by
  rcases h with hfails | ⟨tree, rest, htest, hrest⟩
  · have hcondition : Fails condition s := fails_bind (fails_bind hfails)
    exact fails_orElse (fails_bind hcondition) (fails_bind hcondition)
  · have hcondition : condition s = .matched (.node .condition [tree]) rest := by
      unfold condition
      rw [bind_of_matched (separated_single htest hrest.blank hrest.bar)]
      rfl
    have hquestion : Fails (separator '?') rest := fails_separator hrest.blank hrest.question
    exact fails_orElse (fails_bind_of_matched hcondition (fails_bind hquestion))
      (fails_bind_of_matched hcondition (fails_bind hquestion))

section Stretch

variable {text : Word} {t : RuleText.Tree} {a : Allomorphs} (h : IsStretch text t a)
include h

/-- Letters with a mark behind them are a test at most up to the mark. -/
theorem noTest_letters (p : Polarity) {rest : Word} (hrest : EndsTest rest) :
    NoTest (text ++ p.symbol :: rest) := by
  have hnegation : optionally (mark '~') (text ++ p.symbol :: rest) =
      .matched none (text ++ p.symbol :: rest) :=
    optionally_of_fails (fails_mark (h.head_ne (by decide) (by decide) _))
  have hletters := h.matched (stops_symbol (by decide) p rest)
  by_cases hp : p = .remove
  · subst hp
    right
    have hstart : startTest (text ++ Polarity.remove.symbol :: rest) =
        .matched [t, .leaf ['-']] rest := startTest_written h rest
    refine ⟨.node .test [t, .leaf ['-']], rest, ?_, hrest⟩
    unfold test
    rw [bind_of_matched hnegation, bind_of_matched (orElse_of_matched hstart)]
    rfl
  · left
    have hdash : Fails (mark '-') (p.symbol :: rest) := by
      refine fails_mark fun hhead => ?_
      cases p with
      | insert => cases hhead
      | remove => exact hp rfl
      | toggle => cases hhead
    have hfinal : Fails finalTest (text ++ p.symbol :: rest) :=
      fails_bind (fails_mark (h.head_ne (by decide) (by decide) _))
    refine fails_bind_of_matched hnegation (fails_bind (fails_orElse ?_ hfinal))
    exact fails_bind_of_matched hletters (fails_bind hdash)

/-- A mark with letters behind it is a test at most up to the end of the
    letters. -/
theorem noTest_symbol (p : Polarity) {rest : Word} (hletters : Stops isLetterPart rest)
    (hrest : EndsTest rest) : NoTest (p.symbol :: (text ++ rest)) := by
  have hstart : Fails startTest (p.symbol :: (text ++ rest)) :=
    fails_bind (fails_letters (stops_symbol (by decide) p _))
  have hnegation : optionally (mark '~') (p.symbol :: (text ++ rest)) =
      .matched none (p.symbol :: (text ++ rest)) :=
    optionally_of_fails (fails_mark (by cases p <;> simp [Polarity.symbol]))
  by_cases hp : p = .remove
  · subst hp
    right
    have hfinal : finalTest (Polarity.remove.symbol :: (text ++ rest)) =
        .matched [.leaf ['-'], t] rest := finalTest_written h hletters
    have hbody := (orElse_of_fails hstart).trans hfinal
    refine ⟨.node .test [.leaf ['-'], t], rest, ?_, hrest⟩
    unfold test
    rw [bind_of_matched hnegation, bind_of_matched hbody]
    rfl
  · left
    have hdash : Fails (mark '-') (p.symbol :: (text ++ rest)) := by
      refine fails_mark fun hhead => ?_
      cases p with
      | insert => cases hhead
      | remove => exact hp rfl
      | toggle => cases hhead
    exact fails_bind_of_matched hnegation (fails_bind (fails_orElse hstart (fails_bind hdash)))

/-! ### Items -/

theorem fails_interfix_letters (rest : Word) : Fails interfix (text ++ rest) :=
  fails_bind (fails_satisfying (h.stops (fun _ => isAffixMark_of_isLetter) (by decide) rest))

/-- An interfix needs its mark once more behind the letters. -/
theorem fails_interfix (p : Polarity) {rest : Word} (hletters : Stops isLetterPart rest)
    (hmark : rest.head? ≠ some p.symbol) : Fails interfix (p.symbol :: (text ++ rest)) := by
  refine fails_bind_of_matched (satisfying_symbol p _) ?_
  exact fails_bind_of_matched (h.matched hletters) (fails_bind (fails_mark hmark))

end Stretch

theorem interfix_standsFor {form : Allomorphs} (h : form.IsLiteral) (p : Polarity) (rest : Word) :
    ∃ t, interfix (p.symbol :: (form.spelling ++ p.symbol :: rest)) = .matched t rest ∧
      t.StandsFor [.putBetween form p] := by
  refine ⟨.node .interfix [.leaf [p.symbol], form.tree, .leaf [p.symbol]], ?_, _, _, rfl, rfl,
    by decide, ?_⟩
  · unfold interfix
    rw [bind_of_matched (satisfying_symbol p _),
      bind_of_matched (letters_spelling h (stops_symbol (by decide) p rest)),
      bind_of_matched (mark_cons p.symbol rest)]
    rfl
  · simp [Tree.readSegment_interfix, h.readLetters_tree, Operation.putBetween]

/-- What an item is matched by. -/
def ItemMatches (text rest : Word) (xs : List Operation) : Prop :=
  ∃ t, item (text ++ rest) = .matched t rest ∧ t.unparenthesised.readItem = .ok xs

theorem itemMatches_segment {text rest : Word} {xs : List Operation} {t : Tree}
    (hno : NoTest (text ++ rest))
    (ht : orElse interfix edgeSegment (text ++ rest) = .matched t rest) (hstands : t.StandsFor xs) :
    ItemMatches text rest xs := by
  refine ⟨.node .item [.node .segment [t]], ?_, hstands.readItem⟩
  have hsegment : Grammar.segment (text ++ rest) = .matched (.node .segment [t]) rest := by
    unfold Grammar.segment
    exact bind_of_matched (expecting_of_matched ht)
  unfold item
  exact bind_of_matched ((orElse_of_fails (fails_conditional hno)).trans hsegment)

theorem itemMatches_conditional {asking : Word} {c : EdgeCondition} {met unmet : Branch}
    (hc : ConditionMatches asking c) (hmet : met.IsWritable) (hunmet : unmet.IsWritable)
    (hsome : met ≠ .identity ∨ unmet ≠ .identity) {rest : Word} (hrest : EndsAt itemEnds rest) :
    ItemMatches (asking ++ '?' :: (met.write ++ unmet.writeUnmet)) rest
      [.conditional c met unmet] := by
  have hconditional : ∃ ts, conditional (asking ++ '?' :: (met.write ++ unmet.writeUnmet) ++ rest) =
      .matched (.node .conditional ts) rest ∧
      (RuleText.Tree.node .conditional ts).readConditional = .ok (.conditional c met unmet) := by
    by_cases hidentity : met = .identity
    · have hne : unmet ≠ .identity := hsome.resolve_left fun h => h hidentity
      exact conditional_written_unmet hc hunmet hidentity hne hrest
    · obtain ⟨ts, hts, hread⟩ := conditionalMet_written hc hunmet hmet hidentity hrest
      exact ⟨ts, orElse_of_matched hts, hread⟩
  obtain ⟨ts, hts, hread⟩ := hconditional
  refine ⟨.node .item [.node .conditional ts], ?_, ?_⟩
  · unfold item
    exact bind_of_matched (orElse_of_matched hts)
  · have hitem := Tree.readItem_conditional ts
    rw [hread] at hitem
    exact hitem

/-- An affix at an edge is found if nothing that is tried before it matches. -/
theorem itemMatches_chain {x : Operation} (hchain : IsChain [x]) (hforms : x.HasLiterals)
    {rest : Word} (hrest : EndsAt itemEnds rest) (hno : NoTest (x.writeAffix ++ rest))
    (hinterfix : Fails interfix (x.writeAffix ++ rest)) : ItemMatches x.writeAffix rest [x] := by
  obtain ⟨t, ht, hstands⟩ := edgeSegment_standsFor hchain
    (fun y hy => by rw [List.mem_singleton.mp hy]; exact hforms)
    (hrest.stops (by decide)) (hrest.stops (by decide))
  rw [List.flatMap_singleton] at ht
  exact itemMatches_segment hno ((orElse_of_fails hinterfix).trans ht) hstands

theorem itemMatches_prefix {text : Word} {t : RuleText.Tree} {a : Allomorphs}
    (h : IsStretch text t a) (p : Polarity) {rest : Word} (hrest : EndsAt itemEnds rest) :
    ItemMatches (text ++ [p.symbol]) rest [.putBefore a p] := by
  have htext : (text ++ [p.symbol]) ++ rest = text ++ p.symbol :: rest := by simp
  have hlinks : ∀ link ∈ ([] : List (Allomorphs × Polarity)), link.1.IsLiteral := by simp
  obtain ⟨chain, hchain, hstands⟩ := edgeSegment_prefix h p hlinks (hrest.stops (by decide))
    (hrest.stops (by decide))
  have hinterfix := fails_interfix_letters h (p.symbol :: rest)
  refine itemMatches_segment (t := chain) ?_ ?_ hstands
  · rw [htext]
    exact noTest_letters h p hrest.endsTest
  · rw [htext]
    exact (orElse_of_fails hinterfix).trans hchain

theorem itemMatches_postfix {text : Word} {t : RuleText.Tree} {a : Allomorphs}
    (h : IsStretch text t a) (p : Polarity) {rest : Word} (hrest : EndsAt itemEnds rest) :
    ItemMatches (p.symbol :: text) rest [.putAfter a p] := by
  have hletters : Stops isLetterPart rest := hrest.stops (by decide)
  have hmark : rest.head? ≠ some p.symbol := hrest.head_ne (by cases p <;> decide)
  obtain ⟨chain, hchain, hstands⟩ := edgeSegment_postfix h p hletters (hrest.stops (by decide))
  have hinterfix := fails_interfix h p hletters hmark
  exact itemMatches_segment (noTest_symbol h p hletters hrest.endsTest)
    ((orElse_of_fails hinterfix).trans hchain) hstands

theorem itemMatches_circumfix {front back : Allomorphs} (hfront : front.IsLiteral)
    (hback : back.IsLiteral) (p : Polarity) {rest : Word} (hrest : EndsAt itemEnds rest) :
    ItemMatches (Operation.putAround front back p).writeAffix rest [.putAround front back p] := by
  have htext : (Operation.putAround front back p).writeAffix ++ rest =
      front.spelling ++ p.symbol :: (back.spelling ++ rest) := by
    simp
  refine itemMatches_chain (IsChain.around front back p) (by simpa using ⟨hfront, hback⟩) hrest
    ?_ ?_
  · rw [htext]
    exact noTest_letters hfront.isStretch p (hback.endsTest rest)
  · rw [htext]
    exact fails_interfix_letters hfront.isStretch _

theorem itemMatches_interfix {form : Allomorphs} (h : form.IsLiteral) (p : Polarity)
    (rest : Word) :
    ItemMatches (Operation.putBetween form p).writeAffix rest [.putBetween form p] := by
  have htext : (Operation.putBetween form p).writeAffix ++ rest =
      p.symbol :: (form.spelling ++ p.symbol :: rest) := by
    simp
  obtain ⟨t, ht, hstands⟩ := interfix_standsFor h p rest
  have hno := noTest_symbol h.isStretch p (stops_symbol (by decide) p rest) (endsTest_symbol p rest)
  rw [← htext] at hno ht
  exact itemMatches_segment hno (orElse_of_matched ht) hstands

theorem exists_operands {kind : AffixKind} {operands : List Allomorphs}
    (h : operands.length = kind.arity) :
    (kind = .circumfixed ∧ ∃ front back, operands = [front, back]) ∨
      (kind ≠ .circumfixed ∧ ∃ form, operands = [form]) := by
  cases kind with
  | circumfixed =>
    rcases operands with _ | ⟨front, _ | ⟨back, _ | ⟨more, operands⟩⟩⟩
    · cases h
    · cases h
    · exact .inl ⟨rfl, front, back, rfl⟩
    · cases h
  | _ => exact .inr ⟨by simp, List.length_eq_one_iff.mp h⟩

/-- Every operation is matched up to its end. -/
theorem itemMatches_write {x : Operation} (h : x.IsWritable) {rest : Word}
    (hrest : EndsAt itemEnds rest) : ItemMatches x.write rest [x] := by
  cases h with
  | conditional hc hmet hunmet hsome =>
    exact itemMatches_conditional (condition_written hc) hmet hunmet hsome hrest
  | @affix kind p operands harity hforms =>
    rcases exists_operands harity with ⟨rfl, front, back, rfl⟩ | ⟨hkind, form, rfl⟩
    · exact itemMatches_circumfix (hforms front (by simp)) (hforms back (by simp)) p hrest
    · have hform : form.IsLiteral := hforms form (by simp)
      cases kind with
      | prefixed => exact itemMatches_prefix hform.isStretch p hrest
      | postfixed => exact itemMatches_postfix hform.isStretch p hrest
      | circumfixed => exact absurd rfl hkind
      | interfixed => exact itemMatches_interfix hform p rest

/-! ### Groups -/

theorem Operation.IsWritable.isPlain_write {x : Operation} (h : x.IsWritable) :
    IsPlain x.write := by
  cases h with
  | @affix kind p operands _ hforms => exact AffixKind.isPlain_write (IsPlain.symbol p) kind hforms
  | @conditional c met unmet hc hmet hunmet _ =>
    refine hc.isPlain_write.append (IsPlain.cons (by decide) (hmet.isPlain_write.append ?_))
    by_cases hno : unmet = .identity
    · rw [hno]
      exact IsPlain.nil
    · rw [Branch.writeUnmet_of_ne hno]
      exact IsPlain.cons (by decide) hunmet.isPlain_write

theorem Operation.IsWritable.write_ne_nil {x : Operation} (h : x.IsWritable) : x.write ≠ [] := by
  cases h with
  | conditional _ _ _ _ => simp [Operation.write]
  | @affix kind p operands harity _ =>
    rcases exists_operands harity with ⟨rfl, front, back, rfl⟩ | ⟨hkind, form, rfl⟩
    · simp [Operation.write, Operation.writeAffix, AffixKind.write]
    · cases kind with
      | circumfixed => exact absurd rfl hkind
      | _ => simp [Operation.write, Operation.writeAffix, AffixKind.write]

namespace RuleText.Tree

/-- What can be read as an item is no mark. -/
theorem isMark_of_readItem {t : Tree} {xs : List Operation}
    (h : t.unparenthesised.readItem = .ok xs) (c : Char) : t.isMark c = false := by
  cases t with
  | leaf text => cases h
  | node label ts => rfl

/-- A group is never taken for something in parentheses. -/
theorem unparenthesised_group {ts : List Tree} {xs : List Operation}
    (h : (node .group ts).readGroup = .ok xs) :
    (node .group ts).unparenthesised = node .group ts := by
  rcases ts with _ | ⟨t, _ | ⟨u, ts⟩⟩
  · rfl
  · rfl
  · have hitems : items (t :: u :: ts) = t :: items ts := rfl
    rw [readGroup_node, hitems, List.mapM_cons] at h
    obtain ⟨lists, hlists, -⟩ := bind_eq_ok.mp h
    obtain ⟨ys, hys, -⟩ := bind_eq_ok.mp hlists
    simp [unparenthesised, children, isMark_of_readItem hys '(']

end RuleText.Tree

section Group

variable {xs : List Operation} (h : ∀ x ∈ xs, x.IsWritable)
include h

theorem isPlain_writeGroup : IsPlain (writeGroup xs) := by
  refine IsPlain.joined (by decide) fun text htext => ?_
  obtain ⟨x, hx, rfl⟩ := List.mem_map.mp htext
  exact (h x hx).isPlain_write

theorem writeGroup_ne_nil (hne : xs ≠ []) : writeGroup xs ≠ [] := by
  cases xs with
  | nil => exact absurd rfl hne
  | cons x xs => simp [writeGroup, joined, (h x (by simp)).write_ne_nil]

theorem group_written (hne : xs ≠ []) {rest : Word} (hrest : EndsAt [';'] rest) :
    ∃ t, group (writeGroup xs ++ rest) = .matched t rest ∧
      t.unparenthesised.readGroup = .ok xs := by
  obtain ⟨ts, hts, hread⟩ := separated_joined (by decide : isBlank ',' = false)
    (by decide : [';'].any isBlank = false) (by decide)
    (advances_orElse advances_item (advances_parenthesised advances_item.forward)) hne
    (fun x hx rest hrest => by
      obtain ⟨t, ht, hread⟩ := itemMatches_write (h x hx) hrest
      exact ⟨t, orElse_of_matched ht, hread⟩)
    (fun x hx rest => (h x hx).isPlain_write.stops_isBlank (h x hx).write_ne_nil rest) hrest
  have hgroup : (RuleText.Tree.node .group ts).readGroup = .ok xs := by
    simp [Tree.readGroup_node, hread, ← List.flatMap_def]
  refine ⟨.node .group ts, ?_, ?_⟩
  · unfold group
    exact bind_of_matched hts
  · rw [Tree.unparenthesised_group hgroup, hgroup]

end Group

/-! ### Rules -/

section Rule

variable {b : Blueprint} (h : b.IsWritable)
include h

theorem Blueprint.IsWritable.isPlain_write : IsPlain b.write := by
  refine IsPlain.joined (by decide) fun text htext => ?_
  obtain ⟨g, hg, rfl⟩ := List.mem_map.mp htext
  exact isPlain_writeGroup (h.operations g hg)

theorem Blueprint.IsWritable.write_ne_nil : b.write ≠ [] := by
  obtain ⟨context, groups⟩ := b
  cases groups with
  | nil => exact absurd rfl h.groups
  | cons g groups =>
    have hg := writeGroup_ne_nil (h.operations g List.mem_cons_self)
      (h.nonempty g List.mem_cons_self)
    simp [Blueprint.write, joined, hg]

theorem stages_written :
    ∃ t, stages b.write = .matched t [] ∧ t.readStages = .ok b.groups := by
  obtain ⟨ts, hts, hread⟩ := separated_joined (by decide : isBlank ';' = false)
    (by decide : [].any isBlank = false) (by decide)
    (advances_orElse advances_group (advances_parenthesised advances_group.forward)) h.groups
    (fun g hg rest hrest => by
      obtain ⟨t, ht, hread⟩ := group_written (h.operations g hg) (h.nonempty g hg) hrest
      exact ⟨t, orElse_of_matched ht, hread⟩)
    (fun g hg rest => (isPlain_writeGroup (h.operations g hg)).stops_isBlank
      (writeGroup_ne_nil (h.operations g hg) (h.nonempty g hg)) rest) (endsAt_nil [])
  rw [List.append_nil] at hts
  rw [List.map_id'] at hread
  refine ⟨.node .stages ts, ?_, ?_⟩
  · unfold stages
    exact bind_of_matched hts
  · rw [Tree.readStages_node, hread]

theorem rule_written : ∃ t, rule b.write = .matched t [] ∧ t.readRule = .ok b := by
  obtain ⟨t, ht, hread⟩ := stages_written h
  have hblank : Stops isBlank b.write := by
    have := h.isPlain_write.stops_isBlank h.write_ne_nil []
    rwa [List.append_nil] at this
  have hat : b.write.head? ≠ some '@' := fun hhead =>
    ne_of_isPlain (h.isPlain_write '@' (List.mem_of_head? hhead)) (by decide) rfl
  have hcontext : optionally context b.write = .matched none b.write :=
    optionally_of_fails (fails_bind (fails_separator hblank hat))
  refine ⟨.node .rule [t], ?_, ?_⟩
  · unfold rule blanks
    rw [bind_of_matched (skip_eq hblank), bind_of_matched hcontext, bind_of_matched ht,
      bind_of_matched (skip_eq (stops_nil isBlank))]
    rfl
  · obtain ⟨context, groups⟩ := b
    have hcontext : context = none := h.context
    simp [Tree.readRule, Tree.childrenOf, hread, hcontext]

end Rule

/-! ### From text to rule -/

theorem tooDeep?_of_isPlain {text : Word} (h : IsPlain text) (depth : Nat) :
    tooDeep? depth text = none := by
  induction text generalizing depth with
  | nil => rfl
  | cons c text ih =>
    have hc := h c List.mem_cons_self
    have hopening := ne_of_isPlain hc (by decide : isPlain '(' = false)
    have hclosing := ne_of_isPlain hc (by decide : isPlain ')' = false)
    rw [tooDeep?, if_neg hopening, if_neg hclosing]
    exact ih (fun d hd => h d (List.mem_cons_of_mem c hd)) depth

theorem assembles_affix {kind : AffixKind} {operands : List Allomorphs}
    (h : operands.length = kind.arity) (polarity : Option Polarity) :
    (Operation.affix kind polarity operands).Assembles := by
  rcases exists_operands h with ⟨rfl, front, back, rfl⟩ | ⟨hkind, form, rfl⟩
  · exact ⟨_, rfl⟩
  · cases kind with
    | circumfixed => exact absurd rfl hkind
    | _ => exact ⟨_, rfl⟩

theorem IsChain.assembles {xs : List Operation} (h : IsChain xs) : ∀ x ∈ xs, x.Assembles := by
  intro x hx
  obtain ⟨kind, p, operands, rfl, harity⟩ := h.affix_of_mem hx
  exact assembles_affix harity (some p)

theorem Branch.IsWritable.assembles {b : Branch} (h : b.IsWritable) : b.Assembles := by
  cases h with
  | identity => exact Branch.assembles_identity
  | short _ => exact Branch.assembles_short _
  | operations hchain _ => exact Branch.assembles_operations hchain.assembles

theorem Operation.IsWritable.assembles {x : Operation} (h : x.IsWritable) : x.Assembles := by
  cases h with
  | affix harity _ => exact assembles_affix harity _
  | conditional _ hmet hunmet _ =>
    exact Operation.assembles_conditional _ hmet.assembles hunmet.assembles

/-- The canonical text of a blueprint gives a rule of that blueprint. -/
theorem ofText_write {b : Blueprint} (h : b.IsWritable) :
    ∃ r, Rule.ofText b.write = .ok r ∧ r.blueprint = b := by
  obtain ⟨t, ht, hread⟩ := rule_written h
  obtain ⟨stages, hstages⟩ := exists_assembleGroups fun g hg x hx =>
    (h.operations g hg x hx).assembles
  have hparse : parse b.write = .ok t := by
    rw [parse, tooDeep?_of_isPlain h.isPlain_write 0]
    simp only [parseAnyDepth, ht]
  refine ⟨⟨b, stages⟩, ?_, rfl⟩
  simp [Rule.ofText, Blueprint.ofText, hparse, hread, Rule.ofBlueprint, hstages]

end WordFormation
