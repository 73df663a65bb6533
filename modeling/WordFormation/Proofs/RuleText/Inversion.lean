/-
  WordFormation/Proofs/RuleText/Inversion.lean
  ============================================
  **What a text that is read as something can have been.**

  For every part of the grammar it is shown that what it has taken spells out the
  canonical text of what its tree is read as.  So there is no other way to write
  a blueprint than its canonical text, up to what no blueprint keeps and to commas
  that may be missing (`consumes_rule`).

  A comma can only be missing between affixes that are links of one chain.  Items
  that are conditionals or interfixes stand for a single operation each.
-/
import WordFormation.Proofs.RuleText.Spelling
import WordFormation.Proofs.RuleText.Items

namespace WordFormation

open RuleText RuleText.Production RuleText.Grammar

/-! ### Parts with separators between them -/

theorem consumes_blanks : Consumes blanks fun used _ => Spells used True [] :=
  (consumes_skip isBlank).mono fun _ _ h => Spells.blank h

theorem consumes_separator_mark (c : Char) {text : Word} (hc : Spells [c] True text) :
    Consumes (separator c) fun used t => t = .leaf [c] ∧ Spells used True text := by
  refine (consumes_separator_blanks c).mono ?_
  rintro used t ⟨rfl, before, after, rfl, hbefore, hafter⟩
  have hspells := (Spells.blank hbefore).append (hc.append (Spells.blank hafter))
  exact ⟨rfl, hspells.congr (by simp) (by simp)⟩

/-- A separator that is written. -/
theorem consumes_separator {c : Char} (hbare : bare [c] = [c]) (hcaret : c ≠ '^') :
    Consumes (separator c) fun used t => t = .leaf [c] ∧ Spells used True [c] :=
  consumes_separator_mark c (Spells.char hbare hcaret)

/-- Trees with separators between them, each related to its own stretch of the
    text. -/
inductive Listed (c : Char) (R : Word → Tree → Prop) : Word → List Tree → Prop where
  | one {used : Word} {t : Tree} (part : R used t) : Listed c R used [t]
  | cons {used between more : Word} {t mark : Tree} {ts : List Tree} (part : R used t)
      (separator : Spells between True [c]) (others : Listed c R more ts) :
      Listed c R (used ++ (between ++ more)) (t :: mark :: ts)

theorem consumes_separated {c : Char} (hbare : bare [c] = [c]) (hcaret : c ≠ '^')
    {part : Production Tree} {R : Word → Tree → Prop} (hpart : Consumes part R) :
    Consumes (separated c part) (Listed c R) := by
  have hpair : Consumes (pair (separator c) part) fun used ts => ∃ between u mark t,
      used = between ++ u ∧ ts = [mark, t] ∧ Spells between True [c] ∧ R u t := by
    refine consumes_bind (consumes_separator hbare hcaret) fun between mark hmark => ?_
    refine consumes_bind hpart fun u t ht => ?_
    exact consumes_pure ⟨between, u, mark, t, by simp, rfl, hmark.2, ht⟩
  refine consumes_bind hpart fun used t ht => ?_
  refine consumes_bind (consumes_many hpair) fun more tss htss => ?_
  refine consumes_pure ?_
  rw [List.append_nil]
  induction htss generalizing used t with
  | nil =>
    rw [List.append_nil]
    exact Listed.one ht
  | @cons round more ts tss first others ih =>
    obtain ⟨between, u, mark, t', rfl, rfl, hbetween, ht'⟩ := first
    have hothers := ih u t' ht'
    rw [List.append_assoc between u more]
    exact Listed.cons ht hbetween hothers

theorem joined_cons (c : Char) (text : Word) {texts : List Word} (h : texts ≠ []) :
    joined c (text :: texts) = text ++ c :: joined c texts := by
  cases texts with
  | nil => exact absurd rfl h
  | cons text' texts => simp [joined]

section Listed

variable {β : Type} {c : Char} {R : Word → Tree → Prop} {read : Tree → Read β}
  {Q W : β → Prop} {text : β → Word}

/-- Reading what stands between the separators. -/
theorem Listed.spells {used : Word} {ts : List Tree} (h : Listed c R used ts)
    (hread : ∀ u t v, R u t → read t = .ok v → Q v ∧ Spells u (W v) (text v))
    {vs : List β} (hvs : (Tree.items ts).mapM read = .ok vs) :
    vs ≠ [] ∧ (∀ v ∈ vs, Q v) ∧ Spells used (∀ v ∈ vs, W v) (joined c (vs.map text)) := by
  induction h generalizing vs with
  | @one used t part =>
    have hitems : Tree.items [t] = [t] := rfl
    rw [hitems, List.mapM_cons] at hvs
    obtain ⟨v, hv, hvs⟩ := bind_eq_ok.mp hvs
    cases hvs
    obtain ⟨hQ, hspells⟩ := hread used t v part hv
    exact ⟨List.cons_ne_nil _ _, by simpa using hQ, hspells.congr (by simp) (by simp [joined])⟩
  | @cons used between more t mark ts part separator others ih =>
    have hitems : Tree.items (t :: mark :: ts) = t :: Tree.items ts := rfl
    rw [hitems, List.mapM_cons] at hvs
    obtain ⟨v, hv, hvs⟩ := bind_eq_ok.mp hvs
    obtain ⟨vs', hvs', hvs⟩ := bind_eq_ok.mp hvs
    cases hvs
    obtain ⟨hne, hall, hothers⟩ := ih hvs'
    obtain ⟨hQ, hspells⟩ := hread used t v part hv
    refine ⟨List.cons_ne_nil _ _, List.forall_mem_cons.mpr ⟨hQ, hall⟩, ?_⟩
    refine (hspells.append (separator.append hothers)).congr (by simp) ?_
    rw [List.map_cons, joined_cons c _ (by simpa using hne)]
    rfl

end Listed

/-! ### Tests and conditions -/

/-- A tree that is read as a test. -/
def TestOf (used : Word) (t : Tree) : Prop :=
  ∀ e, t.readTest = .ok e → Spells used e.form.IsLiteral e.write

/-- The trees of a test without its negation. -/
structure TestBodyOf (used : Word) (body : List Tree) : Prop where
  head : ∃ first more, body = first :: more ∧ first.isMark '~' = false
  read : ∀ whole e, Tree.readTestBody whole body = .ok e →
    e.negated = false ∧ Spells used e.form.IsLiteral (e.edge.write e.form)

theorem LettersOf.testBodyOf {u : Word} {form : Tree} (h : LettersOf u form) (e : Edge) :
    TestBodyOf (e.around u) (e.trees form) where
  head := by
    cases e with
    | start => exact ⟨form, _, rfl, h.isMark '~'⟩
    | final => exact ⟨.leaf ['-'], _, rfl, rfl⟩
  read whole test htest := by
    rw [Tree.readTestBody_trees e (h.isMark '-')] at htest
    obtain ⟨a, ha, htest⟩ := bind_eq_ok.mp htest
    cases htest
    have hdash : Spells ['-'] True ['-'] := Spells.char (by decide) (by decide)
    refine ⟨rfl, ?_⟩
    cases e with
    | start => exact ((h.spells ha).append hdash).congr (by simp [EdgeTest.isAt]) rfl
    | final => exact (hdash.append (h.spells ha)).congr (by simp [EdgeTest.isAt]) rfl

theorem consumes_testBodyOf : Consumes (orElse startTest finalTest) TestBodyOf := by
  refine (consumes_testBody consumes_letters).mono ?_
  rintro _ _ ⟨edge, u, form, rfl, rfl, hform⟩
  exact hform.testBodyOf edge

theorem consumes_test : Consumes test TestOf := by
  refine consumes_bind (consumes_optionally (consumes_mark '~')) fun used negation hnegation => ?_
  refine consumes_bind consumes_testBodyOf fun more body hbody => consumes_pure fun e he => ?_
  rw [List.append_nil]
  obtain ⟨first, others, rfl, hfirst⟩ := hbody.head
  rcases hnegation with ⟨rfl, rfl⟩ | ⟨c, rfl, rfl, -⟩
  · have hread : Tree.readTestBody (.node .test (first :: others)) (first :: others) = .ok e := by
      simpa [Tree.readTest, Tree.childrenOf, hfirst] using he
    obtain ⟨hpositive, hspells⟩ := hbody.read _ e hread
    exact hspells.congr Iff.rfl (by simp [EdgeTest.write, hpositive])
  · have hmark : (Tree.leaf ['~']).isMark '~' = true := rfl
    simp only [Tree.readTest, Tree.childrenOf, if_true, Option.isSome_some, ok_bind, hmark] at he
    obtain ⟨positive, hpositive, he⟩ := bind_eq_ok.mp he
    cases he
    obtain ⟨hsign, hspells⟩ := hbody.read _ positive hpositive
    refine ((Spells.char (by decide : bare ['~'] = ['~']) (by decide)).append hspells).congr ?_ ?_
    · simp [EdgeTest.negate]
    · simp [EdgeTest.negate, EdgeTest.write, hsign]

theorem consumes_condition :
    Consumes condition fun used t => ∀ c, t.readCondition = .ok c →
      Spells used c.IsWritable c.write := by
  refine consumes_bind (consumes_separated (by decide) (by decide) consumes_test)
    fun used ts hts => consumes_pure fun c hc => ?_
  rw [List.append_nil]
  rw [Tree.readCondition_node] at hc
  obtain ⟨tests, htests, hc⟩ := bind_eq_ok.mp hc
  cases hc
  have hread : ∀ u t e, TestOf u t → t.readTest = .ok e →
      True ∧ Spells u e.form.IsLiteral e.write := fun u t e ht he => ⟨trivial, ht e he⟩
  obtain ⟨hne, -, hspells⟩ := hts.spells hread htests
  exact hspells.congr ⟨fun h => ⟨hne, h⟩, fun h => h.forms⟩ rfl

/-! ### Branches and conditionals -/

/-- A tree that is read as a branch in which something is done. -/
def BranchOf (used : Word) (t : Tree) : Prop :=
  ∀ b, t.readBranch = .ok b → b ≠ .identity ∧ Spells used b.IsWritable b.write

theorem isWritable_operations {xs : List Operation} (h : IsChain xs) :
    (Branch.operations xs).IsWritable ↔ ∀ x ∈ xs, x.HasLiterals := by
  constructor
  · rintro (_ | _ | ⟨-, hforms⟩)
    exact hforms
  · exact Branch.IsWritable.operations h

theorem consumes_shortMark :
    Consumes shortMark fun used t => ∃ p : Polarity, p ≠ .toggle ∧ used = [p.symbol] ∧
      t = .leaf [p.symbol] := by
  refine consumes_bind (consumes_satisfying _) fun used c hc => ?_
  obtain ⟨rfl, hc⟩ := hc
  refine consumes_pure ?_
  simp only [Bool.or_eq_true, beq_iff_eq] at hc
  rcases hc with rfl | rfl
  · exact ⟨.insert, by decide, rfl, rfl⟩
  · exact ⟨.remove, by decide, rfl, rfl⟩

theorem consumes_branch : Consumes branch BranchOf := by
  have hinner := consumes_orElse
    (consumes_edgeSegment.mono fun used t ht => Or.inl ht)
    (consumes_shortMark.mono fun used t ht => Or.inr ht)
  refine consumes_bind hinner fun used t ht => consumes_pure fun b hb => ?_
  rw [List.append_nil]
  rcases ht with ⟨⟨label, ts, rfl, -, -⟩, hread⟩ | ⟨p, hp, rfl, rfl⟩
  · rw [Tree.readBranch_node] at hb
    obtain ⟨xs, hxs, hb⟩ := bind_eq_ok.mp hb
    cases hb
    obtain ⟨hchain, hspells⟩ := hread xs hxs
    refine ⟨by simp, hspells.congr (isWritable_operations hchain).symm rfl⟩
  · rw [Tree.readBranch_symbol] at hb
    cases hb
    refine ⟨by simp, (Spells.symbol p).congr ?_ rfl⟩
    exact ⟨fun _ => Branch.IsWritable.short hp, fun _ => trivial⟩

/-- A tree that is read as a conditional. -/
structure ConditionalOf (used : Word) (t : Tree) : Prop where
  node : ∃ ts, t = .node .conditional ts
  read : ∀ x, t.readConditional = .ok x → Spells used x.IsWritable x.write

theorem isWritable_conditional {c : EdgeCondition} {met unmet : Branch} :
    (Operation.conditional c met unmet).IsWritable ↔
      c.IsWritable ∧ met.IsWritable ∧ unmet.IsWritable ∧ (met ≠ .identity ∨ unmet ≠ .identity) := by
  constructor
  · rintro (_ | ⟨hc, hmet, hunmet, hsome⟩)
    exact ⟨hc, hmet, hunmet, hsome⟩
  · rintro ⟨hc, hmet, hunmet, hsome⟩
    exact Operation.IsWritable.conditional hc hmet hunmet hsome

theorem consumes_elseBranch :
    Consumes elseBranch fun used t => ∃ between more, used = between ++ more ∧
      Spells between True [':'] ∧ BranchOf more t := by
  refine consumes_bind (consumes_separator (by decide) (by decide)) fun between mark hmark => ?_
  exact consumes_branch.mono fun more t ht => ⟨between, more, rfl, hmark.2, ht⟩

theorem consumes_conditionalMet : Consumes conditionalMet ConditionalOf := by
  refine consumes_bind consumes_condition fun u asked hasked => ?_
  refine consumes_bind (consumes_separator (by decide) (by decide)) fun m question hquestion => ?_
  refine consumes_bind consumes_branch fun v met hmet => ?_
  refine consumes_bind (consumes_optionally consumes_elseBranch) fun w unmet hunmet => ?_
  obtain ⟨rfl, hquestion⟩ := hquestion
  rcases hunmet with ⟨rfl, rfl⟩ | ⟨no, rfl, between, more, rfl, hcolon, hno⟩
  · refine consumes_pure ⟨⟨_, rfl⟩, fun x hx => ?_⟩
    rw [Tree.readConditional_met] at hx
    obtain ⟨c, hc, hx⟩ := bind_eq_ok.mp hx
    obtain ⟨b, hb, hx⟩ := bind_eq_ok.mp hx
    cases hx
    obtain ⟨hne, hspells⟩ := hmet b hb
    simp only [List.append_nil]
    refine ((hasked c hc).append (hquestion.append hspells)).congr ?_ ?_
    · simp [isWritable_conditional, hne, Branch.IsWritable.identity]
    · simp [Operation.write, Branch.writeUnmet]
  · refine consumes_pure ⟨⟨_, rfl⟩, fun x hx => ?_⟩
    rw [Tree.readConditional_both] at hx
    obtain ⟨c, hc, hx⟩ := bind_eq_ok.mp hx
    obtain ⟨b, hb, hx⟩ := bind_eq_ok.mp hx
    obtain ⟨b', hb', hx⟩ := bind_eq_ok.mp hx
    cases hx
    obtain ⟨hne, hspells⟩ := hmet b hb
    obtain ⟨hne', hspells'⟩ := hno b' hb'
    rw [List.append_nil]
    refine ((hasked c hc).append (hquestion.append (hspells.append
      (hcolon.append hspells')))).congr ?_ ?_
    · simp [isWritable_conditional, hne]
    · simp [Operation.write, Branch.writeUnmet_of_ne hne']

theorem consumes_conditionalUnmet : Consumes conditionalUnmet ConditionalOf := by
  refine consumes_bind consumes_condition fun u asked hasked => ?_
  refine consumes_bind (consumes_separator (by decide) (by decide)) fun m question hquestion => ?_
  refine consumes_bind (consumes_separator (by decide) (by decide)) fun v colon hcolon => ?_
  refine consumes_bind consumes_branch fun w unmet hunmet => ?_
  obtain ⟨rfl, hquestion⟩ := hquestion
  obtain ⟨rfl, hcolon⟩ := hcolon
  refine consumes_pure ⟨⟨_, rfl⟩, fun x hx => ?_⟩
  rw [Tree.readConditional_unmet] at hx
  obtain ⟨c, hc, hx⟩ := bind_eq_ok.mp hx
  obtain ⟨b, hb, hx⟩ := bind_eq_ok.mp hx
  cases hx
  obtain ⟨hne, hspells⟩ := hunmet b hb
  rw [List.append_nil]
  refine ((hasked c hc).append (hquestion.append (hcolon.append hspells))).congr ?_ ?_
  · simp [isWritable_conditional, hne, Branch.IsWritable.identity]
  · simp [Operation.write, Branch.write, Branch.writeUnmet_of_ne hne]

theorem consumes_conditional : Consumes conditional ConditionalOf :=
  consumes_orElse consumes_conditionalMet consumes_conditionalUnmet

/-! ### Items -/

theorem Spells.parens {used text : Word} {P : Prop} (h : Spells used P text) :
    Spells ('(' :: (used ++ [')'])) P text := by
  have hopening : Spells ['('] True [] := Spells.skipped (by decide) (by decide)
  have hclosing : Spells [')'] True [] := Spells.skipped (by decide) (by decide)
  exact (hopening.append (h.append hclosing)).congr (by simp) (by simp)

theorem isWritable_affix {kind : AffixKind} {p : Polarity} {operands : List Allomorphs}
    (harity : operands.length = kind.arity) :
    (Operation.affix kind (some p) operands).IsWritable ↔ ∀ a ∈ operands, a.IsLiteral := by
  constructor
  · rintro (⟨-, hforms⟩ | _)
    exact hforms
  · exact Operation.IsWritable.affix harity

theorem IsChain.isWritable_iff {xs : List Operation} (h : IsChain xs) {x : Operation}
    (hx : x ∈ xs) : x.IsWritable ↔ x.HasLiterals := by
  obtain ⟨kind, p, operands, rfl, harity⟩ := h.affix_of_mem hx
  exact isWritable_affix harity

theorem IsChain.write_eq {xs : List Operation} (h : IsChain xs) {x : Operation} (hx : x ∈ xs) :
    x.write = x.writeAffix := by
  obtain ⟨kind, p, operands, rfl, -⟩ := h.affix_of_mem hx
  rfl

theorem IsChain.ne_nil {xs : List Operation} (h : IsChain xs) : xs ≠ [] := by
  cases h <;> exact List.cons_ne_nil _ _

/-- A chain is the list of its links with the commas left out. -/
theorem omitsCommas_writeGroup {xs : List Operation} (h : ∀ x ∈ xs, x.write = x.writeAffix) :
    OmitsCommas (xs.flatMap Operation.writeAffix) (writeGroup xs) := by
  have hmore : ∀ ys : List Operation, (∀ y ∈ ys, y.write = y.writeAffix) →
      OmitsCommas (ys.flatMap Operation.writeAffix)
        ((ys.map Operation.write).flatMap (',' :: ·)) := by
    intro ys hys
    induction ys with
    | nil => exact OmitsCommas.refl []
    | cons y ys ih =>
      have hothers := ih fun z hz => hys z (List.mem_cons_of_mem y hz)
      have hfirst : OmitsCommas y.writeAffix (',' :: y.write) := by
        rw [hys y List.mem_cons_self]
        exact OmitsCommas.skip (OmitsCommas.refl _)
      exact hfirst.append hothers
  cases xs with
  | nil => exact OmitsCommas.refl []
  | cons x xs =>
    have hothers := hmore xs fun z hz => h z (List.mem_cons_of_mem x hz)
    have hfirst : OmitsCommas x.writeAffix x.write := by
      rw [h x List.mem_cons_self]
      exact OmitsCommas.refl _
    exact hfirst.append hothers

structure ItemOf (used : Word) (t : Tree) : Prop where
  node : ∃ label ts, t = .node label ts
  read : ∀ xs, t.unparenthesised.readItem = .ok xs →
    xs ≠ [] ∧ Spells used (∀ x ∈ xs, x.IsWritable) (writeGroup xs)

theorem writeGroup_singleton (x : Operation) : writeGroup [x] = x.write := by
  simp [writeGroup, joined]

theorem consumes_interfix :
    Consumes interfix fun used t => ∃ ts, t = .node .interfix ts ∧
      ∀ xs, t.readSegment = .ok xs →
        xs ≠ [] ∧ Spells used (∀ x ∈ xs, x.IsWritable) (writeGroup xs) := by
  refine consumes_bind consumes_affixSymbol fun m opening hm => ?_
  obtain ⟨p, rfl, rfl⟩ := hm
  refine consumes_bind consumes_letters fun u form hform => ?_
  refine consumes_bind (consumes_mark p.symbol) fun m' closing hm' => ?_
  obtain ⟨rfl, rfl⟩ := hm'
  refine consumes_pure ⟨_, rfl, fun xs hxs => ?_⟩
  rw [Tree.readSegment_interfix, Tree.readPolarity_symbol, ok_bind] at hxs
  obtain ⟨a, ha, hxs⟩ := bind_eq_ok.mp hxs
  rw [ok_bind, if_pos rfl] at hxs
  cases hxs
  refine ⟨List.cons_ne_nil _ _, ?_⟩
  rw [List.append_nil, writeGroup_singleton]
  refine ((Spells.symbol p).append ((hform.spells ha).append (Spells.symbol p))).congr ?_ rfl
  have hwritable : (Operation.affix .interfixed (some p) [a]).IsWritable ↔
      ∀ b ∈ [a], b.IsLiteral := isWritable_affix rfl
  simp [hwritable]

/-- A chain stands for as many operations as it has links. -/
theorem ChainOf.read_writeGroup {used : Word} {t : Tree} (h : ChainOf used t)
    {xs : List Operation} (hxs : t.readSegment = .ok xs) :
    xs ≠ [] ∧ Spells used (∀ x ∈ xs, x.IsWritable) (writeGroup xs) := by
  obtain ⟨hchain, hspells⟩ := h.read xs hxs
  refine ⟨hchain.ne_nil, hspells.mono ?_ ?_⟩
  · exact forall₂_congr fun x hx => (hchain.isWritable_iff hx).symm
  · intro text htext
    exact htext.trans (omitsCommas_writeGroup fun x hx => hchain.write_eq hx)

theorem consumes_segment :
    Consumes Grammar.segment fun used t => ∃ label ts, t = .node .segment [.node label ts] ∧
      label.isWrapper = false ∧ label ≠ .conditional ∧
      ∀ xs, (RuleText.Tree.node label ts).readSegment = .ok xs →
        xs ≠ [] ∧ Spells used (∀ x ∈ xs, x.IsWritable) (writeGroup xs) := by
  have hinner : Consumes (orElse interfix edgeSegment) fun used t => ∃ label ts,
      t = .node label ts ∧ label.isWrapper = false ∧ label ≠ .conditional ∧
        ∀ xs, (RuleText.Tree.node label ts).readSegment = .ok xs →
          xs ≠ [] ∧ Spells used (∀ x ∈ xs, x.IsWritable) (writeGroup xs) := by
    refine consumes_orElse (consumes_interfix.mono ?_) (consumes_edgeSegment.mono ?_)
    · rintro used t ⟨ts, rfl, hread⟩
      exact ⟨_, ts, rfl, rfl, by decide, hread⟩
    · intro used t ht
      obtain ⟨label, ts, rfl, hwrapper, hlabel⟩ := ht.node
      exact ⟨label, ts, rfl, hwrapper, hlabel, fun xs hxs => ht.read_writeGroup hxs⟩
  refine consumes_bind (consumes_expecting hinner) fun used t ht => consumes_pure ?_
  obtain ⟨label, ts, rfl, hwrapper, hlabel, hread⟩ := ht
  rw [List.append_nil]
  exact ⟨label, ts, rfl, hwrapper, hlabel, hread⟩

theorem consumes_item :
    Consumes item fun used t => (∃ inner, t = .node .item [inner]) ∧ ItemOf used t := by
  have hinner := consumes_orElse
    (consumes_conditional.mono fun used t ht => Or.inl ht)
    (consumes_segment.mono fun used t ht => Or.inr ht)
  refine consumes_bind hinner fun used t ht => consumes_pure ⟨⟨t, rfl⟩, ⟨⟨_, _, rfl⟩, ?_⟩⟩
  intro xs hxs
  rw [List.append_nil]
  replace hxs : (RuleText.Tree.node .item [t]).readItem = .ok xs := hxs
  rcases ht with ht | ⟨label, ts, rfl, hwrapper, hlabel, hread⟩
  · obtain ⟨ts, rfl⟩ := ht.node
    rw [Tree.readItem_conditional] at hxs
    obtain ⟨x, hx, hxs⟩ := bind_eq_ok.mp hxs
    cases hxs
    refine ⟨List.cons_ne_nil _ _, (ht.read x hx).congr (by simp) ?_⟩
    exact (writeGroup_singleton x).symm
  · rw [Tree.readItem_segment hwrapper hlabel] at hxs
    exact hread xs hxs

theorem consumes_itemPart : Consumes (orElse item (parenthesised item)) ItemOf := by
  refine consumes_orElse (consumes_item.mono fun used t ht => ht.2) ?_
  refine (consumes_parenthesised consumes_item).mono ?_
  rintro used t ⟨u, inner, rfl, rfl, ⟨inner, rfl⟩, hitem⟩
  refine ⟨⟨_, _, rfl⟩, fun xs hxs => ?_⟩
  obtain ⟨hne, hspells⟩ := hitem.read xs hxs
  exact ⟨hne, hspells.parens⟩

/-! ### Groups and rules -/

def GroupOf (used : Word) (t : Tree) : Prop :=
  ∀ xs, t.unparenthesised.readGroup = .ok xs →
    xs ≠ [] ∧ Spells used (∀ x ∈ xs, x.IsWritable) (writeGroup xs)

/-- A group is written item by item. -/
theorem writeGroup_flatten {parts : List (List Operation)} (h : ∀ xs ∈ parts, xs ≠ []) :
    joined ',' (parts.map writeGroup) = writeGroup parts.flatten := by
  induction parts with
  | nil => rfl
  | cons xs parts ih =>
    have hothers := ih fun ys hys => h ys (List.mem_cons_of_mem xs hys)
    cases parts with
    | nil => simp [joined]
    | cons ys parts =>
      have hxs := h xs List.mem_cons_self
      have hys := h ys (by simp)
      rw [List.map_cons, joined_cons ',' _ (by simp), hothers]
      cases xs with
      | nil => exact absurd rfl hxs
      | cons x xs =>
        cases ys with
        | nil => exact absurd rfl hys
        | cons y ys => simp [writeGroup, joined]

theorem unparenthesised_listed {used : Word} {ts : List Tree} (h : Listed ',' ItemOf used ts) :
    (RuleText.Tree.node .group ts).unparenthesised = .node .group ts := by
  cases h with
  | one part => rfl
  | cons part separator others =>
    obtain ⟨label, us, rfl⟩ := part.node
    rfl

theorem consumes_group :
    Consumes group fun used t => t.unparenthesised = t ∧ GroupOf used t := by
  refine consumes_bind (consumes_separated (by decide) (by decide) consumes_itemPart)
    fun used ts hts => consumes_pure ?_
  have hself := unparenthesised_listed hts
  refine ⟨hself, fun xs hxs => ?_⟩
  rw [hself, Tree.readGroup_node] at hxs
  obtain ⟨parts, hparts, hxs⟩ := bind_eq_ok.mp hxs
  cases hxs
  obtain ⟨hne, hall, hspells⟩ := hts.spells (fun u t ys ht hys => ht.read ys hys) hparts
  rw [List.append_nil]
  refine ⟨?_, hspells.congr (by simp only [List.forall_mem_flatten]) (writeGroup_flatten hall)⟩
  cases parts with
  | nil => exact absurd rfl hne
  | cons ys parts => simp [hall ys List.mem_cons_self]

theorem consumes_groupPart : Consumes (orElse group (parenthesised group)) GroupOf := by
  refine consumes_orElse (consumes_group.mono fun used t ht => ht.2) ?_
  refine (consumes_parenthesised consumes_group).mono ?_
  rintro used t ⟨u, inner, rfl, rfl, hself, hgroup⟩ xs hxs
  have hinner : inner.unparenthesised.readGroup = .ok xs := by
    rw [hself]
    exact hxs
  obtain ⟨hne, hspells⟩ := hgroup xs hinner
  exact ⟨hne, hspells.parens⟩

theorem consumes_stages :
    Consumes stages fun used t => ∀ gs, t.readStages = .ok gs →
      gs ≠ [] ∧ (∀ g ∈ gs, g ≠ []) ∧
        Spells used (∀ g ∈ gs, ∀ x ∈ g, x.IsWritable) (joined ';' (gs.map writeGroup)) := by
  refine consumes_bind (consumes_separated (by decide) (by decide) consumes_groupPart)
    fun used ts hts => consumes_pure fun gs hgs => ?_
  rw [Tree.readStages_node] at hgs
  rw [List.append_nil]
  exact hts.spells (fun u t xs ht hxs => ht xs hxs) hgs

theorem consumes_context : Consumes context fun used _ => Spells used True [] := by
  have hat : Spells ['@'] True [] := Spells.skipped (by decide) (by decide)
  refine consumes_bind (consumes_separator_mark '@' hat) fun used mark hmark => consumes_pure ?_
  rw [List.append_nil]
  exact hmark.2

/-- Whatever a rule is read from spells out its canonical text. -/
theorem consumes_rule :
    Consumes rule fun used t => ∀ b, t.readRule = .ok b → Spells used b.IsWritable b.write := by
  refine consumes_bind consumes_blanks fun before _ hbefore => ?_
  refine consumes_bind (consumes_optionally consumes_context) fun u context hcontext => ?_
  refine consumes_bind consumes_stages fun v body hbody => ?_
  refine consumes_bind consumes_blanks fun after _ hafter => ?_
  have hu : Spells u True [] := by
    rcases hcontext with ⟨-, rfl⟩ | ⟨t, -, ht⟩
    · exact Spells.blank (by simp)
    · exact ht
  -- with or without a context the last part of the tree holds the groups
  have hread : ∀ (front : List Tree) (b : Blueprint),
      (RuleText.Tree.node .rule (front ++ [body])).readRule = .ok b →
        Spells (before ++ (u ++ (v ++ (after ++ [])))) b.IsWritable b.write := by
    intro front b hb
    rw [Tree.readRule_groups] at hb
    obtain ⟨gs, hgs, hb⟩ := bind_eq_ok.mp hb
    cases hb
    obtain ⟨hne, hall, hspells⟩ := hbody gs hgs
    rw [List.append_nil]
    refine (hbefore.append (hu.append (hspells.append hafter))).congr ?_ ?_
    · constructor
      · rintro ⟨-, -, hoperations, -⟩
        exact ⟨rfl, hne, hall, hoperations⟩
      · intro hwritable
        exact ⟨trivial, trivial, hwritable.operations, trivial⟩
    · simp [Blueprint.write]
  cases context with
  | none => exact consumes_pure (hread [])
  | some t => exact consumes_pure (hread [t, .leaf ['@']])

end WordFormation
