/-
  WordFormation/Proofs/RuleText/Shapes.lean
  =========================================
  **How trees of the shapes that the grammar makes are read.**

  Reading is defined for trees of any shape and looks for their parts by number.
  For each shape that the grammar makes there is one equation here that names the
  parts and says in which order they are read.
-/
import WordFormation.Proofs.Outcome
import WordFormation.RuleText.Reading

namespace WordFormation

/-- The text of a test for letters at an edge, with a dash where the word goes on. -/
def Edge.around (text : Word) : Edge → Word
  | .start => text ++ ['-']
  | .final => '-' :: text

/-- The trees of letters at an edge. -/
def Edge.trees (form : RuleText.Tree) : Edge → List RuleText.Tree
  | .start => [form, .leaf ['-']]
  | .final => [.leaf ['-'], form]

end WordFormation

namespace WordFormation.RuleText.Tree

@[simp] theorem readPolarity_symbol (p : Polarity) :
    (leaf [p.symbol]).readPolarity = .ok p := by
  simp [readPolarity]

/-! ### Letters -/

/-- Letters in parentheses are read as the letters. -/
theorem readPart_parens (t : Tree) : (parens t).readPart = t.readLetters := by
  have hmark : (leaf ['(']).isMark '(' = true := rfl
  simp only [parens, readPart, hmark, if_true]

/-- What is marked as optional is read only if no other part of it is. -/
theorem readPart_optional_eq_ok {t : Tree} {a : Allomorphs}
    (h : (node .optional [t, .leaf ['^']]).readPart = .ok a) :
    '^' ∉ t.text ∧ ∃ forms, t.readPart = .ok forms ∧ a = forms.union (.form []) := by
  have htext : textOfAll [t, .leaf ['^']] = t.text ++ ['^'] := by simp [Tree.text]
  unfold readPart at h
  simp only [htext] at h
  split at h
  · cases h
  · next hmarkers =>
    obtain ⟨forms, hforms, ha⟩ := bind_eq_ok.mp h
    cases ha
    rw [List.count_append] at hmarkers
    exact ⟨List.count_eq_zero.mp (by simpa using hmarkers), forms, hforms, rfl⟩

/-! ### Segments -/

theorem unwrapped_of_not_isWrapper {label : Label} (h : label.isWrapper = false)
    (ts : List Tree) : (node label ts).unwrapped = node label ts := by
  rcases ts with _ | ⟨_ | ⟨inner, us⟩, _ | _⟩ <;> simp [unwrapped, h]

theorem unwrapped_of_isWrapper {label : Label} (h : label.isWrapper = true) (inner : Label)
    (ts : List Tree) : (node label [node inner ts]).unwrapped = (node inner ts).unwrapped := by
  rw [unwrapped, if_pos h]

theorem readSegment_prefixes (ts : List Tree) :
    (node .prefixes ts).readSegment = readPrefixLinks ts := by
  rw [readSegment, unwrapped_of_not_isWrapper rfl]
  rfl

theorem readSegment_postfixes (ts : List Tree) :
    (node .postfixes ts).readSegment = readPostfixLinks (node .postfixes ts) ts := by
  rw [readSegment, unwrapped_of_not_isWrapper rfl]
  rfl

theorem readSegment_circumfix (front mark back : Tree) :
    (node .circumfix [front, mark, back]).readSegment = do
      let a ← front.readLetters
      let p ← mark.readPolarity
      let b ← back.readLetters
      return [.putAround a b p] := by
  rw [readSegment, unwrapped_of_not_isWrapper rfl]
  simp [label?, readCircumfix, child, children]

theorem readSegment_interfix (opening form closing : Tree) :
    (node .interfix [opening, form, closing]).readSegment = do
      let p ← opening.readPolarity
      let a ← form.readLetters
      let q ← closing.readPolarity
      return [.affix .interfixed (if p = q then some p else none) [a]] := by
  rw [readSegment, unwrapped_of_not_isWrapper rfl]
  simp [label?, readInterfix, child, children]

/-! ### Conditionals -/

theorem readTestBody_trees (e : Edge) {form : Tree} (hform : form.isMark '-' = false)
    (whole : Tree) :
    readTestBody whole (e.trees form) = form.readLetters >>= fun a => .ok (.isAt e a) := by
  have hdash : (leaf ['-']).isMark '-' = true := rfl
  cases e with
  | start =>
    simp only [Edge.trees, readTestBody, hform, hdash, if_true, if_false, Bool.false_eq_true]
    rfl
  | final =>
    simp only [Edge.trees, readTestBody, hdash, if_true]
    rfl

theorem readCondition_node (ts : List Tree) :
    (node .condition ts).readCondition =
      (items ts).mapM readTest >>= fun tests => .ok ⟨tests⟩ := rfl

theorem readBranch_symbol (p : Polarity) :
    (node .branch [leaf [p.symbol]]).readBranch = .ok (.short p) := by
  simp [readBranch, childrenOf, child, children]

theorem readBranch_node (label : Label) (ts : List Tree) :
    (node .branch [node label ts]).readBranch =
      (node label ts).readSegment >>= fun xs => .ok (.operations xs) := rfl

section Conditional

variable (asked question met unmet : Tree)

theorem readConditional_met :
    (node .conditional [asked, question, met]).readConditional = do
      let c ← asked.readCondition
      let b ← met.readBranch
      return .conditional c b .identity := by
  simp [readConditional, child, children, readBranches]

theorem readConditional_both (colon : Tree) :
    (node .conditional [asked, question, met, colon, unmet]).readConditional = do
      let c ← asked.readCondition
      let b ← met.readBranch
      let b' ← unmet.readBranch
      return .conditional c b b' := by
  simp [readConditional, child, children, readBranches]

theorem readConditional_unmet :
    (node .conditional [asked, question, leaf [':'], unmet]).readConditional = do
      let c ← asked.readCondition
      let b ← unmet.readBranch
      return .conditional c .identity b := by
  have hcolon : (leaf [':']).isMark ':' = true := rfl
  simp [readConditional, child, children, readBranches, hcolon]

end Conditional

/-! ### Items, groups and rules -/

/-- An item that is a segment is read as the affixes in it. -/
theorem readItem_segment {label : Label} (hwrapper : label.isWrapper = false)
    (hlabel : label ≠ .conditional) (ts : List Tree) :
    (node .item [node .segment [node label ts]]).readItem = (node label ts).readSegment := by
  have hunwrapped : (node .item [node .segment [node label ts]]).unwrapped = node label ts := by
    rw [unwrapped_of_isWrapper rfl, unwrapped_of_isWrapper rfl,
      unwrapped_of_not_isWrapper hwrapper]
  rw [readItem, hunwrapped]
  simp only [label?]
  split
  · next heq => exact absurd (Option.some.inj heq) hlabel
  · rfl

theorem readItem_conditional (ts : List Tree) :
    (node .item [node .conditional ts]).readItem =
      (node .conditional ts).readConditional >>= fun x => .ok [x] := by
  have hunwrapped : (node .item [node .conditional ts]).unwrapped = node .conditional ts := by
    rw [unwrapped_of_isWrapper rfl, unwrapped_of_not_isWrapper rfl]
  rw [readItem, hunwrapped]
  rfl

theorem readGroup_node (ts : List Tree) :
    (node .group ts).readGroup =
      (items ts).mapM (fun part => part.unparenthesised.readItem) >>= fun parts =>
        .ok parts.flatten := rfl

theorem readStages_node (ts : List Tree) :
    (node .stages ts).readStages = (items ts).mapM fun part => part.unparenthesised.readGroup := rfl

/-- What is in front of the groups has no effect. -/
theorem readRule_groups (before : List Tree) (body : Tree) :
    (node .rule (before ++ [body])).readRule =
      body.readStages >>= fun groups => .ok { groups := groups } := by
  simp [readRule, childrenOf]

end WordFormation.RuleText.Tree
