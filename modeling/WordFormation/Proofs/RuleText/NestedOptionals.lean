/-
  WordFormation/Proofs/RuleText/NestedOptionals.lean
  ==================================================
  **The one reason for which the tree of a text cannot be read.**

  A tree that the grammar makes is read unless an optional part of it has another
  one inside (`Tree.nestsOptional`).  The parts of a tree are gone through in the
  order in which they are read, and reading ends at the first part of this kind
  (`ReadsUpTo`).

  Reading does not look for optional parts.  It counts the `^` in the text of an
  optional part, and inside letters there is one `^` for every optional part, the
  part itself included (`LettersRead.carets`).
-/
import WordFormation.Proofs.RuleText.Inversion

namespace WordFormation.RuleText

open Production Grammar

/-! ### The parts of a tree -/

namespace Tree

mutual

/-- The tree and all parts of it, in reading order. -/
def parts : Tree → List Tree
  | leaf text => [leaf text]
  | node label children => node label children :: partsOfAll children

def partsOfAll : List Tree → List Tree
  | [] => []
  | t :: ts => t.parts ++ partsOfAll ts

end

def isOptional : Tree → Bool
  | node .optional _ => true
  | _ => false

/-- Is this an optional part that has another one inside? -/
def nestsOptional (t : Tree) : Bool := t.isOptional && (partsOfAll t.children).any isOptional

/-- The first optional part of the trees that has another one inside. -/
def firstNesting (ts : List Tree) : Option Tree := (partsOfAll ts).find? nestsOptional

theorem partsOfAll_append (ts ts' : List Tree) :
    partsOfAll (ts ++ ts') = partsOfAll ts ++ partsOfAll ts' := by
  induction ts with
  | nil => rfl
  | cons t ts ih => simp [partsOfAll, ih]

theorem partsOfAll_singleton (t : Tree) : partsOfAll [t] = t.parts := by simp [partsOfAll]

theorem firstNesting_append (ts ts' : List Tree) :
    firstNesting (ts ++ ts') = (firstNesting ts).or (firstNesting ts') := by
  unfold firstNesting
  rw [partsOfAll_append, List.find?_append]

theorem firstNesting_cons (t : Tree) (ts : List Tree) :
    firstNesting (t :: ts) = (firstNesting [t]).or (firstNesting ts) :=
  firstNesting_append [t] ts

theorem firstNesting_leaf_cons (w : Word) (ts : List Tree) :
    firstNesting (leaf w :: ts) = firstNesting ts := rfl

theorem firstNesting_append_leaf (ts : List Tree) (w : Word) :
    firstNesting (ts ++ [leaf w]) = firstNesting ts := by
  rw [firstNesting_append]
  exact Option.or_none

theorem firstNesting_node {label : Label} (h : label ≠ .optional) (ts : List Tree) :
    firstNesting [node label ts] = firstNesting ts := by
  have hself : (node label ts).nestsOptional = false := by
    cases label <;> first | rfl | exact absurd rfl h
  unfold firstNesting
  rw [partsOfAll_singleton, parts, List.find?_cons_of_neg (by simp [hself])]

theorem firstNesting_parens (t : Tree) : firstNesting [parens t] = firstNesting [t] := by
  unfold parens
  rw [firstNesting_node (by decide), firstNesting_leaf_cons]
  exact firstNesting_append_leaf [t] [')']

end Tree

open RuleText.Tree

/-! ### Where reading ends -/

/-- Reading ends at the given part, whose `^` it counts, or gives a value if there
    is none. -/
inductive ReadsUpTo {α : Type} : Option Tree → Read α → Prop where
  | value (v : α) : ReadsUpTo none (.ok v)
  | malformed {u : Tree} (h : 2 ≤ u.text.count '^') :
      ReadsUpTo (some u) (.error (.malformedOptional u.text (u.text.count '^')))

namespace ReadsUpTo

variable {α β : Type} {first second : Option Tree} {x : Read α}

theorem bind (h : ReadsUpTo first x) {f : α → Read β} (hf : ∀ v, ReadsUpTo second (f v)) :
    ReadsUpTo (first.or second) (x >>= f) := by
  cases h with
  | value v => exact hf v
  | malformed h => exact .malformed h

theorem map (h : ReadsUpTo first x) (f : α → β) : ReadsUpTo first (x >>= fun v => .ok (f v)) := by
  have hwhole := h.bind fun v => ReadsUpTo.value (f v)
  rw [Option.or_none] at hwhole
  exact hwhole

end ReadsUpTo

/-! ### Letters -/

/-- A part of a stretch of letters. -/
structure PartRead (t : Tree) : Prop where
  carets : t.text.count '^' = t.parts.countP isOptional
  read : ReadsUpTo (firstNesting [t]) t.readPart

/-- A stretch of letters. -/
structure LettersRead (t : Tree) : Prop where
  node : ∃ ts, t = .node .letters ts
  carets : t.text.count '^' = t.parts.countP isOptional
  read : ReadsUpTo (firstNesting [t]) t.readLetters

theorem partRead_leaf {w : Word} (h : ∀ c ∈ w, isLetter c = true) : PartRead (.leaf w) := by
  refine ⟨?_, .value _⟩
  have hcaret : '^' ∉ w := fun hmem => by cases h '^' hmem
  exact List.count_eq_zero.mpr hcaret

/-- Only the count of `^` tells whether another optional part is inside. -/
theorem partRead_optional {t : Tree} (h : PartRead t) :
    PartRead (.node .optional [t, .leaf ['^']]) := by
  have htext : textOfAll [t, .leaf ['^']] = t.text ++ ['^'] := by simp [Tree.text]
  have hparts : partsOfAll [t, .leaf ['^']] = t.parts ++ [.leaf ['^']] := rfl
  have hcount : (textOfAll [t, .leaf ['^']]).count '^' = t.parts.countP isOptional + 1 := by
    rw [htext, List.count_append, h.carets]
    rfl
  have hnests : (Tree.node .optional [t, .leaf ['^']]).nestsOptional = t.parts.any isOptional := by
    show (partsOfAll [t, .leaf ['^']]).any isOptional = _
    rw [hparts, List.any_append]
    exact Bool.or_false _
  constructor
  · rw [Tree.text, hcount, Tree.parts, hparts, List.countP_cons, List.countP_append]
    rfl
  · unfold firstNesting Tree.readPart
    rw [partsOfAll_singleton, Tree.parts]
    simp only [hcount]
    cases hinside : t.parts.any isOptional with
    | false =>
      have hnone : t.parts.countP isOptional = 0 := by
        rw [List.countP_eq_zero]
        exact List.any_eq_false.mp hinside
      have hkept : (partsOfAll [t, .leaf ['^']]).find? nestsOptional = firstNesting [t] :=
        firstNesting_append_leaf [t] ['^']
      rw [List.find?_cons_of_neg (by simp [hnests, hinside]), hkept, hnone]
      exact h.read.map fun forms => forms.union (.form [])
    | true =>
      obtain ⟨inner, hmem, hinner⟩ := List.any_eq_true.mp hinside
      have hsome : 0 < t.parts.countP isOptional := List.countP_pos_iff.mpr ⟨inner, hmem, hinner⟩
      rw [List.find?_cons_of_pos (by rw [hnests, hinside]), if_pos (by omega), ← hcount]
      refine .malformed (u := .node .optional [t, .leaf ['^']]) ?_
      show 2 ≤ (textOfAll [t, .leaf ['^']]).count '^'
      omega

theorem partRead_parens {t : Tree} (h : LettersRead t) : PartRead (.parens t) := by
  have hparts : (Tree.parens t).parts = .parens t :: .leaf ['('] :: (t.parts ++ [.leaf [')']]) := rfl
  constructor
  · have htext : (Tree.parens t).text = '(' :: (t.text ++ [')']) := by simp [Tree.parens, Tree.text]
    rw [htext, hparts]
    simp [h.carets, Tree.isOptional, Tree.parens]
  · rw [firstNesting_parens, Tree.readPart_parens]
    exact h.read

theorem readsUpTo_readParts {ts : List Tree} (h : ∀ t ∈ ts, PartRead t)
    (front : Allomorphs) : ReadsUpTo (firstNesting ts) (Tree.readParts front ts) := by
  induction ts generalizing front with
  | nil => exact .value front
  | cons t ts ih =>
    have hmore := ih fun u hu => h u (List.mem_cons_of_mem t hu)
    rw [firstNesting_cons, Tree.readParts]
    exact (h t List.mem_cons_self).read.bind fun forms => hmore _

theorem count_caret_partsOfAll {ts : List Tree} (h : ∀ t ∈ ts, PartRead t) :
    (textOfAll ts).count '^' = (partsOfAll ts).countP isOptional := by
  induction ts with
  | nil => rfl
  | cons t ts ih =>
    have hmore := ih fun u hu => h u (List.mem_cons_of_mem t hu)
    rw [textOfAll, partsOfAll, List.count_append, List.countP_append, hmore,
      (h t List.mem_cons_self).carets]

theorem lettersRead_node {ts : List Tree} (h : ∀ t ∈ ts, PartRead t) :
    LettersRead (.node .letters ts) := by
  refine ⟨⟨ts, rfl⟩, ?_, ?_⟩
  · rw [Tree.text, Tree.parts, List.countP_cons_of_neg (by simp [Tree.isOptional])]
    exact count_caret_partsOfAll h
  · rw [firstNesting_node (by decide), Tree.readLetters]
    exact readsUpTo_readParts h _

theorem partRead_letterRun : Consumes letterRun fun _ ts => ∀ t ∈ ts, PartRead t := by
  refine consumes_letterRun_trees.mono ?_
  intro used ts h
  cases h with
  | plain hne hletters => simpa using partRead_leaf hletters
  | optional hlast => simpa using partRead_optional (partRead_leaf hlast)
  | cut hne hfront hlast =>
    simpa using And.intro (partRead_leaf hfront) (partRead_optional (partRead_leaf hlast))

theorem partRead_letterParens {inner : Production Tree}
    (h : Consumes inner fun _ t => LettersRead t) :
    Consumes (letterParens inner) fun _ ts => ∀ t ∈ ts, PartRead t := by
  refine (consumes_letterParens_trees h).mono ?_
  intro used ts htrees
  cases htrees with
  | plain ht => simpa using partRead_parens ht
  | optional ht => simpa using partRead_optional (partRead_parens ht)

theorem partRead_flatten {P : Tree → Prop} {used : Word} {tss : List (List Tree)}
    (h : Each (fun _ ts => ∀ t ∈ ts, P t) used tss) : ∀ t ∈ tss.flatten, P t := by
  induction h with
  | nil => simp
  | cons first others ih =>
    rw [List.flatten_cons]
    exact List.forall_mem_append.mpr ⟨first, ih⟩

theorem lettersRead_lettersAround {inner : Production Tree}
    (h : Consumes inner fun _ t => LettersRead t) :
    Consumes (lettersAround inner) fun _ t => LettersRead t := by
  have hpart := consumes_orElse partRead_letterRun (partRead_letterParens h)
  apply consumes_bind (consumes_expecting (consumes_many1 hpart))
  intro used parts hparts
  exact consumes_pure (lettersRead_node (partRead_flatten hparts.1))

theorem lettersRead_letters : Consumes letters fun _ t => LettersRead t :=
  consumes_letters_of_around fun _ => lettersRead_lettersAround

/-! ### Segments -/

/-- Affixes, of which every optional part is in the letters. -/
structure SegmentRead (t : Tree) : Prop where
  node : ∃ label ts, t = .node label ts ∧ label.isWrapper = false ∧ label ≠ .conditional
  read : ReadsUpTo (firstNesting [t]) t.readSegment

theorem segmentRead_circumfix : Consumes circumfix fun _ t => SegmentRead t := by
  apply consumes_bind lettersRead_letters
  intro u front hfront
  apply consumes_bind consumes_affixMark
  intro m mark hmark
  apply consumes_bind lettersRead_letters
  intro v back hback
  obtain ⟨p, -, rfl⟩ := hmark
  refine consumes_pure ⟨⟨_, _, rfl, rfl, by decide⟩, ?_⟩
  have hfirst : firstNesting [.node .circumfix [front, .leaf [p.symbol], back]] =
      (firstNesting [front]).or (firstNesting [back]) := by
    rw [firstNesting_node (by decide), firstNesting_cons, firstNesting_leaf_cons]
  rw [hfirst, Tree.readSegment_circumfix, Tree.readPolarity_symbol]
  refine hfront.read.bind fun a => ?_
  exact hback.read.map fun b => [Operation.putAround a b p]

theorem segmentRead_interfix : Consumes interfix fun _ t => SegmentRead t := by
  apply consumes_bind consumes_affixSymbol
  rintro m opening ⟨p, -, rfl⟩
  apply consumes_bind lettersRead_letters
  intro u form hform
  apply consumes_bind (consumes_mark _)
  rintro m' closing ⟨-, rfl⟩
  refine consumes_pure ⟨⟨_, _, rfl, rfl, by decide⟩, ?_⟩
  have hfirst : firstNesting [.node .interfix [.leaf [p.symbol], form, .leaf [p.symbol]]] =
      firstNesting [form] := by
    rw [firstNesting_node (by decide), firstNesting_leaf_cons]
    exact firstNesting_append_leaf [form] _
  rw [hfirst, Tree.readSegment_interfix, Tree.readPolarity_symbol]
  exact hform.read.map _

/-- A link of a chain of postfixes. -/
def PostfixLink (ts : List Tree) : Prop :=
  ∃ (p : Polarity) (t : Tree), ts = [.leaf [p.symbol], t] ∧ LettersRead t

/-- A link of a chain of prefixes. -/
def PrefixLink (ts : List Tree) : Prop :=
  ∃ (p : Polarity) (t : Tree), ts = [t, .leaf [p.symbol]] ∧ LettersRead t

theorem readsUpTo_postfixLinks {used : Word} {tss : List (List Tree)}
    (h : Each (fun _ ts => PostfixLink ts) used tss) (chain : Tree) :
    ReadsUpTo (firstNesting tss.flatten) (Tree.readPostfixLinks chain tss.flatten) := by
  induction h with
  | nil => exact .value []
  | @cons used more ts tss first others ih =>
    obtain ⟨p, t, rfl, ht⟩ := first
    rw [List.flatten_cons, firstNesting_append, firstNesting_leaf_cons]
    simp only [List.cons_append, List.nil_append, Tree.readPostfixLinks,
      Tree.readPolarity_symbol, ok_bind]
    refine ht.read.bind fun form => ?_
    exact ih.map fun operations => .putAfter form p :: operations

/-- A chain of prefixes of any length, with a chain of postfixes behind it or
    none. -/
theorem readsUpTo_prefixLinks {used : Word} {tss : List (List Tree)}
    (h : Each (fun _ ts => PrefixLink ts) used tss) {tail : List Tree}
    (htail : ReadsUpTo (firstNesting tail) (Tree.readPrefixLinks tail)) :
    ReadsUpTo (firstNesting (tss.flatten ++ tail))
      (Tree.readPrefixLinks (tss.flatten ++ tail)) := by
  induction h with
  | nil => exact htail
  | @cons used more ts tss first others ih =>
    obtain ⟨p, t, rfl, ht⟩ := first
    have hlink : firstNesting [t, .leaf [p.symbol]] = firstNesting [t] :=
      firstNesting_append_leaf [t] _
    rw [List.flatten_cons, List.append_assoc, firstNesting_append, hlink]
    simp only [List.cons_append, List.nil_append, Tree.readPrefixLinks,
      Tree.readPolarity_symbol, ok_bind]
    refine ht.read.bind fun form => ?_
    exact ih.map fun operations => .putBefore form p :: operations

theorem consumes_postfixLinks :
    Consumes postfixes fun _ t => ∃ used tss, t = .node .postfixes tss.flatten ∧
      Each (fun _ ts => PostfixLink ts) used tss := by
  have hlink : Consumes (pair affixMark letters) fun _ ts => PostfixLink ts := by
    apply consumes_bind consumes_affixMark
    intro m mark hmark
    apply consumes_bind lettersRead_letters
    intro u form hform
    obtain ⟨p, -, rfl⟩ := hmark
    exact consumes_pure ⟨p, form, rfl, hform⟩
  apply consumes_bind (consumes_many1 hlink)
  intro used links hlinks
  exact consumes_pure ⟨used, links, rfl, hlinks.1⟩

theorem segmentRead_postfixes : Consumes postfixes fun _ t => SegmentRead t := by
  refine consumes_postfixLinks.mono ?_
  rintro - t ⟨used, tss, rfl, htss⟩
  refine ⟨⟨_, _, rfl, rfl, by decide⟩, ?_⟩
  rw [firstNesting_node (by decide), Tree.readSegment_postfixes]
  exact readsUpTo_postfixLinks htss _

theorem segmentRead_prefixes : Consumes prefixes fun _ t => SegmentRead t := by
  have hlink : Consumes (pair letters affixMark) fun _ ts => PrefixLink ts := by
    apply consumes_bind lettersRead_letters
    intro u form hform
    apply consumes_bind consumes_affixMark
    rintro m mark ⟨p, -, rfl⟩
    exact consumes_pure ⟨p, form, rfl, hform⟩
  apply consumes_bind (consumes_many1 hlink)
  intro used links hlinks
  apply consumes_bind (consumes_optionally consumes_postfixLinks)
  intro more tail htail
  refine consumes_pure ⟨⟨_, _, rfl, rfl, by decide⟩, ?_⟩
  rw [firstNesting_node (by decide), Tree.readSegment_prefixes]
  refine readsUpTo_prefixLinks hlinks.1 ?_
  rcases htail with ⟨rfl, -⟩ | ⟨t, rfl, used', tss, rfl, htss⟩
  · exact .value []
  · have hread : Tree.readPrefixLinks [.node .postfixes tss.flatten] =
        Tree.readPostfixLinks (.node .postfixes tss.flatten) tss.flatten := rfl
    show ReadsUpTo (firstNesting [.node .postfixes tss.flatten])
      (Tree.readPrefixLinks [.node .postfixes tss.flatten])
    rw [firstNesting_node (by decide), hread]
    exact readsUpTo_postfixLinks htss _

theorem segmentRead_edgeSegment : Consumes edgeSegment fun _ t => SegmentRead t :=
  consumes_orElse segmentRead_circumfix
    (consumes_orElse segmentRead_prefixes segmentRead_postfixes)

/-! ### Parts with separators between them -/

/-- The parts are read one after the other, and the separators are left out. -/
theorem Separated.readsUpTo {β : Type} {P : Tree → Prop} {read : Tree → Read β}
    (hread : ∀ t, P t → ReadsUpTo (firstNesting [t]) (read t)) {ts : List Tree}
    (h : Separated P ts) : ReadsUpTo (firstNesting ts) ((Tree.items ts).mapM read) := by
  induction h with
  | @one t part =>
    have hitems : Tree.items [t] = [t] := rfl
    rw [hitems, List.mapM_cons]
    exact (hread t part).map fun v => [v]
  | @cons t ts c part others ih =>
    have hitems : Tree.items (t :: .leaf [c] :: ts) = t :: Tree.items ts := rfl
    rw [hitems, List.mapM_cons, firstNesting_cons, firstNesting_leaf_cons]
    refine (hread t part).bind fun v => ?_
    exact ih.map fun vs => v :: vs

/-! ### Conditionals -/

/-- The trees of a test without its negation. -/
structure TestBodyRead (body : List Tree) : Prop where
  head : ∃ first more, body = first :: more ∧ first.isMark '~' = false
  read : ∀ whole, ReadsUpTo (firstNesting body) (Tree.readTestBody whole body)

theorem LettersRead.isMark {t : Tree} (h : LettersRead t) (c : Char) :
    t.isMark c = false := by
  obtain ⟨ts, rfl⟩ := h.node
  rfl

theorem testBodyRead_trees {form : Tree} (h : LettersRead form) (e : Edge) :
    TestBodyRead (e.trees form) where
  head := by
    cases e with
    | start => exact ⟨form, _, rfl, h.isMark '~'⟩
    | final => exact ⟨.leaf ['-'], _, rfl, rfl⟩
  read whole := by
    have hform : firstNesting (e.trees form) = firstNesting [form] := by
      cases e with
      | start => exact firstNesting_append_leaf [form] _
      | final => exact firstNesting_leaf_cons _ _
    rw [hform, Tree.readTestBody_trees e (h.isMark '-')]
    exact h.read.map _

theorem testBodyRead_testBody :
    Consumes (orElse startTest finalTest) fun _ body => TestBodyRead body := by
  refine (consumes_testBody lettersRead_letters).mono ?_
  rintro _ _ ⟨edge, -, form, -, rfl, hform⟩
  exact testBodyRead_trees hform edge

theorem readsUpTo_test : Consumes test fun _ t => ReadsUpTo (firstNesting [t]) t.readTest := by
  apply consumes_bind (consumes_optionally (consumes_mark '~'))
  intro used negation hnegation
  apply consumes_bind testBodyRead_testBody
  intro more body hbody
  apply consumes_pure
  rw [firstNesting_node (by decide)]
  obtain ⟨first, others, rfl, hfirst⟩ := hbody.head
  rcases hnegation with ⟨rfl, -⟩ | ⟨c, rfl, -⟩
  · simpa [Tree.readTest, Tree.childrenOf, hfirst] using hbody.read _
  · have hmark : (Tree.leaf ['~']).isMark '~' = true := rfl
    simp only [Tree.readTest, Tree.childrenOf, if_true, Option.isSome_some, ok_bind, hmark]
    rw [firstNesting_leaf_cons]
    exact (hbody.read _).map _

theorem readsUpTo_condition :
    Consumes condition fun _ t => ReadsUpTo (firstNesting [t]) t.readCondition := by
  apply consumes_bind (separated_parts readsUpTo_test)
  intro used ts hts
  apply consumes_pure
  rw [firstNesting_node (by decide), Tree.readCondition_node]
  exact (hts.readsUpTo fun t ht => ht).map _

theorem readsUpTo_branch :
    Consumes branch fun _ t => ReadsUpTo (firstNesting [t]) t.readBranch := by
  have hinner := consumes_orElse
    (segmentRead_edgeSegment.mono fun used t ht => Or.inl ht)
    (consumes_shortMark.mono fun used t ht => Or.inr ht)
  apply consumes_bind hinner
  intro used t ht
  apply consumes_pure
  rw [firstNesting_node (by decide)]
  rcases ht with ht | ⟨p, -, -, rfl⟩
  · obtain ⟨label, ts, rfl, -, -⟩ := ht.node
    rw [Tree.readBranch_node]
    exact ht.read.map _
  · rw [Tree.readBranch_symbol]
    exact .value _

/-- A conditional, which is read where no segment is expected. -/
structure ConditionalRead (t : Tree) : Prop where
  node : ∃ ts, t = .node .conditional ts
  read : ReadsUpTo (firstNesting [t]) t.readConditional

theorem conditionalRead_conditionalMet :
    Consumes conditionalMet fun _ t => ConditionalRead t := by
  apply consumes_bind readsUpTo_condition
  intro u asked hasked
  apply consumes_bind (consumes_separator_blanks '?')
  intro m question hquestion
  apply consumes_bind readsUpTo_branch
  intro v met hmet
  obtain ⟨rfl, -⟩ := hquestion
  have helse : Consumes elseBranch fun _ t => ReadsUpTo (firstNesting [t]) t.readBranch :=
    consumes_bind (consumes_separator_blanks ':') fun _ _ _ => readsUpTo_branch
  apply consumes_bind (consumes_optionally helse)
  intro w unmet hunmet
  rcases hunmet with ⟨rfl, -⟩ | ⟨unmet, rfl, hunmet⟩
  · refine consumes_pure ⟨⟨_, rfl⟩, ?_⟩
    rw [firstNesting_node (by decide), firstNesting_cons, firstNesting_leaf_cons,
      Tree.readConditional_met]
    refine hasked.bind fun c => ?_
    exact hmet.map fun b => Operation.conditional c b .identity
  · refine consumes_pure ⟨⟨_, rfl⟩, ?_⟩
    rw [firstNesting_node (by decide), firstNesting_cons, firstNesting_leaf_cons,
      firstNesting_cons met, firstNesting_leaf_cons, Tree.readConditional_both]
    refine hasked.bind fun c => ?_
    refine hmet.bind fun b => ?_
    exact hunmet.map fun b' => Operation.conditional c b b'

theorem conditionalRead_conditionalUnmet :
    Consumes conditionalUnmet fun _ t => ConditionalRead t := by
  apply consumes_bind readsUpTo_condition
  intro u asked hasked
  apply consumes_bind (consumes_separator_blanks '?')
  intro m question hquestion
  apply consumes_bind (consumes_separator_blanks ':')
  intro v colon hcolon
  apply consumes_bind readsUpTo_branch
  intro w unmet hunmet
  obtain ⟨rfl, -⟩ := hquestion
  obtain ⟨rfl, -⟩ := hcolon
  refine consumes_pure ⟨⟨_, rfl⟩, ?_⟩
  rw [firstNesting_node (by decide), firstNesting_cons, firstNesting_leaf_cons,
    firstNesting_leaf_cons, Tree.readConditional_unmet]
  refine hasked.bind fun c => ?_
  exact hunmet.map fun b => Operation.conditional c .identity b

/-! ### Items, groups and rules -/

theorem readsUpTo_item :
    Consumes item fun _ t => (∃ inner, t = .node .item [inner]) ∧
      ReadsUpTo (firstNesting [t]) t.readItem := by
  have hsegment : Consumes Grammar.segment fun _ t => ∃ label ts,
      t = .node .segment [.node label ts] ∧ label.isWrapper = false ∧ label ≠ .conditional ∧
        ReadsUpTo (firstNesting [.node label ts]) (Tree.node label ts).readSegment := by
    apply consumes_bind (consumes_expecting
      (consumes_orElse segmentRead_interfix segmentRead_edgeSegment))
    intro used t ht
    obtain ⟨label, ts, rfl, hwrapper, hlabel⟩ := ht.node
    exact consumes_pure ⟨label, ts, rfl, hwrapper, hlabel, ht.read⟩
  have hconditional : Consumes conditional fun _ t => ConditionalRead t :=
    consumes_orElse conditionalRead_conditionalMet conditionalRead_conditionalUnmet
  have hinner := consumes_orElse
    (hconditional.mono fun used t ht => Or.inl ht)
    (hsegment.mono fun used t ht => Or.inr ht)
  refine consumes_bind hinner fun used t ht => consumes_pure ⟨⟨t, rfl⟩, ?_⟩
  rw [firstNesting_node (by decide)]
  rcases ht with ht | ⟨label, ts, rfl, hwrapper, hlabel, hread⟩
  · obtain ⟨ts, rfl⟩ := ht.node
    rw [Tree.readItem_conditional]
    exact ht.read.map fun x => [x]
  · rw [firstNesting_node (by decide), Tree.readItem_segment hwrapper hlabel]
    exact hread

/-- An item or a group, with or without parentheses. -/
theorem readsUpTo_perhapsParenthesised {β : Type} {p : Production Tree}
    {read : Tree → Read β}
    (hp : Consumes p fun _ t => t.unparenthesised = t ∧ (∃ label ts, t = .node label ts) ∧
      ReadsUpTo (firstNesting [t]) (read t)) :
    Consumes (orElse p (parenthesised p)) fun _ t => (∃ label ts, t = .node label ts) ∧
      ReadsUpTo (firstNesting [t]) (read t.unparenthesised) := by
  refine consumes_orElse (hp.mono ?_) ((consumes_parenthesised hp).mono ?_)
  · rintro used t ⟨hself, hnode, hread⟩
    rw [hself]
    exact ⟨hnode, hread⟩
  · rintro used t ⟨u, inner, -, rfl, -, -, hread⟩
    rw [firstNesting_parens]
    exact ⟨⟨_, _, rfl⟩, hread⟩

theorem readsUpTo_group :
    Consumes group fun _ t => t.unparenthesised = t ∧ (∃ label ts, t = .node label ts) ∧
      ReadsUpTo (firstNesting [t]) t.readGroup := by
  have hitem := readsUpTo_item.mono fun used t ht =>
    show t.unparenthesised = t ∧ (∃ label ts, t = .node label ts) ∧
      ReadsUpTo (firstNesting [t]) t.readItem by
    obtain ⟨⟨inner, rfl⟩, hread⟩ := ht
    exact ⟨rfl, ⟨_, _, rfl⟩, hread⟩
  apply consumes_bind (separated_parts (readsUpTo_perhapsParenthesised hitem))
  intro used ts hts
  refine consumes_pure ⟨?_, ⟨_, _, rfl⟩, ?_⟩
  · cases hts with
    | one part => rfl
    | cons c part others =>
      obtain ⟨⟨label, us, rfl⟩, -⟩ := part
      rfl
  · rw [firstNesting_node (by decide), Tree.readGroup_node]
    exact (hts.readsUpTo fun t ht => ht.2).map List.flatten

theorem readsUpTo_stages :
    Consumes stages fun _ t => ReadsUpTo (firstNesting [t]) t.readStages := by
  apply consumes_bind (separated_parts (readsUpTo_perhapsParenthesised readsUpTo_group))
  intro used ts hts
  apply consumes_pure
  rw [firstNesting_node (by decide), Tree.readStages_node]
  exact hts.readsUpTo fun t ht => ht.2

theorem firstNesting_context : Consumes context fun _ t => firstNesting [t] = none :=
  consumes_bind (consumes_separator_blanks '@') fun _ _ _ => consumes_pure rfl

theorem readsUpTo_rule : Consumes rule fun _ t => ReadsUpTo (firstNesting [t]) t.readRule := by
  apply consumes_bind consumes_blanks
  intro before _ _
  apply consumes_bind (consumes_optionally firstNesting_context)
  intro u context hcontext
  apply consumes_bind readsUpTo_stages
  intro v body hbody
  apply consumes_bind consumes_blanks
  intro after _ _
  -- with or without a context the last part of the tree holds the groups
  have hwhole (front : List Tree) (hfront : firstNesting front = none) :
      ReadsUpTo (firstNesting [.node .rule (front ++ [body])])
        (Tree.node .rule (front ++ [body])).readRule := by
    rw [firstNesting_node (by decide), firstNesting_append, hfront, Option.none_or,
      Tree.readRule_groups]
    exact hbody.map fun groups => ({ groups := groups } : Blueprint)
  rcases hcontext with ⟨rfl, -⟩ | ⟨t, rfl, ht⟩
  · exact consumes_pure (hwhole [] rfl)
  · have hfront : firstNesting [t, .leaf ['@']] = none := by
      rw [← ht]
      exact firstNesting_append_leaf [t] _
    exact consumes_pure (hwhole [t, .leaf ['@']] hfront)

/-- The tree of a text is read unless an optional part has another one inside.
    The first part of this kind is what reading fails at, for it has more than one
    `^`, and there is no other failure. -/
theorem Tree.readRule_of_parse {text : Word} {t : Tree}
    (h : parse text = .ok t) :
    (t.parts.find? nestsOptional = none → ∃ b, t.readRule = .ok b) ∧
    (∀ u, t.parts.find? nestsOptional = some u →
      t.readRule = .error (.malformedOptional u.text (u.text.count '^')) ∧
        2 ≤ u.text.count '^') ∧
    ∀ expected found, t.readRule ≠ .error (.unexpectedNode expected found) := by
  obtain ⟨-, hrule⟩ := parse_eq_ok.mp h
  obtain ⟨-, -, hread⟩ := readsUpTo_rule text t [] hrule
  unfold firstNesting at hread
  rw [partsOfAll_singleton] at hread
  generalize t.parts.find? nestsOptional = first at hread ⊢
  generalize t.readRule = outcome at hread ⊢
  cases hread with
  | value b =>
    refine ⟨fun _ => ⟨b, rfl⟩, ?_, ?_⟩
    · intro u hu
      cases hu
    · intro expected found hfailure
      cases hfailure
  | malformed hcarets =>
    refine ⟨?_, ?_, ?_⟩
    · intro hnone
      cases hnone
    · intro u hu
      cases hu
      exact ⟨rfl, hcarets⟩
    · intro expected found hfailure
      cases hfailure

/-- Two optional parts have others inside, one in the condition and one in the
    branch. -/
def nestedText : Word := "~(e^n)^- ? +a(b^c^)^".toList

theorem Tree.readRule_of_parse_nestedText :
    ∃ t, parse nestedText = .ok t ∧
      t.readRule = .error (.malformedOptional "(e^n)^".toList 2) := by
  have hfirst : ((parse nestedText).toOption.bind fun t =>
      (t.parts.find? nestsOptional).map Tree.text) = some "(e^n)^".toList := by decide +kernel
  cases hparse : parse nestedText with
  | error e =>
    rw [hparse] at hfirst
    cases hfirst
  | ok t =>
    rw [hparse] at hfirst
    obtain ⟨u, hu, htext⟩ := Option.map_eq_some_iff.mp hfirst
    obtain ⟨hread, -⟩ := (Tree.readRule_of_parse hparse).2.1 u hu
    rw [htext] at hread
    exact ⟨t, rfl, hread⟩

end WordFormation.RuleText
