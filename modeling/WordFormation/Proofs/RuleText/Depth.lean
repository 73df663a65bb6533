/-
  WordFormation/Proofs/RuleText/Depth.lean
  ========================================
  **A text is nested too deep exactly if its tree is.**

  How deep a text is nested is found out by counting its parentheses, before there
  is a tree and without the grammar.  In the tree the depth is that of the nodes for
  parentheses inside one another, on a path from the root (`Tree.paths`).  The two
  agree on every text that the grammar matches, for the parentheses that a tree
  spells out are those of its nodes for parentheses (`Tree.Bracketed`), and counting
  goes through these nodes in reading order (`Scans`).

  What counting stops at is the first node that is one level too deep.  A node does
  not know where it stands in the text.  But the tree spells out the text without its
  blanks, so that what is spelt out in front of the node tells the place
  (`Opening.IsBehind`), and there is no other (`Opening.IsBehind.unique`).
-/
import WordFormation.Proofs.RuleText.Nesting
import WordFormation.Proofs.RuleText.TreeText

namespace WordFormation.RuleText

open Production Grammar

/-! ### Paths and depths -/

/-- An opening parenthesis of a tree: how many are open behind it, and what the tree
    spells out in front of it. -/
structure Opening where
  depth : Nat
  before : Word
deriving DecidableEq

/-- The opening parenthesis of the text that stands behind `front` is this one. -/
def Opening.IsBehind (o : Opening) (text front : Word) : Prop :=
  front.filter (fun c => !isBlank c) = o.before ∧ ∃ back, text = front ++ '(' :: back

theorem Opening.IsBehind.eq_of_length_le {o : Opening} {text u v : Word} (hu : o.IsBehind text u)
    (hv : o.IsBehind text v) (hle : u.length ≤ v.length) : u = v := by
  obtain ⟨hbefore, back, htext⟩ := hu
  obtain ⟨hbefore', back', htext'⟩ := hv
  have hfront : u <+: text := ⟨_, htext.symm⟩
  obtain ⟨between, rfl⟩ := List.prefix_of_prefix_length_le hfront ⟨_, htext'.symm⟩ hle
  cases between with
  | nil => exact (List.append_nil u).symm
  | cons c between =>
    -- the parenthesis behind `u` is spelt out in front of what stands behind `v`
    rw [htext, List.append_assoc] at htext'
    obtain ⟨rfl, -⟩ := List.cons.inj (List.append_cancel_left htext')
    rw [List.filter_append, hbefore] at hbefore'
    cases List.append_right_eq_self.mp hbefore'

/-- It stands behind nothing else. -/
theorem Opening.IsBehind.unique {o : Opening} {text u v : Word} (hu : o.IsBehind text u)
    (hv : o.IsBehind text v) : u = v := by
  rcases Nat.le_total u.length v.length with hle | hle
  · exact hu.eq_of_length_le hv hle
  · exact (hv.eq_of_length_le hu hle).symm

namespace Tree

mutual

/-- The labels on the way from the root to a leaf, for every leaf. -/
def paths : Tree → List (List Label)
  | leaf _ => [[]]
  | node label children =>
    if children.isEmpty then [[label]] else (pathsOfAll children).map (label :: ·)

def pathsOfAll : List Tree → List (List Label)
  | [] => []
  | t :: ts => t.paths ++ pathsOfAll ts

end

mutual

/-- The opening parentheses of a tree in reading order.  Outside of the tree `depth`
    are open, and `before` is spelt out in front of it. -/
def openings (depth : Nat) (before : Word) : Tree → List Opening
  | leaf _ => []
  | node label children =>
    if label = .parens then
      ⟨depth + 1, before⟩ :: openingsOfAll (depth + 1) before children
    else
      openingsOfAll depth before children

def openingsOfAll (depth : Nat) (before : Word) : List Tree → List Opening
  | [] => []
  | t :: ts => t.openings depth before ++ openingsOfAll depth (before ++ t.text) ts

end

/-- No path goes through more than `n` nodes for parentheses. -/
def NestsWithin (n : Nat) (t : Tree) : Prop := ∀ path ∈ t.paths, path.count .parens ≤ n

theorem mem_pathsOfAll {ts : List Tree} {path : List Label} :
    path ∈ pathsOfAll ts ↔ ∃ t ∈ ts, path ∈ t.paths := by
  induction ts with
  | nil => simp [pathsOfAll]
  | cons t ts ih => simp [pathsOfAll, ih]

theorem nestsWithin_leaf (n : Nat) (w : Word) : (leaf w).NestsWithin n := by
  simp [NestsWithin, paths]

theorem nestsWithin_node {n : Nat} {label : Label} (hlabel : label ≠ .parens) (ts : List Tree) :
    (node label ts).NestsWithin n ↔ ∀ t ∈ ts, t.NestsWithin n := by
  have hcount (path : List Label) : (label :: path).count .parens = path.count .parens :=
    List.count_cons_of_ne hlabel
  unfold NestsWithin
  rw [paths]
  cases ts with
  | nil => simp [hcount]
  | cons t ts =>
    rw [if_neg (by simp), List.forall_mem_map]
    simp only [hcount, mem_pathsOfAll]
    exact ⟨fun h t' ht' path hpath => h path ⟨t', ht', hpath⟩,
      fun h path ⟨t', ht', hpath⟩ => h t' ht' path hpath⟩

theorem paths_parens (t : Tree) :
    (parens t).paths = [.parens] :: (t.paths.map (Label.parens :: ·) ++ [[.parens]]) := by
  simp [parens, paths, pathsOfAll]

theorem not_nestsWithin_parens (t : Tree) : ¬ (parens t).NestsWithin 0 := by
  simp [NestsWithin, paths_parens]

theorem nestsWithin_parens {n : Nat} {t : Tree} :
    (parens t).NestsWithin (n + 1) ↔ t.NestsWithin n := by
  unfold NestsWithin
  rw [paths_parens, List.forall_mem_cons, List.forall_mem_append, List.forall_mem_map]
  simp

theorem text_parens (t : Tree) : (parens t).text = '(' :: (t.text ++ [')']) := by
  simp [parens, text]

theorem openings_parens (depth : Nat) (before : Word) (t : Tree) :
    (parens t).openings depth before =
      ⟨depth + 1, before⟩ :: t.openings (depth + 1) (before ++ ['(']) := by
  simp [parens, openings, openingsOfAll, text]

/-! ### Trees whose parentheses are marks of their own -/

/-- The parentheses that the tree spells out are those of its nodes for parentheses. -/
inductive Bracketed : Tree → Prop where
  | leaf {w : Word} (hw : ∀ c ∈ w, c ≠ '(' ∧ c ≠ ')') : Bracketed (leaf w)
  | parens {t : Tree} (ht : Bracketed t) : Bracketed (parens t)
  | node {label : Label} {ts : List Tree} (hlabel : label ≠ .parens)
      (hts : ∀ t ∈ ts, Bracketed t) : Bracketed (node label ts)

/-- Paths and opening parentheses tell the same about the depth. -/
theorem Bracketed.nestsWithin_iff {t : Tree} (h : t.Bracketed) (n depth : Nat) (before : Word) :
    t.NestsWithin n ↔ ∀ o ∈ t.openings depth before, o.depth ≤ depth + n := by
  induction h generalizing n depth before with
  | leaf hw => simp [nestsWithin_leaf, openings]
  | @parens t ht ih =>
    rw [openings_parens, List.forall_mem_cons]
    cases n with
    | zero =>
      have htooDeep : ¬ depth + 1 ≤ depth + 0 := by omega
      simp only [not_nestsWithin_parens, htooDeep, false_and]
    | succ n =>
      have hsum : depth + (n + 1) = depth + 1 + n := by omega
      rw [nestsWithin_parens, hsum, ih n (depth + 1) (before ++ ['('])]
      exact (and_iff_right (Nat.le_add_right _ n)).symm
  | @node label ts hlabel hts ih =>
    rw [nestsWithin_node hlabel, openings, if_neg hlabel]
    clear hts
    induction ts generalizing before with
    | nil => simp [openingsOfAll]
    | cons t ts ihs =>
      rw [List.forall_mem_cons, openingsOfAll, List.forall_mem_append,
        ih t List.mem_cons_self n depth before,
        ihs (fun t' ht' => ih t' (List.mem_cons_of_mem t ht')) (before ++ t.text)]

end Tree

/-! ### Counting parentheses node by node -/

theorem tooDeep?_append_of_forall_ne {w : Word} (hw : ∀ c ∈ w, c ≠ '(' ∧ c ≠ ')') (depth : Nat)
    (rest : Word) : tooDeep? depth (w ++ rest) = tooDeep? depth rest := by
  induction w with
  | nil => rfl
  | cons c w ih =>
    obtain ⟨⟨hopening, hclosing⟩, hw⟩ := List.forall_mem_cons.mp hw
    rw [List.cons_append, tooDeep?, if_neg hopening, if_neg hclosing, ih hw]

/-- What counting makes of a stretch of text, `depth` parentheses being open and
    `before` having been spelt out in front of it: it goes on behind the stretch, or
    stops at the first of its parentheses that is one level too deep. -/
inductive Scans (depth : Nat) (before : Word) : Word → List Opening → Prop where
  | through {w : Word} {os : List Opening} (hos : ∀ o ∈ os, o.depth ≤ maxNesting)
      (hcount : ∀ rest, tooDeep? depth (w ++ rest) = tooDeep? depth rest) : Scans depth before w os
  | stops {front back : Word} {os os' : List Opening} {o : Opening}
      (hos : ∀ o ∈ os, o.depth ≤ maxNesting) (ho : o.depth = maxNesting + 1)
      (hfront : o.before = before ++ front)
      (hcount : ∀ rest, tooDeep? depth (front ++ '(' :: back ++ rest) = some ('(' :: back ++ rest)) :
      Scans depth before (front ++ '(' :: back) (os ++ o :: os')

namespace Scans

variable {depth : Nat} {before w w' : Word} {os os' : List Opening}

theorem nil : Scans depth before [] [] := .through (by simp) fun _ => rfl

theorem append (h : Scans depth before w os) (h' : Scans depth (before ++ w) w' os') :
    Scans depth before (w ++ w') (os ++ os') := by
  cases h with
  | through hos hcount =>
    cases h' with
    | through hos' hcount' =>
      refine .through (List.forall_mem_append.mpr ⟨hos, hos'⟩) fun rest => ?_
      rw [List.append_assoc, hcount, hcount']
    | @stops front back os' _ o hos' ho hfront hcount' =>
      rw [← List.append_assoc, ← List.append_assoc]
      refine .stops (List.forall_mem_append.mpr ⟨hos, hos'⟩) ho ?_ fun rest => ?_
      · rw [hfront, List.append_assoc]
      · rw [List.append_assoc, List.append_assoc, hcount, ← List.append_assoc, hcount']
  | stops hos ho hfront hcount =>
    rw [List.append_assoc, List.append_assoc]
    refine .stops hos ho hfront fun rest => ?_
    simpa using hcount (w' ++ rest)

theorem parens (h : Scans (depth + 1) (before ++ ['(']) w os) (hdepth : depth < maxNesting) :
    Scans depth before ('(' :: (w ++ [')'])) (⟨depth + 1, before⟩ :: os) := by
  have hopen (u : Word) : tooDeep? depth ('(' :: u) = tooDeep? (depth + 1) u := by
    rw [tooDeep?, if_pos rfl, if_neg (by omega)]
  cases h with
  | through hos hcount =>
    refine .through (List.forall_mem_cons.mpr ⟨hdepth, hos⟩) fun rest => ?_
    have htext : '(' :: (w ++ [')']) ++ rest = '(' :: (w ++ ')' :: rest) := by simp
    rw [htext, hopen, hcount]
    rfl
  | @stops front back os₁ os₂ o hos ho hfront hcount =>
    have htext : '(' :: (front ++ '(' :: back ++ [')']) =
        ('(' :: front) ++ '(' :: (back ++ [')']) := by simp
    rw [htext]
    show Scans depth before _ ((⟨depth + 1, before⟩ :: os₁) ++ o :: os₂)
    refine .stops (List.forall_mem_cons.mpr ⟨hdepth, hos⟩) ho ?_ fun rest => ?_
    · rw [hfront, List.append_assoc]
      rfl
    · have hinner := hcount (')' :: rest)
      simp only [List.append_assoc, List.cons_append, List.nil_append] at hinner ⊢
      rw [hopen, hinner]

/-- No more parentheses may be opened, whatever follows. -/
theorem opened_too_deep (w : Word) (os : List Opening) (before : Word) :
    Scans maxNesting before ('(' :: w) (⟨maxNesting + 1, before⟩ :: os) := by
  show Scans maxNesting before ([] ++ '(' :: w) ([] ++ ⟨maxNesting + 1, before⟩ :: os)
  refine .stops (by simp) rfl (List.append_nil before).symm fun rest => ?_
  show tooDeep? maxNesting ('(' :: (w ++ rest)) = _
  rw [tooDeep?, if_pos rfl, if_pos (Nat.lt_succ_self maxNesting)]
  rfl

end Scans

/-- A tree is counted through node by node. -/
theorem Tree.Bracketed.scans {t : Tree} (h : t.Bracketed) {depth : Nat}
    (hdepth : depth ≤ maxNesting) (before : Word) :
    Scans depth before t.text (t.openings depth before) := by
  induction h generalizing depth before with
  | leaf hw =>
    rw [openings, text]
    exact .through (by simp) (tooDeep?_append_of_forall_ne hw depth)
  | @parens t ht ih =>
    rw [text_parens, openings_parens]
    rcases Nat.lt_or_eq_of_le hdepth with hlt | rfl
    · exact (ih hlt (before ++ ['('])).parens hlt
    · exact Scans.opened_too_deep _ _ before
  | @node label ts hlabel hts ih =>
    rw [openings, if_neg hlabel, text]
    clear hts
    induction ts generalizing before with
    | nil => exact Scans.nil
    | cons t ts ihs =>
      rw [openingsOfAll, textOfAll]
      exact (ih t List.mem_cons_self hdepth before).append
        (ihs (fun t' ht' => ih t' (List.mem_cons_of_mem t ht')) (before ++ t.text))

/-! ### What the grammar matches -/

theorem bracketed_of_test {test : Char → Bool} (htest : IsNoParen test) {w : Word}
    (h : ∀ c ∈ w, test c = true) : (Tree.leaf w).Bracketed :=
  .leaf fun c hc => htest.ne_paren (h c hc)

theorem bracketed_mark {c : Char} (hc : IsNoParen (· == c)) : (Tree.leaf [c]).Bracketed :=
  bracketed_of_test hc (by simp)

theorem bracketed_optional {t : Tree} (h : t.Bracketed) :
    (Tree.node .optional [t, .leaf ['^']]).Bracketed := by
  have hcaret := bracketed_mark (by decide : IsNoParen (· == '^'))
  exact .node (by decide) (by simp [h, hcaret])

theorem bracketed_of_each {used : Word} {tss : List (List Tree)}
    (h : Each (fun _ ts => ∀ t ∈ ts, t.Bracketed) used tss) : ∀ t ∈ tss.flatten, t.Bracketed := by
  induction h with
  | nil => simp
  | cons first others ih => exact List.forall_mem_append.mpr ⟨first, ih⟩

/-- Every tree that it makes is such a tree. -/
def Brackets (p : Production Tree) : Prop := Consumes p fun _ t => t.Bracketed

/-- So are all of those that it makes in a row. -/
def BracketsAll (p : Production (List Tree)) : Prop := Consumes p fun _ ts => ∀ t ∈ ts, t.Bracketed

theorem brackets_mark_of_test {test : Char → Bool} (htest : IsNoParen test) :
    Brackets (satisfying test >>= fun c => pure (.leaf [c])) := by
  refine consumes_bind (consumes_satisfying test) fun _ c hc => consumes_pure ?_
  exact bracketed_of_test htest (List.forall_mem_singleton.mpr hc.2)

theorem brackets_separator {c : Char} (hc : IsNoParen (· == c)) : Brackets (separator c) := by
  refine (consumes_separator_blanks c).mono ?_
  rintro _ t ⟨rfl, -⟩
  exact bracketed_mark hc

section Combinations

variable {p q : Production Tree} (hp : Brackets p)
include hp

theorem bracketsAll_pair (hq : Brackets q) : BracketsAll (pair p q) :=
  consumes_bind hp fun _ first hfirst => consumes_bind hq fun _ second hsecond =>
    consumes_pure (by simp [hfirst, hsecond])

theorem bracketsAll_separated {c : Char} (hc : IsNoParen (· == c)) :
    BracketsAll (separated c p) := by
  refine consumes_bind hp fun _ first hfirst => ?_
  refine consumes_bind (consumes_many (bracketsAll_pair (brackets_separator hc) hp)) ?_
  intro _ more hmore
  exact consumes_pure (List.forall_mem_cons.mpr ⟨hfirst, bracketed_of_each hmore⟩)

theorem brackets_parenthesised : Brackets (parenthesised p) := by
  refine (consumes_parenthesised hp).mono ?_
  rintro _ t ⟨_, inner, -, rfl, hinner⟩
  exact .parens hinner

end Combinations

theorem brackets_node {p : Production (List Tree)} (hp : BracketsAll p) {label : Label}
    (hlabel : label ≠ .parens) : Brackets (p >>= fun ts => pure (.node label ts)) :=
  consumes_bind hp fun _ _ hts => consumes_pure (.node hlabel hts)

theorem brackets_node_single {p : Production Tree} (hp : Brackets p) {label : Label}
    (hlabel : label ≠ .parens) : Brackets (p >>= fun t => pure (.node label [t])) :=
  consumes_bind hp fun _ _ ht => consumes_pure (.node hlabel (List.forall_mem_singleton.mpr ht))

/-! #### Letters -/

theorem bracketsAll_letterRun : BracketsAll letterRun := by
  have hrun {w : Word} (hw : ∀ c ∈ w, isLetter c = true) : (Tree.leaf w).Bracketed :=
    bracketed_of_test (by decide) hw
  refine consumes_letterRun_trees.mono ?_
  intro _ ts htrees
  cases htrees with
  | plain hne hletters => simp [hrun hletters]
  | optional hlast => simp [bracketed_optional (hrun hlast)]
  | cut hne hfront hlast => simp [hrun hfront, bracketed_optional (hrun hlast)]

theorem bracketsAll_letterParens {inner : Production Tree} (h : Brackets inner) :
    BracketsAll (letterParens inner) := by
  refine (consumes_letterParens_trees h).mono ?_
  intro _ ts htrees
  cases htrees with
  | plain ht => simp [Tree.Bracketed.parens ht]
  | optional ht => simp [bracketed_optional (.parens ht)]

theorem brackets_letters : Brackets letters := by
  refine consumes_letters_of_around fun inner hinner => ?_
  have hpart := consumes_orElse bracketsAll_letterRun (bracketsAll_letterParens hinner)
  refine consumes_bind (consumes_expecting (consumes_many1 hpart)) fun _ parts hparts => ?_
  exact consumes_pure (.node (by decide) (bracketed_of_each hparts.1))

/-! #### Segments -/

theorem brackets_affixMark : Brackets affixMark :=
  consumes_expecting (brackets_mark_of_test (by decide))

theorem brackets_postfixes : Brackets postfixes := by
  have hlink := bracketsAll_pair brackets_affixMark brackets_letters
  refine consumes_bind (consumes_many1 hlink) fun _ links hlinks => ?_
  exact consumes_pure (.node (by decide) (bracketed_of_each hlinks.1))

theorem brackets_prefixes : Brackets prefixes := by
  have hlink := bracketsAll_pair brackets_letters brackets_affixMark
  refine consumes_bind (consumes_many1 hlink) fun _ links hlinks => ?_
  have hfront := bracketed_of_each hlinks.1
  refine consumes_bind (consumes_optionally brackets_postfixes) fun _ tail htail => ?_
  refine consumes_pure (.node (by decide) (List.forall_mem_append.mpr ⟨hfront, ?_⟩))
  rcases htail with ⟨rfl, -⟩ | ⟨t, rfl, ht⟩
  · simp
  · simpa using ht

theorem brackets_circumfix : Brackets circumfix :=
  consumes_bind brackets_letters fun _ front hfront =>
    consumes_bind brackets_affixMark fun _ between hbetween =>
      consumes_bind brackets_letters fun _ back hback =>
        consumes_pure (.node (by decide) (by simp [hfront, hbetween, hback]))

theorem brackets_interfix : Brackets interfix := by
  refine consumes_bind (consumes_satisfying isAffixMark) fun _ opening hopening => ?_
  have hmark : (Tree.leaf [opening]).Bracketed :=
    bracketed_of_test (by decide) (List.forall_mem_singleton.mpr hopening.2)
  refine consumes_bind brackets_letters fun _ form hform => ?_
  refine consumes_bind (consumes_mark opening) fun _ closing hclosing => ?_
  obtain ⟨-, rfl⟩ := hclosing
  exact consumes_pure (.node (by decide) (by simp [hmark, hform]))

theorem brackets_edgeSegment : Brackets edgeSegment :=
  consumes_orElse brackets_circumfix (consumes_orElse brackets_prefixes brackets_postfixes)

theorem brackets_segment : Brackets segment :=
  brackets_node_single (consumes_expecting (consumes_orElse brackets_interfix brackets_edgeSegment))
    (by decide)

/-! #### Conditionals -/

theorem brackets_test : Brackets test := by
  have hdash := bracketed_mark (by decide : IsNoParen (· == '-'))
  have htilde := bracketed_mark (by decide : IsNoParen (· == '~'))
  have hstart : BracketsAll startTest :=
    consumes_bind brackets_letters fun _ form hform => consumes_bind (consumes_mark '-') fun _ _ _ =>
      consumes_pure (by simp [hform, hdash])
  have hfinal : BracketsAll finalTest :=
    consumes_bind (consumes_mark '-') fun _ _ _ => consumes_bind brackets_letters fun _ form hform =>
      consumes_pure (by simp [hform, hdash])
  refine consumes_bind (consumes_optionally (consumes_mark '~')) fun _ negation _ => ?_
  refine consumes_bind (consumes_orElse hstart hfinal) fun _ body hbody => ?_
  refine consumes_pure (.node (by decide) ?_)
  split
  · exact List.forall_mem_cons.mpr ⟨htilde, hbody⟩
  · exact hbody

theorem brackets_condition : Brackets condition :=
  brackets_node (bracketsAll_separated brackets_test (by decide)) (by decide)

theorem brackets_branch : Brackets branch :=
  brackets_node_single
    (consumes_orElse brackets_edgeSegment (brackets_mark_of_test (by decide))) (by decide)

theorem brackets_elseBranch : Brackets elseBranch :=
  consumes_bind (brackets_separator (by decide)) fun _ _ _ => brackets_branch

theorem brackets_conditionalMet : Brackets conditionalMet := by
  have hcolon := bracketed_mark (by decide : IsNoParen (· == ':'))
  refine consumes_bind brackets_condition fun _ asked hasked => ?_
  refine consumes_bind (brackets_separator (by decide)) fun _ question hquestion => ?_
  refine consumes_bind brackets_branch fun _ met hmet => ?_
  refine consumes_bind (consumes_optionally brackets_elseBranch) fun _ unmet hunmet => ?_
  rcases hunmet with ⟨rfl, -⟩ | ⟨unmet, rfl, hunmet⟩
  · exact consumes_pure (.node (by decide) (by simp [hasked, hquestion, hmet]))
  · exact consumes_pure (.node (by decide) (by simp [hasked, hquestion, hmet, hcolon, hunmet]))

theorem brackets_conditionalUnmet : Brackets conditionalUnmet :=
  consumes_bind brackets_condition fun _ asked hasked =>
    consumes_bind (brackets_separator (by decide)) fun _ question hquestion =>
      consumes_bind (brackets_separator (by decide)) fun _ colon hcolon =>
        consumes_bind brackets_branch fun _ unmet hunmet =>
          consumes_pure (.node (by decide) (by simp [hasked, hquestion, hcolon, hunmet]))

/-! #### Groups and rules -/

theorem brackets_item : Brackets item :=
  brackets_node_single
    (consumes_orElse (consumes_orElse brackets_conditionalMet brackets_conditionalUnmet)
      brackets_segment) (by decide)

theorem brackets_group : Brackets group :=
  brackets_node (bracketsAll_separated
    (consumes_orElse brackets_item (brackets_parenthesised brackets_item)) (by decide)) (by decide)

theorem brackets_stages : Brackets stages :=
  brackets_node (bracketsAll_separated
    (consumes_orElse brackets_group (brackets_parenthesised brackets_group)) (by decide))
    (by decide)

theorem brackets_context : Brackets context := by
  have hempty : (Tree.leaf []).Bracketed := .leaf (by simp)
  refine consumes_bind (consumes_separator_blanks '@') fun _ _ _ => ?_
  exact consumes_pure (.node (by decide) (List.forall_mem_singleton.mpr hempty))

theorem brackets_rule : Brackets rule := by
  have hat := bracketed_mark (by decide : IsNoParen (· == '@'))
  refine consumes_bind (consumes_skip isBlank) fun _ _ _ => ?_
  refine consumes_bind (consumes_optionally brackets_context) fun _ before hbefore => ?_
  refine consumes_bind brackets_stages fun _ body hbody => ?_
  refine consumes_bind (consumes_skip isBlank) fun _ _ _ => ?_
  rcases hbefore with ⟨rfl, -⟩ | ⟨before, rfl, hbefore⟩
  · exact consumes_pure (.node (by decide) (by simp [hbody]))
  · exact consumes_pure (.node (by decide) (by simp [hbefore, hat, hbody]))

/-! ### The place of the first parenthesis that is too deep -/

theorem tooDeep?_eq_some {depth : Nat} {w rest : Word} (h : tooDeep? depth w = some rest) :
    ∃ front back, w = front ++ rest ∧ rest = '(' :: back := by
  induction w generalizing depth with
  | nil => cases h
  | cons c w ih =>
    have hmore {depth : Nat} (h : tooDeep? depth w = some rest) :
        ∃ front back, c :: w = front ++ rest ∧ rest = '(' :: back := by
      obtain ⟨front, back, rfl, hrest⟩ := ih h
      exact ⟨c :: front, back, rfl, hrest⟩
    rw [tooDeep?] at h
    split at h
    · next hc =>
      split at h
      · cases h
        exact ⟨[], w, rfl, by rw [hc]⟩
      · exact hmore h
    · split at h
      · exact hmore h
      · exact hmore h

theorem parseAnyDepth_eq_ok {text : Word} {t : Tree} :
    parseAnyDepth text = .ok t ↔ rule text = .matched t [] := by
  unfold parseAnyDepth
  cases rule text with
  | matched t' rest => cases rest <;> simp
  | failed rest expected => simp
  | stalled => simp

/-- If counting stops in a text without its blanks, it stops at the same parenthesis of
    the text. -/
theorem parse_of_tooDeep {text front back : Word}
    (hfilter : (text.filter fun c => !isBlank c) = front ++ '(' :: back)
    (h : tooDeep? 0 (front ++ '(' :: back) = some ('(' :: back)) :
    ∃ front' back' e, text = front' ++ '(' :: back' ∧
      (front'.filter fun c => !isBlank c) = front ∧
      parse text = .error e ∧ e.cause = .tooDeep ∧ e.offset = Word.byteSize front' := by
  rw [← hfilter, tooDeep?_filter, Option.map_eq_some_iff] at h
  obtain ⟨rest, hrest, hback⟩ := h
  obtain ⟨front', back', htext, rfl⟩ := tooDeep?_eq_some hrest
  refine ⟨front', back', ⟨text, '(' :: back', .tooDeep⟩, htext, ?_, ?_, rfl, ?_⟩
  · rw [htext, List.filter_append, hback] at hfilter
    exact List.append_cancel_right hfilter
  · rw [parse, hrest]
  · show Word.byteSize text - Word.byteSize ('(' :: back') = Word.byteSize front'
    rw [htext, Word.byteSize_append, Nat.add_sub_cancel_right]

/-- **A text is nested too deep exactly if its tree is.**  A text that the grammar
    matches is parsed if no path through its tree has more nodes for parentheses than
    are allowed.  Otherwise the place of the failure is that of the first parenthesis
    which opens one level too many. -/
theorem parse_of_parseAnyDepth {text : Word} {t : Tree} (h : parseAnyDepth text = .ok t) :
    (parse text = .ok t ↔ t.NestsWithin maxNesting) ∧
    (¬ t.NestsWithin maxNesting → ∃ o front e,
      (t.openings 0 []).find? (·.depth = maxNesting + 1) = some o ∧
        (∀ place, o.IsBehind text place ↔ place = front) ∧
        parse text = .error e ∧ e.cause = .tooDeep ∧ e.offset = Word.byteSize front) := by
  have hrule := parseAnyDepth_eq_ok.mp h
  obtain ⟨-, hfilter⟩ := text_of_rule hrule
  obtain ⟨-, -, hbracketed⟩ := brackets_rule text t [] hrule
  have hnested := hbracketed.nestsWithin_iff maxNesting 0 []
  have hscans := hbracketed.scans (Nat.zero_le maxNesting) []
  rw [Nat.zero_add] at hnested
  generalize t.text = spelt at hfilter hscans
  generalize t.openings 0 [] = os at hnested hscans ⊢
  cases hscans with
  | through hos hcount =>
    have hshallow : tooDeep? 0 text = none := by
      rw [← tooDeep?_filter_eq_none, ← hfilter, ← List.append_nil spelt, hcount]
      rfl
    have hwithin := hnested.mpr hos
    exact ⟨iff_of_true (parse_eq_ok.mpr ⟨hshallow, hrule⟩) hwithin, absurd hwithin⟩
  | @stops front back os₁ os₂ o hos ho hbefore hcount =>
    have hdeep : ¬ t.NestsWithin maxNesting := fun hwithin => by
      have := hnested.mp hwithin o (by simp)
      omega
    have hstops := hcount []
    rw [List.append_nil, List.append_nil] at hstops
    obtain ⟨front', back', e, htext, hfront, hparse, hcause, hoffset⟩ :=
      parse_of_tooDeep hfilter.symm hstops
    have hfirst : (os₁ ++ o :: os₂).find? (·.depth = maxNesting + 1) = some o := by
      have hnone : os₁.find? (·.depth = maxNesting + 1) = none := by
        refine List.find?_eq_none.mpr fun o' ho' => ?_
        have := hos o' ho'
        simp only [decide_eq_true_eq]
        omega
      rw [List.find?_append, hnone, Option.none_or, List.find?_cons_of_pos (by simpa using ho)]
    have hbehind : o.IsBehind text front' := by
      refine ⟨?_, back', htext⟩
      rw [hfront, hbefore]
      rfl
    have hplace (place : Word) : o.IsBehind text place ↔ place = front' := by
      constructor
      · exact fun h => h.unique hbehind
      · rintro rfl
        exact hbehind
    refine ⟨iff_of_false ?_ hdeep, fun _ =>
      ⟨o, front', e, hfirst, hplace, hparse, hcause, hoffset⟩⟩
    intro hok
    rw [hparse] at hok
    cases hok

/-- A letter in one pair of parentheses too many, with a blank in front. -/
def deepText : Word := ' ' :: (List.replicate 33 '(' ++ 'a' :: (List.replicate 33 ')' ++ ['+']))

theorem parse_of_parseAnyDepth_deepText :
    ∃ t, parseAnyDepth deepText = .ok t ∧ ¬ t.NestsWithin maxNesting ∧ ∃ o front e,
      (t.openings 0 []).find? (·.depth = maxNesting + 1) = some o ∧
        (∀ place, o.IsBehind deepText place ↔ place = front) ∧
        parse deepText = .error e ∧ e.offset = Word.byteSize front ∧ e.offset = 33 := by
  have hmatched : (parseAnyDepth deepText).isOk = true := by decide +kernel
  have hvalue : parse deepText = .error ⟨deepText, deepText.drop 33, .tooDeep⟩ := by rfl
  cases hparse : parseAnyDepth deepText with
  | error e =>
    rw [hparse] at hmatched
    cases hmatched
  | ok t =>
    obtain ⟨hiff, hdeep⟩ := parse_of_parseAnyDepth hparse
    have hnot : ¬ t.NestsWithin maxNesting := fun hwithin => by
      rw [hiff.mpr hwithin] at hvalue
      cases hvalue
    obtain ⟨o, front, e, hfirst, hplace, herror, -, hoffset⟩ := hdeep hnot
    have hbytes : e.offset = 33 := by
      rw [hvalue] at herror
      cases herror
      rfl
    exact ⟨t, rfl, hnot, o, front, e, hfirst, hplace, herror, hoffset, hbytes⟩

end WordFormation.RuleText
