/-
  WordFormation/Proofs/RuleText/Parentheses.lean
  ==============================================
  **Parentheses around items and groups, and the mark of a context, change nothing.**

  A `(` can open letters, an item or a group, and the grammar tries them in this order
  from the same place.  Where a whole item stands in the parentheses, they are not
  those of letters: letters end in front of a mark that every item has, so that no `)`
  follows them (`fails_letters_opening`).  An item that began with such a parenthesis
  would have to begin with letters, so it fails (`fails_item_opening`).  A whole group
  in parentheses is no item in parentheses, unless it is a single one.

  What stands behind an item does not change how it is matched (`item_append`).  Only
  a `)` could be taken for one of the item's own.  But an item is balanced, so that
  inside of a parenthesis there is always something of it left (`Continues`).
-/
import WordFormation.Proofs.RuleText.Semicolons
import WordFormation.Proofs.RuleText.PostfixChains
import WordFormation.Proofs.RuleText.NestedOptionals
import WordFormation.Proofs.RuleText.Depth

namespace WordFormation

open RuleText RuleText.Production RuleText.Grammar

/-! ### In front of the end of an item -/

/-- What can stand behind an item, in parentheses or not. -/
def innerEnds : List Char := [',', ';', ')']

/-- The first text is the second one with `tail` behind it, and the second one is the
    rest of a text with balanced parentheses. -/
def Continues (tail s s' : Word) : Prop := Extends tail s s' ∧ ∃ front, Balanced (front ++ s')

section Continues

variable {tail : Word}

/-- The rest of a text stays one when something is taken from it. -/
theorem Continues.respects {α : Type} {p : Production α} (h : Respects (Extends tail) p)
    {P : Word → α → Prop} (hp : Consumes p P) : Respects (Continues tail) p := by
  rintro s s' ⟨hs, front, hfront⟩
  have hreply := h s s' hs
  generalize hps : p s = reply at hreply ⊢
  generalize hps' : p s' = reply' at hreply ⊢
  cases hreply with
  | matched value hr =>
    obtain ⟨used, rfl, -⟩ := hp s' value _ hps'
    exact .matched value ⟨hr, front ++ used, by rwa [List.append_assoc]⟩
  | failed r r' es es' => exact .failed r r' es es'
  | stalled => exact .stalled

/-- As long as there is something left, it is what comes next. -/
theorem Continues.alike_mark (c : Char) {s s' : Word} (h : Continues tail s s') (hne : s' ≠ []) :
    Alike (Continues tail) (mark c s) (mark c s') := by
  obtain ⟨rfl, front, hfront⟩ := h
  obtain ⟨d, r, rfl⟩ := List.exists_cons_of_ne_nil hne
  by_cases hd : d = c
  · subst hd
    rw [List.cons_append, mark_cons, mark_cons]
    exact .matched d ⟨rfl, front ++ [d], by simpa using hfront⟩
  · have hfails (w : Word) : Fails (mark c) (d :: w) := fails_mark (by simpa using hd)
    exact alike_of_fails (hfails _) (hfails _)

variable (htail : EndsAt innerEnds tail)
include htail

/-- Something is left behind what an opening parenthesis belongs to, for in front of
    the end of the text all parentheses are closed. -/
theorem respectsContinues_parenthesised {p : Production RuleText.Tree}
    (hp : Respects (Continues tail) p) (hbalances : Balances p) :
    Respects (Continues tail) (parenthesised p) := by
  have hopening : Respects (Continues tail) (mark '(') :=
    Continues.respects (respectsExtends_satisfying (htail.stops (by decide))) (consumes_mark '(')
  rintro s s' ⟨hs, front, hfront⟩
  refine alike_bind (hopening s s' ⟨hs, front, hfront⟩) fun _ r r' _ hr' hR => ?_
  obtain ⟨rfl, hc⟩ := satisfying_eq_matched hr'
  obtain rfl := eq_of_beq hc
  refine alike_bind (hp r r' hR) fun value rest rest' _ hrest' hR' => ?_
  obtain ⟨used, rfl, hused⟩ := hbalances r' value rest' hrest'
  have hne : rest' ≠ [] := by
    rintro rfl
    rw [List.append_nil] at hfront
    exact hused.not_append_opening hfront
  exact alike_bind (hR'.alike_mark ')' hne) fun _ _ _ _ _ hR'' => respects_pure _ _ _ hR''

theorem tokenwise_continues : Tokenwise (Continues tail) where
  satisfying h hclosing := by
    refine Continues.respects (respectsExtends_satisfying (htail.stops ?_)) (consumes_satisfying _)
    simp [innerEnds, hclosing, h.of_isSeparator (by decide : isSeparator ',' = true),
      h.of_isSeparator (by decide : isSeparator ';' = true)]
  run := Continues.respects (respectsExtends_run (htail.stops (by decide))) (consumes_run _)
  parenthesised hp hbalances := respectsContinues_parenthesised htail hp hbalances
  separators {c} h := by
    refine Continues.respects (respectsExtends_separator (htail.stops (by decide)) (htail.stops ?_))
      (consumes_separator_blanks c)
    simp only [List.mem_cons, List.not_mem_nil, or_false] at h
    rcases h with rfl | rfl | rfl <;> decide

end Continues

/-! ### Letters that no mark follows -/

/-- The text does not begin with letters and an affix mark behind them. -/
def NoMarkedLetters (s : Word) : Prop :=
  Fails letters s ∨ ∃ t r, letters s = .matched t r ∧ Stops isAffixMark r

theorem NoMarkedLetters.fails_bind {β : Type} {s : Word} (h : NoMarkedLetters s)
    {f : RuleText.Tree → Production β} (hf : ∀ t r, Stops isAffixMark r → Fails (f t) r) :
    Fails (letters >>= f) s := by
  rcases h with h | ⟨t, r, h, hr⟩
  · exact Production.fails_bind h
  · exact fails_bind_of_matched h (hf t r hr)

/-- An item begins with a mark or with letters that a mark follows. -/
theorem NoMarkedLetters.fails_item {s : Word} (h : NoMarkedLetters s) (hmark : Stops isAffixMark s)
    (htilde : s.head? ≠ some '~') : Fails item s := by
  have hdash {r : Word} (hr : Stops isAffixMark r) : Fails (mark '-') r :=
    fails_mark fun hhead => Bool.noConfusion (hr '-' hhead)
  have hpair : Fails (pair letters affixMark) s :=
    h.fails_bind fun _ _ hr => Production.fails_bind (fails_affixMark hr)
  have hstart : Fails startTest s := h.fails_bind fun _ _ hr => Production.fails_bind (hdash hr)
  have hfinal : Fails finalTest s := Production.fails_bind (hdash hmark)
  have htest : Fails test s := by
    have hnegation : optionally (mark '~') s = .matched none s :=
      optionally_of_fails (fails_mark htilde)
    exact fails_bind_of_matched hnegation (Production.fails_bind (fails_orElse hstart hfinal))
  have hcircumfix : Fails circumfix s :=
    h.fails_bind fun _ _ hr => Production.fails_bind (fails_affixMark hr)
  have hprefixes : Fails prefixes s := Production.fails_bind (fails_many1 hpair)
  have hpostfixes : Fails postfixes s :=
    Production.fails_bind (fails_many1 (Production.fails_bind (fails_affixMark hmark)))
  have hinterfix : Fails interfix s := Production.fails_bind (fails_satisfying hmark)
  have hsegment : Fails segment s := Production.fails_bind (fails_expecting
    (fails_orElse hinterfix (fails_orElse hcircumfix (fails_orElse hprefixes hpostfixes))))
  exact Production.fails_bind (fails_orElse (fails_conditional (.inl htest)) hsegment)

/-- Text that begins with letters begins with no mark. -/
theorem stops_isAffixMark_of_letters {s r : Word} {t : RuleText.Tree}
    (h : letters s = .matched t r) : Stops isAffixMark s ∧ s.head? ≠ some '~' := by
  have hbegins {c : Char} (hc : s.head? = some c) : isLetterPart c = true := by
    by_contra hpart
    have hstops : Stops isLetterPart s := by
      intro d hd
      rw [hc] at hd
      cases hd
      exact Bool.eq_false_iff.mpr hpart
    obtain ⟨r', es, hfails⟩ := fails_letters hstops
    rw [hfails] at h
    cases h
  constructor
  · intro c hc
    have hpart := hbegins hc
    cases hmark : isAffixMark c with
    | false => rfl
    | true =>
      simp only [isAffixMark, Bool.or_eq_true, beq_iff_eq] at hmark
      rcases hmark with (rfl | rfl) | rfl <;> cases hpart
  · intro hc
    cases hbegins hc

section Opening

variable {s : Word}

theorem fails_letters_of_parenthesised (h : Fails (parenthesised letters) ('(' :: s)) :
    Fails letters ('(' :: s) := by
  have hrun : Fails letterRun ('(' :: s) :=
    fails_bind (fails_run (stops_cons (by decide) s))
  have haround : Fails (lettersAround letters) ('(' :: s) :=
    fails_bind (fails_expecting (fails_many1 (fails_orElse hrun (fails_bind h))))
  obtain ⟨r, es, haround⟩ := haround
  exact ⟨r, es, by rw [letters_unfold, haround]⟩

/-- Parentheses of letters have letters inside. -/
theorem fails_letters_opening_of_fails (h : Fails letters s) : Fails letters ('(' :: s) :=
  fails_letters_of_parenthesised
    (fails_bind_of_matched (mark_cons '(' s) (fails_bind h))

/-- An item that begins with a parenthesis begins with letters. -/
theorem fails_item_opening (h : Fails letters ('(' :: s)) : Fails item ('(' :: s) :=
  NoMarkedLetters.fails_item (.inl h) (stops_cons (by decide) s) (by simp)

end Opening

/-! ### Items in front of other text -/

section Item

variable {text : Word} {t : RuleText.Tree} (hitem : item text = .matched t [])
include hitem

theorem balanced_of_item : Balanced text := by
  obtain ⟨used, htext, hused⟩ := balances_item text t [] hitem
  rw [List.append_nil] at htext
  rwa [htext]

theorem continues_of_item (tail : Word) : Continues tail (text ++ tail) text :=
  ⟨rfl, [], balanced_of_item hitem⟩

/-- Letters are never all of an item. -/
theorem letters_ne_matched_nil (t' : RuleText.Tree) : letters text ≠ .matched t' [] := by
  intro h
  obtain ⟨hmark, htilde⟩ := stops_isAffixMark_of_letters h
  obtain ⟨r, es, hfails⟩ :=
    NoMarkedLetters.fails_item (.inr ⟨t', [], h, stops_nil isAffixMark⟩) hmark htilde
  rw [hfails] at hitem
  cases hitem

theorem exists_head_of_item : ∃ c more, text = c :: more ∧
    (isLetterPart c = true ∨ isAffixMark c = true ∨ c = '~') := by
  cases text with
  | nil =>
    have hless := (advances_item [] t [] hitem).2
    cases hless
  | cons c more =>
    refine ⟨c, more, rfl, ?_⟩
    by_contra hnone
    obtain ⟨hpart, hmark, htilde⟩ : isLetterPart c = false ∧ isAffixMark c = false ∧ c ≠ '~' := by
      simpa using hnone
    obtain ⟨r, es, hfails⟩ := NoMarkedLetters.fails_item
      (.inl (fails_letters (stops_cons hpart more))) (stops_cons hmark more) (by simpa using htilde)
    rw [hfails] at hitem
    cases hitem

/-- An item begins with something that is neither a blank nor the mark of a context. -/
theorem stops_item {test : Char → Bool} (htest : ∀ c, isLetter c = true → test c = false)
    (hmarks : ['^', '(', '+', '-', '.', '~'].any test = false) (tail : Word) :
    Stops test (text ++ tail) := by
  obtain ⟨c, more, rfl, hc⟩ := exists_head_of_item hitem
  have hmark := List.any_eq_false.mp hmarks
  refine stops_cons ?_ _
  by_cases hletter : isLetter c = true
  · exact htest c hletter
  · refine Bool.eq_false_iff.mpr (hmark c ?_)
    simpa [isLetterPart, isAffixMark, hletter, or_assoc] using hc

variable {tail : Word} (htail : EndsAt innerEnds tail)
include htail

/-- An item is matched whatever stands behind it. -/
theorem item_append : item (text ++ tail) = .matched t tail := by
  obtain ⟨rest, hmatched, hrest, -⟩ := ((tokenwise_continues htail).respects_item _ _
    (continues_of_item hitem tail)).exists_left hitem
  rw [hmatched, show rest = tail from hrest]

/-- In parentheses an item is not taken for letters: those at its beginning leave
    something of it, and this does not begin with a closing parenthesis. -/
theorem fails_letters_opening : Fails letters ('(' :: (text ++ tail)) := by
  apply fails_letters_of_parenthesised
  refine fails_bind_of_matched (mark_cons '(' _) ?_
  cases hletters : letters (text ++ tail) with
  | failed r es => exact fails_bind ⟨r, es, hletters⟩
  | stalled => exact absurd hletters (settles_letters _ _ le_rfl)
  | matched t' rest =>
    refine fails_bind_of_matched hletters (fails_bind (fails_mark ?_))
    obtain ⟨left, halone, rfl, -⟩ := ((tokenwise_continues htail).respects_letters _ _
      (continues_of_item hitem tail)).exists_right hletters
    cases left with
    | nil => exact absurd halone (letters_ne_matched_nil hitem t')
    | cons c left =>
      intro hhead
      obtain rfl : c = ')' := Option.some.inj hhead
      obtain ⟨used, htext, hused⟩ := balances_letters text t' _ halone
      exact hused.not_append_closing (htext ▸ balanced_of_item hitem)

end Item

/-! ### Texts of one item -/

/-- The text is a rule that is one item, not in parentheses, and has no blanks around it. -/
structure IsLoneItem (text : Word) : Prop where
  parses : ∃ ts, parse text = .ok (loneItemTree (.node .item ts))
  noBlankInFront : Stops isBlank text
  noBlankBehind : Stops isBlank text.reverse

/-- A list of one part is this part. -/
theorem part_of_separated {c : Char} {part : Production RuleText.Tree} {s rest : Word}
    {t : RuleText.Tree} (h : separated c part s = .matched [t] rest) :
    part s = .matched t rest := by
  obtain ⟨t', r, ht', h⟩ := bind_matched h
  obtain ⟨tss, r', hmore, h⟩ := bind_matched h
  obtain ⟨hts, rfl⟩ := Reply.matched.inj h
  obtain ⟨rfl, hflat⟩ := List.cons.inj hts
  rcases many_eq_matched hmore with ⟨-, rfl, -⟩ | ⟨ts, r₁, tss', rfl, -, hpair, -⟩
  · exact ht'
  · obtain ⟨first, _, _, hpair⟩ := bind_matched hpair
    obtain ⟨second, _, _, hpair⟩ := bind_matched hpair
    cases hpair
    cases hflat

/-- What is not in parentheses was matched without them. -/
theorem eq_matched_of_orElse_parenthesised {p : Production RuleText.Tree} {s rest : Word}
    {label : Label} {ts : List RuleText.Tree} (hlabel : label ≠ .parens)
    (hp : Consumes p fun _ _ => True)
    (h : orElse p (parenthesised p) s = .matched (.node label ts) rest) :
    p s = .matched (.node label ts) rest := by
  rcases orElse_eq_matched h with h | ⟨-, h⟩
  · exact h
  · obtain ⟨-, -, -, inner, -, hparens, -⟩ := consumes_parenthesised hp _ _ _ h
    cases hparens
    exact absurd rfl hlabel

/-- Such a text is matched as an item. -/
theorem IsLoneItem.exists_item {text : Word} (h : IsLoneItem text) :
    ∃ ts, item text = .matched (.node .item ts) [] ∧ tooDeep? 0 text = none := by
  obtain ⟨ts, hparse⟩ := h.parses
  obtain ⟨hdepth, hrule⟩ := parse_eq_ok.mp hparse
  obtain ⟨before, r, groups, hbefore, ⟨rest, hgroups, hrest⟩, htree⟩ := rule_eq_matched.mp hrule
  cases before with
  | some before => cases htree
  | none =>
    cases htree
    rw [h.noBlankInFront.dropWhile] at hbefore
    obtain ⟨_, hnone, -⟩ | ⟨-, rfl, -⟩ := optionally_eq_matched hbefore
    · cases hnone
    have hany {p : Production RuleText.Tree} (hp : Balances p) : Consumes p fun _ _ => True :=
      hp.mono fun _ _ _ => trivial
    have hgroup := eq_matched_of_orElse_parenthesised (by decide) (hany balances_group)
      (part_of_separated hgroups)
    obtain ⟨items, _, hitems, hgroup⟩ := bind_matched hgroup
    cases hgroup
    have hitem := eq_matched_of_orElse_parenthesised (by decide) (hany balances_item)
      (part_of_separated hitems)
    -- what is left are blanks at the end of the text, and it has none
    obtain ⟨used, rfl, -⟩ := balances_item r _ rest hitem
    have hblank := List.dropWhile_eq_nil_iff.mp hrest
    rcases List.eq_nil_or_concat rest with rfl | ⟨front, b, rfl⟩
    · exact ⟨ts, hitem, hdepth⟩
    · have hlast := h.noBlankBehind b (by simp)
      rw [hblank b (by simp)] at hlast
      cases hlast

/-! ### Decorated texts -/

/-- A text, in parentheses or not. -/
def parensIf (wrapped : Bool) (text : Word) : Word :=
  if wrapped then '(' :: (text ++ [')']) else text

theorem parensIf_true_append (text rest : Word) :
    parensIf true text ++ rest = '(' :: (text ++ ')' :: rest) := by
  simp [parensIf]

/-- An item as it is written. -/
structure WrittenItem where
  text : Word
  wrapped : Bool

/-- A group as it is written. -/
structure WrittenGroup where
  items : List WrittenItem
  wrapped : Bool

/-- The text of an item with the parentheses that are put around it. -/
def WrittenItem.decorated (i : WrittenItem) : Word := parensIf i.wrapped i.text

namespace WrittenGroup

/-- The items with commas between them, without parentheses. -/
def bare (g : WrittenGroup) : Word := joined ',' (g.items.map WrittenItem.text)

def inside (g : WrittenGroup) : Word := joined ',' (g.items.map WrittenItem.decorated)

/-- The items and the group with the parentheses that are put around them. -/
def decorated (g : WrittenGroup) : Word := parensIf g.wrapped g.inside

theorem inside_append {g : WrittenGroup} {i : WrittenItem} {more : List WrittenItem}
    (h : g.items = i :: more) (rest : Word) : g.inside ++ rest =
      i.decorated ++ ((more.map WrittenItem.decorated).flatMap (',' :: ·) ++ rest) := by
  simp [inside, h, joined]

end WrittenGroup

/-- The groups with semicolons between them, without parentheses. -/
def bareText (gs : List WrittenGroup) : Word := joined ';' (gs.map WrittenGroup.bare)

/-- The groups with their parentheses, perhaps behind the mark of an empty context. -/
def decoratedText (marked : Bool) (gs : List WrittenGroup) : Word :=
  (if marked then ['@'] else []) ++ joined ';' (gs.map WrittenGroup.decorated)

/-- There are groups, with items in each of them, and every item is one by itself. -/
structure AreItems (gs : List WrittenGroup) : Prop where
  groups : gs ≠ []
  items : ∀ g ∈ gs, g.items ≠ []
  lone : ∀ g ∈ gs, ∀ i ∈ g.items, IsLoneItem i.text

/-! ### What they are read as -/

/-- What an item with this text is read as. -/
def readingOf (text : Word) : Read (List Operation) :=
  match item text with
  | .matched t _ => t.readItem
  | _ => .ok []

def WrittenGroup.reading (g : WrittenGroup) : Read (List Operation) :=
  (g.items.map fun i => readingOf i.text).mapM id >>= fun parts => .ok parts.flatten

/-! ### Items -/

theorem isMark_of_bracketed {t : RuleText.Tree} (h : t.Bracketed) : t.isMark '(' = false := by
  cases h with
  | leaf hw =>
    refine beq_eq_false_iff_ne.mpr ?_
    rintro rfl
    exact (hw '(' (by simp)).1 rfl
  | parens => rfl
  | node => rfl

/-- What is matched without parentheses has none to be taken off. -/
theorem unparenthesised_of_bracketed {label : Label} {ts : List RuleText.Tree}
    (hlabel : label ≠ .parens) (h : (RuleText.Tree.node label ts).Bracketed) :
    (RuleText.Tree.node label ts).unparenthesised = .node label ts := by
  cases h with
  | parens => exact absurd rfl hlabel
  | node hlabel hts =>
    rcases ts with _ | ⟨t, _ | ⟨u, ts⟩⟩
    · rfl
    · rfl
    · simp [Tree.unparenthesised, Tree.children, isMark_of_bracketed (hts t List.mem_cons_self)]

/-- An item in a group, which may stand in parentheses. -/
def groupPart : Production RuleText.Tree := orElse item (parenthesised item)

theorem advances_groupPart : Advances groupPart :=
  advances_orElse advances_item (advances_parenthesised advances_item.forward)

theorem parenthesised_of_matched {p : Production RuleText.Tree} {s rest : Word}
    {t : RuleText.Tree} (h : p s = .matched t (')' :: rest)) :
    parenthesised p ('(' :: s) = .matched (.parens t) rest := by
  unfold parenthesised
  rw [bind_of_matched (mark_cons '(' s), bind_of_matched h, bind_of_matched (mark_cons ')' rest)]
  rfl

section Parts

variable {rest : Word} (hrest : EndsAt innerEnds rest)
include hrest

theorem groupPart_decorated {i : WrittenItem} (h : IsLoneItem i.text) :
    ∃ t, groupPart (i.decorated ++ rest) = .matched t rest ∧
      t.unparenthesised.readItem = readingOf i.text := by
  obtain ⟨ts, hitem, -⟩ := h.exists_item
  obtain ⟨text, wrapped⟩ := i
  have hread : (RuleText.Tree.node .item ts).readItem = readingOf text := by
    rw [readingOf, hitem]
  cases wrapped with
  | false =>
    refine ⟨_, orElse_of_matched (item_append hitem hrest), ?_⟩
    obtain ⟨-, -, hbracketed⟩ := brackets_item _ _ _ hitem
    rw [unparenthesised_of_bracketed (by decide) hbracketed, hread]
  | true =>
    have hclosing : EndsAt innerEnds (')' :: rest) := endsAt_cons (by decide) rest
    have hnone : Fails item ('(' :: (text ++ ')' :: rest)) :=
      fails_item_opening (fails_letters_opening hitem hclosing)
    refine ⟨.parens (.node .item ts), ?_, hread⟩
    rw [WrittenItem.decorated, parensIf_true_append]
    exact (orElse_of_fails hnone).trans (parenthesised_of_matched (item_append hitem hclosing))

end Parts

theorem IsLoneItem.stops_decorated {i : WrittenItem} (h : IsLoneItem i.text) {test : Char → Bool}
    (htest : ∀ c, isLetter c = true → test c = false)
    (hmarks : ['^', '(', '+', '-', '.', '~'].any test = false) (rest : Word) :
    Stops test (i.decorated ++ rest) := by
  obtain ⟨ts, hitem, -⟩ := h.exists_item
  obtain ⟨text, wrapped⟩ := i
  cases wrapped with
  | false => exact stops_item hitem htest hmarks rest
  | true => exact stops_cons (Bool.eq_false_iff.mpr (List.any_eq_false.mp hmarks '(' (by simp))) _

/-! ### Groups -/

theorem map_eq_of_mapM_ok {α β ε : Type} {f : α → β} {xs : List α} {ys : List β}
    (h : (xs.mapM fun x => (Except.ok (f x) : Except ε β)) = .ok ys) : xs.map f = ys :=
  Except.ok.inj (List.mapM_pure.symm.trans h)

theorem readGroup_eq (ts : List RuleText.Tree) :
    (RuleText.Tree.node .group ts).readGroup =
      ((Tree.items ts).map fun part => part.unparenthesised.readItem).mapM id >>= fun parts =>
        .ok parts.flatten := by
  rw [Tree.readGroup_node, List.mapM_map]
  rfl

/-- The parenthesis of a group belongs to no item, unless the group is a single one. -/
theorem fails_groupPart_opening {i : WrittenItem} (hlone : IsLoneItem i.text) {rest : Word}
    (hrest : EndsAt innerEnds rest) (hmore : i.wrapped = true ∨ rest.head? ≠ some ')') :
    Fails groupPart ('(' :: (i.decorated ++ rest)) := by
  obtain ⟨ts, hitem, -⟩ := hlone.exists_item
  obtain ⟨text, wrapped⟩ := i
  cases wrapped with
  | false =>
    have hclosing : rest.head? ≠ some ')' := hmore.resolve_left Bool.noConfusion
    refine fails_orElse (fails_item_opening (fails_letters_opening hitem hrest)) ?_
    refine fails_bind_of_matched (mark_cons '(' _) ?_
    exact fails_bind_of_matched (item_append hitem hrest) (fails_bind (fails_mark hclosing))
  | true =>
    have hinner : Fails letters ('(' :: (text ++ ')' :: rest)) :=
      fails_letters_opening hitem (endsAt_cons (by decide) rest)
    rw [WrittenItem.decorated, parensIf_true_append]
    refine fails_orElse (fails_item_opening (fails_letters_opening_of_fails hinner)) ?_
    exact fails_bind_of_matched (mark_cons '(' _) (fails_bind (fails_item_opening hinner))

section Group

variable {g : WrittenGroup} (hne : g.items ≠ []) (hlone : ∀ i ∈ g.items, IsLoneItem i.text)
  {rest : Word}
include hne hlone

theorem group_inside (hrest : EndsAt [';', ')'] rest) :
    ∃ ts, group (g.inside ++ rest) = .matched (.node .group ts) rest ∧
      (RuleText.Tree.node .group ts).unparenthesised.readGroup = g.reading ∧
      (RuleText.Tree.node .group ts).readGroup = g.reading := by
  obtain ⟨ts, hts, hread⟩ := separated_joined (by decide : isBlank ',' = false)
    (by decide : [';', ')'].any isBlank = false) (by decide) advances_groupPart hne
    (fun i hi rest hrest => by
      obtain ⟨t, ht, hread⟩ := groupPart_decorated hrest (hlone i hi)
      exact ⟨t, ht, congrArg (Except.ok : _ → Read _) hread⟩)
    (fun i hi rest => (hlone i hi).stops_decorated (fun _ => isBlank_of_isLetter) (by decide) rest)
    hrest
  have hgroup : group (g.inside ++ rest) = .matched (.node .group ts) rest := bind_of_matched hts
  have hreading : (RuleText.Tree.node .group ts).readGroup = g.reading := by
    rw [readGroup_eq, map_eq_of_mapM_ok hread, WrittenGroup.reading]
  obtain ⟨-, -, hbracketed⟩ := brackets_group _ _ _ hgroup
  refine ⟨ts, hgroup, ?_, hreading⟩
  rw [unparenthesised_of_bracketed (by decide) hbracketed, hreading]

/-- The parenthesis of a group is not taken for that of its first item, unless this is
    the whole group and in no other parentheses. -/
theorem fails_group_opening (hmore : ∀ i, g.items = [i] → i.wrapped = true)
    (hrest : EndsAt [';', ')'] rest) : Fails group ('(' :: (g.inside ++ rest)) := by
  obtain ⟨i, more, hitems⟩ := List.exists_cons_of_ne_nil hne
  have hi := hlone i (by simp [hitems])
  have hpart : i.wrapped = true ∨
      ((more.map WrittenItem.decorated).flatMap (',' :: ·) ++ rest).head? ≠ some ')' := by
    cases more with
    | nil => exact .inl (hmore i hitems)
    | cons j more => exact .inr (by simp)
  rw [WrittenGroup.inside_append hitems]
  exact fails_bind (fails_bind (fails_groupPart_opening hi (endsAt_parts hrest _) hpart))

end Group

/-- A group of a single item is, in its parentheses, a group of an item in
    parentheses.  All other groups are matched in theirs. -/
theorem stage_decorated {g : WrittenGroup} (hne : g.items ≠ [])
    (hlone : ∀ i ∈ g.items, IsLoneItem i.text) {rest : Word} (hrest : EndsAt [';'] rest) :
    ∃ t, stage (g.decorated ++ rest) = .matched t rest ∧
      t.unparenthesised.readGroup = g.reading := by
  have hends : EndsAt [';', ')'] rest := hrest.mono (by simp)
  have hclosing : EndsAt [';', ')'] (')' :: rest) := endsAt_cons (by simp) rest
  obtain ⟨items, wrapped⟩ := g
  cases wrapped with
  | false =>
    obtain ⟨ts, hgroup, hreading, -⟩ := group_inside hne hlone hends
    exact ⟨_, orElse_of_matched hgroup, hreading⟩
  | true =>
    by_cases hmore : ∀ i, items = [i] → i.wrapped = true
    · have hnone := fails_group_opening hne hlone hmore hclosing
      obtain ⟨ts, hgroup, -, hreading⟩ := group_inside hne hlone hclosing
      refine ⟨.parens (.node .group ts), ?_, hreading⟩
      rw [WrittenGroup.decorated, parensIf_true_append]
      exact (orElse_of_fails hnone).trans (parenthesised_of_matched hgroup)
    · obtain ⟨⟨text, wrapped⟩, rfl, hbare⟩ : ∃ i, items = [i] ∧ ¬ i.wrapped = true := by
        simpa using hmore
      obtain rfl : wrapped = false := Bool.eq_false_iff.mpr hbare
      have htext : WrittenGroup.decorated ⟨[⟨text, false⟩], true⟩ =
          WrittenGroup.inside ⟨[⟨text, true⟩], false⟩ := by
        simp [WrittenGroup.decorated, WrittenGroup.inside, WrittenItem.decorated, parensIf, joined]
      have hlone' : ∀ i ∈ [(⟨text, true⟩ : WrittenItem)], IsLoneItem i.text := by simpa using hlone
      obtain ⟨ts, hgroup, hreading, -⟩ :=
        @group_inside ⟨[⟨text, true⟩], false⟩ (by simp) hlone' rest hends
      rw [htext]
      exact ⟨_, orElse_of_matched hgroup, hreading⟩

/-! ### Rules -/

theorem WrittenGroup.stops_decorated {g : WrittenGroup} (hne : g.items ≠ [])
    (hlone : ∀ i ∈ g.items, IsLoneItem i.text) {test : Char → Bool}
    (htest : ∀ c, isLetter c = true → test c = false)
    (hmarks : ['^', '(', '+', '-', '.', '~'].any test = false) (rest : Word) :
    Stops test (g.decorated ++ rest) := by
  obtain ⟨items, wrapped⟩ := g
  cases wrapped with
  | false =>
    obtain ⟨i, more, rfl⟩ := List.exists_cons_of_ne_nil hne
    have hbare : WrittenGroup.decorated ⟨i :: more, false⟩ = WrittenGroup.inside ⟨i :: more, false⟩ :=
      rfl
    rw [hbare, WrittenGroup.inside_append rfl]
    exact (hlone i List.mem_cons_self).stops_decorated htest hmarks _
  | true => exact stops_cons (Bool.eq_false_iff.mpr (List.any_eq_false.mp hmarks '(' (by simp))) _

/-- The mark of an empty context, if it is there, is all of the context. -/
theorem optionally_context {body : Word} (hblank : Stops isBlank body)
    (hat : Stops (· == '@') body) (marked : Bool) :
    ∃ before, optionally context (((if marked then ['@'] else []) ++ body).dropWhile isBlank) =
      .matched before body := by
  cases marked with
  | false =>
    have hnone : Fails context body := fails_bind (fails_separator hblank hat.head_ne)
    refine ⟨none, ?_⟩
    rw [if_neg Bool.false_ne_true, List.nil_append, hblank.dropWhile]
    exact optionally_of_fails hnone
  | true =>
    have hmark : context ('@' :: body) = .matched (.node .context [.leaf []]) body := by
      unfold context
      rw [bind_of_matched (separator_cons (by decide) hblank)]
      rfl
    have hstart : Stops isBlank ('@' :: body) := stops_cons (by decide) body
    refine ⟨some (.node .context [.leaf []]), ?_⟩
    rw [if_pos rfl, List.singleton_append, hstart.dropWhile]
    exact optionally_of_matched hmark

/-- A decorated text is matched, and what it is read as does not depend on how it is
    decorated. -/
theorem rule_decorated {gs : List WrittenGroup} (h : AreItems gs) (marked : Bool) :
    ∃ t, rule (decoratedText marked gs) = .matched t [] ∧
      t.readRule = (gs.map WrittenGroup.reading).mapM id >>= fun groups => .ok { groups } := by
  obtain ⟨ts, hts, hread⟩ := separated_joined (by decide : isBlank ';' = false)
    (by decide : [].any isBlank = false) (by decide) advances_stage h.groups
    (fun g hg rest hrest => by
      obtain ⟨t, ht, hread⟩ := stage_decorated (h.items g hg) (h.lone g hg) hrest
      exact ⟨t, ht, congrArg (Except.ok : _ → Read _) hread⟩)
    (fun g hg rest => WrittenGroup.stops_decorated (h.items g hg) (h.lone g hg)
      (fun _ => isBlank_of_isLetter) (by decide) rest) (endsAt_nil [])
  rw [List.append_nil] at hts
  have hstops {test : Char → Bool} (htest : ∀ c, isLetter c = true → test c = false)
      (hmarks : ['^', '(', '+', '-', '.', '~'].any test = false) :
      Stops test (joined ';' (gs.map WrittenGroup.decorated)) := by
    obtain ⟨g, more, rfl⟩ := List.exists_cons_of_ne_nil h.groups
    exact WrittenGroup.stops_decorated (h.items g List.mem_cons_self)
      (h.lone g List.mem_cons_self) htest hmarks _
  obtain ⟨before, hbefore⟩ := optionally_context
    (hstops (fun _ => isBlank_of_isLetter) (by decide))
    (hstops (fun _ hc => beq_eq_false_iff_ne.mpr (ne_of_isLetter hc (by decide))) (by decide))
    marked
  refine ⟨_, rule_eq_matched.mpr ⟨before, _, ts, hbefore, ⟨[], hts, rfl⟩, rfl⟩, ?_⟩
  have hstages : (RuleText.Tree.node .stages ts).readStages =
      (gs.map WrittenGroup.reading).mapM id := by
    rw [Tree.readStages_node, ← map_eq_of_mapM_ok hread, List.mapM_map]
    rfl
  rw [readRule_ruleTree, hstages]

/-! ### Bare texts -/

/-- The group without its parentheses and those of its items. -/
def WrittenGroup.undecorated (g : WrittenGroup) : WrittenGroup where
  items := g.items.map fun i => { i with wrapped := false }
  wrapped := false

theorem bareText_eq (gs : List WrittenGroup) :
    bareText gs = decoratedText false (gs.map WrittenGroup.undecorated) := by
  have hbare (g : WrittenGroup) : g.bare = g.undecorated.decorated := by
    simp [WrittenGroup.bare, WrittenGroup.decorated, WrittenGroup.inside,
      WrittenGroup.undecorated, WrittenItem.decorated, parensIf, Function.comp_def]
  rw [bareText, decoratedText, if_neg Bool.false_ne_true, List.nil_append, List.map_map,
    List.map_congr_left fun g _ => hbare g]
  rfl

theorem AreItems.undecorated {gs : List WrittenGroup} (h : AreItems gs) :
    AreItems (gs.map WrittenGroup.undecorated) where
  groups := by simpa using h.groups
  items := List.forall_mem_map.mpr fun g hg => by simpa [WrittenGroup.undecorated] using h.items g hg
  lone := List.forall_mem_map.mpr fun g hg => List.forall_mem_map.mpr (h.lone g hg)

theorem WrittenGroup.reading_undecorated (g : WrittenGroup) : g.undecorated.reading = g.reading := by
  simp [WrittenGroup.reading, WrittenGroup.undecorated, Function.comp_def]

/-- The parentheses of the text are balanced and not nested too deep. -/
structure IsShallow (w : Word) : Prop where
  balanced : Balanced w
  notTooDeep : tooDeep? 0 w = none

namespace IsShallow

theorem nil : IsShallow [] := ⟨Balanced.nil, rfl⟩

theorem append {u v : Word} (hu : IsShallow u) (hv : IsShallow v) : IsShallow (u ++ v) where
  balanced := hu.balanced.append hv.balanced
  notTooDeep := hu.balanced.tooDeep?_eq_none.mpr ⟨hu.notTooDeep, hv.notTooDeep⟩

theorem cons {c : Char} {w : Word} (hopening : c ≠ '(') (hclosing : c ≠ ')') (h : IsShallow w) :
    IsShallow (c :: w) where
  balanced := Balanced.cons hopening hclosing h.balanced
  notTooDeep := by rw [tooDeep?, if_neg hopening, if_neg hclosing, h.notTooDeep]

theorem joined {c : Char} (hopening : c ≠ '(') (hclosing : c ≠ ')') {texts : List Word}
    (h : ∀ text ∈ texts, IsShallow text) : IsShallow (joined c texts) := by
  cases texts with
  | nil => exact nil
  | cons text texts =>
    obtain ⟨htext, htexts⟩ := List.forall_mem_cons.mp h
    refine htext.append ?_
    clear h htext
    induction texts with
    | nil => exact nil
    | cons text texts ih =>
      obtain ⟨htext, htexts⟩ := List.forall_mem_cons.mp htexts
      exact (htext.cons hopening hclosing).append (ih htexts)

end IsShallow

theorem IsPlain.isShallow {text : Word} (h : IsPlain text) : IsShallow text where
  balanced := (by decide : IsNoParen isPlain).balanced h
  notTooDeep := tooDeep?_of_isPlain h 0

theorem AreItems.isShallow_bareText {gs : List WrittenGroup} (h : AreItems gs) :
    IsShallow (bareText gs) := by
  refine IsShallow.joined (by decide) (by decide) (List.forall_mem_map.mpr fun g hg => ?_)
  refine IsShallow.joined (by decide) (by decide) (List.forall_mem_map.mpr fun i hi => ?_)
  obtain ⟨ts, hitem, hdepth⟩ := (h.lone g hg i hi).exists_item
  exact ⟨balanced_of_item hitem, hdepth⟩

/-! ### With and without decoration -/

/-- **Parentheses around items and groups, and the mark of a context, change nothing.**
    A text of groups of items is parsed with them if they are not nested too deep, and
    without them, and both trees are read as the same blueprint, or reading both fails
    at the same optional part. -/
theorem readRule_decoratedText {gs : List WrittenGroup} (h : AreItems gs) {marked : Bool}
    (hdepth : OpensAtMost maxNesting (decoratedText marked gs)) :
    ∃ t t', parse (bareText gs) = .ok t ∧ parse (decoratedText marked gs) = .ok t' ∧
      t'.readRule = t.readRule ∧
      ∀ e, t.readRule = .error e → ∃ part markers, e = .malformedOptional part markers := by
  obtain ⟨t, hbare, hread⟩ := rule_decorated h.undecorated false
  obtain ⟨t', hdecorated, hread'⟩ := rule_decorated h marked
  rw [← bareText_eq] at hbare
  have hdepth' := (tooDeep?_eq_none_iff (Nat.zero_le maxNesting)).mpr hdepth
  refine ⟨t, t', parse_eq_ok.mpr ⟨h.isShallow_bareText.notTooDeep, hbare⟩,
    parse_eq_ok.mpr ⟨hdepth', hdecorated⟩, ?_, ?_⟩
  · rw [hread, hread', List.map_map]
    simp only [Function.comp_def, WrittenGroup.reading_undecorated]
  · obtain ⟨-, -, hupTo⟩ := readsUpTo_rule _ _ _ hbare
    generalize Tree.firstNesting [t] = first at hupTo
    intro e he
    rw [he] at hupTo
    cases hupTo with
    | malformed => exact ⟨_, _, rfl⟩

/-- The parts of the one item of a rule that is not in parentheses. -/
def loneItem? : RuleText.Tree → Option (List RuleText.Tree)
  | .node .rule [.node .stages [.node .group [.node .item ts]]] => some ts
  | _ => none

theorem IsLoneItem.of_loneItem? {text : Word}
    (hparses : ((parse text).toOption.bind loneItem?).isSome = true)
    (hfront : Stops isBlank text) (hbehind : Stops isBlank text.reverse) : IsLoneItem text := by
  refine ⟨?_, hfront, hbehind⟩
  cases hparse : parse text with
  | error e =>
    rw [hparse] at hparses
    cases hparses
  | ok t =>
    rw [hparse] at hparses
    obtain ⟨ts, hts⟩ := Option.isSome_iff_exists.mp hparses
    have htree : loneItem? t = some ts := hts
    unfold loneItem? at htree
    split at htree
    · cases htree
      exact ⟨ts, rfl⟩
    · cases htree

/-- A group in parentheses, of an item in parentheses that begins with letters in
    parentheses and a conditional with blanks, and a single item in two pairs. -/
def nestedGroups : List WrittenGroup :=
  [⟨[⟨"(a)b^+".toList, true⟩, ⟨"a- ? +b".toList, false⟩], true⟩, ⟨[⟨".t".toList, true⟩], true⟩]

theorem areItems_nestedGroups : AreItems nestedGroups := by
  have hletters : IsLoneItem "(a)b^+".toList :=
    .of_loneItem? (by decide +kernel) (stops_cons (by decide) _) (stops_cons (by decide) _)
  have hconditional : IsLoneItem "a- ? +b".toList :=
    .of_loneItem? (by decide +kernel) (stops_cons (by decide) _) (stops_cons (by decide) _)
  have hremoval : IsLoneItem ".t".toList :=
    .of_loneItem? (by decide +kernel) (stops_cons (by decide) _) (stops_cons (by decide) _)
  refine ⟨by simp [nestedGroups], by simp [nestedGroups], ?_⟩
  simp only [nestedGroups, List.forall_mem_cons, List.not_mem_nil, false_implies, implies_true,
    and_true]
  exact ⟨⟨hletters, hconditional⟩, hremoval⟩

theorem readRule_decoratedText_nestedGroups :
    AreItems nestedGroups ∧ OpensAtMost maxNesting (decoratedText true nestedGroups) ∧
      decoratedText true nestedGroups = "@(((a)b^+),a- ? +b);((.t))".toList ∧
      ∃ t t', parse "(a)b^+,a- ? +b;.t".toList = .ok t ∧
        parse "@(((a)b^+),a- ? +b);((.t))".toList = .ok t' ∧ t'.readRule = t.readRule := by
  have hdepth : OpensAtMost maxNesting (decoratedText true nestedGroups) :=
    (tooDeep?_eq_none_iff (Nat.zero_le maxNesting)).mp rfl
  obtain ⟨t, t', hparse, hparse', hread, -⟩ := readRule_decoratedText areItems_nestedGroups hdepth
  exact ⟨areItems_nestedGroups, hdepth, rfl, t, t', hparse, hparse', hread⟩

end WordFormation
