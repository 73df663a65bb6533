/-
  WordFormation/Proofs/RuleText/Spelling.lean
  ===========================================
  **What stretches of letters and chains of affixes can be read as.**

  A stretch of a text is said to spell out another text (`Spells`) if it is that
  text with things added that no blueprint keeps, and with some commas left out.
  This can only be expected as long as no letters are optional: where a `^` was
  taken, what was read has no canonical text at all.

  Letters come first.  Every `^` doubles the number of forms, so letters are read
  as a single form exactly if there is none among them (`LettersOf.spells`).
  Everything larger is put together from that.

  For chains of affixes the order of the choices matters.  Prefixes are only tried
  where no circumfix matches.  So a chain of them never has a second link: its
  letters would have made a circumfix of the first (`prefixes_chainOf`).
-/
import Mathlib.Algebra.GroupWithZero.Nat
import WordFormation.Proofs.FormAlgebra
import WordFormation.Proofs.RuleText.Consumption
import WordFormation.Proofs.RuleText.Chains

namespace WordFormation

open RuleText RuleText.Production RuleText.Grammar

/-! ### Bare texts -/

@[simp] theorem bare_append (text text' : Word) : bare (text ++ text') = bare text ++ bare text' :=
  List.filter_append ..

theorem bare_of_isBlank {text : Word} (h : ∀ c ∈ text, isBlank c = true) : bare text = [] := by
  refine List.filter_eq_nil_iff.mpr fun c hc => ?_
  simp [h c hc]

theorem bare_of_isLetter {text : Word} (h : ∀ c ∈ text, isLetter c = true) :
    bare text = text := by
  refine List.filter_eq_self.mpr fun c hc => ?_
  have hletter := h c hc
  have hopening := ne_of_isLetter hletter (by decide : isLetter '(' = false)
  have hclosing := ne_of_isLetter hletter (by decide : isLetter ')' = false)
  have hat := ne_of_isLetter hletter (by decide : isLetter '@' = false)
  simp [isBlank_of_isLetter hletter, hopening, hclosing, hat]

/-- The stretch `used` spells out a text and something that has one, `writable`,
    unless letters in it are optional. -/
structure Spells (used : Word) (writable : Prop) (text : Word) : Prop where
  writable_iff : writable ↔ '^' ∉ used
  text : '^' ∉ used → OmitsCommas (bare used) text

namespace Spells

variable {used used' text text' : Word} {P Q : Prop}

theorem append (h : Spells used P text) (h' : Spells used' Q text') :
    Spells (used ++ used') (P ∧ Q) (text ++ text') := by
  constructor
  · rw [h.writable_iff, h'.writable_iff, List.mem_append, not_or]
  · intro hcaret
    rw [List.mem_append, not_or] at hcaret
    rw [bare_append]
    exact (h.text hcaret.1).append (h'.text hcaret.2)

theorem congr (h : Spells used P text) (hPQ : P ↔ Q) (htext : text = text') :
    Spells used Q text' := by
  subst htext
  exact ⟨hPQ.symm.trans h.writable_iff, h.text⟩

/-- Where all that can be written is known to be so, a text with more commas may
    be meant. -/
theorem mono (h : Spells used P text) (hPQ : P ↔ Q)
    (htext : ∀ bare, OmitsCommas bare text → OmitsCommas bare text') : Spells used Q text' :=
  ⟨hPQ.symm.trans h.writable_iff, fun hcaret => htext _ (h.text hcaret)⟩

/-- What no blueprint keeps spells out nothing. -/
theorem skipped (hcaret : '^' ∉ used) (hbare : bare used = []) : Spells used True [] :=
  ⟨by simp [hcaret], fun _ => by rw [hbare]; exact OmitsCommas.refl []⟩

theorem blank (h : ∀ c ∈ used, isBlank c = true) : Spells used True [] := by
  refine skipped (fun hcaret => ?_) (bare_of_isBlank h)
  have := h '^' hcaret
  simp [isBlank] at this

/-- A character of the canonical text spells out itself. -/
theorem char {c : Char} (hbare : bare [c] = [c]) (hcaret : c ≠ '^') : Spells [c] True [c] :=
  ⟨by simp [hcaret.symm], fun _ => by rw [hbare]; exact OmitsCommas.refl [c]⟩

theorem symbol (p : Polarity) : Spells [p.symbol] True [p.symbol] := by
  cases p <;> exact char (by decide) (by decide)

end Spells

/-! ### Letters -/

/-- The forms that a stretch of letters stands for: twice as many for every `^`,
    and without any the letters themselves. -/
structure Forms (used : Word) (a : Allomorphs) : Prop where
  length : a.flatten.length = 2 ^ used.count '^'
  only : '^' ∉ used → a.flatten = [bare used]

namespace Forms

variable {used used' : Word} {a b : Allomorphs}

theorem nil : Forms [] (.only []) := ⟨rfl, fun _ => rfl⟩

theorem cross (h : Forms used a) (h' : Forms used' b) : Forms (used ++ used') (a.cross b) := by
  constructor
  · rw [Allomorphs.flatten_cross, length_crossed, h.length, h'.length, List.count_append,
      Nat.pow_add]
  · intro hcaret
    rw [List.mem_append, not_or] at hcaret
    rw [Allomorphs.flatten_cross, h.only hcaret.1, h'.only hcaret.2, bare_append,
      crossed_singletons]

theorem letters {l : Word} (h : ∀ c ∈ l, isLetter c = true) : Forms l (.only l) := by
  have hcaret : '^' ∉ l := fun hc => by
    have := h '^' hc
    simp [isLetter] at this
  refine ⟨?_, fun _ => ?_⟩
  · rw [List.count_eq_zero_of_not_mem hcaret]
    rfl
  · rw [bare_of_isLetter h]
    rfl

/-- An optional part without another `^` has its forms and the empty one. -/
theorem optional (h : Forms used a) (hcount : used.count '^' = 0) :
    Forms (used ++ ['^']) (a.union (.form [])) := by
  refine ⟨?_, fun hcaret => absurd (by simp) hcaret⟩
  rw [a.flatten_union_form, List.length_append, h.length, List.count_append, hcount]
  rfl

/-- Parentheses do not change the forms. -/
theorem parens (h : Forms used a) : Forms ('(' :: (used ++ [')'])) a := by
  have hcount : ('(' :: (used ++ [')'])).count '^' = used.count '^' := by
    simp [List.count_append]
  have hbare : bare ('(' :: (used ++ [')'])) = bare used := by
    simp [bare]
  refine ⟨by rw [h.length, hcount], fun hcaret => ?_⟩
  rw [hbare]
  exact h.only fun hmem => hcaret (by simp [hmem])

end Forms

/-- Without `^` the stretch is made of letters, parentheses apart. -/
def IsRun (used : Word) : Prop :=
  '^' ∉ used → bare used ≠ [] ∧ ∀ c ∈ bare used, isLetter c = true

theorem isRun_append {used used' : Word} (h : IsRun used) (h' : IsRun used') :
    IsRun (used ++ used') := by
  intro hcaret
  rw [List.mem_append, not_or] at hcaret
  obtain ⟨hne, hletters⟩ := h hcaret.1
  obtain ⟨-, hletters'⟩ := h' hcaret.2
  rw [bare_append]
  exact ⟨List.append_ne_nil_of_left_ne_nil hne _, List.forall_mem_append.mpr ⟨hletters, hletters'⟩⟩

/-- The parts of a stretch of letters, which are read as forms that are put behind
    those of what is in front of them. -/
structure PartsOf (used : Word) (ts : List Tree) : Prop where
  text : Tree.textOfAll ts = used
  run : IsRun used
  read : ∀ {front a : Allomorphs} {u : Word}, Forms u front →
    Tree.readParts front ts = .ok a → Forms (u ++ used) a

namespace PartsOf

variable {used used' : Word} {ts ts' : List Tree} {t : Tree}

theorem readParts_append (front : Allomorphs) (ts ts' : List Tree) :
    Tree.readParts front (ts ++ ts') = Tree.readParts front ts >>= fun a =>
      Tree.readParts a ts' := by
  induction ts generalizing front with
  | nil => rfl
  | cons t ts ih =>
    simp only [List.cons_append, Tree.readParts, bind_assoc]
    congr 1
    funext forms
    exact ih _

theorem append (h : PartsOf used ts) (h' : PartsOf used' ts') :
    PartsOf (used ++ used') (ts ++ ts') := by
  refine ⟨?_, isRun_append h.run h'.run, ?_⟩
  · have htext := h.text
    have htext' := h'.text
    simp only [Tree.textOfAll_eq_flatMap] at htext htext' ⊢
    rw [List.flatMap_append, htext, htext']
  · intro front a u hfront hread
    rw [readParts_append] at hread
    obtain ⟨middle, hmiddle, hread⟩ := bind_eq_ok.mp hread
    rw [← List.append_assoc]
    exact h'.read (h.read hfront hmiddle) hread

theorem single (htext : t.text = used) (hrun : IsRun used)
    (hread : ∀ a, t.readPart = .ok a → Forms used a) : PartsOf used [t] := by
  refine ⟨by simp [htext], hrun, ?_⟩
  intro front a u hfront h
  obtain ⟨forms, hforms, h⟩ := bind_eq_ok.mp h
  cases h
  exact hfront.cross (hread forms hforms)

theorem leaf {l : Word} (hne : l ≠ []) (h : ∀ c ∈ l, isLetter c = true) :
    PartsOf l [.leaf l] := by
  refine single rfl (fun _ => ?_) fun a ha => ?_
  · rw [bare_of_isLetter h]
    exact ⟨hne, h⟩
  · cases ha
    exact Forms.letters h

theorem optional (htext : t.text = used) (hread : ∀ a, t.readPart = .ok a → Forms used a) :
    PartsOf (used ++ ['^']) [.node .optional [t, .leaf ['^']]] := by
  have hwhole : Tree.textOfAll [t, .leaf ['^']] = used ++ ['^'] := by
    simp [htext, Tree.text]
  refine single hwhole (fun hcaret => absurd (by simp) hcaret) fun a ha => ?_
  obtain ⟨hnone, forms, hforms, rfl⟩ := Tree.readPart_optional_eq_ok ha
  rw [htext] at hnone
  exact (hread forms hforms).optional (List.count_eq_zero.mpr hnone)

theorem optionalLeaf {l : Word} (h : ∀ c ∈ l, isLetter c = true) :
    PartsOf (l ++ ['^']) [.node .optional [.leaf l, .leaf ['^']]] := by
  refine optional rfl fun a ha => ?_
  cases ha
  exact Forms.letters h

end PartsOf

structure LettersOf (used : Word) (t : Tree) : Prop where
  node : ∃ ts, t = .node .letters ts
  text : t.text = used
  run : IsRun used
  read : ∀ a, t.readLetters = .ok a → Forms used a
  flat : ∀ a, t.readLetters = .ok a → .ofForms a.flatten = a

theorem flat_readParts {front a : Allomorphs} {ts : List Tree}
    (hfront : .ofForms front.flatten = front) (h : Tree.readParts front ts = .ok a) :
    .ofForms a.flatten = a := by
  induction ts generalizing front with
  | nil =>
    cases h
    exact hfront
  | cons t ts ih =>
    obtain ⟨forms, -, h⟩ := bind_eq_ok.mp h
    refine ih ?_ h
    rw [Allomorphs.cross, Allomorphs.flatten_ofForms]

theorem PartsOf.lettersOf {used : Word} {ts : List Tree} (h : PartsOf used ts) :
    LettersOf used (.node .letters ts) where
  node := ⟨ts, rfl⟩
  text := h.text
  run := h.run
  read := fun _ ha => h.read Forms.nil ha
  flat := fun _ ha => flat_readParts rfl ha

theorem PartsOf.of_each {used : Word} {tss : List (List Tree)} (h : Each PartsOf used tss)
    (hne : tss ≠ []) : PartsOf used tss.flatten := by
  induction h with
  | nil => exact absurd rfl hne
  | @cons used more ts tss first others ih =>
    cases others with
    | nil => simpa using first
    | cons second others =>
      exact first.append (ih (List.cons_ne_nil _ _))

theorem consumes_letterRun : Consumes letterRun PartsOf := by
  refine consumes_letterRun_trees.mono ?_
  intro used ts h
  cases h with
  | plain hne hletters => exact PartsOf.leaf hne hletters
  | optional hlast => exact PartsOf.optionalLeaf hlast
  | cut hne hfront hlast => exact (PartsOf.leaf hne hfront).append (PartsOf.optionalLeaf hlast)

theorem partsOf_parens {u : Word} {t : Tree} (ht : LettersOf u t) :
    (Tree.parens t).text = '(' :: (u ++ [')']) ∧
      ∀ a, (Tree.parens t).readPart = .ok a → Forms ('(' :: (u ++ [')'])) a := by
  refine ⟨by simp [Tree.parens, Tree.text, ht.text], ?_⟩
  intro a ha
  rw [Tree.readPart_parens] at ha
  exact (ht.read a ha).parens

theorem consumes_letterParens {inner : Production Tree} (h : Consumes inner LettersOf) :
    Consumes (letterParens inner) PartsOf := by
  refine (consumes_letterParens_trees h).mono ?_
  intro used ts htrees
  cases htrees with
  | @plain u t ht =>
    obtain ⟨htext, hread⟩ := partsOf_parens ht
    refine PartsOf.single htext (fun hcaret => ?_) hread
    have hbare : bare ('(' :: (u ++ [')'])) = bare u := by simp [bare]
    rw [hbare]
    exact ht.run fun hmem => hcaret (by simp [hmem])
  | optional ht =>
    obtain ⟨htext, hread⟩ := partsOf_parens ht
    exact PartsOf.optional htext hread

theorem consumes_lettersAround {inner : Production Tree} (h : Consumes inner LettersOf) :
    Consumes (lettersAround inner) LettersOf := by
  have hpart := consumes_orElse consumes_letterRun (consumes_letterParens h)
  refine consumes_bind (consumes_expecting (consumes_many1 hpart)) fun used tss htss => ?_
  refine consumes_pure ?_
  rw [List.append_nil]
  exact (PartsOf.of_each htss.1 htss.2).lettersOf

theorem consumes_letters : Consumes letters LettersOf :=
  consumes_letters_of_around fun _ => consumes_lettersAround

namespace LettersOf

variable {used : Word} {t : Tree} (h : LettersOf used t)
include h

/-- Letters are read as a literal unless one of them is optional. -/
theorem spells {a : Allomorphs} (ha : t.readLetters = .ok a) :
    Spells used a.IsLiteral a.spelling := by
  have hforms := h.read a ha
  constructor
  · constructor
    · rintro ⟨l, rfl, -⟩ hcaret
      have hlength : 1 = 2 ^ used.count '^' := hforms.length
      have hcount : 0 < used.count '^' := List.count_pos_iff.mpr hcaret
      have htwo : 2 ^ 1 ≤ 2 ^ used.count '^' := Nat.pow_le_pow_right (by decide) hcount
      omega
    · intro hcaret
      obtain ⟨hne, hletters⟩ := h.run hcaret
      refine ⟨bare used, ?_, hne, hletters⟩
      calc a = .ofForms a.flatten := (h.flat a ha).symm
        _ = .ofForms [bare used] := by rw [hforms.only hcaret]
        _ = .only (bare used) := rfl
  · intro hcaret
    have hspelling : a.spelling = bare used := by
      rw [Allomorphs.spelling, hforms.only hcaret, List.flatten_singleton]
    rw [hspelling]
    exact OmitsCommas.refl _

theorem isMark (c : Char) : t.isMark c = false := by
  obtain ⟨ts, rfl⟩ := h.node
  rfl

end LettersOf

/-! ### Chains -/

theorem consumes_affixSymbol :
    Consumes (satisfying isAffixMark) fun used c =>
      ∃ p : Polarity, used = [p.symbol] ∧ c = p.symbol := by
  refine (consumes_satisfying _).mono ?_
  rintro used c ⟨rfl, hc⟩
  simp only [isAffixMark, Bool.or_eq_true, beq_iff_eq] at hc
  rcases hc with (rfl | rfl) | rfl
  · exact ⟨.insert, rfl, rfl⟩
  · exact ⟨.remove, rfl, rfl⟩
  · exact ⟨.toggle, rfl, rfl⟩

theorem consumes_affixMark :
    Consumes affixMark fun used t =>
      ∃ p : Polarity, used = [p.symbol] ∧ t = .leaf [p.symbol] := by
  refine consumes_expecting (consumes_bind consumes_affixSymbol fun used c hc => ?_)
  obtain ⟨p, rfl, rfl⟩ := hc
  exact consumes_pure ⟨p, rfl, rfl⟩

/-- A tree that is read as a chain of affixes. -/
structure ChainOf (used : Word) (t : Tree) : Prop where
  node : ∃ label ts, t = .node label ts ∧ label.isWrapper = false ∧ label ≠ .conditional
  read : ∀ xs, t.readSegment = .ok xs →
    IsChain xs ∧ Spells used (∀ x ∈ xs, x.HasLiterals) (xs.flatMap Operation.writeAffix)

theorem consumes_circumfix : Consumes circumfix ChainOf := by
  refine consumes_bind consumes_letters fun u front hfront => ?_
  refine consumes_bind consumes_affixMark fun m mark hmark => ?_
  refine consumes_bind consumes_letters fun v back hback => ?_
  obtain ⟨p, rfl, rfl⟩ := hmark
  refine consumes_pure ⟨⟨_, _, rfl, rfl, by decide⟩, fun xs hxs => ?_⟩
  rw [Tree.readSegment_circumfix, Tree.readPolarity_symbol] at hxs
  obtain ⟨a, ha, hxs⟩ := bind_eq_ok.mp hxs
  rw [ok_bind] at hxs
  obtain ⟨b, hb, hxs⟩ := bind_eq_ok.mp hxs
  cases hxs
  refine ⟨IsChain.around a b p, ?_⟩
  rw [List.append_nil]
  refine ((hfront.spells ha).append ((Spells.symbol p).append (hback.spells hb))).congr ?_ ?_
  · simp
  · simp

/-- A link of a chain of postfixes. -/
def LinkOf (used : Word) (ts : List Tree) : Prop :=
  ∃ (p : Polarity) (u : Word) (t : Tree), used = p.symbol :: u ∧ ts = [.leaf [p.symbol], t] ∧
    LettersOf u t

theorem consumes_link : Consumes (pair affixMark letters) LinkOf := by
  refine consumes_bind consumes_affixMark fun m mark hmark => ?_
  refine consumes_bind consumes_letters fun u t ht => ?_
  obtain ⟨p, rfl, rfl⟩ := hmark
  exact consumes_pure ⟨p, u, t, by simp, rfl, ht⟩

theorem consumes_postfixes :
    Consumes postfixes fun used t => ∃ tss, t = .node .postfixes tss.flatten ∧ tss ≠ [] ∧
      Each LinkOf used tss := by
  refine consumes_bind (consumes_many1 consumes_link) fun used tss htss => ?_
  refine consumes_pure ⟨tss, rfl, htss.2, ?_⟩
  rw [List.append_nil]
  exact htss.1

theorem readPostfixLinks_each {used : Word} {tss : List (List Tree)} (h : Each LinkOf used tss)
    (chain : Tree) {xs : List Operation}
    (hread : Tree.readPostfixLinks chain tss.flatten = .ok xs) :
    ∃ links, xs = postfixChain links ∧ (tss ≠ [] → links ≠ []) ∧
      Spells used (∀ link ∈ links, link.1.IsLiteral) (xs.flatMap Operation.writeAffix) := by
  induction h generalizing xs with
  | nil =>
    cases hread
    refine ⟨[], rfl, fun hne => absurd rfl hne, ?_⟩
    exact (Spells.blank (by simp)).congr (by simp) rfl
  | @cons used more ts tss first others ih =>
    obtain ⟨p, u, t, rfl, rfl, ht⟩ := first
    simp only [List.flatten_cons, List.cons_append, List.nil_append, Tree.readPostfixLinks,
      Tree.readPolarity_symbol, ok_bind] at hread
    obtain ⟨a, ha, hread⟩ := bind_eq_ok.mp hread
    obtain ⟨ys, hys, hread⟩ := bind_eq_ok.mp hread
    cases hread
    obtain ⟨links, rfl, -, hspells⟩ := ih hys
    refine ⟨(a, p) :: links, rfl, fun _ => List.cons_ne_nil _ _, ?_⟩
    refine (((Spells.symbol p).append (ht.spells ha)).append hspells).congr ?_ ?_
    · simp
    · simp

theorem chainOf_postfixes {used : Word} {tss : List (List Tree)} (h : Each LinkOf used tss)
    (hne : tss ≠ []) : ChainOf used (.node .postfixes tss.flatten) := by
  refine ⟨⟨_, _, rfl, rfl, by decide⟩, fun xs hxs => ?_⟩
  rw [Tree.readSegment_postfixes] at hxs
  obtain ⟨links, rfl, hlinks, hspells⟩ := readPostfixLinks_each h _ hxs
  cases links with
  | nil => exact absurd rfl (hlinks hne)
  | cons link links =>
    exact ⟨IsChain.after link.1 link.2 links, hspells.congr hasLiterals_postfixChain.symm rfl⟩

/-- A prefix with a chain of postfixes behind it, which may be empty. -/
theorem chainOf_prefixes {u more : Word} {front : Tree} (hfront : LettersOf u front)
    (p : Polarity) {tail : Option Tree}
    (htail : tail = none ∧ more = [] ∨ ∃ tss, tail = some (.node .postfixes tss.flatten) ∧
      Each LinkOf more tss) :
    ChainOf (u ++ p.symbol :: more)
      (.node .prefixes ([front, .leaf [p.symbol]] ++ tail.toList)) := by
  refine ⟨⟨_, _, rfl, rfl, by decide⟩, fun xs hxs => ?_⟩
  simp only [Tree.readSegment_prefixes, List.cons_append, List.nil_append, Tree.readPrefixLinks,
    Tree.readPolarity_symbol, ok_bind] at hxs
  obtain ⟨a, ha, hxs⟩ := bind_eq_ok.mp hxs
  obtain ⟨ys, hys, hxs⟩ := bind_eq_ok.mp hxs
  cases hxs
  have hmore : ∃ links, ys = postfixChain links ∧
      Spells more (∀ link ∈ links, link.1.IsLiteral) (ys.flatMap Operation.writeAffix) := by
    rcases htail with ⟨rfl, rfl⟩ | ⟨tss, rfl, htss⟩
    · cases hys
      exact ⟨[], rfl, (Spells.blank (by simp)).congr (by simp) rfl⟩
    · have hlinks : Tree.readPostfixLinks (.node .postfixes tss.flatten) tss.flatten = .ok ys := hys
      obtain ⟨links, hchain, -, hspells⟩ := readPostfixLinks_each htss _ hlinks
      exact ⟨links, hchain, hspells⟩
  obtain ⟨links, rfl, hspells⟩ := hmore
  refine ⟨IsChain.before a p links, ?_⟩
  refine ((hfront.spells ha).append ((Spells.symbol p).append hspells)).congr ?_ ?_
  · rw [← hasLiterals_postfixChain]
    simp
  · simp

/-- Where no circumfix matches, only one prefix does. -/
theorem prefixes_chainOf {s rest : Word} {t : Tree} (hfails : Fails circumfix s)
    (h : prefixes s = .matched t rest) : ∃ used, s = used ++ rest ∧ ChainOf used t := by
  obtain ⟨links, r, hlinks, h⟩ := bind_matched h
  obtain ⟨tail, r', htail, h⟩ := bind_matched h
  cases h
  obtain ⟨link, r₁, more, rfl, hlink, hmore⟩ := many1_eq_matched hlinks
  obtain ⟨front, r₂, hfront, hlink⟩ := bind_matched hlink
  obtain ⟨mark, r₃, hmark, hlink⟩ := bind_matched hlink
  cases hlink
  -- with letters behind the mark there would have been a circumfix
  have hnone : more = [] ∧ r = r₁ := by
    rcases many_eq_matched hmore with ⟨hnil, hr, -⟩ | ⟨v, r₄, vs, -, -, hsecond, -⟩
    · exact ⟨hnil, hr⟩
    · obtain ⟨back, r₅, hback, -⟩ := bind_matched hsecond
      obtain ⟨r₆, es, hfails⟩ := hfails
      have hcircumfix : circumfix s = .matched (.node .circumfix [front, mark, back]) r₅ := by
        unfold circumfix
        rw [bind_of_matched hfront, bind_of_matched hmark, bind_of_matched hback]
        rfl
      rw [hcircumfix] at hfails
      cases hfails
  obtain ⟨rfl, rfl⟩ := hnone
  obtain ⟨u, rfl, hu⟩ := consumes_letters s front r₂ hfront
  obtain ⟨m, rfl, p, rfl, rfl⟩ := consumes_affixMark r₂ mark r hmark
  obtain ⟨v, rfl, hv⟩ := consumes_optionally consumes_postfixes r tail rest htail
  refine ⟨u ++ p.symbol :: v, by simp, ?_⟩
  refine chainOf_prefixes hu p ?_
  rcases hv with hv | ⟨t, rfl, tss, rfl, -, htss⟩
  · exact .inl hv
  · exact .inr ⟨tss, rfl, htss⟩

theorem consumes_edgeSegment : Consumes edgeSegment ChainOf := by
  intro s t rest h
  rcases orElse_eq_matched h with h | ⟨hfails, h⟩
  · exact consumes_circumfix s t rest h
  · rcases orElse_eq_matched h with h | ⟨-, h⟩
    · exact prefixes_chainOf hfails h
    · obtain ⟨used, hs, tss, rfl, hne, htss⟩ := consumes_postfixes s t rest h
      exact ⟨used, hs, chainOf_postfixes htss hne⟩

end WordFormation
