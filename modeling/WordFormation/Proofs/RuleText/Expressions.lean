/-
  WordFormation/Proofs/RuleText/Expressions.lean
  ==============================================
  **What letters with optional parts stand for.**

  Letters are written item by item: a letter, a group in parentheses, and either of
  them with a `^` behind it (`Expression`).  An item stands for its letters, an
  optional one for nothing as well, and items in a row for every choice of one form
  of each, the first item changing slowest (`Expression.forms`).

  The grammar cuts such a text differently.  It takes letters in runs as long as
  they come, and only where a `^` follows does the last letter of a run become a
  part of its own.  So the induction over the items carries with it the letters in
  front of them that are not yet part of a run that has ended
  (`IsWritten.exists_areParts`).  Reading then puts the forms of the parts behind
  one another from left to right, while the forms of items are those of the first
  put in front of those of the others; that the order of the forms is the same is
  the associativity of `crossed`.
-/
import WordFormation.Proofs.RuleText.PostfixChains
import WordFormation.Proofs.RuleText.Spelling
import WordFormation.Proofs.RuleText.Nesting

namespace WordFormation

open RuleText RuleText.Production RuleText.Grammar

/-! ### Expressions -/

/-- Letters with optional parts, as they are written. -/
inductive Expression where
  | done
  | letter (c : Char) (more : Expression)
  | optionalLetter (c : Char) (more : Expression)
  | group (inner more : Expression)
  | optionalGroup (inner more : Expression)
deriving DecidableEq

namespace Expression

def text : Expression → Word
  | done => []
  | letter c more => c :: more.text
  | optionalLetter c more => c :: '^' :: more.text
  | group inner more => '(' :: (inner.text ++ ')' :: more.text)
  | optionalGroup inner more => '(' :: (inner.text ++ ')' :: '^' :: more.text)

/-- All the letters, the optional ones included. -/
def kept : Expression → Word
  | done => []
  | letter c more => c :: more.kept
  | optionalLetter c more => c :: more.kept
  | group inner more => inner.kept ++ more.kept
  | optionalGroup inner more => inner.kept ++ more.kept

/-- The forms that an expression stands for, in the order of the choices. -/
def forms : Expression → List Word
  | done => [[]]
  | letter c more => crossed [[c]] more.forms
  | optionalLetter c more => crossed [[c], []] more.forms
  | group inner more => crossed inner.forms more.forms
  | optionalGroup inner more => crossed [inner.kept, []] more.forms

/-- How deep the parentheses are nested. -/
def depth : Expression → Nat
  | done => 0
  | letter _ more => more.depth
  | optionalLetter _ more => more.depth
  | group inner more => max (inner.depth + 1) more.depth
  | optionalGroup inner more => max (inner.depth + 1) more.depth

/-- Groups are not empty, and nothing in an optional group is optional. -/
inductive IsWritten : Expression → Prop where
  | done : IsWritten done
  | letter {c : Char} {more : Expression} (hc : isLetter c = true) (hmore : more.IsWritten) :
      IsWritten (letter c more)
  | optionalLetter {c : Char} {more : Expression} (hc : isLetter c = true)
      (hmore : more.IsWritten) : IsWritten (optionalLetter c more)
  | group {inner more : Expression} (hne : inner ≠ done) (hinner : inner.IsWritten)
      (hmore : more.IsWritten) : IsWritten (group inner more)
  | optionalGroup {inner more : Expression} (hne : inner ≠ done) (hinner : inner.IsWritten)
      (hcaret : '^' ∉ inner.text) (hmore : more.IsWritten) : IsWritten (optionalGroup inner more)

/-! ### The forms of an expression -/

/-- The first form is the one that keeps everything. -/
theorem head?_forms (e : Expression) : e.forms.head? = some e.kept := by
  induction e with
  | done => rfl
  | letter c more ih => exact head?_crossed (f := [c]) rfl ih
  | optionalLetter c more ih => exact head?_crossed (f := [c]) rfl ih
  | group inner more ihInner ihMore => exact head?_crossed ihInner ihMore
  | optionalGroup inner more _ ih => exact head?_crossed rfl ih

theorem length_le_of_mem_forms (e : Expression) : ∀ f ∈ e.forms, f.length ≤ e.kept.length := by
  induction e with
  | done => simp [forms]
  | letter c more ih =>
    rw [kept, List.length_cons, Nat.add_comm]
    exact length_le_of_mem_crossed (by simp) ih
  | optionalLetter c more ih =>
    rw [kept, List.length_cons, Nat.add_comm]
    exact length_le_of_mem_crossed (by simp) ih
  | group inner more ihInner ihMore =>
    rw [kept, List.length_append]
    exact length_le_of_mem_crossed ihInner ihMore
  | optionalGroup inner more _ ih =>
    rw [kept, List.length_append]
    exact length_le_of_mem_crossed (by simp) ih

theorem IsWritten.kept_ne_nil {e : Expression} (h : e.IsWritten) (hne : e ≠ .done) :
    e.kept ≠ [] := by
  induction h with
  | done => exact absurd rfl hne
  | letter => exact List.cons_ne_nil _ _
  | optionalLetter => exact List.cons_ne_nil _ _
  | group hinner _ _ ih => exact List.append_ne_nil_of_left_ne_nil (ih hinner) _
  | optionalGroup hinner _ _ _ ih => exact List.append_ne_nil_of_left_ne_nil (ih hinner) _

theorem ne_caret_of_isLetter {c : Char} (h : isLetter c = true) : c ≠ '^' :=
  ne_of_isLetter h (by decide)

/-- Every `^` doubles the number of forms. -/
theorem IsWritten.length_forms {e : Expression} (h : e.IsWritten) :
    e.forms.length = 2 ^ e.text.count '^' := by
  induction h with
  | done => rfl
  | letter hc _ ih =>
    rw [forms, length_crossed, ih, text, List.count_cons_of_ne (ne_caret_of_isLetter hc)]
    simp
  | optionalLetter hc _ ih =>
    rw [forms, length_crossed, ih, text, List.count_cons_of_ne (ne_caret_of_isLetter hc),
      List.count_cons_self, Nat.pow_succ, Nat.mul_comm]
    rfl
  | group _ _ _ ihInner ihMore =>
    rw [forms, length_crossed, ihInner, ihMore, text, List.count_cons_of_ne (by decide),
      List.count_append, List.count_cons_of_ne (by decide), Nat.pow_add]
  | optionalGroup _ _ hcaret _ _ ih =>
    rw [forms, length_crossed, ih, text, List.count_cons_of_ne (by decide), List.count_append,
      List.count_cons_of_ne (by decide), List.count_cons_self,
      List.count_eq_zero_of_not_mem hcaret, Nat.zero_add, Nat.pow_succ, Nat.mul_comm]
    rfl

/-! ### Parentheses -/

theorem IsWritten.balanced {e : Expression} (h : e.IsWritten) : Balanced e.text := by
  have hletter : ∀ {c : Char}, isLetter c = true → c ≠ '(' ∧ c ≠ ')' := fun hc =>
    ⟨ne_of_isLetter hc (by decide), ne_of_isLetter hc (by decide)⟩
  induction h with
  | done => exact Balanced.nil
  | letter hc _ ih => exact Balanced.cons (hletter hc).1 (hletter hc).2 ih
  | optionalLetter hc _ ih =>
    exact Balanced.cons (hletter hc).1 (hletter hc).2
      (Balanced.cons (by decide) (by decide) ih)
  | group _ _ _ ihInner ihMore =>
    have hboth := ihInner.parens.append ihMore
    simpa [text] using hboth
  | optionalGroup _ _ _ _ ihInner ihMore =>
    have hboth := ihInner.parens.append (Balanced.cons (c := '^') (by decide) (by decide) ihMore)
    simpa [text] using hboth

/-- What is not nested too deep is not found to be so. -/
theorem IsWritten.tooDeep?_eq_none {e : Expression} (h : e.IsWritten) {depth : Nat}
    (hdepth : depth + e.depth ≤ maxNesting) : tooDeep? depth e.text = none := by
  have hletter : ∀ {c : Char} {w : Word} {depth : Nat}, isLetter c = true →
      tooDeep? depth (c :: w) = tooDeep? depth w := by
    intro c w depth hc
    rw [tooDeep?, if_neg (ne_of_isLetter hc (by decide)), if_neg (ne_of_isLetter hc (by decide))]
  -- a group is looked at one level deeper, and what is behind it at the same level again
  have hgroup : ∀ {u w : Word} {depth : Nat}, Balanced u → depth + 1 ≤ maxNesting →
      tooDeep? (depth + 1) u = none → tooDeep? depth w = none →
      tooDeep? depth ('(' :: (u ++ ')' :: w)) = none := by
    intro u w depth hu hopen hinner hmore
    rw [tooDeep?, if_pos rfl, if_neg (by omega)]
    exact hu.tooDeep?_eq_none.mpr ⟨hinner, hmore⟩
  induction h generalizing depth with
  | done => rfl
  | letter hc _ ih => exact (hletter hc).trans (ih hdepth)
  | optionalLetter hc _ ih => exact (hletter hc).trans (ih hdepth)
  | group _ hinner _ ihInner ihMore =>
    simp only [Expression.depth] at hdepth
    exact hgroup hinner.balanced (by omega) (ihInner (by omega)) (ihMore (by omega))
  | optionalGroup _ hinner _ _ ihInner ihMore =>
    simp only [Expression.depth] at hdepth
    exact hgroup hinner.balanced (by omega) (ihInner (by omega)) (ihMore (by omega))

end Expression

/-! ### Parts of a stretch of letters -/

/-- The trees spell out the text and are read as the given forms, which are put
    behind those of what is in front. -/
structure ReadAs (ts : List RuleText.Tree) (text : Word) (fs : List Word) : Prop where
  textOfAll_eq : Tree.textOfAll ts = text
  read : ∀ front, Tree.readParts (.ofForms front) ts = .ok (.ofForms (crossed front fs))

namespace ReadAs

variable {ts ts' : List RuleText.Tree} {t : RuleText.Tree} {u u' : Word} {fs fs' : List Word}

theorem nil : ReadAs [] [] [[]] := ⟨rfl, fun front => by rw [crossed_nil_right]; rfl⟩

theorem append (h : ReadAs ts u fs) (h' : ReadAs ts' u' fs') :
    ReadAs (ts ++ ts') (u ++ u') (crossed fs fs') := by
  refine ⟨?_, fun front => ?_⟩
  · rw [Tree.textOfAll_eq_flatMap, List.flatMap_append, ← Tree.textOfAll_eq_flatMap,
      ← Tree.textOfAll_eq_flatMap, h.textOfAll_eq, h'.textOfAll_eq]
  · rw [PartsOf.readParts_append, h.read, ok_bind, h'.read, crossed_assoc]

theorem single {a : Allomorphs} (hread : t.readPart = .ok a) :
    ReadAs [t] t.text a.flatten := by
  refine ⟨by simp, fun front => ?_⟩
  rw [Tree.readParts, hread, ok_bind, Allomorphs.cross_eq,
    Allomorphs.flatten_ofForms]
  rfl

theorem leaf (run : Word) : ReadAs [.leaf run] run [run] :=
  single (t := .leaf run) (a := .only run) rfl

/-- An optional part that holds no further `^` has the forms that it has when it is
    kept, then the empty one. -/
theorem optional {a : Allomorphs} (hread : t.readPart = .ok a) (hcaret : '^' ∉ t.text) :
    ReadAs [.node .optional [t, .leaf ['^']]] (t.text ++ ['^']) (a.flatten ++ [[]]) := by
  have htext : Tree.textOfAll [t, .leaf ['^']] = t.text ++ ['^'] := by
    simp [Tree.text]
  have hmarkers : (Tree.textOfAll [t, .leaf ['^']]).count '^' = 1 := by
    rw [htext, List.count_append, List.count_eq_zero_of_not_mem hcaret]
    rfl
  have hoptional : (RuleText.Tree.node .optional [t, .leaf ['^']]).readPart =
      .ok (a.union (.form [])) := by
    simp only [Tree.readPart, hmarkers, hread]
    rfl
  rw [← a.flatten_union_form, ← htext]
  exact single hoptional

end ReadAs

/-- Whatever goes on behind the text that is no part of letters, it is matched
    part by part, and the parts are read as the given forms. -/
structure AreParts (text : Word) (tss : List (List RuleText.Tree)) (fs : List Word) : Prop where
  matched : ∀ {rest : Word}, Stops isLetterPart rest →
    many (orElse letterRun (letterParens letters)) (text ++ rest) = .matched tss rest
  readAs : ReadAs tss.flatten text fs

namespace AreParts

variable {u : Word} {tss : List (List RuleText.Tree)} {fs : List Word}

theorem nil : AreParts [] [] [[]] where
  matched hrest := many_of_fails (fails_part hrest)
  readAs := ReadAs.nil

theorem cons {v : Word} {ts : List RuleText.Tree} {gs : List Word}
    (hpart : ∀ rest, Stops isLetterPart rest →
      orElse letterRun (letterParens letters) (v ++ (u ++ rest)) = .matched ts (u ++ rest))
    (hts : ReadAs ts v gs) (h : AreParts u tss fs) :
    AreParts (v ++ u) (ts :: tss) (crossed gs fs) where
  matched {rest} hrest := by
    have hadvances := advances_orElse advances_letterRun
      (advances_letterParens advances_letters.forward)
    rw [List.append_assoc]
    exact many_of_matched hadvances (hpart rest hrest) (h.matched hrest)
  readAs := hts.append h.readAs

/-- Parts that there are any of make up a stretch of letters. -/
theorem isStretch (h : AreParts u tss fs)
    (hbegins : ∃ c more, u = c :: more ∧ (isLetter c = true ∨ c = '(')) :
    IsStretch u (.node .letters tss.flatten) (.ofForms fs) where
  begins := hbegins
  matched hrest := by
    rcases many_eq_matched (h.matched hrest) with ⟨rfl, -, -⟩ | ⟨ts, r, tss', rfl, -, hpart, hmore⟩
    · obtain ⟨c, more, rfl, -⟩ := hbegins
      have htext : [] = c :: more := h.readAs.textOfAll_eq
      cases htext
    · exact letters_of_parts hpart hmore
  text_eq := h.readAs.textOfAll_eq
  read := by
    have hread := h.readAs.read [[]]
    rw [crossed_nil_left] at hread
    exact hread

end AreParts

/-! ### Runs of letters -/

/-- A letter that may be left out. -/
def optionalLeaf (c : Char) : RuleText.Tree := .node .optional [.leaf [c], .leaf ['^']]

/-- The letters of a run, with such a letter at its end. -/
def optionalRun (run : Word) (c : Char) : List RuleText.Tree :=
  if run.isEmpty then [optionalLeaf c] else [.leaf run, optionalLeaf c]

theorem readAs_optionalRun {c : Char} (hc : isLetter c = true) (run : Word) :
    ReadAs (optionalRun run c) (run ++ [c, '^']) (crossed [run] [[c], []]) := by
  have hlast : ReadAs [optionalLeaf c] [c, '^'] [[c], []] := by
    refine ReadAs.optional (t := .leaf [c]) (a := .only [c]) rfl ?_
    simpa [Tree.text] using (Expression.ne_caret_of_isLetter hc).symm
  rcases run with _ | ⟨d, run⟩
  · rw [crossed_nil_left]
    exact hlast
  · exact (ReadAs.leaf (d :: run)).append hlast

section Run

variable {u run : Word} {tss : List (List RuleText.Tree)} {fs : List Word} {c : Char}
  (hrun : ∀ c ∈ run, isLetter c = true)
include hrun

/-- Letters in front of what is no letter are a run, if there are any. -/
theorem AreParts.behind_run (h : AreParts u tss fs) (hletter : Stops isLetter u)
    (hcaret : Stops (· == '^') u) :
    ∃ tss', AreParts (run ++ u) tss' (crossed [run] fs) := by
  by_cases hne : run = []
  · subst hne
    exact ⟨tss, by rwa [List.nil_append, crossed_nil_left]⟩
  · have hpart : ∀ rest, Stops isLetterPart rest →
        orElse letterRun (letterParens letters) (run ++ (u ++ rest)) =
          .matched [.leaf run] (u ++ rest) := by
      intro rest hrest
      exact orElse_of_matched (letterRun_plain hne hrun (hletter.append (stops_isLetter hrest))
        (hcaret.append (stops_caret hrest)))
    exact ⟨_, h.cons hpart (ReadAs.leaf run)⟩

/-- A `^` cuts the last letter off its run, of which nothing else may be left. -/
theorem letterRun_optional (hc : isLetter c = true) (rest : Word) :
    letterRun (run ++ c :: '^' :: rest) = .matched (optionalRun run c) rest := by
  have hall : ∀ d ∈ run ++ [c], isLetter d = true :=
    List.forall_mem_append.mpr ⟨hrun, List.forall_mem_singleton.mpr hc⟩
  have htaken : Production.run isLetter ((run ++ [c]) ++ '^' :: rest) =
      .matched (run ++ [c]) ('^' :: rest) :=
    run_append (by simp) hall (stops_cons (by decide) rest)
  have htext : run ++ c :: '^' :: rest = (run ++ [c]) ++ '^' :: rest := by simp
  rw [htext]
  unfold letterRun
  rw [bind_of_matched htaken, bind_of_matched (optionally_of_matched (mark_cons '^' rest))]
  simp only [List.dropLast_concat, List.drop_left]
  rfl

/-- A letter with a `^` ends the run in front of it. -/
theorem AreParts.behind_optional (hc : isLetter c = true) (h : AreParts u tss fs) :
    ∃ tss', AreParts (run ++ c :: '^' :: u) tss' (crossed [run] (crossed [[c], []] fs)) := by
  have hpart : ∀ rest, Stops isLetterPart rest →
      orElse letterRun (letterParens letters) (run ++ [c, '^'] ++ (u ++ rest)) =
        .matched (optionalRun run c) (u ++ rest) := by
    intro rest _
    rw [List.append_assoc]
    exact orElse_of_matched (letterRun_optional hrun hc (u ++ rest))
  have hparts := h.cons hpart (readAs_optionalRun hc run)
  rw [crossed_assoc, List.append_assoc] at hparts
  exact ⟨_, hparts⟩

end Run

/-! ### Groups -/

/-- A parenthesis is no run of letters. -/
theorem part_group (rest : Word) :
    orElse letterRun (letterParens letters) ('(' :: rest) = letterParens letters ('(' :: rest) :=
  orElse_of_fails (fails_bind (fails_run (stops_cons (by decide) rest)))

section Group

variable {u v : Word} {t : RuleText.Tree} {a : Allomorphs} {tss : List (List RuleText.Tree)}
  {fs : List Word} (h : IsStretch u t a)
include h

theorem parenthesised_stretch (rest : Word) :
    parenthesised letters ('(' :: (u ++ ')' :: rest)) = .matched (.parens t) rest := by
  unfold parenthesised
  rw [bind_of_matched (mark_cons '(' _), bind_of_matched (h.matched (stops_cons (by decide) rest)),
    bind_of_matched (mark_cons ')' rest)]
  rfl

theorem readPart_parens : (Tree.parens t).readPart = .ok a := h.read

theorem text_parens : (Tree.parens t).text = '(' :: (u ++ [')']) := by
  simp [Tree.parens, Tree.text, h.text_eq]

theorem AreParts.behind_group (hv : AreParts v tss fs) (hcaret : Stops (· == '^') v) :
    AreParts ('(' :: (u ++ ')' :: v)) ([.parens t] :: tss) (crossed a.flatten fs) := by
  have hread : ReadAs [.parens t] ('(' :: (u ++ [')'])) a.flatten := by
    rw [← text_parens h]
    exact ReadAs.single (readPart_parens h)
  have hpart : ∀ rest, Stops isLetterPart rest →
      orElse letterRun (letterParens letters) ('(' :: (u ++ [')']) ++ (v ++ rest)) =
        .matched [.parens t] (v ++ rest) := by
    intro rest hrest
    have hmark : Fails (mark '^') (v ++ rest) :=
      fails_satisfying (hcaret.append (stops_caret hrest))
    have htext : '(' :: (u ++ [')']) ++ (v ++ rest) = '(' :: (u ++ ')' :: (v ++ rest)) := by simp
    rw [htext, part_group]
    unfold letterParens
    rw [bind_of_matched (parenthesised_stretch h _), bind_of_matched (optionally_of_fails hmark)]
    rfl
  have hparts := hv.cons hpart hread
  simpa using hparts

theorem AreParts.behind_optionalGroup (hnone : '^' ∉ u) (hv : AreParts v tss fs) :
    AreParts ('(' :: (u ++ ')' :: '^' :: v)) ([.node .optional [.parens t, .leaf ['^']]] :: tss)
      (crossed (a.flatten ++ [[]]) fs) := by
  have hread : ReadAs [.node .optional [.parens t, .leaf ['^']]] ('(' :: (u ++ [')', '^']))
      (a.flatten ++ [[]]) := by
    have hcaret : '^' ∉ (Tree.parens t).text := by simp [text_parens h, hnone]
    have hoptional := ReadAs.optional (readPart_parens h) hcaret
    rw [text_parens h] at hoptional
    simpa using hoptional
  have hpart : ∀ rest, Stops isLetterPart rest →
      orElse letterRun (letterParens letters) ('(' :: (u ++ [')', '^']) ++ (v ++ rest)) =
        .matched [.node .optional [.parens t, .leaf ['^']]] (v ++ rest) := by
    intro rest _
    have htext : '(' :: (u ++ [')', '^']) ++ (v ++ rest) =
        '(' :: (u ++ ')' :: '^' :: (v ++ rest)) := by simp
    rw [htext, part_group]
    unfold letterParens
    rw [bind_of_matched (parenthesised_stretch h _),
      bind_of_matched (optionally_of_matched (mark_cons '^' _))]
    rfl
  have hparts := hv.cons hpart hread
  simpa using hparts

end Group

/-! ### Stretches written as expressions -/

namespace Expression

theorem IsWritten.begins {e : Expression} (h : e.IsWritten) (hne : e ≠ .done) :
    ∃ c more, e.text = c :: more ∧ (isLetter c = true ∨ c = '(') := by
  cases h with
  | done => exact absurd rfl hne
  | letter hc _ => exact ⟨_, _, rfl, .inl hc⟩
  | optionalLetter hc _ => exact ⟨_, _, rfl, .inl hc⟩
  | group => exact ⟨_, _, rfl, .inr rfl⟩
  | optionalGroup => exact ⟨_, _, rfl, .inr rfl⟩

theorem IsWritten.stops_caret {e : Expression} (h : e.IsWritten) : Stops (· == '^') e.text := by
  by_cases hne : e = .done
  · subst hne
    exact stops_nil _
  · obtain ⟨c, more, htext, hc⟩ := h.begins hne
    rw [htext]
    refine stops_cons ?_ more
    rcases hc with hc | rfl
    · exact beq_eq_false_iff_ne.mpr (ne_caret_of_isLetter hc)
    · decide

/-- Without `^` there is no choice. -/
theorem IsWritten.forms_eq {e : Expression} (h : e.IsWritten) (hcaret : '^' ∉ e.text) :
    e.forms = [e.kept] := by
  have hlength := h.length_forms
  rw [List.count_eq_zero_of_not_mem hcaret] at hlength
  obtain ⟨f, hf⟩ := List.length_eq_one_iff.mp hlength
  have hhead := e.head?_forms
  rw [hf] at hhead ⊢
  cases hhead
  rfl

/-- The parts of an expression with letters in front of it that may go on in its
    first run. -/
theorem IsWritten.exists_areParts {e : Expression} (h : e.IsWritten) (run : Word)
    (hrun : ∀ c ∈ run, isLetter c = true) :
    ∃ tss, AreParts (run ++ e.text) tss (crossed [run] e.forms) := by
  induction h generalizing run with
  | done => exact AreParts.nil.behind_run hrun (stops_nil _) (stops_nil _)
  | @letter c more hc _ ih =>
    obtain ⟨tss, hparts⟩ := ih (run ++ [c])
      (List.forall_mem_append.mpr ⟨hrun, List.forall_mem_singleton.mpr hc⟩)
    refine ⟨tss, ?_⟩
    rw [forms, ← crossed_assoc, crossed_singletons]
    simpa [text] using hparts
  | @optionalLetter c more hc _ ih =>
    obtain ⟨tss, hparts⟩ := ih [] (by simp)
    rw [List.nil_append, crossed_nil_left] at hparts
    exact hparts.behind_optional hrun hc
  | @group inner more hne hinner hmore ihInner ihMore =>
    obtain ⟨tss, hparts⟩ := ihInner [] (by simp)
    obtain ⟨tss', hparts'⟩ := ihMore [] (by simp)
    rw [List.nil_append, crossed_nil_left] at hparts hparts'
    have hstretch := hparts.isStretch (hinner.begins hne)
    have hgroup := AreParts.behind_group hstretch hparts' hmore.stops_caret
    rw [Allomorphs.flatten_ofForms] at hgroup
    exact hgroup.behind_run hrun (stops_cons (by decide) _) (stops_cons (by decide) _)
  | @optionalGroup inner more hne hinner hcaret hmore ihInner ihMore =>
    obtain ⟨tss, hparts⟩ := ihInner [] (by simp)
    obtain ⟨tss', hparts'⟩ := ihMore [] (by simp)
    rw [List.nil_append, crossed_nil_left] at hparts hparts'
    have hstretch := hparts.isStretch (hinner.begins hne)
    have hgroup := AreParts.behind_optionalGroup hstretch hcaret hparts'
    rw [Allomorphs.flatten_ofForms, hinner.forms_eq hcaret] at hgroup
    exact hgroup.behind_run hrun (stops_cons (by decide) _) (stops_cons (by decide) _)

theorem IsWritten.exists_isStretch {e : Expression} (h : e.IsWritten) (hne : e ≠ .done) :
    ∃ t, IsStretch e.text t (.ofForms e.forms) := by
  obtain ⟨tss, hparts⟩ := h.exists_areParts [] (by simp)
  rw [List.nil_append, crossed_nil_left] at hparts
  exact ⟨_, hparts.isStretch (h.begins hne)⟩

end Expression

/-! ### Rules of one affix -/

/-- A mark in front of it or behind it makes it a rule that inserts its forms. -/
theorem Expression.IsWritten.exists_ofText {e : Expression} (h : e.IsWritten) (hne : e ≠ .done)
    (hdepth : e.depth ≤ maxNesting) :
    (∃ r, Rule.ofText ('+' :: e.text) = .ok r ∧
      r.blueprint = ⟨none, [[.putAfter (.ofForms e.forms) .insert]]⟩) ∧
    ∃ r, Rule.ofText (e.text ++ ['+']) = .ok r ∧
      r.blueprint = ⟨none, [[.putBefore (.ofForms e.forms) .insert]]⟩ := by
  obtain ⟨t, hstretch⟩ := h.exists_isStretch hne
  have hshallow : tooDeep? 0 e.text = none :=
    h.tooDeep?_eq_none ((Nat.zero_add e.depth).symm ▸ hdepth)
  constructor
  · have hitem := itemMatches_postfix hstretch .insert (endsAt_nil itemEnds)
    exact exists_ofText_of_lone_item hshallow (stops_cons (by decide) _) (by simp) hitem
      (List.forall_mem_singleton.mpr ⟨_, rfl⟩)
  · have hitem := itemMatches_prefix hstretch .insert (endsAt_nil itemEnds)
    have hwhole : tooDeep? 0 (e.text ++ ['+']) = none :=
      h.balanced.tooDeep?_eq_none.mpr ⟨hshallow, rfl⟩
    exact exists_ofText_of_lone_item hwhole
      (hstretch.stops (fun _ => isBlank_of_isLetter) (by decide) _)
      (hstretch.head_ne (by decide) (by decide) _) hitem
      (List.forall_mem_singleton.mpr ⟨_, rfl⟩)

/-- **Letters with optional parts stand for every choice of their parts.**  With a
    mark on one side they are a rule that inserts them on the other.  There are
    twice as many forms for every `^`, and the first keeps everything, so that none
    is longer. -/
theorem Rule.ofText_expression {e : Expression} (hne : e ≠ .done) (hwritten : e.IsWritten)
    (hdepth : e.depth ≤ 32) :
    (∃ r, Rule.ofText ('+' :: e.text) = .ok r ∧
      r.blueprint = ⟨none, [[.putAfter (.ofForms e.forms) .insert]]⟩) ∧
    (∃ r, Rule.ofText (e.text ++ ['+']) = .ok r ∧
      r.blueprint = ⟨none, [[.putBefore (.ofForms e.forms) .insert]]⟩) ∧
    e.forms.length = 2 ^ e.text.count '^' ∧ e.forms.head? = some e.kept ∧
      ∀ f ∈ e.forms, f.length ≤ e.kept.length := by
  obtain ⟨hbehind, hfront⟩ := hwritten.exists_ofText hne hdepth
  exact ⟨hbehind, hfront, hwritten.length_forms, e.head?_forms, e.length_le_of_mem_forms⟩

/-- An optional group in a group, and an optional letter behind it. -/
theorem Rule.ofText_expression_abcde :
    let e : Expression := .letter 'a'
      (.group (.letter 'b' (.optionalGroup (.letter 'c' (.letter 'd' .done)) .done))
        (.optionalLetter 'e' .done))
    e ≠ .done ∧ e.IsWritten ∧ e.depth ≤ 32 ∧
      ∃ r, Rule.ofText "+a(b(cd)^)e^".toList = .ok r ∧ r.blueprint =
        ⟨none, [[.putAfter (.ofForms ["abcde".toList, "abcd".toList, "abe".toList, "ab".toList])
          .insert]]⟩ := by
  intro e
  have hne : e ≠ .done := by decide
  have hwritten : e.IsWritten :=
    .letter (by decide) (.group (by decide)
      (.letter (by decide) (.optionalGroup (by decide)
        (.letter (by decide) (.letter (by decide) .done)) (by decide) .done))
      (.optionalLetter (by decide) .done))
  have hdepth : e.depth ≤ 32 := by decide
  exact ⟨hne, hwritten, hdepth, (Rule.ofText_expression hne hwritten hdepth).1⟩

end WordFormation
