/-
  WordFormation/Proofs/RuleText/OptionalParts.lean
  ================================================
  **An optional part never repeats what the word already has.**

  `X(Y)^` stands for `X` with `Y` behind it and for `X` alone.  In front of a word
  that begins with `Y` the shorter form gains all of `Y`, which the word completes, and
  the longer form gains nothing.  In front of any other word neither gains anything,
  and the longer form is taken (`insertAtGap_optional`).  So afterwards `Y` stands
  there once, whether the word began with it or not.

  At the end of the word everything is reversed, and with letters put on and taken off
  at an edge both ends read alike (`insertAt_optional`).
-/
import WordFormation.Proofs.RuleText.Expressions
import WordFormation.Proofs.RuleText.Canonical
import WordFormation.Proofs.RoundTrip
import WordFormation.Proofs.ShortActions

namespace WordFormation

open RuleText

/-! ### Letters that may be there already -/

namespace Allomorphs

/-- Of forms after which nothing more is found than was put in, longer ones fit better. -/
theorem scoreAt_lt_of_found_eq (a : Allomorphs) {w f g : Word} {k : Nat}
    (hf : (a.formAtGap (putAt w k f) k).length = f.length)
    (hg : (a.formAtGap (putAt w k g) k).length = g.length) (hlonger : f.length < g.length) :
    a.scoreAt w k f < a.scoreAt w k g := by
  refine Prod.Lex.toLex_lt_toLex.mpr (.inr ⟨?_, hlonger⟩)
  show ((a.formAtGap (putAt w k f) k).length : Int) - f.length =
    (a.formAtGap (putAt w k g) k).length - g.length
  rw [hf, hg, Int.sub_self, Int.sub_self]

section Gap

variable {a : Allomorphs} {x y : Word} (hy : y ≠ []) (hforms : a.flatten = [x ++ y, x]) (w : Word)
include hy hforms

/-- More than the form without the optional letters is found where the word has them. -/
theorem length_lt_found_left_out_iff :
    x.length < (a.formAtGap (putAt w 0 x) 0).length ↔ y <+: w := by
  rw [a.length_lt_found_iff (Nat.zero_le _), hforms, List.drop_zero]
  constructor
  · rintro ⟨g, hg, r, hr, hbegins, rfl⟩
    have hcases : r = y ∨ r = [] := by simpa using hg
    rwa [← hcases.resolve_right hr]
  · intro hbegins
    exact ⟨x ++ y, by simp, y, hy, hbegins, rfl⟩

/-- No more than the form with them is ever found, as none is longer. -/
theorem length_found_kept :
    (a.formAtGap (putAt w 0 (x ++ y)) 0).length = (x ++ y).length := by
  have hleast := a.length_le_found (Nat.zero_le w.length) (f := x ++ y) (by simp [hforms])
  refine Nat.le_antisymm (Nat.not_lt.mp fun hmore => ?_) hleast
  obtain ⟨g, hg, r, hr, -, rfl⟩ := (a.length_lt_found_iff (Nat.zero_le _) _).mp hmore
  rw [hforms] at hg
  have hcases : r = [] ∨ y = [] ∧ r = [] := by simpa using hg
  rcases hcases with hnil | ⟨hnil, -⟩
  · exact hr hnil
  · exact hy hnil

theorem insertAtGap_optional :
    a.insertAtGap w 0 = some (x ++ (y ++ Edge.start.detach y w)) := by
  obtain ⟨w', hw'⟩ : ∃ w', a.insertAtGap w 0 = some w' := ⟨_, a.insertAtGap_eq (Nat.zero_le _)⟩
  have hkept := length_found_kept hy hforms w
  have hleftOut := length_lt_found_left_out_iff hy hforms w
  rw [hw']
  rcases a.insertAtGap_eq_putAt (Nat.zero_le _) hw' with ⟨hnil, -⟩ | ⟨f, rfl, hbest⟩
  · rw [hforms] at hnil
    cases hnil
  have hmem : f = x ++ y ∨ f = x := by simpa [hforms] using hbest.mem
  by_cases hbegins : y <+: w
  · have hgain := a.gain_le_of_firstGreatest hbest (g := x) (by simp [hforms])
    have hmore := hleftOut.mpr hbegins
    obtain ⟨v, rfl⟩ := hbegins
    have hdetach : Edge.start.detach y (y ++ v) = v := Edge.start.detach_attach y v
    rw [hdetach]
    rcases hmem with rfl | rfl
    · omega
    · rfl
  · have hbetter := hbest.le (x := x ++ y) (by simp [hforms])
    have hmissing : ¬ Edge.start.isTouchedBy y w = true := fun h =>
      hbegins (List.isPrefixOf_iff_prefix.mp h)
    rw [Edge.detach_of_missing hmissing]
    rcases hmem with rfl | rfl
    · exact congrArg some (List.append_assoc x y w)
    · have hplain : (a.formAtGap (putAt w 0 f) 0).length = f.length :=
        Nat.le_antisymm (Nat.not_lt.mp fun hmore => hbegins (hleftOut.mp hmore))
          (a.length_le_found (Nat.zero_le _) hbest.mem)
      have hlonger : f.length < (f ++ y).length := by
        rw [List.length_append]
        exact Nat.lt_add_of_pos_right (List.length_pos_iff.mpr hy)
      exact absurd hbetter (not_le.mpr (a.scoreAt_lt_of_found_eq hplain hkept hlonger))

end Gap

/-- Letters with optional ones behind them, as seen from the edge of the word: the
    optional ones stand there once. -/
theorem insertAt_optional {a : Allomorphs} {edge : Edge} {x y : Word} (hy : y ≠ [])
    (hforms : a.flatten = [edge.attach x y, x]) (w : Word) :
    a.insertAt w edge.position = .ok (edge.attach x (edge.attach y (edge.detach y w))) := by
  unfold insertAt
  cases edge with
  | start =>
    rw [Edge.position, solveAt_start, insertAtGap_optional hy hforms]
    rfl
  | final =>
    have hreversed : a.reversed.flatten = [x.reverse ++ y.reverse, x.reverse] := by
      rw [flatten_reversed, hforms]
      simp [Edge.attach]
    have hne : y.reverse ≠ [] := by simpa using hy
    rw [Edge.position, solveAt_final, solveReversed_eq_ok, insertAtGap_optional hne hreversed,
      Edge.detach_reverse]
    simp [Edge.attach]

end Allomorphs

/-! ### Letters in front of an expression -/

namespace Expression

/-- An expression with letters in front of it. -/
def behind (letters : Word) (e : Expression) : Expression := letters.foldr letter e

@[simp] theorem text_behind (letters : Word) (e : Expression) :
    (behind letters e).text = letters ++ e.text := by
  induction letters with
  | nil => rfl
  | cons c letters ih => exact congrArg (c :: ·) ih

@[simp] theorem kept_behind (letters : Word) (e : Expression) :
    (behind letters e).kept = letters ++ e.kept := by
  induction letters with
  | nil => rfl
  | cons c letters ih => exact congrArg (c :: ·) ih

@[simp] theorem depth_behind (letters : Word) (e : Expression) :
    (behind letters e).depth = e.depth := by
  induction letters with
  | nil => rfl
  | cons c letters ih => exact ih

@[simp] theorem forms_behind (letters : Word) (e : Expression) :
    (behind letters e).forms = crossed [letters] e.forms := by
  induction letters with
  | nil => exact (crossed_nil_left e.forms).symm
  | cons c letters ih =>
    show crossed [[c]] (behind letters e).forms = crossed [[c] ++ letters] e.forms
    rw [ih, ← crossed_assoc, crossed_singletons]

theorem IsWritten.behind {letters : Word} {e : Expression}
    (hletters : ∀ c ∈ letters, isLetter c = true) (h : e.IsWritten) :
    (behind letters e).IsWritten := by
  induction letters with
  | nil => exact h
  | cons c letters ih =>
    obtain ⟨hc, hletters⟩ := List.forall_mem_cons.mp hletters
    exact .letter hc (ih hletters)

/-- Letters that may be left out, with further letters behind them. -/
def optionalPart (letters further : Word) : Expression :=
  .optionalGroup (behind letters .done) (behind further .done)

theorem text_optionalPart (letters further : Word) :
    (optionalPart letters further).text = '(' :: (letters ++ ')' :: '^' :: further) := by
  simp [optionalPart, text]

theorem forms_optionalPart (letters further : Word) :
    (optionalPart letters further).forms = [letters ++ further, further] := by
  simp [optionalPart, forms, kept, crossed]

theorem depth_optionalPart (letters further : Word) :
    (optionalPart letters further).depth = 1 := by
  simp [optionalPart, depth]

theorem isWritten_optionalPart {letters further : Word} (hne : letters ≠ [])
    (hletters : ∀ c ∈ letters, isLetter c = true) (hfurther : ∀ c ∈ further, isLetter c = true) :
    (optionalPart letters further).IsWritten := by
  refine .optionalGroup ?_ (IsWritten.done.behind hletters) ?_ (IsWritten.done.behind hfurther)
  · obtain ⟨c, letters, rfl⟩ := List.exists_cons_of_ne_nil hne
    exact Expression.noConfusion
  · rw [text_behind, text, List.append_nil]
    exact fun hcaret => ne_caret_of_isLetter (hletters _ hcaret) rfl

end Expression

/-! ### Rules of one optional part -/

/-- A rule of one affix that is inserted at an edge does what inserting its forms
    there does. -/
theorem Rule.apply_of_stages {r : Rule} {a : Allomorphs} {edge : Edge} {w w' : Word}
    (hr : r.stages = [[.affix ⟨a, .insert, edge.position⟩]])
    (hw' : a.insertAt w edge.position = .ok w') : r.apply w = .ok w' := by
  rw [apply_of_stages_singleton hr, Morpheme.apply_affix rfl]
  exact hw'

theorem Rule.stages_of_ofText {text : Word} {r : Rule} {b : Blueprint} {stages : List (List Morpheme)}
    (h : Rule.ofText text = .ok r) (hb : r.blueprint = b)
    (hstages : assembleGroups b.groups = .ok stages) : r.stages = stages := by
  obtain ⟨-, hr⟩ := Rule.ofBlueprint_of_ofText h
  rw [hb, ofBlueprint, hstages] at hr
  cases hr
  rfl

section Optional

variable {r : Rule} {a : Allomorphs} {edge : Edge} {x y : Word}
  (hr : r.stages = [[.affix ⟨a, .insert, edge.position⟩]]) (hne : y ≠ [])
include hr hne

theorem Rule.apply_optional (hforms : a.flatten = [edge.attach x y, x]) (w : Word) :
    r.apply w = .ok (edge.attach x (edge.attach y (edge.detach y w))) :=
  Rule.apply_of_stages hr (Allomorphs.insertAt_optional hne hforms w)

/-- Optional letters alone are there after the first time. -/
theorem Rule.apply_optional_twice (hforms : a.flatten = [y, []]) (w : Word) :
    (r.apply w >>= r.apply) = r.apply w := by
  have hattached : a.flatten = [edge.attach [] y, []] := by rw [edge.attach_nil, hforms]
  have happly (v : Word) : r.apply v = .ok (edge.attach y (edge.detach y v)) := by
    rw [Rule.apply_optional hr hne hattached, edge.attach_nil]
  rw [happly, ok_bind, happly, Edge.detach_attach]

end Optional

/-- **An optional part never repeats what the word already has.**  Letters `x` with
    optional letters `y` between them and the word are put in front of the word
    without its own `y`, with `y` between, and in the same way behind it.  Optional
    letters alone are there after the first time, and the second changes nothing. -/
theorem Rule.ofText_optionalPart {x y : Word} (hx : ∀ c ∈ x, isLetter c = true)
    (hy : ∀ c ∈ y, isLetter c = true) (hne : y ≠ []) :
    (∃ r, Rule.ofText (x ++ '(' :: y ++ ")^+".toList) = .ok r ∧
      (∀ w, r.apply w = .ok (x ++ y ++ Edge.start.detach y w)) ∧
      (x = [] → ∀ w, (r.apply w >>= r.apply) = r.apply w)) ∧
    ∃ r, Rule.ofText ('+' :: '(' :: y ++ ")^".toList ++ x) = .ok r ∧
      (∀ w, r.apply w = .ok (Edge.final.detach y w ++ y ++ x)) ∧
      (x = [] → ∀ w, (r.apply w >>= r.apply) = r.apply w) := by
  constructor
  · let e := Expression.behind x (.optionalPart y [])
    have hwritten : e.IsWritten := .behind hx (Expression.isWritten_optionalPart hne hy (by simp))
    have hforms : e.forms = [x ++ y, x] := by
      simp [e, Expression.forms_optionalPart, crossed]
    have htext : e.text ++ ['+'] = x ++ '(' :: y ++ ")^+".toList := by
      simp [e, Expression.text_optionalPart]
    have hbegins : e ≠ .done := by
      intro hdone
      rw [hdone] at hforms
      simp [Expression.forms, hne] at hforms
    obtain ⟨-, r, hr, hblueprint⟩ := hwritten.exists_ofText hbegins
      (by simp [e, Expression.depth_optionalPart, maxNesting])
    have hstages : r.stages = [[.affix ⟨.ofForms e.forms, .insert, Edge.start.position⟩]] :=
      Rule.stages_of_ofText hr hblueprint rfl
    rw [htext] at hr
    refine ⟨r, hr, fun w => ?_, ?_⟩
    · rw [Rule.apply_optional hstages hne (x := x) (by rw [Allomorphs.flatten_ofForms, hforms]; rfl)]
      simp [Edge.attach]
    · rintro rfl
      exact Rule.apply_optional_twice hstages hne (by rw [Allomorphs.flatten_ofForms, hforms]; rfl)
  · let e := Expression.optionalPart y x
    have hwritten : e.IsWritten := Expression.isWritten_optionalPart hne hy hx
    have hforms : e.forms = [y ++ x, x] := Expression.forms_optionalPart y x
    have htext : '+' :: e.text = '+' :: '(' :: y ++ ")^".toList ++ x := by
      simp [e, Expression.text_optionalPart]
    obtain ⟨⟨r, hr, hblueprint⟩, -⟩ := hwritten.exists_ofText Expression.noConfusion
      (by simp [e, Expression.depth_optionalPart, maxNesting])
    have hstages : r.stages = [[.affix ⟨.ofForms e.forms, .insert, Edge.final.position⟩]] :=
      Rule.stages_of_ofText hr hblueprint rfl
    rw [htext] at hr
    refine ⟨r, hr, fun w => ?_, ?_⟩
    · rw [Rule.apply_optional hstages hne (x := x) (by rw [Allomorphs.flatten_ofForms, hforms]; rfl)]
      rfl
    · rintro rfl
      exact Rule.apply_optional_twice hstages hne
        (by rw [Allomorphs.flatten_ofForms, hforms, List.append_nil])

/-- Between `a` and a word that begins with `b`, and alone. -/
theorem Rule.ofText_optionalPart_ab :
    (∀ c ∈ ['a'], isLetter c = true) ∧ (∀ c ∈ ['b'], isLetter c = true) ∧ ['b'] ≠ [] ∧
      (∃ r, Rule.ofText "a(b)^+".toList = .ok r ∧ r.apply "bc".toList = .ok "abc".toList ∧
        r.apply "cb".toList = .ok "abcb".toList) ∧
      ∃ r, Rule.ofText "+(b)^".toList = .ok r ∧ r.apply "ab".toList = .ok "ab".toList ∧
        (r.apply "a".toList >>= r.apply) = r.apply "a".toList := by
  have ha : ∀ c ∈ ['a'], isLetter c = true := List.forall_mem_singleton.mpr rfl
  have hb : ∀ c ∈ ['b'], isLetter c = true := List.forall_mem_singleton.mpr rfl
  have hne : ['b'] ≠ [] := by decide
  obtain ⟨⟨r, hr, happly, -⟩, -⟩ := Rule.ofText_optionalPart ha hb hne
  obtain ⟨-, r', hr', happly', htwice⟩ :=
    Rule.ofText_optionalPart (x := []) (by simp) hb hne
  exact ⟨ha, hb, hne, ⟨r, hr, happly _, happly _⟩, r', hr', happly' _, htwice rfl _⟩

end WordFormation
