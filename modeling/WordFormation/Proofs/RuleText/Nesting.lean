/-
  WordFormation/Proofs/RuleText/Nesting.lean
  ==========================================
  **What the grammar matches has balanced parentheses.**

  Whether a text is nested too deep is found out by counting parentheses, without
  the grammar.  Behind the first of two texts the count goes on from where it ended
  (`depthAfter`), and it ends where it began if the parentheses are balanced.  They
  are in every text that a production takes away: a closing parenthesis is only
  ever matched behind what an opening one belongs to.
-/
import WordFormation.Proofs.RuleText.Consumption
import WordFormation.RuleText.Parse

namespace WordFormation.RuleText

open Production Grammar

/-! ### Counting parentheses -/

/-- How many parentheses are open behind a text, with `depth` open in front of
    it. -/
def depthAfter (depth : Nat) : Word → Nat
  | [] => depth
  | c :: w =>
    if c = '(' then depthAfter (depth + 1) w
    else if c = ')' then depthAfter (depth - 1) w
    else depthAfter depth w

theorem depthAfter_append (depth : Nat) (u v : Word) :
    depthAfter depth (u ++ v) = depthAfter (depthAfter depth u) v := by
  induction u generalizing depth with
  | nil => rfl
  | cons c u ih =>
    simp only [List.cons_append, depthAfter]
    split
    · exact ih _
    · split
      · exact ih _
      · exact ih _

/-- The second of two texts is looked at from the depth at which the first
    ends. -/
theorem tooDeep?_append_eq_none {depth : Nat} {u v : Word} :
    tooDeep? depth (u ++ v) = none ↔
      tooDeep? depth u = none ∧ tooDeep? (depthAfter depth u) v = none := by
  induction u generalizing depth with
  | nil => simp [tooDeep?, depthAfter]
  | cons c u ih =>
    simp only [List.cons_append, tooDeep?, depthAfter]
    split
    · split
      · simp
      · exact ih
    · split
      · exact ih
      · exact ih

/-- Fewer open parentheses in front of a text do no harm. -/
theorem tooDeep?_mono {depth depth' : Nat} (hle : depth' ≤ depth) {w : Word}
    (h : tooDeep? depth w = none) : tooDeep? depth' w = none := by
  induction w generalizing depth depth' with
  | nil => rfl
  | cons c w ih =>
    unfold tooDeep? at h ⊢
    split
    · next hopening =>
      rw [if_pos hopening] at h
      split at h
      · cases h
      · next hdepth =>
        rw [if_neg (by omega)]
        exact ih (by omega) h
    · next hopening =>
      rw [if_neg hopening] at h
      split
      · next hclosing =>
        rw [if_pos hclosing] at h
        exact ih (by omega) h
      · next hclosing =>
        rw [if_neg hclosing] at h
        exact ih hle h

/-- Nowhere in the text are more than `n` parentheses open. -/
def OpensAtMost (n : Nat) (w : Word) : Prop := ∀ u, u <+: w → depthAfter 0 u ≤ n

/-- A text is nested too deep where too many parentheses are open. -/
theorem tooDeep?_eq_none_iff {depth : Nat} (hdepth : depth ≤ maxNesting) {w : Word} :
    tooDeep? depth w = none ↔ ∀ u, u <+: w → depthAfter depth u ≤ maxNesting := by
  induction w generalizing depth with
  | nil => simpa [tooDeep?, depthAfter] using hdepth
  | cons c w ih =>
    have hcons : (∀ u, u <+: c :: w → depthAfter depth u ≤ maxNesting) ↔
        ∀ u, u <+: w → depthAfter depth (c :: u) ≤ maxNesting := by
      constructor
      · intro h u hu
        exact h (c :: u) (List.cons_prefix_cons.mpr ⟨rfl, hu⟩)
      · intro h u hu
        rcases List.prefix_cons_iff.mp hu with rfl | ⟨v, rfl, hv⟩
        · exact hdepth
        · exact h v hv
    simp only [hcons, tooDeep?, depthAfter]
    split
    · split
      · next hdeep =>
        exact iff_of_false (Option.some_ne_none _) fun h =>
          Nat.not_le.mpr hdeep (h [] List.nil_prefix)
      · next hshallow => exact ih (Nat.not_lt.mp hshallow)
    · split
      · exact ih (Nat.le_trans (Nat.sub_le depth 1) hdepth)
      · exact ih hdepth

/-! ### Balanced texts -/

/-- As many parentheses are open behind the text as in front of it. -/
def Balanced (w : Word) : Prop := ∀ depth, depthAfter depth w = depth

namespace Balanced

variable {u v w : Word}

theorem nil : Balanced [] := fun _ => rfl

theorem append (hu : Balanced u) (hv : Balanced v) : Balanced (u ++ v) := by
  intro depth
  rw [depthAfter_append, hu, hv]

theorem cons {c : Char} (hopening : c ≠ '(') (hclosing : c ≠ ')') (hu : Balanced u) :
    Balanced (c :: u) := by
  intro depth
  rw [depthAfter, if_neg hopening, if_neg hclosing, hu]

theorem parens (hu : Balanced u) : Balanced ('(' :: (u ++ [')'])) := by
  intro depth
  have hopening : depthAfter depth ('(' :: (u ++ [')'])) = depthAfter (depth + 1) (u ++ [')']) :=
    rfl
  rw [hopening, depthAfter_append, hu]
  rfl

theorem of_each {α : Type} {vs : List α} (h : Each (fun used _ => Balanced used) u vs) :
    Balanced u := by
  induction h with
  | nil => exact nil
  | cons first others ih => exact append first ih

/-- Behind balanced text the count starts anew. -/
theorem tooDeep?_eq_none (hu : Balanced u) {depth : Nat} :
    tooDeep? depth (u ++ v) = none ↔ tooDeep? depth u = none ∧ tooDeep? depth v = none := by
  rw [tooDeep?_append_eq_none, hu depth]

/-- What is open in front of balanced text is open behind it. -/
theorem not_append_opening (hu : Balanced u) : ¬ Balanced (w ++ '(' :: u) := by
  intro h
  have hdepth : depthAfter 0 (w ++ '(' :: u) = depthAfter 0 w + 1 := by
    rw [depthAfter_append, depthAfter, if_pos rfl, hu]
  rw [h 0] at hdepth
  omega

/-- A closing parenthesis behind balanced text has no opening one. -/
theorem not_append_closing (hu : Balanced u) : ¬ Balanced (u ++ ')' :: w) := by
  intro h
  have hdepth (depth : Nat) : depthAfter depth (u ++ ')' :: w) = depthAfter (depth - 1) w := by
    rw [depthAfter_append, hu, depthAfter, if_neg (by decide), if_pos rfl]
  have hzero : 0 = depthAfter 0 w := (h 0).symm.trans (hdepth 0)
  have hone : 1 = depthAfter 0 w := (h 1).symm.trans (hdepth 1)
  omega

end Balanced

/-- Neither parenthesis passes the test. -/
def IsNoParen (test : Char → Bool) : Prop := test '(' = false ∧ test ')' = false

instance (test : Char → Bool) : Decidable (IsNoParen test) := inferInstanceAs (Decidable (_ ∧ _))

theorem IsNoParen.ne_paren {test : Char → Bool} (htest : IsNoParen test) {c : Char}
    (hc : test c = true) : c ≠ '(' ∧ c ≠ ')' := by
  constructor
  · rintro rfl
    simp [htest.1] at hc
  · rintro rfl
    simp [htest.2] at hc

theorem IsNoParen.balanced {test : Char → Bool} (htest : IsNoParen test) {w : Word}
    (h : ∀ c ∈ w, test c = true) : Balanced w := by
  induction w with
  | nil => exact Balanced.nil
  | cons c w ih =>
    obtain ⟨hopening, hclosing⟩ := htest.ne_paren (h c List.mem_cons_self)
    exact Balanced.cons hopening hclosing (ih fun d hd => h d (List.mem_cons_of_mem c hd))

/-! ### Productions that take balanced text -/

namespace Production

variable {α β : Type}

def Balances (p : Production α) : Prop := Consumes p fun used _ => Balanced used

theorem balances_pure (value : α) : Balances (pure value : Production α) :=
  consumes_pure Balanced.nil

/-- What follows a match only has to take balanced text for the values that can
    come up. -/
theorem balances_bind_of_matched {p : Production α} {f : α → Production β} (hp : Balances p)
    (hf : ∀ s value rest, p s = .matched value rest → Balances (f value)) :
    Balances (p >>= f) := by
  intro s value rest h
  obtain ⟨first, r, hfirst, hmore⟩ := bind_matched h
  obtain ⟨used, rfl, hused⟩ := hp s first r hfirst
  obtain ⟨more, rfl, hbalanced⟩ := hf _ first r hfirst r value rest hmore
  exact ⟨used ++ more, (List.append_assoc used more rest).symm, hused.append hbalanced⟩

theorem balances_bind {p : Production α} {f : α → Production β} (hp : Balances p)
    (hf : ∀ value, Balances (f value)) : Balances (p >>= f) :=
  balances_bind_of_matched hp fun _ value _ _ => hf value

theorem balances_many {p : Production α} (hp : Balances p) : Balances (many p) :=
  (consumes_many hp).mono fun _ _ h => Balanced.of_each h

theorem balances_many1 {p : Production α} (hp : Balances p) : Balances (many1 p) :=
  (consumes_many1 hp).mono fun _ _ h => Balanced.of_each h.1

theorem balances_optionally {p : Production α} (hp : Balances p) : Balances (optionally p) := by
  refine (consumes_optionally hp).mono ?_
  rintro used value (⟨-, rfl⟩ | ⟨-, -, hused⟩)
  · exact Balanced.nil
  · exact hused

theorem balances_orElse {p q : Production α} (hp : Balances p) (hq : Balances q) :
    Balances (orElse p q) :=
  consumes_orElse hp hq

theorem balances_expecting (e : Expectation) {p : Production α} (hp : Balances p) :
    Balances (expecting e p) :=
  consumes_expecting hp

section Tokens

variable {test : Char → Bool} (htest : IsNoParen test)
include htest

theorem balances_satisfying : Balances (satisfying test) := by
  refine (consumes_satisfying test).mono ?_
  rintro used c ⟨rfl, hc⟩
  exact htest.balanced (by simpa using hc)

theorem balances_run : Balances (run test) := by
  refine (consumes_run test).mono ?_
  rintro used taken ⟨rfl, -, htaken⟩
  exact htest.balanced htaken

theorem balances_skip : Balances (skip test) :=
  (consumes_skip test).mono fun _ _ h => htest.balanced h

end Tokens

end Production

/-! ### The grammar -/

namespace Grammar

open Production

theorem balances_mark {c : Char} (h : IsNoParen (· == c)) : Balances (mark c) :=
  balances_satisfying h

theorem balances_blanks : Balances blanks := balances_skip (by decide)

theorem balances_separator {c : Char} (h : IsNoParen (· == c)) : Balances (separator c) :=
  balances_bind balances_blanks fun _ => balances_bind (balances_mark h) fun _ =>
    balances_bind balances_blanks fun _ => balances_pure _

theorem balances_pair {p q : Production Tree} (hp : Balances p) (hq : Balances q) :
    Balances (pair p q) :=
  balances_bind hp fun _ => balances_bind hq fun _ => balances_pure _

theorem balances_separated {c : Char} (h : IsNoParen (· == c)) {part : Production Tree}
    (hpart : Balances part) : Balances (separated c part) :=
  balances_bind hpart fun _ =>
    balances_bind (balances_many (balances_pair (balances_separator h) hpart)) fun _ =>
      balances_pure _

theorem balances_parenthesised {part : Production Tree} (hpart : Balances part) :
    Balances (parenthesised part) := by
  refine (consumes_parenthesised hpart).mono ?_
  rintro used t ⟨u, inner, rfl, -, hu⟩
  exact hu.parens

/-! #### Letters -/

theorem balances_letterRun : Balances letterRun := by
  refine balances_bind (balances_run (by decide)) fun taken => ?_
  refine balances_bind (balances_optionally (balances_mark (by decide))) fun optional => ?_
  cases optional with
  | none => exact balances_pure _
  | some c => exact balances_pure _

theorem balances_letterParens {inner : Production Tree} (h : Balances inner) :
    Balances (letterParens inner) := by
  refine balances_bind (balances_parenthesised h) fun group => ?_
  refine balances_bind (balances_optionally (balances_mark (by decide))) fun optional => ?_
  cases optional with
  | none => exact balances_pure _
  | some c => exact balances_pure _

theorem balances_lettersAround {inner : Production Tree} (h : Balances inner) :
    Balances (lettersAround inner) :=
  have hpart := balances_orElse balances_letterRun (balances_letterParens h)
  balances_bind (balances_expecting _ (balances_many1 hpart)) fun _ => balances_pure _

theorem balances_lettersWithin (depth : Nat) : Balances (lettersWithin depth) :=
  consumes_lettersWithin_of_around (fun _ => balances_lettersAround) depth

theorem balances_letters : Balances letters :=
  consumes_letters_of_around fun _ => balances_lettersAround

/-! #### Segments -/

theorem balances_affixMark : Balances affixMark :=
  balances_expecting _ (balances_bind (balances_satisfying (by decide)) fun _ => balances_pure _)

theorem balances_postfixes : Balances postfixes :=
  balances_bind (balances_many1 (balances_pair balances_affixMark balances_letters)) fun _ =>
    balances_pure _

theorem balances_prefixes : Balances prefixes :=
  balances_bind (balances_many1 (balances_pair balances_letters balances_affixMark)) fun _ =>
    balances_bind (balances_optionally balances_postfixes) fun _ => balances_pure _

theorem balances_circumfix : Balances circumfix :=
  balances_bind balances_letters fun _ => balances_bind balances_affixMark fun _ =>
    balances_bind balances_letters fun _ => balances_pure _

/-- The mark that closes an interfix is the one that opened it, hence no
    parenthesis. -/
theorem balances_interfix : Balances interfix := by
  refine balances_bind_of_matched (balances_satisfying (by decide)) fun s opening r hopening => ?_
  refine balances_bind balances_letters fun _ => ?_
  refine balances_bind (balances_mark ?_) fun _ => balances_pure _
  obtain ⟨-, hmark⟩ := satisfying_eq_matched hopening
  simp only [isAffixMark, Bool.or_eq_true, beq_iff_eq] at hmark
  rcases hmark with (rfl | rfl) | rfl <;> decide

theorem balances_edgeSegment : Balances edgeSegment :=
  balances_orElse balances_circumfix (balances_orElse balances_prefixes balances_postfixes)

theorem balances_segment : Balances segment :=
  balances_bind (balances_expecting _ (balances_orElse balances_interfix balances_edgeSegment))
    fun _ => balances_pure _

/-! #### Conditionals -/

theorem balances_test : Balances test := by
  have hdash : Balances (mark '-') := balances_mark (by decide)
  have hstart : Balances startTest :=
    balances_bind balances_letters fun _ => balances_bind hdash fun _ => balances_pure _
  have hfinal : Balances finalTest :=
    balances_bind hdash fun _ => balances_bind balances_letters fun _ => balances_pure _
  exact balances_bind (balances_optionally (balances_mark (by decide))) fun _ =>
    balances_bind (balances_orElse hstart hfinal) fun _ => balances_pure _

theorem balances_condition : Balances condition :=
  balances_bind (balances_separated (by decide) balances_test) fun _ => balances_pure _

theorem balances_branch : Balances branch := by
  have hshort : Balances shortMark :=
    balances_bind (balances_satisfying (by decide)) fun _ => balances_pure _
  exact balances_bind (balances_orElse balances_edgeSegment hshort) fun _ => balances_pure _

theorem balances_elseBranch : Balances elseBranch :=
  balances_bind (balances_separator (by decide)) fun _ => balances_branch

theorem balances_conditionalMet : Balances conditionalMet := by
  refine balances_bind balances_condition fun asked => ?_
  refine balances_bind (balances_separator (by decide)) fun question => ?_
  refine balances_bind balances_branch fun met => ?_
  refine balances_bind (balances_optionally balances_elseBranch) fun unmet => ?_
  cases unmet with
  | none => exact balances_pure _
  | some unmet => exact balances_pure _

theorem balances_conditionalUnmet : Balances conditionalUnmet := by
  refine balances_bind balances_condition fun _ => ?_
  refine balances_bind (balances_separator (by decide)) fun _ => ?_
  refine balances_bind (balances_separator (by decide)) fun _ => ?_
  exact balances_bind balances_branch fun _ => balances_pure _

/-! #### Groups and rules -/

theorem balances_item : Balances item :=
  balances_bind (balances_orElse
    (balances_orElse balances_conditionalMet balances_conditionalUnmet) balances_segment)
    fun _ => balances_pure _

theorem balances_group : Balances group :=
  balances_bind (balances_separated (by decide)
    (balances_orElse balances_item (balances_parenthesised balances_item))) fun _ =>
      balances_pure _

theorem balances_stages : Balances stages :=
  balances_bind (balances_separated (by decide)
    (balances_orElse balances_group (balances_parenthesised balances_group))) fun _ =>
      balances_pure _

theorem balances_rule : Balances rule := by
  have hcontext : Balances context :=
    balances_bind (balances_separator (by decide)) fun _ => balances_pure _
  refine balances_bind balances_blanks fun _ => ?_
  refine balances_bind (balances_optionally hcontext) fun before => ?_
  refine balances_bind balances_stages fun _ => ?_
  refine balances_bind balances_blanks fun _ => ?_
  cases before with
  | none => exact balances_pure _
  | some before => exact balances_pure _

end Grammar

/-- In front of something else, the text of a rule is looked at for itself. -/
theorem tooDeep?_append_of_rule {u : Word} {t : Tree} (h : rule u = .matched t []) (v : Word) :
    tooDeep? 0 (u ++ v) = none ↔ tooDeep? 0 u = none ∧ tooDeep? 0 v = none := by
  obtain ⟨used, hu, hbalanced⟩ := balances_rule u t [] h
  rw [List.append_nil] at hu
  subst hu
  exact hbalanced.tooDeep?_eq_none

end WordFormation.RuleText
