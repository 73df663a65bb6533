/-
  WordFormation/Proofs/RuleText/Likeness.lean
  ===========================================
  **Texts that the grammar cannot tell apart.**

  A relation between texts is respected by a production if the answers to related
  texts are the same and what is left of the texts is related again (`Respects`).
  Every combination of productions respects what its parts respect.  The grammar
  is gone through here once, for any relation: an item respects a relation that its
  letters, marks, parentheses and separators respect (`Tokenwise`), a group does so
  if `,` respects it too, and a rule if `;`, `@` and blanks do.  Everything respects
  a relation that hides blanks around separators (`Blankwise`).  A token that cannot go
  on with what stands behind a text answers as at the end of the text (`Extends`).
-/
import WordFormation.Proofs.RuleText.Nesting

namespace WordFormation.RuleText

open Production Grammar

/-! ### Separators and the characters between them -/

def isSeparator (c : Char) : Bool :=
  c == '@' || c == ';' || c == ',' || c == '?' || c == ':' || c == '|'

/-- Neither a blank nor a separator passes the test. -/
def IsInner (test : Char → Bool) : Prop :=
  [' ', '\t', '\r', '\n', '@', ';', ',', '?', ':', '|'].any test = false

instance (test : Char → Bool) : Decidable (IsInner test) := inferInstanceAs (Decidable (_ = false))

theorem isBlank_of_isSeparator {c : Char} (h : isSeparator c = true) : isBlank c = false := by
  simp only [isSeparator, Bool.or_eq_true, beq_iff_eq] at h
  rcases h with ((((rfl | rfl) | rfl) | rfl) | rfl) | rfl <;> rfl

namespace IsInner

variable {test : Char → Bool} (h : IsInner test) {c : Char}
include h

theorem of_isBlank (hc : isBlank c = true) : test c = false := by
  simp only [isBlank, Bool.or_eq_true, beq_iff_eq] at hc
  refine Bool.eq_false_iff.mpr (List.any_eq_false.mp h c ?_)
  rcases hc with ((rfl | rfl) | rfl) | rfl <;> decide

theorem of_isSeparator (hc : isSeparator c = true) : test c = false := by
  simp only [isSeparator, Bool.or_eq_true, beq_iff_eq] at hc
  refine Bool.eq_false_iff.mpr (List.any_eq_false.mp h c ?_)
  rcases hc with ((((rfl | rfl) | rfl) | rfl) | rfl) | rfl <;> decide

theorem isBlank_eq_false (hc : test c = true) : isBlank c = false := by
  cases hblank : isBlank c with
  | false => rfl
  | true =>
    rw [h.of_isBlank hblank] at hc
    cases hc

/-- A text that begins with blanks or with a separator. -/
theorem stops_append {before : Word} (hbefore : ∀ b ∈ before, isBlank b = true) {rest : Word}
    (hrest : Stops test rest) : Stops test (before ++ rest) := by
  cases before with
  | nil => exact hrest
  | cons b before =>
    apply stops_cons
    exact h.of_isBlank (hbefore b List.mem_cons_self)

end IsInner

/-! ### Productions that give the same answer -/

namespace Production

variable {α β : Type} {R : Word → Word → Prop}

/-- The same answer, and what is left of the two texts is related. -/
inductive Alike (R : Word → Word → Prop) : Reply α → Reply α → Prop where
  | matched (value : α) {rest rest' : Word} (h : R rest rest') :
      Alike R (.matched value rest) (.matched value rest')
  | failed (rest rest' : Word) (expected expected' : List Expectation) :
      Alike R (.failed rest expected) (.failed rest' expected')
  | stalled : Alike R .stalled .stalled

theorem Alike.exists_left {reply reply' : Reply α} (h : Alike R reply reply') {value : α}
    {rest' : Word} (hreply : reply' = .matched value rest') :
    ∃ rest, reply = .matched value rest ∧ R rest rest' := by
  cases h with
  | matched value hr =>
    cases hreply
    exact ⟨_, rfl, hr⟩
  | failed r r' es es' => cases hreply
  | stalled => cases hreply

theorem Alike.exists_right {reply reply' : Reply α} (h : Alike R reply reply') {value : α}
    {rest : Word} (hreply : reply = .matched value rest) :
    ∃ rest', reply' = .matched value rest' ∧ R rest rest' := by
  cases h with
  | matched value hr =>
    cases hreply
    exact ⟨_, rfl, hr⟩
  | failed r r' es es' => cases hreply
  | stalled => cases hreply

/-- On related texts the answer is the same. -/
def Respects (R : Word → Word → Prop) (p : Production α) : Prop :=
  ∀ s s', R s s' → Alike R (p s) (p s')

theorem alike_of_fails {p q : Production α} {s s' : Word} (h : Fails p s) (h' : Fails q s') :
    Alike R (p s) (q s') := by
  obtain ⟨r, es, h⟩ := h
  obtain ⟨r', es', h'⟩ := h'
  rw [h, h']
  exact .failed r r' es es'

theorem respects_pure (value : α) : Respects R (pure value : Production α) := by
  intro s s' h
  exact .matched value h

theorem alike_bind {p : Production α} {f : α → Production β} {s s' : Word}
    (hp : Alike R (p s) (p s'))
    (hf : ∀ value rest rest', p s = .matched value rest → p s' = .matched value rest' →
      R rest rest' → Alike R (f value rest) (f value rest')) :
    Alike R ((p >>= f) s) ((p >>= f) s') := by
  rw [bind_apply, bind_apply]
  generalize hps : p s = reply at hp ⊢
  generalize hps' : p s' = reply' at hp ⊢
  cases hp with
  | matched value hr => exact hf value _ _ hps hps' hr
  | failed r r' es es' => exact .failed r r' es es'
  | stalled => exact .stalled

/-- What follows a match only has to respect the relation for the values that can
    come up. -/
theorem alike_bind_of_matched {p : Production α} {f : α → Production β} {s s' : Word}
    (hp : Alike R (p s) (p s'))
    (hf : ∀ value rest, p s = .matched value rest → Respects R (f value)) :
    Alike R ((p >>= f) s) ((p >>= f) s') :=
  alike_bind hp fun value rest rest' hps _ hr => hf value rest hps rest rest' hr

theorem respects_bind_of_matched {p : Production α} {f : α → Production β}
    (hp : Respects R p)
    (hf : ∀ s value rest, p s = .matched value rest → Respects R (f value)) :
    Respects R (p >>= f) :=
  fun s s' h => alike_bind_of_matched (hp s s' h) (hf s)

theorem respects_bind {p : Production α} {f : α → Production β} (hp : Respects R p)
    (hf : ∀ value, Respects R (f value)) : Respects R (p >>= f) :=
  respects_bind_of_matched hp fun _ value _ _ => hf value

theorem respects_orElse {p q : Production α} (hp : Respects R p) (hq : Respects R q) :
    Respects R (orElse p q) := by
  intro s s' h
  have hreply := hp s s' h
  unfold orElse
  generalize p s = reply at hreply ⊢
  generalize p s' = reply' at hreply ⊢
  cases hreply with
  | matched value hr => exact .matched value hr
  | failed r r' es es' => exact hq s s' h
  | stalled => exact .stalled

theorem respects_optionally {p : Production α} (hp : Respects R p) :
    Respects R (optionally p) := by
  intro s s' h
  have hreply := hp s s' h
  unfold optionally
  generalize p s = reply at hreply ⊢
  generalize p s' = reply' at hreply ⊢
  cases hreply with
  | matched value hr => exact .matched (some value) hr
  | failed r r' es es' => exact .matched none h
  | stalled => exact .stalled

theorem respects_expecting (e : Expectation) {p : Production α} (hp : Respects R p) :
    Respects R (expecting e p) := by
  intro s s' h
  have hreply := hp s s' h
  unfold expecting
  generalize p s = reply at hreply ⊢
  generalize p s' = reply' at hreply ⊢
  cases hreply with
  | matched value hr => exact .matched value hr
  | failed r r' es es' => exact .failed r r' _ _
  | stalled => exact .stalled

/-- There are as many rounds on both texts, since a round takes a character of
    each. -/
theorem respects_many {p : Production α} (hp : Respects R p) (hadvances : Advances p) :
    Respects R (many p) := by
  intro s
  induction hn : s.length using Nat.strongRecOn generalizing s with
  | ind n ih =>
    intro s' h
    have hreply := hp s s' h
    rw [many_unfold p s, many_unfold p s']
    unfold round
    generalize hps : p s = reply at hreply ⊢
    generalize hps' : p s' = reply' at hreply ⊢
    cases hreply with
    | matched value hr =>
      have hless := (hadvances s value _ hps).2
      have hless' := (hadvances s' value _ hps').2
      have hagain := ih _ (by omega) _ rfl _ hr
      simp only [hless, hless', if_true]
      generalize many p _ = again at hagain ⊢
      generalize many p _ = again' at hagain ⊢
      cases hagain with
      | matched values hrest => exact .matched (value :: values) hrest
      | failed r r' es es' => exact .failed r r' es es'
      | stalled => exact .stalled
    | failed r r' es es' => exact .matched [] h
    | stalled => exact .stalled

theorem respects_many1 {p : Production α} (hp : Respects R p) (hadvances : Advances p) :
    Respects R (many1 p) :=
  respects_bind hp fun _ =>
    respects_bind (respects_many hp hadvances) fun _ => respects_pure _

end Production

/-! ### The grammar -/

namespace Grammar

open Production

theorem isInner_isLetter : IsInner isLetter := by decide

theorem isInner_isAffixMark : IsInner isAffixMark := by decide

theorem separator_apply (c : Char) (s : Word) :
    separator c s = match mark c (s.dropWhile isBlank) with
      | .matched _ rest => .matched (.leaf [c]) (rest.dropWhile isBlank)
      | .failed rest expected => .failed rest expected
      | .stalled => .stalled := by
  unfold separator blanks
  simp only [bind_apply, skip]
  cases hmark : mark c (s.dropWhile isBlank) with
  | matched d rest =>
    obtain ⟨-, hd⟩ := satisfying_eq_matched hmark
    obtain rfl : d = c := eq_of_beq hd
    rfl
  | failed rest expected => rfl
  | stalled => rfl

/-- The tokens that an item is made of respect the relation, and parentheses do with
    balanced text between them. -/
structure Tokenwise (R : Word → Word → Prop) : Prop where
  satisfying {test : Char → Bool} (h : IsInner test) (hclosing : test ')' = false) :
    Respects R (satisfying test)
  run : Respects R (run isLetter)
  parenthesised {p : Production Tree} (hp : Respects R p) (hbalances : Balances p) :
    Respects R (parenthesised p)
  separators {c : Char} (h : c ∈ ['|', '?', ':']) : Respects R (separator c)

/-- A group in a rule, which may stand in parentheses. -/
def stage : Production Tree := orElse group (parenthesised group)

theorem advances_stage : Advances stage :=
  advances_orElse advances_group (advances_parenthesised advances_group.forward)

variable {R : Word → Word → Prop}

theorem respects_pair {p q : Production Tree} (hp : Respects R p) (hq : Respects R q) :
    Respects R (pair p q) :=
  respects_bind hp fun _ => respects_bind hq fun _ => respects_pure _

theorem respects_separated {c : Char} (hc : Respects R (separator c)) {p : Production Tree}
    (hp : Respects R p) (hadvances : Advances p) : Respects R (separated c p) := by
  have hadvances' := advances_pair (advances_separator c) hadvances.forward
  exact respects_bind hp fun _ =>
    respects_bind (respects_many (respects_pair hc hp) hadvances') fun _ => respects_pure _

theorem respects_parenthesised (hopening : Respects R (mark '(')) (hclosing : Respects R (mark ')'))
    {p : Production Tree} (hp : Respects R p) : Respects R (parenthesised p) := by
  refine respects_bind hopening fun _ => ?_
  refine respects_bind hp fun _ => ?_
  refine respects_bind hclosing fun _ => ?_
  exact respects_pure _

namespace Tokenwise

variable (hR : Tokenwise R)
include hR

theorem respects_mark {c : Char} (h : IsInner (· == c)) (hclosing : (')' == c) = false) :
    Respects R (mark c) :=
  hR.satisfying h hclosing

/-! #### Letters -/

theorem respects_caret : Respects R (optionally (mark '^')) :=
  respects_optionally (hR.respects_mark (by decide) (by decide))

theorem respects_letterRun : Respects R letterRun := by
  refine respects_bind hR.run fun taken => ?_
  refine respects_bind hR.respects_caret fun optional => ?_
  cases optional with
  | none => exact respects_pure _
  | some c => exact respects_pure _

theorem respects_letterParens {inner : Production Tree} (h : Respects R inner)
    (hbalances : Balances inner) : Respects R (letterParens inner) := by
  refine respects_bind (hR.parenthesised h hbalances) fun group => ?_
  refine respects_bind hR.respects_caret fun optional => ?_
  cases optional with
  | none => exact respects_pure _
  | some c => exact respects_pure _

theorem respects_lettersAround {inner : Production Tree} (h : Respects R inner)
    (hforward : Forward inner) (hbalances : Balances inner) :
    Respects R (lettersAround inner) := by
  have hpart := respects_orElse hR.respects_letterRun (hR.respects_letterParens h hbalances)
  have hadvances := advances_orElse advances_letterRun (advances_letterParens hforward)
  refine respects_bind ?_ fun _ => respects_pure _
  exact respects_expecting _ (respects_many1 hpart hadvances)

theorem respects_lettersWithin (depth : Nat) : Respects R (lettersWithin depth) := by
  induction depth with
  | zero =>
    refine hR.respects_lettersAround ?_ forward_stalled ?_
    · intro s s' h
      exact .stalled
    · intro s v rest h
      cases h
  | succ depth ih =>
    exact hR.respects_lettersAround ih (advances_lettersWithin depth).forward
      (balances_lettersWithin depth)

/-- A depth that is enough for both texts. -/
theorem respects_letters : Respects R letters := by
  intro s s' h
  have hreply := hR.respects_lettersWithin (max s.length s'.length) s s' h
  rw [lettersWithin_eq_letters (Nat.le_max_left s.length s'.length)] at hreply
  rw [lettersWithin_eq_letters (Nat.le_max_right s.length s'.length)] at hreply
  exact hreply

/-! #### Segments -/

theorem respects_affixMark : Respects R affixMark := by
  refine respects_expecting _ (respects_bind ?_ fun _ => respects_pure _)
  exact hR.satisfying isInner_isAffixMark (by decide)

theorem respects_shortMark : Respects R shortMark := by
  refine respects_bind ?_ fun _ => respects_pure _
  exact hR.satisfying (by decide) (by decide)

theorem respects_postfixes : Respects R postfixes := by
  have hlink := respects_pair hR.respects_affixMark hR.respects_letters
  have hadvances := advances_pair advances_affixMark advances_letters.forward
  exact respects_bind (respects_many1 hlink hadvances) fun _ =>
    respects_pure _

theorem respects_prefixes : Respects R prefixes := by
  have hlink := respects_pair hR.respects_letters hR.respects_affixMark
  have hadvances := advances_pair advances_letters advances_affixMark.forward
  refine respects_bind (respects_many1 hlink hadvances) fun _ => ?_
  refine respects_bind (respects_optionally hR.respects_postfixes) fun _ => ?_
  exact respects_pure _

theorem respects_circumfix : Respects R circumfix := by
  refine respects_bind hR.respects_letters fun _ => ?_
  refine respects_bind hR.respects_affixMark fun _ => ?_
  refine respects_bind hR.respects_letters fun _ => ?_
  exact respects_pure _

/-- The mark that closes an interfix is the one that opened it, hence no separator. -/
theorem respects_interfix : Respects R interfix := by
  refine respects_bind_of_matched (hR.satisfying isInner_isAffixMark (by decide))
    fun s opening r hopening => ?_
  refine respects_bind hR.respects_letters fun _ => ?_
  refine respects_bind ?_ fun _ => respects_pure _
  obtain ⟨-, hmark⟩ := satisfying_eq_matched hopening
  simp only [isAffixMark, Bool.or_eq_true, beq_iff_eq] at hmark
  rcases hmark with (rfl | rfl) | rfl <;> exact hR.respects_mark (by decide) (by decide)

theorem respects_edgeSegment : Respects R edgeSegment :=
  respects_orElse hR.respects_circumfix
    (respects_orElse hR.respects_prefixes hR.respects_postfixes)

theorem respects_segment : Respects R segment := by
  refine respects_bind (respects_expecting _ ?_) fun _ => respects_pure _
  exact respects_orElse hR.respects_interfix hR.respects_edgeSegment

/-! #### Conditionals -/

theorem respects_dash : Respects R (mark '-') :=
  hR.respects_mark (by decide) (by decide)

theorem respects_startTest : Respects R startTest := by
  refine respects_bind hR.respects_letters fun _ => ?_
  exact respects_bind hR.respects_dash fun _ => respects_pure _

theorem respects_finalTest : Respects R finalTest := by
  refine respects_bind hR.respects_dash fun _ => ?_
  exact respects_bind hR.respects_letters fun _ => respects_pure _

theorem respects_test : Respects R test := by
  have htilde : Respects R (mark '~') := hR.respects_mark (by decide) (by decide)
  refine respects_bind (respects_optionally htilde) fun _ => ?_
  refine respects_bind ?_ fun _ => respects_pure _
  exact respects_orElse hR.respects_startTest hR.respects_finalTest

theorem respects_condition : Respects R condition := by
  refine respects_bind ?_ fun _ => respects_pure _
  exact respects_separated (hR.separators (by simp)) hR.respects_test advances_test

theorem respects_branch : Respects R branch := by
  refine respects_bind ?_ fun _ => respects_pure _
  exact respects_orElse hR.respects_edgeSegment hR.respects_shortMark

theorem respects_elseBranch : Respects R elseBranch :=
  respects_bind (hR.separators (by simp)) fun _ => hR.respects_branch

theorem respects_conditionalMet : Respects R conditionalMet := by
  refine respects_bind hR.respects_condition fun asked => ?_
  refine respects_bind (hR.separators (by simp)) fun question => ?_
  refine respects_bind hR.respects_branch fun met => ?_
  refine respects_bind (respects_optionally hR.respects_elseBranch)
    fun unmet => ?_
  cases unmet with
  | none => exact respects_pure _
  | some unmet => exact respects_pure _

theorem respects_conditionalUnmet : Respects R conditionalUnmet := by
  refine respects_bind hR.respects_condition fun _ => ?_
  refine respects_bind (hR.separators (by simp)) fun _ => ?_
  refine respects_bind (hR.separators (by simp)) fun _ => ?_
  exact respects_bind hR.respects_branch fun _ => respects_pure _

theorem respects_conditional : Respects R conditional :=
  respects_orElse hR.respects_conditionalMet hR.respects_conditionalUnmet

/-! #### Groups and rules -/

theorem respects_item : Respects R item := by
  refine respects_bind ?_ fun _ => respects_pure _
  exact respects_orElse hR.respects_conditional hR.respects_segment

section Lists

variable (hcomma : Respects R (separator ','))
include hcomma

theorem respects_group : Respects R group := by
  have hpart := respects_orElse hR.respects_item
    (hR.parenthesised hR.respects_item balances_item)
  have hadvances := advances_orElse advances_item (advances_parenthesised advances_item.forward)
  exact respects_bind (respects_separated hcomma hpart hadvances) fun _ => respects_pure _

theorem respects_stage : Respects R stage :=
  respects_orElse (hR.respects_group hcomma)
    (hR.parenthesised (hR.respects_group hcomma) balances_group)

theorem respects_stages (hstages : Respects R (separator ';')) : Respects R stages :=
  respects_bind (respects_separated hstages (hR.respects_stage hcomma) advances_stage) fun _ =>
    respects_pure _

theorem respects_rule (hblanks : Respects R blanks) (hcontext : Respects R (separator '@'))
    (hstages : Respects R (separator ';')) : Respects R rule := by
  refine respects_bind hblanks fun _ => ?_
  refine respects_bind (respects_optionally ?_) fun before => ?_
  · exact respects_bind hcontext fun _ => respects_pure _
  refine respects_bind (hR.respects_stages hcomma hstages) fun _ => ?_
  refine respects_bind hblanks fun _ => ?_
  cases before with
  | none => exact respects_pure _
  | some before => exact respects_pure _

end Lists

end Tokenwise

/-! ### Texts with more behind them -/

/-- The first text is the second one with `tail` behind it. -/
def Extends (tail s s' : Word) : Prop := s = s' ++ tail

section Extends

variable {tail : Word} {test : Char → Bool}

theorem respectsExtends_satisfying (h : Stops test tail) :
    Respects (Extends tail) (satisfying test) := by
  rintro _ s' rfl
  cases s' with
  | nil => exact alike_of_fails (fails_satisfying h) (fails_satisfying (stops_nil test))
  | cons c r =>
    cases hc : test c with
    | true =>
      rw [satisfying_cons hc, List.cons_append, satisfying_cons hc]
      exact .matched c rfl
    | false =>
      have hstops (w : Word) : Fails (satisfying test) (c :: w) :=
        fails_satisfying (stops_cons hc w)
      exact alike_of_fails (hstops _) (hstops _)

theorem respectsExtends_run (h : Stops test tail) : Respects (Extends tail) (run test) := by
  rintro _ s' rfl
  unfold run
  rw [h.takeWhile_append, h.dropWhile_append]
  cases s'.takeWhile test with
  | nil => exact .failed _ _ _ _
  | cons c taken => exact .matched (c :: taken) rfl

theorem respectsExtends_skip (h : Stops test tail) : Respects (Extends tail) (skip test) := by
  rintro _ s' rfl
  unfold skip
  rw [h.dropWhile_append]
  exact .matched () rfl

theorem respectsExtends_separator (hblank : Stops isBlank tail) {c : Char}
    (hc : Stops (· == c) tail) : Respects (Extends tail) (separator c) := by
  have hblanks : Respects (Extends tail) blanks := respectsExtends_skip hblank
  refine respects_bind hblanks fun _ => ?_
  refine respects_bind (respectsExtends_satisfying hc) fun _ => ?_
  exact respects_bind hblanks fun _ => respects_pure _

end Extends

/-! ### Relations that hide blanks

Most productions never look at a blank.  They cannot tell it from a separator, which
stops them as well. -/

/-- To tests that neither a blank nor a separator passes related texts begin alike,
    and they begin alike behind blanks. -/
structure Blankwise (R : Word → Word → Prop) : Prop where
  begins {test : Char → Bool} (htest : IsInner test) {s s' : Word} (h : R s s') :
    (∃ c r r', s = c :: r ∧ s' = c :: r' ∧ test c = true ∧ R r r') ∨ Stops test s ∧ Stops test s'
  dropBlanks {s s' : Word} (h : R s s') : R (s.dropWhile isBlank) (s'.dropWhile isBlank)
  behind_blanks {s s' : Word} (h : R s s') :
    s.dropWhile isBlank = [] ∧ s'.dropWhile isBlank = [] ∨
      ∃ c r r', s.dropWhile isBlank = c :: r ∧ s'.dropWhile isBlank = c :: r' ∧
        R (r.dropWhile isBlank) (r'.dropWhile isBlank)

namespace Blankwise

variable (hR : Blankwise R)
include hR

/-- A run of inner characters is the same in both texts. -/
theorem takeWhile {test : Char → Bool} (htest : IsInner test) {s s' : Word} (h : R s s') :
    s.takeWhile test = s'.takeWhile test ∧ R (s.dropWhile test) (s'.dropWhile test) := by
  induction hn : s.length using Nat.strongRecOn generalizing s s' with
  | ind n ih =>
    rcases hR.begins htest h with ⟨c, r, r', rfl, rfl, hc, hr⟩ | ⟨hstops, hstops'⟩
    · have hlength : r.length < n := by
        rw [← hn]
        exact Nat.lt_succ_self _
      obtain ⟨htake, hdrop⟩ := ih r.length hlength hr rfl
      rw [List.takeWhile_cons_of_pos hc, List.takeWhile_cons_of_pos hc, htake,
        List.dropWhile_cons_of_pos hc, List.dropWhile_cons_of_pos hc]
      exact ⟨rfl, hdrop⟩
    · rw [hstops.takeWhile, hstops'.takeWhile, hstops.dropWhile, hstops'.dropWhile]
      exact ⟨rfl, h⟩

theorem respects_satisfying {test : Char → Bool} (htest : IsInner test) :
    Respects R (satisfying test) := by
  intro s s' h
  rcases hR.begins htest h with ⟨c, r, r', rfl, rfl, hc, hr⟩ | ⟨hstops, hstops'⟩
  · rw [satisfying_cons hc, satisfying_cons hc]
    exact .matched c hr
  · exact alike_of_fails (fails_satisfying hstops) (fails_satisfying hstops')

theorem respects_run {test : Char → Bool} (htest : IsInner test) : Respects R (run test) := by
  intro s s' h
  obtain ⟨htake, hdrop⟩ := hR.takeWhile htest h
  unfold run
  rw [htake]
  cases s'.takeWhile test with
  | nil => exact .failed s s' [] []
  | cons c taken => exact .matched (c :: taken) hdrop

theorem respects_blanks : Respects R blanks := by
  intro s s' h
  exact .matched () (hR.dropBlanks h)

/-- The blanks around a separator may be others in the one text than in the other. -/
theorem respects_separator (c : Char) : Respects R (separator c) := by
  intro s s' h
  rw [separator_apply, separator_apply]
  rcases hR.behind_blanks h with ⟨hs, hs'⟩ | ⟨d, r, r', hs, hs', hr⟩
  · rw [hs, hs']
    exact .failed _ _ _ _
  · rw [hs, hs']
    by_cases hd : d = c
    · subst hd
      rw [mark_cons, mark_cons]
      exact .matched _ hr
    · have hfails (w : Word) : Fails (mark c) (d :: w) := by
        apply fails_mark
        simpa using hd
      obtain ⟨r₁, es, hr₁⟩ := hfails r
      obtain ⟨r₂, es', hr₂⟩ := hfails r'
      rw [hr₁, hr₂]
      exact .failed r₁ r₂ es es'

theorem tokenwise : Tokenwise R where
  satisfying h _ := hR.respects_satisfying h
  run := hR.respects_run isInner_isLetter
  parenthesised hp _ := respects_parenthesised (hR.respects_satisfying (by decide))
    (hR.respects_satisfying (by decide)) hp
  separators _ := hR.respects_separator _

theorem respects_rule : Respects R rule :=
  hR.tokenwise.respects_rule (hR.respects_separator ',') hR.respects_blanks
    (hR.respects_separator '@') (hR.respects_separator ';')

end Blankwise

end Grammar

end WordFormation.RuleText
