/-
  WordFormation/Proofs/RuleText/Consumption.lean
  ==============================================
  **What a production has taken from a text when it matches.**

  `Consumes p R` says that a match of `p` always takes away a beginning of the
  text and that `R` relates this beginning to the value.  There is one rule for
  each combination of productions, so a statement of this form follows the
  production that it is about from its first part to its last.  A sequence hands
  on what was taken so far (`consumes_bind`), and a repetition gives the list of
  its rounds (`Each`).  For separators, parentheses and letters it is said which
  trees are made of which text, and for lists where the separators are
  (`Separated`).
-/
import WordFormation.Proofs.RuleText.Replies
import WordFormation.Proofs.RuleText.Shapes

namespace WordFormation.RuleText

open Grammar

namespace Production

variable {α β : Type}

/-- A match takes a beginning of the text that is related to the value. -/
def Consumes (p : Production α) (R : Word → α → Prop) : Prop :=
  ∀ s v rest, p s = .matched v rest → ∃ used, s = used ++ rest ∧ R used v

/-- Every value is related to its own part of the text. -/
inductive Each (R : Word → α → Prop) : Word → List α → Prop where
  | nil : Each R [] []
  | cons {used more : Word} {v : α} {vs : List α} (first : R used v) (others : Each R more vs) :
      Each R (used ++ more) (v :: vs)

theorem Consumes.mono {p : Production α} {R S : Word → α → Prop} (h : Consumes p R)
    (hRS : ∀ used v, R used v → S used v) : Consumes p S := by
  intro s v rest hp
  obtain ⟨used, hs, hused⟩ := h s v rest hp
  exact ⟨used, hs, hRS used v hused⟩

/-- What is taken is determined by what is left, so two relations hold of one beginning. -/
theorem Consumes.and {p : Production α} {R S : Word → α → Prop} (h : Consumes p R)
    (h' : Consumes p S) : Consumes p fun used v => R used v ∧ S used v := by
  intro s v rest hp
  obtain ⟨used, rfl, hused⟩ := h s v rest hp
  obtain ⟨used', hs, hused'⟩ := h' _ v rest hp
  obtain rfl : used = used' := List.append_cancel_right hs
  exact ⟨used, rfl, hused, hused'⟩

/-! ### Tokens -/

theorem consumes_satisfying (test : Char → Bool) :
    Consumes (satisfying test) fun used c => used = [c] ∧ test c = true := by
  intro s c rest h
  obtain ⟨hs, hc⟩ := satisfying_eq_matched h
  exact ⟨[c], hs, rfl, hc⟩

theorem consumes_mark (c : Char) : Consumes (mark c) fun used d => used = [c] ∧ d = c := by
  refine (consumes_satisfying _).mono ?_
  rintro used d ⟨rfl, hd⟩
  obtain rfl : d = c := eq_of_beq hd
  exact ⟨rfl, rfl⟩

theorem consumes_run (test : Char → Bool) :
    Consumes (run test) fun used taken =>
      used = taken ∧ taken ≠ [] ∧ ∀ c ∈ taken, test c = true := by
  intro s taken rest h
  unfold run at h
  have hsplit := List.takeWhile_append_dropWhile (p := test) (l := s)
  have hall : ∀ c ∈ s.takeWhile test, test c = true := List.all_eq_true.mp List.all_takeWhile
  cases htake : s.takeWhile test with
  | nil => rw [htake] at h; cases h
  | cons c more =>
    rw [htake] at h hsplit hall
    cases h
    exact ⟨c :: more, hsplit.symm, rfl, List.cons_ne_nil c more, hall⟩

theorem consumes_skip (test : Char → Bool) :
    Consumes (skip test) fun used _ => ∀ c ∈ used, test c = true := by
  intro s v rest h
  cases h
  exact ⟨s.takeWhile test, List.takeWhile_append_dropWhile.symm,
    List.all_eq_true.mp List.all_takeWhile⟩

/-! ### Combinations -/

theorem consumes_pure {v : α} {R : Word → α → Prop} (h : R [] v) :
    Consumes (pure v : Production α) R := by
  intro s w rest hp
  cases hp
  exact ⟨[], rfl, h⟩

theorem consumes_bind {p : Production α} {f : α → Production β} {P : Word → α → Prop}
    {R : Word → β → Prop} (hp : Consumes p P)
    (hf : ∀ used v, P used v → Consumes (f v) fun more w => R (used ++ more) w) :
    Consumes (p >>= f) R := by
  intro s w rest h
  obtain ⟨v, r, hv, hw⟩ := bind_matched h
  obtain ⟨used, rfl, hused⟩ := hp s v r hv
  obtain ⟨more, rfl, hmore⟩ := hf used v hused r w rest hw
  exact ⟨used ++ more, (List.append_assoc used more rest).symm, hmore⟩

theorem consumes_orElse {p q : Production α} {R : Word → α → Prop} (hp : Consumes p R)
    (hq : Consumes q R) : Consumes (orElse p q) R := by
  intro s v rest h
  rcases orElse_eq_matched h with h | ⟨-, h⟩
  · exact hp s v rest h
  · exact hq s v rest h

theorem consumes_optionally {p : Production α} {R : Word → α → Prop} (hp : Consumes p R) :
    Consumes (optionally p) fun used v =>
      v = none ∧ used = [] ∨ ∃ w, v = some w ∧ R used w := by
  intro s v rest h
  rcases optionally_eq_matched h with ⟨w, rfl, hw⟩ | ⟨rfl, rfl, -⟩
  · obtain ⟨used, hs, hused⟩ := hp s w rest hw
    exact ⟨used, hs, .inr ⟨w, rfl, hused⟩⟩
  · exact ⟨[], rfl, .inl ⟨rfl, rfl⟩⟩

theorem consumes_expecting {e : Expectation} {p : Production α} {R : Word → α → Prop}
    (hp : Consumes p R) : Consumes (expecting e p) R :=
  fun s v rest h => hp s v rest (expecting_eq_matched h)

theorem consumes_many {p : Production α} {R : Word → α → Prop} (hp : Consumes p R) :
    Consumes (many p) (Each R) := by
  intro s
  induction hn : s.length using Nat.strongRecOn generalizing s with
  | ind n ih =>
    intro vs rest h
    rcases many_eq_matched h with ⟨rfl, rfl, -⟩ | ⟨v, r, vs', rfl, hr, hv, hagain⟩
    · exact ⟨[], rfl, Each.nil⟩
    · obtain ⟨used, rfl, hused⟩ := hp s v r hv
      obtain ⟨more, rfl, hmore⟩ := ih r.length (by omega) r rfl vs' rest hagain
      exact ⟨used ++ more, (List.append_assoc used more rest).symm, Each.cons hused hmore⟩

theorem consumes_many1 {p : Production α} {R : Word → α → Prop} (hp : Consumes p R) :
    Consumes (many1 p) fun used vs => Each R used vs ∧ vs ≠ [] := by
  refine consumes_bind hp fun used v hv => ?_
  refine consumes_bind (consumes_many hp) fun more vs hvs => ?_
  refine consumes_pure ⟨?_, List.cons_ne_nil v vs⟩
  rw [List.append_nil]
  exact Each.cons hv hvs

/-! ### Separators and parentheses -/

theorem consumes_separator_blanks (c : Char) :
    Consumes (separator c) fun used t => t = .leaf [c] ∧ ∃ before after,
      used = before ++ c :: after ∧ (∀ b ∈ before, isBlank b = true) ∧
        ∀ b ∈ after, isBlank b = true := by
  refine consumes_bind (consumes_skip isBlank) fun before _ hbefore => ?_
  refine consumes_bind (consumes_mark c) fun used d hd => ?_
  obtain ⟨rfl, rfl⟩ := hd
  refine consumes_bind (consumes_skip isBlank) fun after _ hafter => ?_
  refine consumes_pure ⟨rfl, before, after, ?_, hbefore, hafter⟩
  rw [List.append_nil]
  rfl

theorem consumes_parenthesised {p : Production Tree} {R : Word → Tree → Prop}
    (hp : Consumes p R) :
    Consumes (parenthesised p) fun used t => ∃ u inner, used = '(' :: (u ++ [')']) ∧
      t = .parens inner ∧ R u inner := by
  refine consumes_bind (consumes_mark '(') fun used _ hused => ?_
  refine consumes_bind hp fun u inner hinner => ?_
  refine consumes_bind (consumes_mark ')') fun used' _ hused' => ?_
  refine consumes_pure ⟨u, inner, ?_, rfl, hinner⟩
  rw [hused.1, hused'.1]
  simp

/-! ### Letters -/

/-- A run is cut in front of its last character. -/
theorem dropLast_append_drop (w : Word) : w.dropLast ++ w.drop w.dropLast.length = w := by
  have htake : w.dropLast = w.take w.dropLast.length := by
    rw [List.dropLast_eq_take, List.length_take, Nat.min_eq_left (Nat.sub_le _ _)]
  calc w.dropLast ++ w.drop w.dropLast.length
      = w.take w.dropLast.length ++ w.drop w.dropLast.length := by rw [← htake]
    _ = w := List.take_append_drop _ _

/-- The trees of a run of letters. -/
inductive RunTrees : Word → List Tree → Prop where
  | plain {w : Word} (hne : w ≠ []) (hletters : ∀ c ∈ w, isLetter c = true) :
      RunTrees w [.leaf w]
  | optional {last : Word} (hlast : ∀ c ∈ last, isLetter c = true) :
      RunTrees (last ++ ['^']) [.node .optional [.leaf last, .leaf ['^']]]
  | cut {front last : Word} (hne : front ≠ []) (hfront : ∀ c ∈ front, isLetter c = true)
      (hlast : ∀ c ∈ last, isLetter c = true) :
      RunTrees (front ++ (last ++ ['^']))
        [.leaf front, .node .optional [.leaf last, .leaf ['^']]]

theorem consumes_letterRun_trees : Consumes letterRun RunTrees := by
  apply consumes_bind (consumes_run isLetter)
  rintro used taken ⟨rfl, hne, hletters⟩
  apply consumes_bind (consumes_optionally (consumes_mark '^'))
  rintro more optional (⟨rfl, rfl⟩ | ⟨c, rfl, rfl, -⟩)
  · apply consumes_pure
    rw [List.append_nil, List.append_nil]
    exact .plain hne hletters
  · apply consumes_pure
    have hlast : ∀ d ∈ used.drop used.dropLast.length, isLetter d = true :=
      fun d hd => hletters d (List.mem_of_mem_drop hd)
    have hsplit := dropLast_append_drop used
    rw [List.append_nil]
    split
    · next hempty =>
      have hnil : used.dropLast = [] := List.isEmpty_iff.mp hempty
      rw [hnil, List.nil_append] at hsplit
      rw [hnil] at hlast ⊢
      rw [hsplit] at hlast ⊢
      exact .optional hlast
    · next hempty =>
      have hfront : ∀ d ∈ used.dropLast, isLetter d = true :=
        fun d hd => hletters d ((List.dropLast_sublist used).subset hd)
      have hne' : used.dropLast ≠ [] := fun hnil => hempty (by simp [hnil])
      have htrees := RunTrees.cut hne' hfront hlast
      rw [← List.append_assoc, hsplit] at htrees
      exact htrees

/-- The trees of letters in parentheses, of which `R` relates those inside to their
    part of the text. -/
inductive ParensTrees (R : Word → Tree → Prop) : Word → List Tree → Prop where
  | plain {u : Word} {t : Tree} (h : R u t) : ParensTrees R ('(' :: (u ++ [')'])) [.parens t]
  | optional {u : Word} {t : Tree} (h : R u t) :
      ParensTrees R ('(' :: (u ++ [')']) ++ ['^']) [.node .optional [.parens t, .leaf ['^']]]

theorem consumes_letterParens_trees {inner : Production Tree} {R : Word → Tree → Prop}
    (h : Consumes inner R) : Consumes (letterParens inner) (ParensTrees R) := by
  apply consumes_bind (consumes_parenthesised h)
  rintro used group ⟨u, t, rfl, rfl, ht⟩
  apply consumes_bind (consumes_optionally (consumes_mark '^'))
  rintro more optional (⟨rfl, rfl⟩ | ⟨c, rfl, rfl, -⟩)
  · apply consumes_pure
    rw [List.append_nil, List.append_nil]
    exact .plain ht
  · apply consumes_pure
    rw [List.append_nil]
    exact .optional ht

/-- What is kept by one more level of parentheses is true of letters of any depth. -/
theorem consumes_lettersWithin_of_around {R : Word → Tree → Prop}
    (h : ∀ inner, Consumes inner R → Consumes (lettersAround inner) R) (depth : Nat) :
    Consumes (lettersWithin depth) R := by
  induction depth with
  | zero =>
    apply h
    intro s v rest hstalled
    cases hstalled
  | succ depth ih => exact h _ ih

theorem consumes_letters_of_around {R : Word → Tree → Prop}
    (h : ∀ inner, Consumes inner R → Consumes (lettersAround inner) R) : Consumes letters R :=
  fun s => consumes_lettersWithin_of_around h s.length s

/-- A test without its negation is made of letters and of a dash on one side of them. -/
theorem consumes_testBody {R : Word → Tree → Prop} (hletters : Consumes letters R) :
    Consumes (orElse startTest finalTest) fun used body => ∃ (e : Edge) (u : Word) (form : Tree),
      used = e.around u ∧ body = e.trees form ∧ R u form := by
  apply consumes_orElse
  · refine consumes_bind hletters fun u form hform => ?_
    refine consumes_bind (consumes_mark '-') fun m _ hdash => ?_
    refine consumes_pure ⟨.start, u, form, ?_, rfl, hform⟩
    rw [hdash.1, List.append_nil]
    rfl
  · refine consumes_bind (consumes_mark '-') fun m _ hdash => ?_
    refine consumes_bind hletters fun u form hform => ?_
    refine consumes_pure ⟨.final, u, form, ?_, rfl, hform⟩
    rw [hdash.1, List.append_nil]
    rfl

end Production

/-! ### Parts with separators between them -/

open Production

/-- Trees for which `P` holds, with separators between them. -/
inductive Separated (P : Tree → Prop) : List Tree → Prop where
  | one {t : Tree} (part : P t) : Separated P [t]
  | cons {t : Tree} {ts : List Tree} (c : Char) (part : P t)
      (others : Separated P ts) : Separated P (t :: .leaf [c] :: ts)

theorem separated_parts {c : Char} {part : Production Tree} {P : Tree → Prop}
    (hpart : Consumes part fun _ t => P t) :
    Consumes (separated c part) fun _ ts => Separated P ts := by
  have hpair : Consumes (pair (separator c) part) fun _ ts => ∃ t, ts = [.leaf [c], t] ∧ P t := by
    apply consumes_bind (consumes_separator_blanks c)
    intro between mark hmark
    apply consumes_bind hpart
    intro u t ht
    exact consumes_pure ⟨t, by rw [hmark.1], ht⟩
  apply consumes_bind hpart
  intro used t ht
  apply consumes_bind (consumes_many hpair)
  intro more tss htss
  apply consumes_pure
  induction htss generalizing t with
  | nil => exact .one ht
  | cons first others ih =>
    obtain ⟨t', rfl, ht'⟩ := first
    exact .cons c ht (ih t' ht')

end WordFormation.RuleText
