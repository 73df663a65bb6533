/-
  WordFormation/Proofs/RuleText/Writing.lean
  ==========================================
  **The canonical text of a blueprint, and the blueprints that have one.**

  A blueprint is written group by group with `;` between the groups, and a group
  operation by operation with `,` between the operations.  In a branch of a
  conditional the operations stand side by side.  Writing is defined for all
  blueprints, but the text can be read again only for those that the grammar
  knows a place for (`Blueprint.IsWritable`): every form is one run of letters,
  every affix has a polarity and the number of forms of its kind, and a branch
  holds what the grammar can find in one.

  Many texts can be read as the same blueprint.  They differ in what no blueprint
  keeps: blanks, parentheses, the `@` behind an empty context (`bare` takes them
  all away), and the commas between affixes that may be chained instead
  (`OmitsCommas`).
-/
import WordFormation.RuleText.Grammar
import WordFormation.Blueprint

namespace WordFormation

open RuleText

/-! ### Writing -/

/-- Texts with a separator between them. -/
def joined (c : Char) : List Word → Word
  | [] => []
  | text :: texts => text ++ texts.flatMap (c :: ·)

/-- The letters of a set with a single form. -/
def Allomorphs.spelling (a : Allomorphs) : Word := a.flatten.flatten

/-- A form at an edge, with a dash where the word goes on. -/
def Edge.write (form : Allomorphs) : Edge → Word
  | .start => form.spelling ++ ['-']
  | .final => '-' :: form.spelling

def EdgeTest.write (t : EdgeTest) : Word :=
  if t.negated then '~' :: t.edge.write t.form else t.edge.write t.form

def EdgeCondition.write (c : EdgeCondition) : Word := joined '|' (c.alternatives.map EdgeTest.write)

/-- The text of an affix with the given mark. -/
def AffixKind.write (mark : Char) : AffixKind → List Allomorphs → Word
  | .prefixed, [form] => form.spelling ++ [mark]
  | .postfixed, [form] => mark :: form.spelling
  | .circumfixed, [front, back] => front.spelling ++ mark :: back.spelling
  | .interfixed, [form] => mark :: (form.spelling ++ [mark])
  | _, _ => []

/-- The text of an operation in a branch, where only an affix can stand. -/
def Operation.writeAffix : Operation → Word
  | .affix kind (some p) operands => kind.write p.symbol operands
  | _ => []

@[simp] theorem Operation.writeAffix_putBefore (form : Allomorphs) (p : Polarity) :
    (Operation.putBefore form p).writeAffix = form.spelling ++ [p.symbol] := rfl

@[simp] theorem Operation.writeAffix_putAfter (form : Allomorphs) (p : Polarity) :
    (Operation.putAfter form p).writeAffix = p.symbol :: form.spelling := rfl

@[simp] theorem Operation.writeAffix_putAround (front back : Allomorphs) (p : Polarity) :
    (Operation.putAround front back p).writeAffix =
      front.spelling ++ p.symbol :: back.spelling := rfl

@[simp] theorem Operation.writeAffix_putBetween (form : Allomorphs) (p : Polarity) :
    (Operation.putBetween form p).writeAffix = p.symbol :: (form.spelling ++ [p.symbol]) := rfl

def Branch.write : Branch → Word
  | .identity => []
  | .operations xs => xs.flatMap Operation.writeAffix
  | .short p => [p.symbol]

/-- The text of the branch for no, with the separator in front of it. -/
def Branch.writeUnmet : Branch → Word
  | .identity => []
  | b => ':' :: b.write

theorem Branch.writeUnmet_of_ne {b : Branch} (h : b ≠ .identity) :
    b.writeUnmet = ':' :: b.write := by
  cases b with
  | identity => exact absurd rfl h
  | operations xs => rfl
  | short p => rfl

def Operation.write : Operation → Word
  | .conditional c met unmet => c.write ++ '?' :: (met.write ++ unmet.writeUnmet)
  | x => x.writeAffix

def writeGroup (xs : List Operation) : Word := joined ',' (xs.map Operation.write)

def Blueprint.write (b : Blueprint) : Word := joined ';' (b.groups.map writeGroup)

/-! ### What can be written -/

/-- The set has a single form, which is a run of letters. -/
def Allomorphs.IsLiteral (a : Allomorphs) : Prop :=
  ∃ l : Word, a = .only l ∧ l ≠ [] ∧ ∀ c ∈ l, isLetter c = true

theorem Allomorphs.isLiteral_only {l : Word} (hne : l ≠ []) (hl : l.all isLetter = true) :
    (only l).IsLiteral :=
  ⟨l, rfl, hne, List.all_eq_true.mp hl⟩

/-- One operation for each link of a chain of postfixes. -/
def postfixChain (links : List (Allomorphs × Polarity)) : List Operation :=
  links.map fun link => .putAfter link.1 link.2

theorem writeAffix_postfixChain_cons (link : Allomorphs × Polarity)
    (links : List (Allomorphs × Polarity)) (rest : Word) :
    (postfixChain (link :: links)).flatMap Operation.writeAffix ++ rest =
      link.2.symbol :: (link.1.spelling ++
        ((postfixChain links).flatMap Operation.writeAffix ++ rest)) := by
  simp [postfixChain]

/-- The operations that can stand side by side: a circumfix alone, or at most one
    prefix and then postfixes. -/
inductive IsChain : List Operation → Prop where
  | around (front back : Allomorphs) (p : Polarity) : IsChain [.putAround front back p]
  | before (form : Allomorphs) (p : Polarity) (links : List (Allomorphs × Polarity)) :
      IsChain (.putBefore form p :: postfixChain links)
  | after (form : Allomorphs) (p : Polarity) (links : List (Allomorphs × Polarity)) :
      IsChain (.putAfter form p :: postfixChain links)

theorem IsChain.affix_of_mem {xs : List Operation} (h : IsChain xs) {x : Operation} (hx : x ∈ xs) :
    ∃ kind p operands, x = .affix kind (some p) operands ∧ operands.length = kind.arity := by
  have hlinks (links : List (Allomorphs × Polarity)) (hx : x ∈ postfixChain links) :
      ∃ kind p operands, x = .affix kind (some p) operands ∧ operands.length = kind.arity := by
    obtain ⟨link, -, rfl⟩ := List.mem_map.mp hx
    exact ⟨_, _, _, rfl, rfl⟩
  cases h with
  | around front back p =>
    obtain rfl := List.mem_singleton.mp hx
    exact ⟨_, _, _, rfl, rfl⟩
  | before form p links =>
    rcases List.mem_cons.mp hx with rfl | hx
    · exact ⟨_, _, _, rfl, rfl⟩
    · exact hlinks links hx
  | after form p links =>
    rcases List.mem_cons.mp hx with rfl | hx
    · exact ⟨_, _, _, rfl, rfl⟩
    · exact hlinks links hx

def Operation.HasLiterals : Operation → Prop
  | .affix _ _ operands => ∀ a ∈ operands, a.IsLiteral
  | .conditional _ _ _ => False

@[simp] theorem Operation.hasLiterals_putBefore (form : Allomorphs) (p : Polarity) :
    (Operation.putBefore form p).HasLiterals ↔ form.IsLiteral := by
  simp [Operation.putBefore, Operation.HasLiterals]

@[simp] theorem Operation.hasLiterals_putAfter (form : Allomorphs) (p : Polarity) :
    (Operation.putAfter form p).HasLiterals ↔ form.IsLiteral := by
  simp [Operation.putAfter, Operation.HasLiterals]

@[simp] theorem Operation.hasLiterals_putAround (front back : Allomorphs) (p : Polarity) :
    (Operation.putAround front back p).HasLiterals ↔ front.IsLiteral ∧ back.IsLiteral := by
  simp [Operation.putAround, Operation.HasLiterals]

theorem hasLiterals_postfixChain {links : List (Allomorphs × Polarity)} :
    (∀ x ∈ postfixChain links, x.HasLiterals) ↔ ∀ link ∈ links, link.1.IsLiteral := by
  simp only [postfixChain, List.forall_mem_map, Operation.hasLiterals_putAfter]

inductive Branch.IsWritable : Branch → Prop where
  | identity : IsWritable .identity
  | short {p : Polarity} (h : p ≠ .toggle) : IsWritable (.short p)
  | operations {xs : List Operation} (hchain : IsChain xs) (h : ∀ x ∈ xs, x.HasLiterals) :
      IsWritable (.operations xs)

/-- The condition asks something, and always for a literal. -/
structure EdgeCondition.IsWritable (c : EdgeCondition) : Prop where
  asks : c.alternatives ≠ []
  forms : ∀ t ∈ c.alternatives, t.form.IsLiteral

inductive Operation.IsWritable : Operation → Prop where
  | affix {kind : AffixKind} {p : Polarity} {operands : List Allomorphs}
      (harity : operands.length = kind.arity) (h : ∀ a ∈ operands, a.IsLiteral) :
      IsWritable (.affix kind (some p) operands)
  | conditional {c : EdgeCondition} {met unmet : Branch} (hc : c.IsWritable)
      (hmet : met.IsWritable) (hunmet : unmet.IsWritable)
      (hsome : met ≠ .identity ∨ unmet ≠ .identity) : IsWritable (.conditional c met unmet)

structure Blueprint.IsWritable (b : Blueprint) : Prop where
  context : b.context = none
  groups : b.groups ≠ []
  nonempty : ∀ g ∈ b.groups, g ≠ []
  operations : ∀ g ∈ b.groups, ∀ x ∈ g, x.IsWritable

/-! ### Letters among the other characters -/

/-- No letter is another character of the grammar. -/
theorem ne_of_isLetter {c d : Char} (hc : isLetter c = true) (hd : isLetter d = false) : c ≠ d := by
  rintro rfl
  rw [hc] at hd
  cases hd

theorem isAffixMark_of_isLetter {c : Char} (hc : isLetter c = true) : isAffixMark c = false := by
  have hplus := ne_of_isLetter hc (by decide : isLetter '+' = false)
  have hminus := ne_of_isLetter hc (by decide : isLetter '-' = false)
  have hdot := ne_of_isLetter hc (by decide : isLetter '.' = false)
  simp [isAffixMark, hplus, hminus, hdot]

/-- What passes a test that no blank passes is no blank. -/
theorem isBlank_eq_false_of_test {test : Char → Bool}
    (htest : [' ', '\t', '\r', '\n'].any test = false) {c : Char} (hc : test c = true) :
    isBlank c = false := by
  rw [Bool.eq_false_iff]
  intro hblank
  simp only [isBlank, Bool.or_eq_true, beq_iff_eq] at hblank
  have hmem : c ∈ [' ', '\t', '\r', '\n'] := by
    rcases hblank with ((rfl | rfl) | rfl) | rfl <;> decide
  exact List.any_eq_false.mp htest c hmem hc

theorem isBlank_of_isLetter {c : Char} (hc : isLetter c = true) : isBlank c = false :=
  isBlank_eq_false_of_test (by decide) hc

/-! ### What a text says besides its blueprint -/

/-- The text without blanks, parentheses and the mark of an empty context. -/
def bare (text : Word) : Word :=
  text.filter fun c => !(isBlank c || c == '(' || c == ')' || c == '@')

/-- The one text is the other with some of its commas left out. -/
structure OmitsCommas (text whole : Word) : Prop where
  sublist : text.Sublist whole
  others : text.filter (· != ',') = whole.filter (· != ',')

namespace OmitsCommas

variable {text text' whole whole' : Word}

theorem refl (text : Word) : OmitsCommas text text := ⟨List.Sublist.refl _, rfl⟩

theorem append (h : OmitsCommas text whole) (h' : OmitsCommas text' whole') :
    OmitsCommas (text ++ text') (whole ++ whole') :=
  ⟨h.sublist.append h'.sublist, by rw [List.filter_append, List.filter_append, h.others, h'.others]⟩

theorem cons (c : Char) (h : OmitsCommas text whole) : OmitsCommas (c :: text) (c :: whole) :=
  append (refl [c]) h

/-- A comma may be left out. -/
theorem skip (h : OmitsCommas text whole) : OmitsCommas text (',' :: whole) :=
  ⟨h.sublist.cons _, h.others⟩

theorem trans {text₁ text₂ text₃ : Word} (h : OmitsCommas text₁ text₂)
    (h' : OmitsCommas text₂ text₃) : OmitsCommas text₁ text₃ :=
  ⟨h.sublist.trans h'.sublist, h.others.trans h'.others⟩

/-- If there are as many commas, none is left out. -/
theorem eq_of_count (h : OmitsCommas text whole) (hcount : text.count ',' = whole.count ',') :
    text = whole := by
  have hsplit (w : Word) : w.length = w.count ',' + (w.filter (· != ',')).length := by
    rw [List.count_eq_countP, List.length_eq_countP_add_countP (· == ','),
      ← List.countP_eq_length_filter]
    congr 1
    exact List.countP_congr fun c _ => by simp [bne]
  refine h.sublist.eq_of_length ?_
  rw [hsplit, hsplit whole, hcount, h.others]

end OmitsCommas

end WordFormation
