/-
  WordFormation/RuleText/Parse.lean
  =================================
  **From text to tree.**

  Two things are asked of a text.  Its parentheses may not be nested too deep;
  this is looked at first, whatever else is wrong.  And the grammar has to match
  all of it.
-/
import WordFormation.RuleText.Grammar
import WordFormation.RuleText.ParseError

namespace WordFormation.RuleText

/-- The rest of a text from the first opening parenthesis on that is nested
    deeper than allowed; `depth` parentheses are open in front of it.  A closing
    parenthesis with nothing open changes nothing. -/
def tooDeep? (depth : Nat) : Word → Option Word
  | [] => none
  | c :: w =>
    if c = '(' then
      if maxNesting < depth + 1 then some (c :: w) else tooDeep? (depth + 1) w
    else if c = ')' then
      tooDeep? (depth - 1) w
    else
      tooDeep? depth w

/-- The tree of a text that the grammar matches completely, however deep it is
    nested. -/
def parseAnyDepth (text : Word) : Except ParseError Tree :=
  match Grammar.rule text with
  | .matched tree [] => .ok tree
  | .matched _ rest => .error ⟨text, rest, .leftover⟩
  | .failed rest expected => .error ⟨text, rest, .noRule expected⟩
  | .stalled => .error ⟨text, text, .noRule []⟩

/-- The tree of the text of a rule. -/
def parse (text : Word) : Except ParseError Tree :=
  match tooDeep? 0 text with
  | some rest => .error ⟨text, rest, .tooDeep⟩
  | none => parseAnyDepth text

theorem parse_eq_ok {text : Word} {t : Tree} :
    parse text = .ok t ↔ tooDeep? 0 text = none ∧ Grammar.rule text = .matched t [] := by
  unfold parse parseAnyDepth
  cases tooDeep? 0 text with
  | some rest => simp
  | none =>
    cases Grammar.rule text with
    | matched t' rest => cases rest <;> simp
    | failed rest expected => simp
    | stalled => simp

end WordFormation.RuleText
