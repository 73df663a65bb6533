/-
  WordFormation/RuleText/Grammar.lean
  ===================================
  **The grammar of rules that are written as text.**

  From the outside in: a rule is a sequence of groups with `;` between them; a
  group is a list of items with `,` between them; an item is a segment or a
  conditional.  Segments are affixes: letters with one of the marks `+`, `-` and
  `.` before or after them, on both sides, or between two stretches of letters.
  A conditional asks with `?` how the word begins (`ge-`) or ends (`-t`), and has
  a branch for yes, a branch for no after `:`, or both.  Groups, items and
  stretches of letters may be put in parentheses, and `^` makes a letter or
  letters in parentheses optional.

  Blanks may stand around the separators `@ ; , ? : |` and at both ends of a
  text, nowhere else.  Letters are `a` to `z`.
-/
import WordFormation.RuleText.Reply
import WordFormation.RuleText.Tree

namespace WordFormation.RuleText

open Production

/-- Space, tab, carriage return and line feed. -/
def isBlank (c : Char) : Bool := c == ' ' || c == '\t' || c == '\r' || c == '\n'

/-- The letters `a` to `z`. -/
def isLetter (c : Char) : Bool := 'a' ≤ c && c ≤ 'z'

def isAffixMark (c : Char) : Bool := c == '+' || c == '-' || c == '.'

namespace Grammar

/-! ### Separators and marks -/

def blanks : Production Unit := skip isBlank

/-- A separator with blanks around it. -/
def separator (c : Char) : Production Tree := do
  blanks
  let c ← mark c
  blanks
  return .leaf [c]

def affixMark : Production Tree :=
  expecting .mark do
    let c ← satisfying isAffixMark
    return .leaf [c]

/-- A branch that is only `+` or `-`. -/
def shortMark : Production Tree := do
  let c ← satisfying fun c => c == '+' || c == '-'
  return .leaf [c]

def pair (p q : Production Tree) : Production (List Tree) := do
  let first ← p
  let second ← q
  return [first, second]

/-- Parts with separators between them, all side by side. -/
def separated (c : Char) (part : Production Tree) : Production (List Tree) := do
  let first ← part
  let more ← many (pair (separator c) part)
  return first :: more.flatten

def parenthesised (part : Production Tree) : Production Tree := do
  let _ ← mark '('
  let inner ← part
  let _ ← mark ')'
  return .parens inner

/-! ### Letters -/

/-- A run of letters.  A `^` behind it makes its last letter optional. -/
def letterRun : Production (List Tree) := do
  let taken ← run isLetter
  let optional ← optionally (mark '^')
  match optional with
  | none => return [.leaf taken]
  | some _ =>
    let front := taken.dropLast
    let last : Tree := .node .optional [.leaf (taken.drop front.length), .leaf ['^']]
    return if front.isEmpty then [last] else [.leaf front, last]

/-- Letters in parentheses.  A `^` behind them makes them optional. -/
def letterParens (inner : Production Tree) : Production (List Tree) := do
  let group ← parenthesised inner
  let optional ← optionally (mark '^')
  match optional with
  | none => return [group]
  | some _ => return [.node .optional [group, .leaf ['^']]]

/-- Runs of letters and letters in parentheses, `inner` being what may stand in
    the parentheses. -/
def lettersAround (inner : Production Tree) : Production Tree := do
  let parts ← expecting .letters (many1 (orElse letterRun (letterParens inner)))
  return .node .letters parts.flatten

/-- Letters with parentheses up to the given depth. -/
def lettersWithin : Nat → Production Tree
  | 0 => lettersAround fun _ => .stalled
  | depth + 1 => lettersAround (lettersWithin depth)

/-- Letters with parentheses of any depth, for there are no more of them than
    characters. -/
def letters : Production Tree := fun s => lettersWithin s.length s

/-! ### Segments -/

/-- A chain of `+X`, as often as it comes. -/
def postfixes : Production Tree := do
  let links ← many1 (pair affixMark letters)
  return .node .postfixes links.flatten

/-- A chain of `X+`, as often as it comes, then perhaps postfixes. -/
def prefixes : Production Tree := do
  let links ← many1 (pair letters affixMark)
  let tail ← optionally postfixes
  return .node .prefixes (links.flatten ++ tail.toList)

/-- Letters on both sides of a mark, `X+Y`. -/
def circumfix : Production Tree := do
  let front ← letters
  let between ← affixMark
  let back ← letters
  return .node .circumfix [front, between, back]

/-- Letters between marks, `+X+`, with the same mark twice. -/
def interfix : Production Tree := do
  let opening ← satisfying isAffixMark
  let form ← letters
  let closing ← mark opening
  return .node .interfix [.leaf [opening], form, .leaf [closing]]

/-- Affixes at the edges of a word. -/
def edgeSegment : Production Tree := orElse circumfix (orElse prefixes postfixes)

def segment : Production Tree := do
  let inner ← expecting .segment (orElse interfix edgeSegment)
  return .node .segment [inner]

/-! ### Conditionals -/

/-- A form at the start, `X-`. -/
def startTest : Production (List Tree) := do
  let form ← letters
  let _ ← mark '-'
  return [form, .leaf ['-']]

/-- A form at the end, `-X`. -/
def finalTest : Production (List Tree) := do
  let _ ← mark '-'
  let form ← letters
  return [.leaf ['-'], form]

/-- A test, with `~` for the opposite answer. -/
def test : Production Tree := do
  let negation ← optionally (mark '~')
  let body ← orElse startTest finalTest
  return .node .test (if negation.isSome then .leaf ['~'] :: body else body)

def condition : Production Tree := do
  let tests ← separated '|' test
  return .node .condition tests

/-- What is done in one of the cases. -/
def branch : Production Tree := do
  let inner ← orElse edgeSegment shortMark
  return .node .branch [inner]

def elseBranch : Production Tree := do
  let _ ← separator ':'
  branch

/-- A conditional with a branch for yes. -/
def conditionalMet : Production Tree := do
  let asked ← condition
  let question ← separator '?'
  let met ← branch
  let unmet ← optionally elseBranch
  match unmet with
  | none => return .node .conditional [asked, question, met]
  | some unmet => return .node .conditional [asked, question, met, .leaf [':'], unmet]

/-- A conditional with a branch for no only. -/
def conditionalUnmet : Production Tree := do
  let asked ← condition
  let question ← separator '?'
  let colon ← separator ':'
  let unmet ← branch
  return .node .conditional [asked, question, colon, unmet]

def conditional : Production Tree := orElse conditionalMet conditionalUnmet

/-! ### Groups and rules -/

def item : Production Tree := do
  let inner ← orElse conditional segment
  return .node .item [inner]

/-- Items with `,` between them. -/
def group : Production Tree := do
  let items ← separated ',' (orElse item (parenthesised item))
  return .node .group items

/-- Groups with `;` between them. -/
def stages : Production Tree := do
  let groups ← separated ';' (orElse group (parenthesised group))
  return .node .stages groups

/-- An empty context, of which only the `@` behind it is written. -/
def context : Production Tree := do
  let _ ← separator '@'
  return .node .context [.leaf []]

def rule : Production Tree := do
  blanks
  let before ← optionally context
  let body ← stages
  blanks
  match before with
  | none => return .node .rule [body]
  | some before => return .node .rule [before, .leaf ['@'], body]

end Grammar

end WordFormation.RuleText
