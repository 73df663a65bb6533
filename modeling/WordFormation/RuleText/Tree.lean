/-
  WordFormation/RuleText/Tree.lean
  ================================
  **The tree of a rule that is written as text.**

  A rule can be written in one line: `ge+` for a prefix, `+t` for a postfix, `;`
  between groups.  The tree of such a text says which part of the grammar each
  stretch of it was matched by.  It keeps every mark, separators and parentheses
  included, so that its leaves spell out the text again, blanks apart.
-/
import WordFormation.Word

namespace WordFormation.RuleText

/-- The parts of the grammar. -/
inductive Label where
  | rule
  | context
  | stages
  | group
  /-- Parentheses around a group, an item or letters. -/
  | parens
  | item
  | segment
  | conditional
  | branch
  | condition
  | test
  | prefixes
  | postfixes
  | circumfix
  | interfix
  | letters
  | optional
deriving DecidableEq

namespace Label

def name : Label → String
  | rule => "main"
  | context => "context"
  | stages => "ordered_expressions"
  | group => "same_order_group"
  | parens => "group"
  | item => "single"
  | segment => "segment"
  | conditional => "conditional"
  | branch => "quasi_expr"
  | condition => "complex_condition"
  | test => "basic_condition"
  | prefixes => "prefix"
  | postfixes => "postfix"
  | circumfix => "circumfix"
  | interfix => "interfix"
  | letters => "alpha_expr"
  | optional => "opt_expr"

/-- Is a part with this label only a wrapper around another? -/
def isWrapper : Label → Bool
  | item | segment | branch => true
  | _ => false

def all : List Label :=
  [rule, context, stages, group, parens, item, segment, conditional, branch, condition, test,
    prefixes, postfixes, circumfix, interfix, letters, optional]

def ofName? (s : String) : Option Label := all.find? (·.name == s)

end Label

/-- A written mark or run of letters, or a labelled part with what it is made
    of. -/
inductive Tree where
  | leaf (text : Word)
  | node (label : Label) (children : List Tree)

namespace Tree

instance : Inhabited Tree := ⟨leaf []⟩

/-- A tree between parentheses. -/
def parens (inner : Tree) : Tree := node .parens [leaf ['('], inner, leaf [')']]

def label? : Tree → Option Label
  | leaf _ => none
  | node label _ => some label

def children : Tree → List Tree
  | leaf _ => []
  | node _ children => children

def isMark (c : Char) : Tree → Bool
  | leaf text => text == [c]
  | node _ _ => false

mutual

/-- The text that a tree spells out. -/
def text : Tree → Word
  | leaf text => text
  | node _ children => textOfAll children

/-- The text that trees spell out one after the other. -/
def textOfAll : List Tree → Word
  | [] => []
  | t :: ts => t.text ++ textOfAll ts

end

@[simp] theorem textOfAll_eq_flatMap (ts : List Tree) : textOfAll ts = ts.flatMap text := by
  induction ts with
  | nil => rfl
  | cons t ts ih => simp [textOfAll, ih]

end Tree

end WordFormation.RuleText
