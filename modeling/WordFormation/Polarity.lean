/-
  WordFormation/Polarity.lean
  ===========================
  **What is done with the letters of an affix.**

  Letters are inserted, removed, or toggled: inserted where they are missing and
  removed where they are present.  Each polarity has a symbol, which is written
  in rules and in documents alike.
-/
import WordFormation.Word

namespace WordFormation

/-- What is done with the letters of an affix. -/
inductive Polarity where
  | insert
  | remove
  /-- Insert if absent, remove if present. -/
  | toggle
deriving DecidableEq

namespace Polarity

def symbol : Polarity → Char
  | insert => '+'
  | remove => '-'
  | toggle => '.'

def ofSymbol? (c : Char) : Option Polarity :=
  if c = '+' then some insert
  else if c = '-' then some remove
  else if c = '.' then some toggle
  else none

/-- The polarity that undoes another. -/
def opposite : Polarity → Polarity
  | insert => remove
  | remove => insert
  | toggle => toggle

@[simp] theorem ofSymbol?_symbol (p : Polarity) : ofSymbol? p.symbol = some p := by
  cases p <;> decide

@[simp] theorem opposite_opposite (p : Polarity) : p.opposite.opposite = p := by
  cases p <;> rfl

end Polarity

end WordFormation
