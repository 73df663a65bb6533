/-
  WordFormation/Pattern/CharSet.lean
  ==================================
  **Sets of characters.**

  A set is given by ranges, by what lies outside of another set, or by two sets
  and an operation on them.  `CharSet.contains` says which characters are in it;
  the lemmas give it for each way of building a set.
-/

namespace WordFormation

/-- How two sets make up a third one. -/
inductive SetOperation where
  | union
  | intersection
  | difference
  | symmetricDifference
deriving DecidableEq

/-- Is something in the set that is made up, if it is known of both sets? -/
def SetOperation.holds : SetOperation → Bool → Bool → Bool
  | union, a, b => a || b
  | intersection, a, b => a && b
  | difference, a, b => a && !b
  | symmetricDifference, a, b => a != b

inductive CharSet where
  /-- The characters from the first to the second of one of the pairs. -/
  | ranges (pairs : List (Char × Char))
  /-- The characters that are not in the set. -/
  | complement (s : CharSet)
  | combined (op : SetOperation) (s t : CharSet)
deriving DecidableEq

namespace CharSet

def contains : CharSet → Char → Bool
  | ranges pairs, c => pairs.any fun (low, high) => low ≤ c && c ≤ high
  | complement s, c => !s.contains c
  | combined op s t, c => op.holds (s.contains c) (t.contains c)

def empty : CharSet := ranges []

def single (c : Char) : CharSet := ranges [(c, c)]

/-- Every character that does not end a line. -/
def inLine : CharSet := complement (single '\n')

/-- The decimal digits of ASCII. -/
def digits : CharSet := ranges [('0', '9')]

def union : CharSet → CharSet → CharSet
  | ranges pairs, ranges pairs' => ranges (pairs ++ pairs')
  | s, t => combined .union s t

theorem contains_empty (c : Char) : empty.contains c = false := rfl

theorem contains_single (c d : Char) : (single c).contains d = decide (d = c) := by
  rw [Bool.eq_iff_iff]
  simp only [single, contains, List.any_cons, List.any_nil, Bool.or_false, Bool.and_eq_true,
    decide_eq_true_eq]
  exact ⟨fun h => Char.le_antisymm h.2 h.1, fun h => h ▸ ⟨Char.le_refl _, Char.le_refl _⟩⟩

theorem contains_union (s t : CharSet) (c : Char) :
    (s.union t).contains c = (s.contains c || t.contains c) := by
  unfold union
  split
  · simp [contains]
  · rfl

/-- The sets of ASCII characters that have a name. -/
def named? : String → Option CharSet
  | "alnum" => some (ranges [('0', '9'), ('A', 'Z'), ('a', 'z')])
  | "alpha" => some (ranges [('A', 'Z'), ('a', 'z')])
  | "ascii" => some (ranges [('\x00', '\x7f')])
  | "blank" => some (ranges [('\t', '\t'), (' ', ' ')])
  | "cntrl" => some (ranges [('\x00', '\x1f'), ('\x7f', '\x7f')])
  | "digit" => some digits
  | "graph" => some (ranges [('!', '~')])
  | "lower" => some (ranges [('a', 'z')])
  | "print" => some (ranges [(' ', '~')])
  | "punct" => some (ranges [('!', '/'), (':', '@'), ('[', '\x60'), ('\x7b', '~')])
  | "space" => some (ranges [('\t', '\r'), (' ', ' ')])
  | "upper" => some (ranges [('A', 'Z')])
  | "word" => some (ranges [('0', '9'), ('A', 'Z'), ('_', '_'), ('a', 'z')])
  | "xdigit" => some (ranges [('0', '9'), ('A', 'F'), ('a', 'f')])
  | _ => none

end CharSet

end WordFormation
