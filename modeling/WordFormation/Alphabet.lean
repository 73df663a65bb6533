/-
  WordFormation/Alphabet.lean
  ===========================
  **The classes of letters in which positions can be counted.**

  The third vowel of a word is a position as well as its third letter is.  An
  alphabet says which letters are consonants, vowels and semivowels.  The classes
  may overlap, and a letter may be in none of them; every character whatever its
  script is a letter.
-/
import WordFormation.Position

namespace WordFormation

/-- What is counted. -/
inductive LetterClass where
  | letters
  | consonants
  | vowels
  | semivowels
deriving DecidableEq

def LetterClass.name : LetterClass → String
  | letters => "letters"
  | consonants => "consonants"
  | vowels => "vowels"
  | semivowels => "semivowels"

/-- Where an edit lands, seen from the unit that its position addresses. -/
inductive Side where
  | before
  | upon
  | after
deriving DecidableEq

namespace Side

/-- The side a position means when none is named: in front of the unit when
    counting from the start, behind it when counting from the end. -/
def implied (p : Position) : Side := if 0 < p.val then before else after

def flipped : Side → Side
  | before => after
  | upon => upon
  | after => before

@[simp] theorem flipped_flipped (s : Side) : s.flipped.flipped = s := by cases s <;> rfl

end Side

structure Alphabet where
  consonants : Word
  vowels : Word
  semivowels : Word
deriving DecidableEq

namespace Alphabet

/-- The alphabet that is used where none is given.  Its `j` and `w` are both
    consonants and semivowels. -/
def standard : Alphabet where
  consonants := "bcdfghjklmnpqrstvwxz".toList
  vowels := "aeioy".toList
  semivowels := "wj".toList

instance : Inhabited Alphabet := ⟨standard⟩

/-- Give a class new members.  Everything is a letter, so that class stays as it
    is. -/
def withClass (a : Alphabet) (c : LetterClass) (members : Word) : Alphabet :=
  match c with
  | .letters => a
  | .consonants => { a with consonants := members }
  | .vowels => { a with vowels := members }
  | .semivowels => { a with semivowels := members }

/-- The members of a class; those of the letters cannot be listed. -/
def members? (a : Alphabet) : LetterClass → Option Word
  | .letters => none
  | .consonants => some a.consonants
  | .vowels => some a.vowels
  | .semivowels => some a.semivowels

/-- Is a character counted as a unit of the class? -/
def isUnit (a : Alphabet) (c : LetterClass) (x : Char) : Bool :=
  match a.members? c with
  | none => true
  | some members => members.contains x

/-- The indices of the units of a word whose first character has index `i`. -/
def unitPositionsFrom (a : Alphabet) (c : LetterClass) (i : Nat) : Word → List Nat
  | [] => []
  | x :: w =>
    if a.isUnit c x then
      i :: a.unitPositionsFrom c (i + 1) w
    else
      a.unitPositionsFrom c (i + 1) w

/-- The indices of the characters of a word that count as units of a class. -/
def unitPositions (a : Alphabet) (c : LetterClass) (w : Word) : List Nat :=
  a.unitPositionsFrom c 0 w

end Alphabet

end WordFormation
