/-
  WordFormation/Document/Names.lean
  =================================
  **What is written as a name in documents.**

  Polarities are written as their symbols, kinds of affixes and edges in small
  letters, classes of letters and sides in capital letters.  Every name reads
  back as what it was written for.
-/
import WordFormation.Document
import WordFormation.Blueprint
import WordFormation.Alphabet

namespace WordFormation

namespace Polarity

def names : List (String × Polarity) := [("+", insert), ("-", remove), (".", toggle)]

def ofDocument? : Document → Option Polarity := Document.named? names

def toDocument (p : Polarity) : Document := .text p.symbol.toString

@[simp] theorem ofDocument?_toDocument (p : Polarity) : ofDocument? p.toDocument = some p := by
  cases p <;> rfl

end Polarity

namespace AffixKind

def names : List (String × AffixKind) :=
  [prefixed, postfixed, circumfixed, interfixed].map fun kind => (kind.name, kind)

def ofDocument? : Document → Option AffixKind := Document.named? names

def toDocument (kind : AffixKind) : Document := .text kind.name

@[simp] theorem ofDocument?_toDocument (kind : AffixKind) :
    ofDocument? kind.toDocument = some kind := by
  cases kind <;> rfl

end AffixKind

namespace Edge

def name : Edge → String
  | start => "start"
  | final => "end"

def names : List (String × Edge) := [start, final].map fun edge => (edge.name, edge)

def ofDocument? : Document → Option Edge := Document.named? names

def toDocument (edge : Edge) : Document := .text edge.name

@[simp] theorem ofDocument?_toDocument (edge : Edge) : ofDocument? edge.toDocument = some edge := by
  cases edge <;> rfl

end Edge

namespace LetterClass

/-- The name of a class in documents. -/
def documentName : LetterClass → String
  | letters => "LETTERS"
  | consonants => "CONSONANTS"
  | vowels => "VOWELS"
  | semivowels => "SEMIVOWELS"

def names : List (String × LetterClass) :=
  [letters, consonants, vowels, semivowels].map fun c => (c.documentName, c)

def ofDocument? : Document → Option LetterClass := Document.named? names

def toDocument (c : LetterClass) : Document := .text c.documentName

@[simp] theorem ofDocument?_toDocument (c : LetterClass) : ofDocument? c.toDocument = some c := by
  cases c <;> rfl

end LetterClass

namespace Side

def name : Side → String
  | before => "BEFORE"
  | upon => "AT"
  | after => "AFTER"

def names : List (String × Side) := [before, upon, after].map fun side => (side.name, side)

def ofDocument? : Document → Option Side := Document.named? names

def toDocument (side : Side) : Document := .text side.name

@[simp] theorem ofDocument?_toDocument (side : Side) : ofDocument? side.toDocument = some side := by
  cases side <;> rfl

end Side

/-! ### Words and alphabets -/

namespace Word

def ofDocument? (d : Document) : Option Word := d.text?.map String.toList

def toDocument (w : Word) : Document := .text (String.ofList w)

@[simp] theorem ofDocument?_toDocument (w : Word) : ofDocument? w.toDocument = some w := by
  simp [ofDocument?, toDocument, Document.text?]

end Word

namespace Alphabet

def ofDocument? (d : Document) : Option Alphabet := do
  match ← d.structure? ["consonants", "vowels", "semivowels"] with
  | [some consonants, some vowels, some semivowels] =>
    return {
      consonants := ← Word.ofDocument? consonants
      vowels := ← Word.ofDocument? vowels
      semivowels := ← Word.ofDocument? semivowels }
  | _ => none

def toDocument (a : Alphabet) : Document :=
  .record [("consonants", Word.toDocument a.consonants), ("vowels", Word.toDocument a.vowels),
    ("semivowels", Word.toDocument a.semivowels)]

end Alphabet

end WordFormation
