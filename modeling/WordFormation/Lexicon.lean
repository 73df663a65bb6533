/-
  WordFormation/Lexicon.lean
  ==========================
  **Units of a language with their forms and features.**

  A lexicon remembers for each unit, by its identifier, the form it was given
  last and all features it was tagged with.  Giving a form keeps the features,
  and tagging an unknown unit enters it with an empty form.

  A condition does not look into the lexicon.  It asks a candidate for its form
  and its features, and a candidate may as well be a word that is in no lexicon
  and has no features.
-/
import WordFormation.Word

namespace WordFormation

/-- What can be asked of something that a condition is decided for. -/
structure Candidate where
  form : Word
  hasFeature : String → Bool

/-- A word by itself, without features. -/
def Candidate.ofWord (w : Word) : Candidate := ⟨w, fun _ => false⟩

/-- What a lexicon knows of a unit. -/
structure Lexeme where
  form : Word := []
  features : List String := []
deriving DecidableEq

/-- Units with what is known of them, each unit once. -/
structure Lexicon where
  units : List (String × Lexeme)
  nodup : (units.map Prod.fst).Nodup
deriving DecidableEq

namespace Lexicon

def empty : Lexicon := ⟨[], List.nodup_nil⟩

instance : Inhabited Lexicon := ⟨empty⟩

def find? (l : Lexicon) (id : String) : Option Lexeme := l.units.lookup id

/-- Change what is known of a unit in a list of units, beginning with nothing if
    it is not there. -/
def changed (id : String) (change : Lexeme → Lexeme) : List (String × Lexeme) →
    List (String × Lexeme)
  | [] => [(id, change {})]
  | (other, lexeme) :: units =>
    if id = other then
      (other, change lexeme) :: units
    else
      (other, lexeme) :: changed id change units

/-- A unit that is not there is entered behind the others. -/
theorem map_fst_changed (id : String) (change : Lexeme → Lexeme)
    (units : List (String × Lexeme)) :
    (changed id change units).map Prod.fst =
      if id ∈ units.map Prod.fst then units.map Prod.fst else units.map Prod.fst ++ [id] := by
  induction units with
  | nil => rfl
  | cons unit units ih =>
    obtain ⟨other, lexeme⟩ := unit
    by_cases h : id = other
    · subst h
      simp [changed]
    · rw [changed, if_neg h, List.map_cons, ih]
      by_cases hmem : id ∈ units.map Prod.fst
      · simp [hmem]
      · simp [h, hmem]

theorem nodup_changed (id : String) (change : Lexeme → Lexeme) {units : List (String × Lexeme)}
    (h : (units.map Prod.fst).Nodup) : ((changed id change units).map Prod.fst).Nodup := by
  rw [map_fst_changed]
  by_cases hknown : id ∈ units.map Prod.fst
  · rwa [if_pos hknown]
  · rw [if_neg hknown, List.nodup_append]
    refine ⟨h, by simp, ?_⟩
    rintro other hother _ hid rfl
    rw [List.mem_singleton.mp hid] at hother
    exact hknown hother

/-- Change what is known of a unit. -/
def changeUnit (l : Lexicon) (id : String) (change : Lexeme → Lexeme) : Lexicon :=
  ⟨changed id change l.units, nodup_changed id change l.nodup⟩

def insertUnit (l : Lexicon) (id : String) (form : Word) : Lexicon :=
  l.changeUnit id fun lexeme => { lexeme with form := form }

def addFeature (l : Lexicon) (id feature : String) : Lexicon :=
  l.changeUnit id fun lexeme => { lexeme with features := lexeme.features.insert feature }

def formOf (l : Lexicon) (id : String) : Option Word := (l.find? id).map Lexeme.form

def hasFeature (l : Lexicon) (id feature : String) : Bool :=
  match l.find? id with
  | some lexeme => lexeme.features.contains feature
  | none => false

def size (l : Lexicon) : Nat := l.units.length

def isEmpty (l : Lexicon) : Bool := l.units.isEmpty

/-- A unit as a candidate.  One that is not known has an empty form. -/
def unit (l : Lexicon) (id : String) : Candidate where
  form := (l.formOf id).getD []
  hasFeature := l.hasFeature id

/-! ### Looking up what was changed -/

theorem lookup_changed (id other : String) (change : Lexeme → Lexeme)
    (units : List (String × Lexeme)) :
    (changed id change units).lookup other =
      if other = id then some (change ((units.lookup id).getD {})) else units.lookup other := by
  induction units with
  | nil =>
    by_cases h : other = id
    · simp [changed, h]
    · have hb : (other == id) = false := by simp [h]
      simp [changed, h, hb, List.lookup_cons]
  | cons u units ih =>
    obtain ⟨name, lexeme⟩ := u
    by_cases hid : id = name
    · subst hid
      by_cases h : other = id
      · simp [changed, h]
      · have hb : (other == id) = false := by simp [h]
        simp [changed, h, hb, List.lookup_cons]
    · by_cases h : other = name
      · subst h
        have hother : ¬other = id := fun e => hid e.symm
        simp [changed, hid, hother]
      · have hb : (other == name) = false := by simp [h]
        have hi : (id == name) = false := by simp [hid]
        simp [changed, hid, List.lookup_cons, hb, hi, ih]

end Lexicon

end WordFormation
