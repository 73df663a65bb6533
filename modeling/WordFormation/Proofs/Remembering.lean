/-
  WordFormation/Proofs/Remembering.lean
  =====================================
  **What a lexicon remembers of all that it was told.**

  A lexicon is told of units one thing at a time: a form, which replaces the one
  before, or a feature, which is added to those before.  Either enters a unit that was
  not known.  One step is described by three lemmas, for the form of a unit
  (`formOf_update`), for its features (`hasFeature_update`) and for the identifiers
  (`mem_ids_update`), and each of them carries an induction over everything that was
  told, from the end.

  What remains is this.  A unit is known as soon as it was named, its form is the last
  one it was given, its features are all those it was given, and there are as many
  units as names.  So the order in which things were told does not matter as long as
  the form that each unit was given last stays the last one, neither for questions
  about forms and features nor for any decision (`Lexicon.remembers`).
-/
import WordFormation.Decision
import Mathlib.Data.List.Dedup
import Mathlib.Data.List.Induction

namespace WordFormation

namespace Lexicon

/-! ### Being told -/

/-- Something that a lexicon is told of a unit. -/
inductive Update where
  | form (id : String) (letters : Word)
  | feature (id name : String)
deriving DecidableEq

namespace Update

/-- The unit that is named. -/
def id : Update → String
  | form id _ => id
  | feature id _ => id

/-- The form that is given to a unit, if one is. -/
def formFor? (id : String) : Update → Option Word
  | form other letters => if other = id then some letters else none
  | feature _ _ => none

/-- What is known of the unit from now on. -/
def change : Update → Lexeme → Lexeme
  | form _ letters, lexeme => { lexeme with form := letters }
  | feature _ name, lexeme => { lexeme with features := lexeme.features.insert name }

end Update

def update (l : Lexicon) : Update → Lexicon
  | .form id letters => l.insertUnit id letters
  | .feature id name => l.addFeature id name

/-- The lexicon that was told the given things, one after the other. -/
def ofUpdates (us : List Update) : Lexicon := us.foldl update empty

/-- The form that a unit was given last. -/
def lastForm? (us : List Update) (id : String) : Option Word :=
  (us.filterMap (·.formFor? id)).getLast?

/-- The identifiers of the units, in the order in which they were entered. -/
def ids (l : Lexicon) : List String := l.units.map Prod.fst

/-- No question about units, and no decision for one, tells two lexicons apart. -/
structure SameAnswers (l l' : Lexicon) : Prop where
  formOf : ∀ id, l.formOf id = l'.formOf id
  hasFeature : ∀ id name, l.hasFeature id name = l'.hasFeature id name
  size : l.size = l'.size
  isEmpty : l.isEmpty = l'.isEmpty
  unit : ∀ id, l.unit id = l'.unit id
  evaluate : ∀ {P : Type} [PatternLanguage P] (d : Decision (Guard P)) (id : String),
    d.evaluate (l.unit id) = d.evaluate (l'.unit id)

/-! ### One thing -/

namespace Update

variable (u : Update)

theorem formFor?_of_ne {id : String} (h : id ≠ u.id) : u.formFor? id = none := by
  cases u with
  | form other letters => exact if_neg h.symm
  | feature other name => rfl

theorem form_change (lexeme : Lexeme) :
    (u.change lexeme).form = (u.formFor? u.id).getD lexeme.form := by
  cases u with
  | form other letters =>
    have hgiven : (form other letters).formFor? other = some letters := if_pos rfl
    exact congrArg (Option.getD · lexeme.form) hgiven.symm
  | feature other name => rfl

theorem mem_features_change (lexeme : Lexeme) (name : String) :
    name ∈ (u.change lexeme).features ↔ u = .feature u.id name ∨ name ∈ lexeme.features := by
  cases u with
  | form id letters => simp [change]
  | feature id other => simp [change, Update.id, eq_comm]

end Update

section Update

variable (l : Lexicon) (u : Update) (id : String)

theorem units_update : (l.update u).units = changed u.id u.change l.units := by
  cases u <;> rfl

/-- What was told is found at the unit that was named, and nowhere else. -/
theorem find?_update :
    (l.update u).find? id =
      if id = u.id then some (u.change ((l.find? id).getD {})) else l.find? id := by
  rw [find?, units_update, lookup_changed]
  by_cases h : id = u.id
  · subst h
    rfl
  · rw [if_neg h, if_neg h, find?]

theorem formOf_update :
    (l.update u).formOf id =
      if id = u.id then some ((u.formFor? id).getD ((l.formOf id).getD [])) else l.formOf id := by
  rw [formOf, find?_update, formOf]
  by_cases h : id = u.id
  · subst h
    rw [if_pos rfl, if_pos rfl, Option.map_some, u.form_change]
    cases l.find? u.id <;> rfl
  · rw [if_neg h, if_neg h]

theorem hasFeature_iff (name : String) :
    l.hasFeature id name = true ↔ name ∈ ((l.find? id).getD {}).features := by
  unfold hasFeature
  cases l.find? id with
  | none => simp
  | some lexeme => exact List.contains_iff_mem

theorem hasFeature_update (name : String) :
    (l.update u).hasFeature id name = true ↔
      u = .feature id name ∨ l.hasFeature id name = true := by
  rw [hasFeature_iff, hasFeature_iff, find?_update]
  by_cases h : id = u.id
  · subst h
    rw [if_pos rfl, Option.getD_some, u.mem_features_change]
  · have hother : u ≠ .feature id name := by
      rintro rfl
      exact h rfl
    rw [if_neg h]
    exact (or_iff_right hother).symm

theorem mem_ids_update : id ∈ (l.update u).ids ↔ id = u.id ∨ id ∈ l.ids := by
  rw [ids, units_update, map_fst_changed, ← ids]
  by_cases hknown : u.id ∈ l.ids
  · rw [if_pos hknown]
    refine (or_iff_right_of_imp ?_).symm
    rintro rfl
    exact hknown
  · rw [if_neg hknown, List.mem_append, List.mem_singleton, or_comm]

end Update

/-! ### Everything that was told -/

section Updates

variable (us : List Update) (u : Update)

theorem ofUpdates_concat : ofUpdates (us ++ [u]) = (ofUpdates us).update u := by
  rw [ofUpdates, ofUpdates, List.foldl_append, List.foldl_cons, List.foldl_nil]

theorem lastForm?_concat (id : String) :
    lastForm? (us ++ [u]) id = (u.formFor? id).or (lastForm? us id) := by
  rw [lastForm?, lastForm?, List.filterMap_append, List.getLast?_append]
  cases h : u.formFor? id with
  | none => rw [List.filterMap_cons_none h, List.filterMap_nil, List.getLast?_nil]
  | some letters => rw [List.filterMap_cons_some h, List.filterMap_nil, List.getLast?_singleton]

theorem lastForm?_of_not_mem {id : String} (h : id ∉ us.map Update.id) :
    lastForm? us id = none := by
  have hnone : us.filterMap (·.formFor? id) = [] := by
    rw [List.filterMap_eq_nil_iff]
    intro u hu
    apply u.formFor?_of_ne
    rintro rfl
    exact h (List.mem_map_of_mem hu)
  rw [lastForm?, hnone, List.getLast?_nil]

theorem formOf_ofUpdates (id : String) :
    (ofUpdates us).formOf id =
      if id ∈ us.map Update.id then some ((lastForm? us id).getD []) else none := by
  induction us using List.reverseRecOn with
  | nil => rfl
  | append_singleton us u ih =>
    rw [ofUpdates_concat, formOf_update, lastForm?_concat, ih]
    by_cases h : id = u.id
    · have hmem : id ∈ (us ++ [u]).map Update.id := by simp [h]
      rw [if_pos h, if_pos hmem]
      by_cases hbefore : id ∈ us.map Update.id
      · rw [if_pos hbefore, Option.getD_some, Option.getD_or]
      · rw [if_neg hbefore, lastForm?_of_not_mem us hbefore, Option.or_none, Option.getD_none]
    · have hmem : id ∈ (us ++ [u]).map Update.id ↔ id ∈ us.map Update.id := by simp [h]
      rw [if_neg h, u.formFor?_of_ne h, Option.none_or]
      simp only [hmem]

theorem hasFeature_ofUpdates (id name : String) :
    (ofUpdates us).hasFeature id name = true ↔ .feature id name ∈ us := by
  induction us using List.reverseRecOn with
  | nil => simp [ofUpdates, hasFeature, find?, empty]
  | append_singleton us u ih =>
    rw [ofUpdates_concat, hasFeature_update, ih, List.mem_append, List.mem_singleton, or_comm,
      eq_comm]

theorem mem_ids_ofUpdates (id : String) :
    id ∈ (ofUpdates us).ids ↔ id ∈ us.map Update.id := by
  induction us using List.reverseRecOn with
  | nil => rfl
  | append_singleton us u ih =>
    rw [ofUpdates_concat, mem_ids_update, ih, List.map_append, List.mem_append,
      List.map_singleton, List.mem_singleton, or_comm]

/-- There are as many units as names. -/
theorem size_ofUpdates : (ofUpdates us).size = (us.map Update.id).dedup.length := by
  have honce : (ofUpdates us).ids.Nodup := (ofUpdates us).nodup
  have hsame : (ofUpdates us).ids.Perm (us.map Update.id).dedup := by
    rw [List.perm_ext_iff_of_nodup honce (List.nodup_dedup _)]
    intro id
    rw [mem_ids_ofUpdates, List.mem_dedup]
  rw [size, ← hsame.length_eq, ids, List.length_map]

end Updates

/-! ### In another order -/

/-- Questions about forms and features, and the number of units, decide all others. -/
theorem SameAnswers.of_units {l l' : Lexicon} (hform : ∀ id, l.formOf id = l'.formOf id)
    (hfeature : ∀ id name, l.hasFeature id name = l'.hasFeature id name)
    (hsize : l.size = l'.size) : l.SameAnswers l' := by
  have hunit (id : String) : l.unit id = l'.unit id := by
    rw [Lexicon.unit, Lexicon.unit, hform, funext (hfeature id)]
  have hempty : l.isEmpty = l'.isEmpty := by
    rw [Lexicon.isEmpty, Lexicon.isEmpty, Bool.eq_iff_iff, List.isEmpty_iff_length_eq_zero,
      List.isEmpty_iff_length_eq_zero]
    exact Eq.congr hsize rfl
  exact ⟨hform, hfeature, hsize, hempty, hunit, fun d id => by rw [hunit]⟩

/-- Only what was told counts, and which form was told last. -/
theorem sameAnswers_of_mem_iff {us us' : List Update} (hmem : ∀ u, u ∈ us' ↔ u ∈ us)
    (hlast : ∀ id, lastForm? us' id = lastForm? us id) :
    (ofUpdates us').SameAnswers (ofUpdates us) := by
  have hnamed (id : String) : id ∈ us'.map Update.id ↔ id ∈ us.map Update.id := by
    simp only [List.mem_map, hmem]
  apply SameAnswers.of_units
  · intro id
    simp only [formOf_ofUpdates, hnamed, hlast]
  · intro id name
    rw [Bool.eq_iff_iff, hasFeature_ofUpdates, hasFeature_ofUpdates, hmem]
  · have hids : (us'.map Update.id).dedup.Perm (us.map Update.id).dedup := by
      rw [List.perm_ext_iff_of_nodup (List.nodup_dedup _) (List.nodup_dedup _)]
      intro id
      rw [List.mem_dedup, List.mem_dedup, hnamed]
    rw [size_ofUpdates, size_ofUpdates, hids.length_eq]

end Lexicon

/-- **A lexicon remembers the last form and all features of every unit it was told of.**
    A unit that was only given features has the empty form.  Told the same things in
    another order it gives the same answers and leads to the same decisions, as long as
    the form that each unit was given last is the same. -/
theorem Lexicon.remembers (us : List Update) :
    (∀ id, (ofUpdates us).formOf id =
      if id ∈ us.map Update.id then some ((lastForm? us id).getD []) else none) ∧
    (∀ id name, (ofUpdates us).hasFeature id name = true ↔ .feature id name ∈ us) ∧
    (ofUpdates us).size = (us.map Update.id).dedup.length ∧
    ∀ us' : List Update, us'.Perm us → (∀ id, lastForm? us' id = lastForm? us id) →
      (ofUpdates us').SameAnswers (ofUpdates us) := by
  refine ⟨formOf_ofUpdates us, hasFeature_ofUpdates us, size_ofUpdates us, ?_⟩
  intro us' hperm hlast
  exact sameAnswers_of_mem_iff (fun u => hperm.mem_iff) hlast

/-- A cat is given a form and then another, and with it a feature; a dog is given a
    feature only.  The two forms have to keep their order. -/
theorem Lexicon.remembers_catAndDog :
    let told : List Update := [.form "cat" ['k', 'o', 't'], .feature "cat" "animate",
      .form "cat" ['k', 'o', 't', 'y'], .feature "dog" "animate"]
    let retold : List Update := [.feature "dog" "animate", .form "cat" ['k', 'o', 't'],
      .form "cat" ['k', 'o', 't', 'y'], .feature "cat" "animate"]
    retold.Perm told ∧ (∀ id, lastForm? retold id = lastForm? told id) ∧
    (ofUpdates told).formOf "cat" = some ['k', 'o', 't', 'y'] ∧
    (ofUpdates told).formOf "dog" = some [] ∧
    (ofUpdates told).formOf "fish" = none ∧
    (ofUpdates told).hasFeature "cat" "animate" = true ∧
    (ofUpdates told).size = 2 ∧
    (ofUpdates retold).SameAnswers (ofUpdates told) := by
  intro told retold
  have hperm : retold.Perm told := by decide
  have hlast : ∀ id, lastForm? retold id = lastForm? told id := by
    intro id
    by_cases hcat : "cat" = id
    · simp [told, retold, lastForm?, Update.formFor?, hcat]
    · simp [told, retold, lastForm?, Update.formFor?, hcat]
  obtain ⟨hform, hfeature, hsize, hsame⟩ := remembers told
  refine ⟨hperm, hlast, hform "cat", hform "dog", hform "fish", ?_, hsize, ?_⟩
  · rw [hfeature]
    decide
  · exact hsame retold hperm hlast

end WordFormation
