/-
  WordFormation/Proofs/Records.lean
  =================================
  **A derivation records the run that gives the result.**

  A derivation has the word after every stage.  The run goes on from the stems, of which
  the word shows only the letters.  But what begins with one stem has one stem after every
  stage (`length_runStages`), and this is the word that is kept.  No stage has anything
  from the stages in front of it but the stems.  So each word in a derivation can be had
  in two ways that know nothing of the record, from the first word by the stages up to
  there, and from the word in front of it by the one stage in between
  (`Rule.derive_records_run`).

  This is so for all rules, not only for those whose morphemes act at edges: a run may
  fail, and then there is no derivation either.
-/
import WordFormation.Proofs.Assembling
import WordFormation.Proofs.Steps

namespace WordFormation

/-! ### Words after every stage -/

theorem length_recordStages {stages : List (List Morpheme)} {stems final : List Word}
    {steps : List Word} (h : recordStages stages stems = .ok (steps, final)) :
    steps.length = stages.length := by
  induction stages generalizing stems steps with
  | nil =>
    cases h
    rfl
  | cons stage stages ih =>
    obtain ⟨changed, -, h⟩ := bind_eq_ok.mp h
    obtain ⟨⟨others, final'⟩, hothers, h⟩ := bind_eq_ok.mp h
    cases h
    rw [List.length_cons, ih hothers, List.length_cons]

/-- What one stage makes of one word is one word. -/
theorem exists_runStage_word {stage : List Morpheme} {w : Word} {changed : List Word}
    (h : runStage stage [w] = .ok changed) : ∃ w', changed = [w'] := by
  have hrun : runStages [stage] [w] = .ok changed := bind_eq_ok.mpr ⟨changed, h, rfl⟩
  exact List.length_eq_one_iff.mp (length_runStages (List.cons_ne_nil w []) hrun)

/-- Each word of a record is what the stages in front of it make of the first word. -/
theorem runStages_take {stages : List (List Morpheme)} {w : Word} {steps final : List Word}
    (h : recordStages stages [w] = .ok (steps, final)) {k : Nat} {word : Word}
    (hword : (w :: steps)[k]? = some word) : runStages (stages.take k) [w] = .ok [word] := by
  induction stages generalizing w steps k with
  | nil =>
    cases h
    cases k with
    | zero =>
      cases hword
      rfl
    | succ k => cases hword
  | cons stage stages ih =>
    obtain ⟨changed, hchanged, h⟩ := bind_eq_ok.mp h
    obtain ⟨⟨others, final'⟩, hothers, h⟩ := bind_eq_ok.mp h
    obtain ⟨w', rfl⟩ := exists_runStage_word hchanged
    cases h
    cases k with
    | zero =>
      cases hword
      rfl
    | succ k =>
      rw [List.flatten_singleton] at hword
      rw [List.take_succ_cons, runStages, hchanged, ok_bind]
      exact ih hothers hword

/-! ### Parts of a rule -/

namespace Rule

/-- The rule that has the first stages only. -/
def upTo (r : Rule) (n : Nat) : Rule := { r with stages := r.stages.take n }

/-- The rule that has one stage only. -/
def alone (r : Rule) (stage : List Morpheme) : Rule := { r with stages := [stage] }

/-- The first stages are those of the first groups. -/
theorem stages_upTo {b : Blueprint} {r : Rule} (h : ofBlueprint b = .ok r) (n : Nat) :
    assembleGroups (b.groups.take n) = .ok (r.upTo n).stages := by
  have hstages := assembleGroups_eq_ok_iff.mp (ofBlueprint_eq_ok.mp h).2
  exact assembleGroups_eq_ok_iff.mpr (List.forall₂_take n hstages)

/-! ### Derivations -/

theorem derive_eq_ok {r : Rule} {w : Word} {d : Derivation} :
    r.derive w = .ok d ↔ d.input = w ∧ recordStages r.stages [w] = .ok (d.steps, d.stems) := by
  constructor
  · intro h
    obtain ⟨⟨steps, stems⟩, hrecord, h⟩ := bind_eq_ok.mp h
    cases h
    exact ⟨rfl, hrecord⟩
  · rintro ⟨rfl, hrecord⟩
    rw [derive, hrecord]
    rfl

section Derivation

variable {r : Rule} {w : Word} {d : Derivation} (h : r.derive w = .ok d)
include h

theorem apply_upTo {k : Nat} {word : Word} (hword : (w :: d.steps)[k]? = some word) :
    (r.upTo k).apply w = .ok word :=
  apply_of_runStages (runStages_take (derive_eq_ok.mp h).2 hword)

/-- From a word of the record its stage makes the next one. -/
theorem apply_alone {k : Nat} {stage : List Morpheme} {before after : Word}
    (hstage : r.stages[k]? = some stage) (hbefore : (w :: d.steps)[k]? = some before)
    (hafter : (w :: d.steps)[k + 1]? = some after) : (r.alone stage).apply before = .ok after := by
  have hrecord := (derive_eq_ok.mp h).2
  have hmore := runStages_take hrecord hafter
  rw [List.take_add_one, hstage, runStages_append, runStages_take hrecord hbefore, ok_bind] at hmore
  exact apply_of_runStages hmore

end Derivation

@[simp] theorem upTo_length (r : Rule) : r.upTo r.stages.length = r := by
  rw [upTo, List.take_length]

/-- **A derivation records the run that gives the result.**  There is one exactly if the
    rule can be applied, and then it ends with the result; if not, both fail for the same
    reason.  It has a word for every stage: what the stages up to there, taken alone, make
    of the first word, and what the next stage, taken alone, goes on from. -/
theorem derive_records_run (r : Rule) (w : Word) :
    (∀ v, r.apply w = .ok v ↔ ∃ d, r.derive w = .ok d ∧ d.output = v) ∧
    (∀ failure, r.apply w = .error failure ↔ r.derive w = .error failure) ∧
    ∀ d, r.derive w = .ok d →
      d.input = w ∧ d.steps.length = r.stages.length ∧
      (∀ k (hk : k < d.steps.length), (r.upTo (k + 1)).apply w = .ok d.steps[k]) ∧
      (∀ k (hk : k + 1 < d.steps.length), ∃ stage, r.stages[k + 1]? = some stage ∧
        (r.alone stage).apply d.steps[k] = .ok d.steps[k + 1]) ∧
      (w :: d.steps).getLast (List.cons_ne_nil w d.steps) = d.output := by
  have houtput := r.derive_output w
  refine ⟨?_, ?_, ?_⟩
  · intro v
    rw [← houtput]
    cases r.derive w with
    | error failure => simp [Except.map]
    | ok d => simp [Except.map]
  · intro failure
    rw [← houtput]
    cases r.derive w with
    | error failure => simp [Except.map]
    | ok d => simp [Except.map]
  · intro d h
    obtain ⟨hinput, hrecord⟩ := derive_eq_ok.mp h
    have hlength := length_recordStages hrecord
    refine ⟨hinput, hlength, ?_, ?_, ?_⟩
    · intro k hk
      exact apply_upTo h (List.getElem?_eq_getElem hk)
    · intro k hk
      have hstage : k + 1 < r.stages.length := hlength ▸ hk
      refine ⟨r.stages[k + 1], List.getElem?_eq_getElem hstage, ?_⟩
      exact apply_alone h (List.getElem?_eq_getElem hstage)
        (List.getElem?_eq_getElem (Nat.lt_of_succ_lt hk)) (List.getElem?_eq_getElem hk)
    · have hlast : (w :: d.steps)[r.stages.length]? =
          some ((w :: d.steps).getLast (List.cons_ne_nil w d.steps)) := by
        rw [← hlength, ← List.getLast?_eq_some_getLast, List.getLast?_eq_getElem?]
        rfl
      have hword := apply_upTo h hlast
      rw [upTo_length, ← houtput, h] at hword
      exact (Except.ok.inj hword).symm

/-- A circumfix, an ending that comes only after a `t`, and another ending. -/
def inflectedParticiple : Blueprint where
  groups := [
    [.putAround (.only ['g', 'e']) (.only ['t']) .insert],
    [.conditional ⟨[.isAt .final (.only ['t'])]⟩
      (.operations [.putAfter (.only ['e']) .insert]) .identity],
    [.putAfter (.only ['s']) .insert]]

/-- The antonym does not come back to the stem: its second stage finds an `e` at the end
    and does nothing. -/
theorem derive_records_inflectedParticiple :
    let gemachtes := ['g', 'e', 'm', 'a', 'c', 'h', 't', 'e', 's']
    let gemachte := ['g', 'e', 'm', 'a', 'c', 'h', 't', 'e']
    let machte := ['m', 'a', 'c', 'h', 't', 'e']
    ∃ r d, ofBlueprint inflectedParticiple = .ok r ∧ r.antonym.derive gemachtes = .ok d ∧
      d.steps = [gemachte, gemachte, machte] ∧
      (r.antonym.upTo 2).apply gemachtes = .ok gemachte ∧
      (∃ stage, r.antonym.stages[2]? = some stage ∧
        (r.antonym.alone stage).apply gemachte = .ok machte) ∧
      d.output = machte := by
  intro gemachtes gemachte machte
  obtain ⟨r, hr⟩ : ∃ r, ofBlueprint inflectedParticiple = .ok r := ⟨_, rfl⟩
  have hd : r.antonym.derive gemachtes =
      .ok ⟨gemachtes, [gemachte, gemachte, machte], [machte]⟩ := by
    cases hr
    decide +kernel
  obtain ⟨-, -, hupTo, halone, hlast⟩ := (derive_records_run r.antonym gemachtes).2.2 _ hd
  exact ⟨r, _, hr, hd, rfl, hupTo 1 (by decide), halone 1 (by decide), hlast.symm⟩

end Rule

end WordFormation
