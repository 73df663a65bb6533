/-
  WordFormation/Proofs/EmptyStems.lean
  ====================================
  **No stems at all, and one stem without letters.**

  Where there is no stem, an edge edit makes an empty one.  But the observed stems stay
  as they were, and none of them belongs to the stem that was made.  From then on each
  affix asks the word that the operations before it have made, while with one empty
  stem it asks the empty word.  An `a` that has just been put on is taken off again in
  the first case and never found in the second (`applyStems_nil_ne`).

  This is the only difference.  Conditions are asked of the same empty word, so the
  same edits and affixes are reached in the same order (`leaves`), and they have the same
  outcome one after the other as long as none that removes or toggles finds its letters
  (`applyStems_nil_iff`).
-/
import WordFormation.Proofs.Insertion
import WordFormation.Proofs.Outcome
import WordFormation.Proofs.Undoing

namespace WordFormation

/-! ### An affix that asks the empty word -/

namespace Allomorphs

/-- What is found leaves a shorter word behind. -/
theorem length_lt_of_isAt {a : Allomorphs} {w : Word} {p : Position} (h : a.isAt w p = .ok true) :
    ∃ w', a.removeAt w p = .ok w' ∧ w'.length < w.length := by
  by_cases hplace : p.val = 0
  · simp [isAt, formAt, solveAt, hplace, Except.map] at h
  obtain ⟨found, rest, hfinds, hdetected⟩ := a.exists_findsAt hplace w
  refine ⟨rest, hfinds.removeAt_eq, ?_⟩
  have hletters : found ≠ [] := by
    rintro rfl
    rw [hfinds.isAt_eq] at h
    cases h
  have hlength := List.length_pos_iff.mpr hletters
  cases hdetected with
  | form _ hsplit =>
    rw [hsplit.1]
    simp only [List.length_append]
    omega
  | nothing => exact absurd rfl hletters

/-- Putting a form in does not make the word shorter. -/
theorem length_le_of_insertAt {a : Allomorphs} {w w' : Word} {p : Position}
    (h : a.insertAt w p = .ok w') : w.length ≤ w'.length := by
  by_cases hplace : p.val = 0
  · simp [insertAt, solveAt, hplace] at h
  have hinserts := a.inserts_insertAt w hplace
  rw [h] at hinserts
  cases hinserts with
  | unchanged => exact Nat.le_refl _
  | best gap =>
    rw [gap.1]
    simp only [List.length_append, List.length_nil]
    omega

theorem isAt_of_zero (a : Allomorphs) (w : Word) {p : Position} (hplace : p.val = 0) :
    a.isAt w p = .error .zeroIndex := by
  simp [isAt, formAt, solveAt, hplace, Except.map]

/-- No letters are found in the empty word. -/
theorem isAt_nil (a : Allomorphs) {p : Position} (hplace : p.val ≠ 0) :
    a.isAt [] p = .ok false := by
  obtain ⟨found, rest, hfinds, hdetected⟩ := a.exists_findsAt hplace []
  have hnone : found = [] := by
    cases hdetected with
    | form _ hsplit =>
      have hboth := List.append_eq_nil_iff.mp hsplit.1.symm
      exact (List.append_eq_nil_iff.mp hboth.1).2
    | nothing => rfl
  rw [hfinds.isAt_eq, hnone]
  rfl

end Allomorphs

/-- What is asked counts only for whether the letters are there. -/
theorem Affix.applyObserving_congr (x : Affix) (w : Word) {seen seen' : Word}
    (h : x.isPresent seen = x.isPresent seen') :
    x.applyObserving w seen = x.applyObserving w seen' := by
  unfold applyObserving
  rw [h]

/-- Asking the empty word makes a difference where letters that are to be removed or
    toggled are there. -/
theorem Affix.applyObserving_nil_eq_iff (x : Affix) (w : Word) :
    x.applyObserving w [] = x.applyObserving w w ↔
      (x.polarity ≠ .insert → x.isPresent w ≠ .ok true) := by
  by_cases hplace : x.place.val = 0
  · have hpresent (v : Word) : x.isPresent v = .error .zeroIndex := x.form.isAt_of_zero v hplace
    have hboth := x.applyObserving_congr w ((hpresent []).trans (hpresent w).symm)
    rw [hpresent w]
    exact iff_of_true hboth fun _ h => by cases h
  obtain ⟨found, rest, hfinds, -⟩ := x.form.exists_findsAt hplace w
  have hempty : x.isPresent [] = .ok false := x.form.isAt_nil hplace
  have hpresent : x.isPresent w = .ok (!found.isEmpty) := hfinds.isAt_eq
  cases hseen : !found.isEmpty with
  | false =>
    rw [hseen] at hpresent
    have hboth := x.applyObserving_congr w (hempty.trans hpresent.symm)
    rw [hpresent]
    exact iff_of_true hboth fun _ h => by cases h
  | true =>
    rw [hseen] at hpresent
    obtain ⟨w', hremoved, hshorter⟩ := x.form.length_lt_of_isAt hpresent
    unfold applyObserving
    rw [hempty, hpresent]
    cases x.polarity with
    | insert => exact iff_of_true rfl fun hne => absurd rfl hne
    | remove =>
      refine iff_of_false (fun heq => ?_) fun h => h Polarity.noConfusion rfl
      have heq : Except.ok w = x.form.removeAt w x.place := heq
      rw [hremoved] at heq
      cases heq
      exact Nat.lt_irrefl _ hshorter
    | toggle =>
      refine iff_of_false (fun heq => ?_) fun h => h Polarity.noConfusion rfl
      have heq : x.form.insertAt w x.place = x.form.removeAt w x.place := heq
      rw [hremoved] at heq
      have hlonger := Allomorphs.length_le_of_insertAt heq
      omega

/-! ### The operations that are reached -/

namespace Morpheme

/-- An operation that is made of no others. -/
inductive IsLeaf : Morpheme → Prop where
  | edit (e : Edit) : IsLeaf (.edit e)
  | affix (x : Affix) : IsLeaf (.affix x)
  | interfix (x : Interfix) : IsLeaf (.interfix x)

mutual

/-- The edits, affixes and interfixes that are reached with no letters observed, one
    after the other. -/
def leaves : Morpheme → List Morpheme
  | .identity => []
  | .edit e => [.edit e]
  | .affix x => [.affix x]
  | .interfix x => [.interfix x]
  | .composite parts => leavesOfEach parts
  | .conditional condition met unmet => if condition.holds [] then met.leaves else unmet.leaves
  | .choice arms => leavesOfFirst arms

def leavesOfEach : List Morpheme → List Morpheme
  | [] => []
  | part :: parts => part.leaves ++ leavesOfEach parts

def leavesOfFirst : List (EdgeCondition × Morpheme) → List Morpheme
  | [] => []
  | (condition, arm) :: arms => if condition.holds [] then arm.leaves else leavesOfFirst arms

end

mutual

theorem isLeaf_of_mem_leaves : ∀ {m leaf : Morpheme}, leaf ∈ m.leaves → leaf.IsLeaf
  | .identity, leaf, h => by
    rw [leaves] at h
    cases h
  | .edit e, leaf, h => by
    rw [leaves] at h
    obtain rfl := List.mem_singleton.mp h
    exact .edit e
  | .affix x, leaf, h => by
    rw [leaves] at h
    obtain rfl := List.mem_singleton.mp h
    exact .affix x
  | .interfix x, leaf, h => by
    rw [leaves] at h
    obtain rfl := List.mem_singleton.mp h
    exact .interfix x
  | .composite parts, leaf, h => by
    rw [leaves] at h
    exact isLeaf_of_mem_leavesOfEach h
  | .conditional condition met unmet, leaf, h => by
    rw [leaves] at h
    split at h
    · exact isLeaf_of_mem_leaves h
    · exact isLeaf_of_mem_leaves h
  | .choice arms, leaf, h => by
    rw [leaves] at h
    exact isLeaf_of_mem_leavesOfFirst h

theorem isLeaf_of_mem_leavesOfEach :
    ∀ {parts : List Morpheme} {leaf : Morpheme}, leaf ∈ leavesOfEach parts → leaf.IsLeaf
  | [], leaf, h => by
    rw [leavesOfEach] at h
    cases h
  | part :: parts, leaf, h => by
    rw [leavesOfEach] at h
    rcases List.mem_append.mp h with h | h
    · exact isLeaf_of_mem_leaves h
    · exact isLeaf_of_mem_leavesOfEach h

theorem isLeaf_of_mem_leavesOfFirst :
    ∀ {arms : List (EdgeCondition × Morpheme)} {leaf : Morpheme},
      leaf ∈ leavesOfFirst arms → leaf.IsLeaf
  | [], leaf, h => by
    rw [leavesOfFirst] at h
    cases h
  | (condition, arm) :: arms, leaf, h => by
    rw [leavesOfFirst] at h
    split at h
    · exact isLeaf_of_mem_leaves h
    · exact isLeaf_of_mem_leavesOfFirst h

end

theorem applyEach_singleton (m : Morpheme) (stems observed : List Word) :
    applyEach [m] stems observed = m.applyObserving stems observed := by
  rw [applyEach]
  cases m.applyObserving stems observed with
  | error failure => rfl
  | ok changed => rfl

mutual

/-- Where no letters are observed, an operation is its leaves. -/
theorem applyObserving_leaves {observed : List Word} (hobserved : observed.flatten = []) :
    ∀ (m : Morpheme) (stems : List Word),
      m.applyObserving stems observed = applyEach m.leaves stems observed
  | .identity, stems => by rw [leaves, applyObserving, applyEach]
  | .edit e, stems => by rw [leaves, applyEach_singleton]
  | .affix x, stems => by rw [leaves, applyEach_singleton]
  | .interfix x, stems => by rw [leaves, applyEach_singleton]
  | .composite parts, stems => by
    rw [leaves, applyObserving]
    exact applyEach_leaves hobserved parts stems
  | .conditional condition met unmet, stems => by
    rw [leaves, applyObserving, hobserved]
    split
    · exact applyObserving_leaves hobserved met stems
    · exact applyObserving_leaves hobserved unmet stems
  | .choice arms, stems => by
    rw [leaves, applyObserving]
    exact applyFirst_leaves hobserved arms stems

theorem applyEach_leaves {observed : List Word} (hobserved : observed.flatten = []) :
    ∀ (parts : List Morpheme) (stems : List Word),
      applyEach parts stems observed = applyEach (leavesOfEach parts) stems observed
  | [], stems => by rw [leavesOfEach]
  | part :: parts, stems => by
    rw [leavesOfEach, applyEach_append, applyEach, applyObserving_leaves hobserved part stems]
    congr 1
    funext changed
    exact applyEach_leaves hobserved parts changed

theorem applyFirst_leaves {observed : List Word} (hobserved : observed.flatten = []) :
    ∀ (arms : List (EdgeCondition × Morpheme)) (stems : List Word),
      applyFirst arms stems observed = applyEach (leavesOfFirst arms) stems observed
  | [], stems => by rw [leavesOfFirst, applyFirst, applyEach]
  | (condition, arm) :: arms, stems => by
    rw [leavesOfFirst, applyFirst, hobserved]
    split
    · exact applyObserving_leaves hobserved arm stems
    · exact applyFirst_leaves hobserved arms stems

end

/-! ### Leaves on a single word

`seen` says which word an affix asks, given the word that it edits. -/

/-- What a leaf makes of a word. -/
def act (seen : Word → Word) : Morpheme → Word → Edited Word
  | .edit e, w => e.apply w
  | .affix x, w => x.applyObserving w (seen w)
  | _, w => .ok w

def actEach (seen : Word → Word) : List Morpheme → Word → Edited Word
  | [], w => .ok w
  | leaf :: leaves, w => do
    let changed ← leaf.act seen w
    actEach seen leaves changed

/-- The word that comes out is the outcome of the leaf, as a single stem if not as
    none. -/
structure Makes (outcome : Edited (List Word)) (word : Edited Word) : Prop where
  joined : outcome.map List.flatten = word
  short : ∀ stems, outcome = .ok stems → stems.length ≤ 1

theorem makes_onEdgeStem {stems : List Word} (hshort : stems.length ≤ 1) (observed : List Word)
    (p : Position) (change : Word → Word → Edited Word) :
    Makes (onEdgeStem stems observed p change)
      (change stems.flatten (observed[0]?.getD stems.flatten)) := by
  have honly : onEdgeStem stems observed p change =
      change stems.flatten (observed[0]?.getD stems.flatten) >>= fun changed => .ok [changed] := by
    unfold onEdgeStem
    match stems with
    | [] =>
      by_cases hpos : 0 < p.val
      · simp only [hpos, if_true]
        rfl
      · simp only [hpos, if_false]
        rfl
    | [stem] =>
      by_cases hpos : 0 < p.val
      · simp only [hpos, if_true]
        rw [List.flatten_singleton]
        rfl
      · simp only [hpos, if_false]
        rw [List.flatten_singleton]
        rfl
  rw [honly]
  cases change stems.flatten (observed[0]?.getD stems.flatten) with
  | error failure => exact ⟨rfl, fun _ h => by cases h⟩
  | ok changed =>
    refine ⟨congrArg Except.ok (List.append_nil changed), fun _ h => ?_⟩
    cases h
    exact Nat.le_refl 1

theorem IsLeaf.makes {leaf : Morpheme} (h : leaf.IsLeaf) {stems : List Word}
    (hshort : stems.length ≤ 1) (observed : List Word) :
    Makes (leaf.applyObserving stems observed)
      (leaf.act (fun w => observed[0]?.getD w) stems.flatten) := by
  cases h with
  | edit e =>
    rw [applyObserving]
    exact makes_onEdgeStem hshort observed e.place fun stem _ => e.apply stem
  | affix x =>
    rw [applyObserving]
    exact makes_onEdgeStem hshort observed x.place x.applyObserving
  | interfix x =>
    -- there is nothing to link
    have hsame : x.applyObserving stems observed = .ok stems := by
      match stems with
      | [] => rfl
      | [stem] => rfl
    rw [applyObserving, hsame]
    exact ⟨rfl, fun _ h => by cases h; exact hshort⟩

theorem makes_applyEach {leaves : List Morpheme} (h : ∀ leaf ∈ leaves, leaf.IsLeaf)
    {stems : List Word} (hshort : stems.length ≤ 1) (observed : List Word) :
    Makes (applyEach leaves stems observed)
      (actEach (fun w => observed[0]?.getD w) leaves stems.flatten) := by
  induction leaves generalizing stems with
  | nil => exact ⟨rfl, fun _ h => by cases h; exact hshort⟩
  | cons leaf leaves ih =>
    obtain ⟨hleaf, hleaves⟩ := List.forall_mem_cons.mp h
    obtain ⟨hjoined, hshort'⟩ := hleaf.makes hshort observed
    rw [applyEach, actEach, ← hjoined]
    cases hchanged : leaf.applyObserving stems observed with
    | error failure => exact ⟨rfl, fun _ h => by cases h⟩
    | ok changed => exact ih hleaves (hshort' changed hchanged)

/-! ### The word that is asked -/

theorem actEach_singleton (seen : Word → Word) (leaf : Morpheme) (w : Word) :
    actEach seen [leaf] w = leaf.act seen w := by
  rw [actEach]
  cases leaf.act seen w <;> rfl

/-- Only an affix asks anything. -/
theorem act_nil_eq_iff (leaf : Morpheme) (w : Word) :
    leaf.act (fun _ => []) w = leaf.act id w ↔
      ∀ x, leaf = .affix x → x.polarity ≠ .insert → x.isPresent w ≠ .ok true := by
  cases leaf with
  | affix x =>
    constructor
    · rintro h _ ⟨⟩
      exact (x.applyObserving_nil_eq_iff w).mp h
    · intro h
      exact (x.applyObserving_nil_eq_iff w).mpr (h x rfl)
  | _ => exact iff_of_true rfl fun _ h => by cases h

/-- Leaves that are asked nothing else come to the same, one after the other, exactly if
    none that removes or toggles finds its letters in the word so far. -/
theorem actEach_eq_iff (leaves : List Morpheme) (w : Word) :
    (∀ part, part <+: leaves → actEach (fun _ => []) part w = actEach id part w) ↔
      ∀ before x, before ++ [.affix x] <+: leaves → x.polarity ≠ .insert →
        ∀ w', actEach (fun _ => []) before w = .ok w' → x.isPresent w' ≠ .ok true := by
  induction leaves generalizing w with
  | nil =>
    refine iff_of_true (fun part hpart => ?_) fun before x hbefore => ?_
    · rw [List.prefix_nil.mp hpart]
      rfl
    · have hnil := List.prefix_nil.mp hbefore
      simp at hnil
  | cons leaf leaves ih =>
    constructor
    · intro hagree before x hbefore hpolarity w' hw'
      have hleaf : leaf.act (fun _ => []) w = leaf.act id w := by
        have hfirst := hagree [leaf] (List.prefix_append [leaf] leaves)
        rwa [actEach_singleton, actEach_singleton] at hfirst
      cases before with
      | nil =>
        obtain ⟨hx, -⟩ := List.cons_prefix_cons.mp hbefore
        cases hw'
        exact (leaf.act_nil_eq_iff w).mp hleaf x hx.symm hpolarity
      | cons first before =>
        obtain ⟨rfl, hmore⟩ := List.cons_prefix_cons.mp hbefore
        obtain ⟨w₁, hw₁, hw'⟩ := bind_eq_ok.mp hw'
        refine (ih w₁).mp (fun part hpart => ?_) before x hmore hpolarity w' hw'
        have hwhole := hagree (first :: part) (List.cons_prefix_cons.mpr ⟨rfl, hpart⟩)
        rw [actEach, actEach, ← hleaf, hw₁] at hwhole
        exact hwhole
    · intro hnothing part hpart
      have hleaf : leaf.act (fun _ => []) w = leaf.act id w := by
        rw [act_nil_eq_iff]
        rintro x rfl hpolarity
        have hfirst : [] ++ [Morpheme.affix x] <+: .affix x :: leaves := ⟨leaves, rfl⟩
        exact hnothing [] x hfirst hpolarity w rfl
      rcases List.prefix_cons_iff.mp hpart with rfl | ⟨more, rfl, hmore⟩
      · rfl
      rw [actEach, actEach, ← hleaf]
      cases hw₁ : leaf.act (fun _ => []) w with
      | error failure => rfl
      | ok w₁ =>
        refine (ih w₁).mpr (fun before x hbefore hpolarity w' hw' => ?_) more hmore
        refine hnothing (leaf :: before) x (List.cons_prefix_cons.mpr ⟨rfl, hbefore⟩) hpolarity
          w' ?_
        rw [actEach, hw₁]
        exact hw'

/-- No affix that removes or toggles finds its letters in the word that the leaves in
    front of it have made of nothing. -/
def FindsNothing (m : Morpheme) : Prop :=
  ∀ before x, before ++ [.affix x] <+: m.leaves → x.polarity ≠ .insert →
    ∀ w, (composite before).apply [] = .ok w → x.isPresent w ≠ .ok true

/-- The words that come of no stem and of one empty stem. -/
theorem joined_composite {part : List Morpheme} (h : ∀ leaf ∈ part, leaf.IsLeaf) :
    ((composite part).applyStems []).map List.flatten = actEach id part [] ∧
      (composite part).apply [] = actEach (fun _ => []) part [] := by
  constructor
  · rw [applyStems, applyObserving]
    have hshort : ([] : List Word).length ≤ 1 := Nat.zero_le 1
    exact (makes_applyEach h hshort []).joined
  · rw [apply, applyStems, applyObserving]
    have hshort : ([[]] : List Word).length ≤ 1 := Nat.le_refl 1
    exact (makes_applyEach h hshort [[]]).joined

/-- **No stems come to the same as one empty stem exactly as long as nothing is found.**
    Both lists lead through the same leaves.  Every beginning of these makes the same word
    of the one list and of the other, or fails in the same way, if and only if no affix on
    the way that removes or toggles finds its letters in what was made so far. -/
theorem applyStems_nil_iff (m : Morpheme) :
    (∀ stems, stems.flatten = [] → m.applyStems stems = (composite m.leaves).applyStems stems) ∧
      (m.FindsNothing ↔ ∀ part, part <+: m.leaves →
        ((composite part).applyStems []).map List.flatten = (composite part).apply []) ∧
      (m.FindsNothing → (m.applyStems []).map List.flatten = m.apply []) := by
  have hleaves : ∀ stems : List Word, stems.flatten = [] →
      m.applyStems stems = (composite m.leaves).applyStems stems := by
    intro stems hstems
    rw [applyStems, applyStems, applyObserving]
    exact applyObserving_leaves hstems m stems
  have hpart {part : List Morpheme} (h : part <+: m.leaves) := joined_composite fun leaf hleaf =>
    isLeaf_of_mem_leaves (h.subset hleaf)
  have hiff : m.FindsNothing ↔ ∀ part, part <+: m.leaves →
      ((composite part).applyStems []).map List.flatten = (composite part).apply [] := by
    constructor
    · intro hnothing part h
      rw [(hpart h).1, (hpart h).2]
      refine ((actEach_eq_iff m.leaves []).mpr ?_ part h).symm
      intro before x hbefore hpolarity w hw
      refine hnothing before x hbefore hpolarity w ?_
      rw [(hpart ((List.prefix_append before _).trans hbefore)).2]
      exact hw
    · intro hagree before x hbefore hpolarity w hw
      rw [(hpart ((List.prefix_append before _).trans hbefore)).2] at hw
      refine (actEach_eq_iff m.leaves []).mp (fun part h => ?_) before x hbefore hpolarity w hw
      rw [← (hpart h).1, ← (hpart h).2]
      exact (hagree part h).symm
  refine ⟨hleaves, hiff, fun hnothing => ?_⟩
  have hwhole := hiff.mp hnothing m.leaves (List.prefix_refl _)
  rw [apply, hleaves [] rfl, hleaves [[]] rfl]
  exact hwhole

/-- A `b` is toggled behind an `a` that has been put on, which is no `b`. -/
theorem applyStems_nil_of_toggle :
    let m := composite [.interfix ⟨.only ['s'], .remove⟩,
      .conditional ⟨[.isAt .start (.only ['a'])]⟩ .identity
        (.affix (.atStart (.only ['a']) .insert)),
      .affix (.atEnd (.only ['b']) .toggle)]
    m.FindsNothing ∧ (m.applyStems []).map List.flatten = m.apply [] ∧
      m.apply [] = .ok ['a', 'b'] := by
  intro m
  have hleaves : m.leaves = [.interfix ⟨.only ['s'], .remove⟩,
      .affix (.atStart (.only ['a']) .insert), .affix (.atEnd (.only ['b']) .toggle)] := rfl
  have hnothing : m.FindsNothing := by
    intro before x hbefore hpolarity w hw
    rw [hleaves] at hbefore
    match before with
    | [] => cases (List.cons_prefix_cons.mp hbefore).1
    | [first] =>
      obtain ⟨-, hmore⟩ := List.cons_prefix_cons.mp hbefore
      cases (List.cons_prefix_cons.mp hmore).1
      exact absurd rfl hpolarity
    | [first, second] =>
      obtain ⟨rfl, hmore⟩ := List.cons_prefix_cons.mp hbefore
      obtain ⟨rfl, hlast⟩ := List.cons_prefix_cons.mp hmore
      cases (List.cons_prefix_cons.mp hlast).1
      obtain rfl : w = ['a'] := by
        cases hw
        rfl
      decide
    | first :: second :: third :: more =>
      have hlength := hbefore.length_le
      simp only [List.length_append, List.length_cons, List.length_nil] at hlength
      omega
  exact ⟨hnothing, (applyStems_nil_iff m).2.2 hnothing, by decide +kernel⟩

/-- An `a` is put on and taken off again. -/
theorem applyStems_nil_ne :
    let m := composite [.affix (.atStart (.only ['a']) .insert),
      .affix (.atStart (.only ['a']) .remove)]
    (m.applyStems []).map List.flatten = .ok [] ∧ m.apply [] = .ok ['a'] ∧
      (m.applyStems []).map List.flatten ≠ (m.applyStems [[]]).map List.flatten := by
  decide +kernel

end Morpheme

end WordFormation
