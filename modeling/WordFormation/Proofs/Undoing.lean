/-
  WordFormation/Proofs/Undoing.lean
  =================================
  **When the antonym of a rule that only inserts gives the word back.**

  The antonym takes the affixes off again, the last one first.  But it asks for
  each of them whether it is present, and it asks the word that its stage began
  with.  Of two prefixes of one group the second covers the first: `a` and then
  `b` put in front of `c` make `bac`, which does not begin with `a`.  So `b` is
  taken off and `a` is left.

  This is all that can go wrong.  The word comes back exactly if after every group
  each affix of the group still stands at its edge (`antonym_apply_iff`), and it
  does so if no group has two affixes at the same edge (`antonym_apply_of_nodup`).

  What is put on is followed as a list of attachments.  Taking them off goes
  through the list in reverse and can only lose letters where an attachment is
  found.  So a word that is short enough in the end has lost all of them
  (`eq_attachAll_of_detachAll`).
-/
import WordFormation.Proofs.EdgeLetters
import WordFormation.Rule

namespace WordFormation

/-! ### Putting letters on and taking them off -/

namespace Attachment

def attachAll : List Attachment → Word → Word
  | [], w => w
  | x :: xs, w => attachAll xs (x.edge.attach x.letters w)

/-- Take off, one after the other, the letters that were seen to be there. -/
def detachAll (seen : Word) : List Attachment → Word → Word
  | [], w => w
  | x :: xs, w =>
    if x.edge.isTouchedBy x.letters seen then
      detachAll seen xs (x.edge.detach x.letters w)
    else
      detachAll seen xs w

def totalLength : List Attachment → Nat
  | [] => 0
  | x :: xs => x.letters.length + totalLength xs

theorem totalLength_append (xs ys : List Attachment) :
    totalLength (xs ++ ys) = totalLength xs + totalLength ys := by
  induction xs with
  | nil => exact (Nat.zero_add _).symm
  | cons x xs ih => rw [List.cons_append, totalLength, totalLength, ih, Nat.add_assoc]

theorem totalLength_reverse (xs : List Attachment) : totalLength xs.reverse = totalLength xs := by
  induction xs with
  | nil => rfl
  | cons x xs ih =>
    rw [List.reverse_cons, totalLength_append, ih, totalLength, totalLength, totalLength,
      Nat.add_zero, Nat.add_comm]

theorem attachAll_append (xs ys : List Attachment) (w : Word) :
    attachAll (xs ++ ys) w = attachAll ys (attachAll xs w) := by
  induction xs generalizing w with
  | nil => rfl
  | cons x xs ih => exact ih _

theorem detachAll_append (seen : Word) (xs ys : List Attachment) (w : Word) :
    detachAll seen (xs ++ ys) w = detachAll seen ys (detachAll seen xs w) := by
  induction xs generalizing w with
  | nil => rfl
  | cons x xs ih =>
    simp only [List.cons_append, detachAll]
    split
    · exact ih _
    · exact ih _

theorem length_attachAll (xs : List Attachment) (w : Word) :
    (attachAll xs w).length = w.length + totalLength xs := by
  induction xs generalizing w with
  | nil => rfl
  | cons x xs ih =>
    rw [attachAll, ih, Edge.length_attach, totalLength, Nat.add_assoc]

/-- One step of taking off: the letters were seen and are lost, or nothing is. -/
theorem detachAll_singleton (seen : Word) (x : Attachment) (w : Word) :
    x.edge.isTouchedBy x.letters seen = true ∧
        w = x.edge.attach x.letters (detachAll seen [x] w) ∨
      detachAll seen [x] w = w := by
  simp only [detachAll]
  by_cases hseen : x.edge.isTouchedBy x.letters seen = true
  · rw [if_pos hseen]
    by_cases hthere : x.edge.isTouchedBy x.letters w = true
    · exact .inl ⟨hseen, (Edge.attach_detach hthere).symm⟩
    · exact .inr (Edge.detach_of_missing hthere)
  · right
    rw [if_neg hseen]

/-- Taking off loses no more letters than there are to take off. -/
theorem length_le_detachAll (seen : Word) (xs : List Attachment) (w : Word) :
    w.length ≤ (detachAll seen xs w).length + totalLength xs := by
  induction xs generalizing w with
  | nil => exact Nat.le_refl _
  | cons x xs ih =>
    have hsplit : detachAll seen (x :: xs) w = detachAll seen xs (detachAll seen [x] w) :=
      detachAll_append seen [x] xs w
    have hrest := ih (detachAll seen [x] w)
    rw [hsplit, totalLength]
    rcases detachAll_singleton seen x w with ⟨-, hw⟩ | hw
    · have hlength := Edge.length_attach x.edge x.letters (detachAll seen [x] w)
      rw [← hw] at hlength
      omega
    · rw [hw] at hrest ⊢
      omega

/-- What was seen to be there is taken off again. -/
theorem detachAll_attachAll (seen : Word) {xs : List Attachment}
    (h : ∀ x ∈ xs, x.edge.isTouchedBy x.letters seen = true) (w : Word) :
    detachAll seen xs.reverse (attachAll xs w) = w := by
  induction xs generalizing w with
  | nil => rfl
  | cons x xs ih =>
    have hrest := ih (fun y hy => h y (List.mem_cons_of_mem x hy)) (x.edge.attach x.letters w)
    have hseen := h x List.mem_cons_self
    rw [List.reverse_cons, detachAll_append, attachAll, hrest]
    simp only [detachAll, hseen, if_true, Edge.detach_attach]

/-- A word that loses as many letters as there are to take off had all of them on,
    and each of them was seen. -/
theorem eq_attachAll_of_detachAll {seen : Word} {xs : List Attachment}
    (hne : ∀ x ∈ xs, x.letters ≠ []) {v w : Word} (h : detachAll seen xs.reverse v = w)
    (hlength : w.length + totalLength xs ≤ v.length) :
    v = attachAll xs w ∧ ∀ x ∈ xs, x.edge.isTouchedBy x.letters seen = true := by
  induction xs generalizing w with
  | nil =>
    refine ⟨h, ?_⟩
    intro x hx
    cases hx
  | cons x xs ih =>
    -- `x` was put on first, so it is taken off last
    rw [List.reverse_cons, detachAll_append] at h
    rw [totalLength] at hlength
    have hpos := List.length_pos_iff.mpr (hne x List.mem_cons_self)
    have hothers : ∀ y ∈ xs, y.letters ≠ [] := fun y hy => hne y (List.mem_cons_of_mem x hy)
    have hbound := length_le_detachAll seen xs.reverse v
    rw [totalLength_reverse] at hbound
    rcases detachAll_singleton seen x (detachAll seen xs.reverse v) with ⟨hseen, hx⟩ | hx
    · rw [h] at hx
      have hattach := Edge.length_attach x.edge x.letters w
      obtain ⟨hv, hall⟩ := ih hothers hx (by omega)
      refine ⟨hv, ?_⟩
      intro y hy
      rcases List.mem_cons.mp hy with rfl | hy
      · exact hseen
      · exact hall y hy
    · rw [h] at hx
      rw [← hx] at hbound
      omega

/-- Two affixes at different edges do not cover each other. -/
theorem isTouchedBy_attachAll {xs : List Attachment} (hnodup : (xs.map edge).Nodup) (w : Word) :
    ∀ x ∈ xs, x.edge.isTouchedBy x.letters (attachAll xs w) = true := by
  have hkept : ∀ (ys : List Attachment) (x : Attachment) (v : Word), x.edge ∉ ys.map edge →
      x.edge.isTouchedBy x.letters v = true →
      x.edge.isTouchedBy x.letters (attachAll ys v) = true := by
    intro ys
    induction ys with
    | nil =>
      intro x v _ h
      exact h
    | cons y ys ih =>
      intro x v hnot h
      rw [List.map_cons, List.mem_cons, not_or] at hnot
      exact ih x _ hnot.2 (Edge.isTouchedBy_attach_of_ne hnot.1 _ h)
  induction xs generalizing w with
  | nil =>
    intro x hx
    cases hx
  | cons y xs ih =>
    intro x hx
    rw [List.map_cons, List.nodup_cons] at hnodup
    rcases List.mem_cons.mp hx with rfl | hx
    · exact hkept xs x _ hnodup.1 (x.edge.isTouchedBy_attach x.letters w)
    · exact ih hnodup.2 _ x hx

/-! ### Group after group -/

/-- The word after the attachments of every group. -/
def grow : List (List Attachment) → Word → Word
  | [], w => w
  | xs :: xss, w => grow xss (attachAll xs w)

/-- The word after the attachments of every group are taken off, those of the last
    group first.  Each group sees the word as it was left for it. -/
def shrink : List (List Attachment) → Word → Word
  | [], w => w
  | xs :: xss, w => detachAll (shrink xss w) xs.reverse (shrink xss w)

/-- After every group each of its attachments stands at its edge. -/
def AllStand : List (List Attachment) → Word → Prop
  | [], _ => True
  | xs :: xss, w =>
    (∀ x ∈ xs, x.edge.isTouchedBy x.letters (attachAll xs w) = true) ∧
      AllStand xss (attachAll xs w)

theorem length_grow_le_shrink (xss : List (List Attachment)) (v w : Word)
    (h : (grow xss w).length ≤ v.length) : w.length ≤ (shrink xss v).length := by
  induction xss generalizing w with
  | nil => exact h
  | cons xs xss ih =>
    have hrest := ih (attachAll xs w) h
    have hloss := length_le_detachAll (shrink xss v) xs.reverse (shrink xss v)
    rw [length_attachAll] at hrest
    rw [totalLength_reverse] at hloss
    rw [shrink]
    omega

theorem shrink_grow_iff {xss : List (List Attachment)}
    (hne : ∀ xs ∈ xss, ∀ x ∈ xs, x.letters ≠ []) (w : Word) :
    shrink xss (grow xss w) = w ↔ AllStand xss w := by
  induction xss generalizing w with
  | nil => exact ⟨fun _ => trivial, fun _ => rfl⟩
  | cons xs xss ih =>
    have hfirst : ∀ x ∈ xs, x.letters ≠ [] := hne xs List.mem_cons_self
    have hothers := ih (fun ys hys => hne ys (List.mem_cons_of_mem xs hys)) (attachAll xs w)
    rw [grow, shrink, AllStand]
    constructor
    · intro h
      -- no letters can be missing when the first group is reached
      have hlong := length_grow_le_shrink xss (grow xss (attachAll xs w)) (attachAll xs w)
        (Nat.le_refl _)
      rw [length_attachAll] at hlong
      obtain ⟨hword, hseen⟩ := eq_attachAll_of_detachAll hfirst h hlong
      rw [hword] at hseen
      exact ⟨hseen, hothers.mp hword⟩
    · rintro ⟨hseen, hstand⟩
      rw [hothers.mpr hstand]
      exact detachAll_attachAll (attachAll xs w) hseen w

end Attachment

/-! ### Affixes that put letters on or take them off -/

namespace Attachment

theorem applyObserving_insert (x : Attachment) (w : Word) (observed : List Word) :
    (Morpheme.affix (x.affix .insert)).applyObserving [w] observed =
      .ok [attachAll [x] w] :=
  x.applyObserving_affix .insert w observed

theorem applyObserving_remove {x : Attachment} (hx : x.letters ≠ []) (w seen : Word) :
    (Morpheme.affix (x.affix .remove)).applyObserving [w] [seen] =
      .ok [detachAll seen [x] w] := by
  have hact : x.act .remove seen w = detachAll seen [x] w := by
    rw [act, Allomorphs.standsAt_only hx]
    rfl
  rw [← hact]
  exact x.applyObserving_affix .remove w [seen]

end Attachment

/-! ### Rules that only insert -/

/-- The operation puts letters on, always the same ones. -/
inductive Operation.IsInsertion : Operation → Prop where
  | before {l : Word} (h : l ≠ []) : IsInsertion (.putBefore (.only l) .insert)
  | after {l : Word} (h : l ≠ []) : IsInsertion (.putAfter (.only l) .insert)
  | around {l l' : Word} (h : l ≠ []) (h' : l' ≠ []) :
      IsInsertion (.putAround (.only l) (.only l') .insert)

/-- The letters of an affix that has one form at each of its edges. -/
def Operation.attachments : Operation → List Attachment
  | .affix .prefixed _ [.form l _] => [⟨.start, l⟩]
  | .affix .postfixed _ [.form l _] => [⟨.final, l⟩]
  | .affix .circumfixed _ [.form l _, .form l' _] => [⟨.start, l⟩, ⟨.final, l'⟩]
  | _ => []

def attachmentsOf (xs : List Operation) : List Attachment := xs.flatMap Operation.attachments

open Attachment

/-- A morpheme puts the attachments on, and its antonym takes them off. -/
structure Morpheme.Attaches (m : Morpheme) (xs : List Attachment) : Prop where
  letters : ∀ x ∈ xs, x.letters ≠ []
  apply : ∀ w observed, m.applyObserving [w] observed = .ok [attachAll xs w]
  antonym : ∀ w seen, m.antonym.applyObserving [w] [seen] = .ok [detachAll seen xs.reverse w]

theorem Morpheme.attaches_affix {x : Attachment} (hx : x.letters ≠ []) :
    (Morpheme.affix (x.affix .insert)).Attaches [x] := by
  refine ⟨?_, ?_, ?_⟩
  · intro y hy
    rw [List.mem_singleton.mp hy]
    exact hx
  · exact applyObserving_insert x
  · exact applyObserving_remove hx

/-- Morphemes one after the other put the attachments on, and their antonyms the
    other way round take them off. -/
structure AttachEach (ms : List Morpheme) (xs : List Attachment) : Prop where
  letters : ∀ x ∈ xs, x.letters ≠ []
  apply : ∀ w observed, Morpheme.applyEach ms [w] observed = .ok [attachAll xs w]
  antonym : ∀ w seen, Morpheme.applyEach (ms.map Morpheme.antonym).reverse [w] [seen] =
    .ok [detachAll seen xs.reverse w]

theorem applyEach_append (ms ms' : List Morpheme) (stems observed : List Word) :
    Morpheme.applyEach (ms ++ ms') stems observed =
      Morpheme.applyEach ms stems observed >>= fun changed =>
        Morpheme.applyEach ms' changed observed := by
  induction ms generalizing stems with
  | nil => rfl
  | cons m ms ih =>
    simp only [List.cons_append, Morpheme.applyEach, bind_assoc]
    congr 1
    funext changed
    exact ih changed

theorem attachEach_nil : AttachEach [] [] := by
  refine ⟨?_, fun _ _ => rfl, fun _ _ => rfl⟩
  intro x hx
  cases hx

theorem attachEach_cons {m : Morpheme} {ms : List Morpheme} {xs ys : List Attachment}
    (hm : m.Attaches xs) (hms : AttachEach ms ys) : AttachEach (m :: ms) (xs ++ ys) := by
  refine ⟨?_, ?_, ?_⟩
  · intro x hx
    rcases List.mem_append.mp hx with hx | hx
    · exact hm.letters x hx
    · exact hms.letters x hx
  · intro w observed
    rw [Morpheme.applyEach, hm.apply, ok_bind, hms.apply, attachAll_append]
  · intro w seen
    rw [List.map_cons, List.reverse_cons, applyEach_append, hms.antonym, ok_bind,
      Morpheme.applyEach, hm.antonym, ok_bind, List.reverse_append, detachAll_append]
    rfl

theorem AttachEach.composite {ms : List Morpheme} {xs : List Attachment} (h : AttachEach ms xs) :
    (Morpheme.composite ms).Attaches xs := by
  refine ⟨h.letters, ?_, ?_⟩
  · intro w observed
    rw [Morpheme.applyObserving, h.apply]
  · intro w seen
    rw [Morpheme.antonym, Morpheme.applyObserving, Morpheme.antonymEach_eq_map, h.antonym]

theorem Operation.IsInsertion.exists_attaches {x : Operation} (h : x.IsInsertion) :
    ∃ m, x.assemble = .ok m ∧ m.Attaches x.attachments := by
  cases h with
  | @before l hl => exact ⟨_, rfl, Morpheme.attaches_affix (x := ⟨.start, l⟩) hl⟩
  | @after l hl => exact ⟨_, rfl, Morpheme.attaches_affix (x := ⟨.final, l⟩) hl⟩
  | @around l l' hl hl' =>
    have hfront := Morpheme.attaches_affix (x := ⟨.start, l⟩) hl
    have hback := Morpheme.attaches_affix (x := ⟨.final, l'⟩) hl'
    exact ⟨_, rfl, (attachEach_cons hfront (attachEach_cons hback attachEach_nil)).composite⟩

theorem exists_attachEach {xs : List Operation} (h : ∀ x ∈ xs, x.IsInsertion) :
    ∃ stage, assembleGroup xs = .ok stage ∧ AttachEach stage (attachmentsOf xs) := by
  induction xs with
  | nil => exact ⟨[], rfl, attachEach_nil⟩
  | cons x xs ih =>
    obtain ⟨m, hm, hattaches⟩ := (h x List.mem_cons_self).exists_attaches
    obtain ⟨stage, hstage, hothers⟩ := ih fun y hy => h y (List.mem_cons_of_mem x hy)
    refine ⟨m :: stage, ?_, attachEach_cons hattaches hothers⟩
    rw [assembleGroup, hm, ok_bind, hstage]
    rfl

/-- A rule that only inserts makes its word grow, and its antonym makes it shrink. -/
theorem exists_stages {groups : List (List Operation)}
    (h : ∀ g ∈ groups, ∀ x ∈ g, x.IsInsertion) :
    ∃ stages, assembleGroups groups = .ok stages ∧
      (∀ xs ∈ groups.map attachmentsOf, ∀ x ∈ xs, x.letters ≠ []) ∧
      (∀ w, runStages stages [w] = .ok [grow (groups.map attachmentsOf) w]) ∧
      ∀ w, runStages ((stages.map fun stage => (stage.map Morpheme.antonym).reverse).reverse) [w] =
        .ok [shrink (groups.map attachmentsOf) w] := by
  induction groups with
  | nil =>
    refine ⟨[], rfl, ?_, fun _ => rfl, fun _ => rfl⟩
    intro xs hxs
    cases hxs
  | cons g groups ih =>
    obtain ⟨stage, hstage, hattach⟩ := exists_attachEach (h g List.mem_cons_self)
    obtain ⟨stages, hstages, hletters, hgrow, hshrink⟩ :=
      ih fun g' hg' => h g' (List.mem_cons_of_mem g hg')
    refine ⟨stage :: stages, ?_, ?_, ?_, ?_⟩
    · rw [assembleGroups, hstage, ok_bind, hstages]
      rfl
    · intro xs hxs
      rcases List.mem_cons.mp hxs with rfl | hxs
      · exact hattach.letters
      · exact hletters xs hxs
    · intro w
      rw [runStages, runStage, hattach.apply, ok_bind, hgrow]
      rfl
    · intro w
      rw [List.map_cons, List.reverse_cons, runStages_append, hshrink, ok_bind, runStages, runStage,
        hattach.antonym, ok_bind]
      rfl

/-- The attachments of every group of a blueprint. -/
def Blueprint.attachments (b : Blueprint) : List (List Attachment) := b.groups.map attachmentsOf

theorem exists_rule {b : Blueprint} (h : ∀ g ∈ b.groups, ∀ x ∈ g, x.IsInsertion) :
    ∃ r, Rule.ofBlueprint b = .ok r ∧
      (∀ xs ∈ b.attachments, ∀ x ∈ xs, x.letters ≠ []) ∧
      (∀ w, r.apply w = .ok (grow b.attachments w)) ∧
      ∀ w, r.antonym.apply w = .ok (shrink b.attachments w) := by
  obtain ⟨stages, hstages, hletters, hgrow, hshrink⟩ := exists_stages h
  refine ⟨⟨b, stages⟩, ?_, hletters, ?_, ?_⟩
  · rw [Rule.ofBlueprint, hstages]
    rfl
  · intro w
    rw [Rule.apply, hgrow]
    exact congrArg Except.ok (List.flatten_singleton ..)
  · intro w
    rw [Rule.apply, Rule.antonym, hshrink]
    exact congrArg Except.ok (List.flatten_singleton ..)

/-- **The antonym of a rule that only inserts gives the word back exactly if after
    every group all affixes of the group stand at their edges.**  Both rules can be
    applied to every word. -/
theorem Rule.antonym_apply_iff {b : Blueprint} (h : ∀ g ∈ b.groups, ∀ x ∈ g, x.IsInsertion) :
    ∃ r, Rule.ofBlueprint b = .ok r ∧ ∀ w,
      r.apply w = .ok (grow b.attachments w) ∧
      ∃ w', r.antonym.apply (grow b.attachments w) = .ok w' ∧
        (w' = w ↔ AllStand b.attachments w) := by
  obtain ⟨r, hr, hletters, hgrow, hshrink⟩ := exists_rule h
  refine ⟨r, hr, ?_⟩
  intro w
  exact ⟨hgrow w, _, hshrink _, shrink_grow_iff hletters w⟩

/-- A circumfix, and then a postfix. -/
def Blueprint.circumfixed : Blueprint where
  groups := [[.putAround (.only ['g', 'e']) (.only ['t']) .insert],
    [.putAfter (.only ['e']) .insert]]

theorem Rule.antonym_apply_gemachte :
    (∀ g ∈ Blueprint.circumfixed.groups, ∀ x ∈ g, x.IsInsertion) ∧
    ∃ r, Rule.ofBlueprint .circumfixed = .ok r ∧
      r.apply ['m', 'a', 'c', 'h'] = .ok ['g', 'e', 'm', 'a', 'c', 'h', 't', 'e'] ∧
      r.antonym.apply ['g', 'e', 'm', 'a', 'c', 'h', 't', 'e'] = .ok ['m', 'a', 'c', 'h'] := by
  have hinsertions : ∀ g ∈ Blueprint.circumfixed.groups, ∀ x ∈ g, x.IsInsertion := by
    intro g hg x hx
    rcases List.mem_cons.mp hg with rfl | hg
    · rw [List.mem_singleton.mp hx]
      exact Operation.IsInsertion.around (by decide) (by decide)
    · rw [List.mem_singleton.mp hg] at hx
      rw [List.mem_singleton.mp hx]
      exact Operation.IsInsertion.after (by decide)
  obtain ⟨r, hr, happly⟩ := antonym_apply_iff hinsertions
  obtain ⟨hmade, w', hundone, hback⟩ := happly ['m', 'a', 'c', 'h']
  have hstand : AllStand Blueprint.circumfixed.attachments ['m', 'a', 'c', 'h'] :=
    ⟨by decide, by decide, trivial⟩
  rw [hback.mpr hstand] at hundone
  exact ⟨hinsertions, r, hr, hmade, hundone⟩

/-- A prefix that another one of its group covers is not taken off again. -/
theorem Rule.antonym_leaves_covered :
    (Operation.putBefore (.only ['a']) .insert).IsInsertion ∧
    (Operation.putBefore (.only ['b']) .insert).IsInsertion ∧
    ∃ r, Rule.ofBlueprint ⟨none, [[.putBefore (.only ['a']) .insert,
        .putBefore (.only ['b']) .insert]]⟩ = .ok r ∧
      r.apply ['c'] = .ok ['b', 'a', 'c'] ∧
      r.antonym.apply ['b', 'a', 'c'] = .ok ['a', 'c'] := by
  refine ⟨Operation.IsInsertion.before (by decide), Operation.IsInsertion.before (by decide), ?_⟩
  exact ⟨_, rfl, rfl, rfl⟩

/-- With at most one affix at each edge in every group, nothing is covered. -/
theorem allStand_of_nodup {xss : List (List Attachment)}
    (h : ∀ xs ∈ xss, (xs.map Attachment.edge).Nodup) (w : Word) : AllStand xss w := by
  induction xss generalizing w with
  | nil => trivial
  | cons xs xss ih =>
    exact ⟨isTouchedBy_attachAll (h xs List.mem_cons_self) w,
      ih (fun ys hys => h ys (List.mem_cons_of_mem xs hys)) _⟩

theorem Rule.antonym_apply_of_nodup {b : Blueprint}
    (h : ∀ g ∈ b.groups, ∀ x ∈ g, x.IsInsertion)
    (hnodup : ∀ xs ∈ b.attachments, (xs.map Attachment.edge).Nodup) {r : Rule}
    (hr : Rule.ofBlueprint b = .ok r) (w : Word) :
    (r.apply w >>= r.antonym.apply) = .ok w := by
  obtain ⟨r', hr', hletters, hgrow, hshrink⟩ := exists_rule h
  rw [hr] at hr'
  cases hr'
  rw [hgrow, ok_bind, hshrink, (shrink_grow_iff hletters w).mpr (allStand_of_nodup hnodup w)]

end WordFormation
