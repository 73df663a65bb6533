/-
  WordFormation/Proofs/EditFailures.lean
  ======================================
  **Why an edit fails, and that a failed edit has done nothing.**

  Position `0` addresses nothing, and an edit there always fails.  Any other edit
  fails for one of two reasons: its unit does not exist, or its window holds
  another text than the one to remove.  The failure says which, counts the units
  in the first case, and shows what stands in the window in the second, in reading
  order and as far as the window lies in the word (`FailsFaithfully`).  That an edit
  does not fail can be asked beforehand (`isApplicable`).

  A lenient edit gives the word back where a strict one fails for either of these
  reasons, and does the same where it does not fail (`apply_fails_faithfully`).
-/
import WordFormation.Proofs.EditWindow

namespace WordFormation

theorem isOk_solveReversed (p : Position) (w : Word) (solve : Word → Edited Word) :
    (solveReversed p w solve).isOk = (solve w.reverse).isOk := by
  unfold solveReversed
  cases solve w.reverse <;> rfl

namespace Edit

/-- The same edit, which fails on a word that it does not fit. -/
def strictly (e : Edit) : Edit := { e with strict := true }

/-- What stands in the window of an edit, `u` being the index of its unit. -/
def found (e : Edit) (w : Word) (u : Int) : Word :=
  w.stretch (e.windowStart u) (e.windowStart u + e.removed.length)

/-- An edit whose position counts off `k` units says of a word why it fails. -/
structure FailsFaithfully (e : Edit) (w : Word) (k : Nat) : Prop where
  /-- It can be told beforehand whether the edit fails. -/
  isOk_eq : (e.apply w).isOk = e.isApplicable w
  /-- It is out of range exactly if its unit does not exist. -/
  eq_outOfRange_iff : e.apply w = .error (.outOfRange e.place (e.units w)) ↔
    ∀ u, ¬ e.Addresses w k u
  /-- Where the unit exists, the window holds another text than expected. -/
  eq_mismatch : ∀ u, e.Addresses w k u → e.isApplicable w = false →
    e.found w u ≠ e.removed ∧
      e.apply w = .error (.mismatch e.removed (e.found w u) e.place)

/-! ### Applicable edits -/

theorem isOk_carry (e : Edit) (w : Word) : (e.carry w).isOk = (e.check w e.removed).isOk := by
  unfold carry
  cases e.check w e.removed <;> rfl

/-- An edit is applicable to the words on which its text can be carried out. -/
theorem isApplicable_eq (e : Edit) (w : Word) : e.isApplicable w = (e.solve w carry).isOk := by
  unfold isApplicable probe solve
  cases e.place.fromEnd with
  | true => simp only [if_true, isOk_solveReversed, isOk_carry]
  | false => simp only [Bool.false_eq_true, if_false, isOk_carry]

/-! ### What stands in a window -/

/-- The window of an edit that removes nothing lies in the word. -/
theorem windowStart_bounds {e : Edit} {w : Word} {k : Nat} {u : Int}
    (h : e.Addresses w k u) (hremoved : e.removed = []) :
    0 ≤ e.windowStart u ∧ e.windowStart u ≤ w.length := by
  have hlength : e.removed.length = 0 := by rw [hremoved]; rfl
  have hsplit : ∀ (front : Word) (x : Char) (back : Word), w = front ++ x :: back →
      front.length < w.length := by
    rintro front x back rfl
    simp only [List.length_append, List.length_cons]
    omega
  unfold Addresses at h
  unfold windowStart
  rw [hlength]
  split at h
  · next hpos =>
    simp only [hpos, if_true]
    rcases h with ⟨front, x, back, hw, -, -, rfl⟩ | ⟨-, hside, rfl⟩
    · have hlt := hsplit front x back hw
      rcases e.effectiveSide with _ | _ | _
      · dsimp only
        split <;> omega
      · dsimp only
        omega
      · dsimp only
        omega
    · simp only [hside]
      split <;> omega
  · next hneg =>
    simp only [hneg, if_false]
    rcases h with ⟨front, x, back, hw, -, -, rfl⟩ | ⟨-, hside, rfl⟩
    · have hlt := hsplit front x back hw
      rcases e.effectiveSide with _ | _ | _
      · dsimp only
        omega
      · dsimp only
        omega
      · dsimp only
        split <;> omega
    · simp only [hside]
      split <;> omega

/-- If the text to remove stands in the window, it can be cut out there. -/
theorem exists_isCutOut_of_found {e : Edit} {w : Word} {k : Nat} {u : Int}
    (h : e.Addresses w k u) (hfound : e.found w u = e.removed) :
    ∃ front back, e.IsCutOut w (e.windowStart u) front back := by
  have hlength := congrArg List.length hfound
  simp only [found, Word.stretch, List.length_drop, List.length_take] at hlength
  have hbounds : 0 ≤ e.windowStart u ∧ e.windowStart u ≤ w.length := by
    by_cases hremoved : e.removed = []
    · exact windowStart_bounds h hremoved
    · have hpos := List.length_pos_iff.mpr hremoved
      omega
  obtain ⟨start, hstart⟩ := Int.eq_ofNat_of_zero_le hbounds.1
  refine ⟨w.take start, w.drop (start + e.removed.length), ?_⟩
  rw [hstart, isCutOut_iff]
  refine ⟨rfl, rfl, by omega, ?_⟩
  have hstop : ((start : Int) + e.removed.length).toNat = start + e.removed.length := by omega
  rw [found, Word.stretch, hstart, hstop, Int.toNat_natCast, List.drop_take,
    Nat.add_sub_cancel_left] at hfound
  exact hfound

/-! ### Strict edits -/

namespace ReplacesWindow

variable {e : Edit} {w : Word} {k : Nat}

/-- The three outcomes of an edit. -/
theorem outcome (h : e.ReplacesWindow w k) :
    (∃ w', e.apply w = .ok w') ∨
    ((∀ u, ¬ e.Addresses w k u) ∧ e.apply w = .error (.outOfRange e.place (e.units w))) ∨
    ∃ u, e.Addresses w k u ∧ e.apply w = .error (.mismatch e.removed (e.found w u) e.place) := by
  by_cases hunit : ∃ u, e.Addresses w k u
  · obtain ⟨u, hu⟩ := hunit
    by_cases hcut : ∃ front back, e.IsCutOut w (e.windowStart u) front back
    · obtain ⟨front, back, hcut⟩ := hcut
      exact .inl ⟨_, (h.eq_ok_iff _).mpr ⟨u, front, back, hu, hcut, rfl⟩⟩
    · have hnone := fun front back hcut' => hcut ⟨front, back, hcut'⟩
      exact .inr (.inr ⟨u, hu, h.eq_mismatch u hu hnone⟩)
  · have hnone := fun u hu => hunit ⟨u, hu⟩
    exact .inr (.inl ⟨hnone, h.eq_outOfRange hnone⟩)

theorem apply_ne_zeroIndex (h : e.ReplacesWindow w k) : e.apply w ≠ .error .zeroIndex := by
  intro hzero
  rcases h.outcome with ⟨w', hok⟩ | ⟨-, hrange⟩ | ⟨u, -, hmismatch⟩
  · rw [hok] at hzero
    cases hzero
  · rw [hrange] at hzero
    cases hzero
  · rw [hmismatch] at hzero
    cases hzero

theorem failsFaithfully (h : e.ReplacesWindow w k)
    (happlicable : (e.apply w).isOk = e.isApplicable w) : e.FailsFaithfully w k := by
  refine ⟨happlicable, ⟨fun hfails u hu => ?_, h.eq_outOfRange⟩, fun u hu hnot => ?_⟩
  · rcases h.outcome with ⟨w', hok⟩ | ⟨hnone, -⟩ | ⟨u', -, hmismatch⟩
    · rw [hok] at hfails
      cases hfails
    · exact hnone u hu
    · rw [hmismatch] at hfails
      cases hfails
  · have hmissing : ∀ front back, ¬ e.IsCutOut w (e.windowStart u) front back := by
      intro front back hcut
      have hok := (h.eq_ok_iff _).mpr ⟨u, front, back, hu, hcut, rfl⟩
      rw [← happlicable, hok] at hnot
      cases hnot
    refine ⟨fun hfound => ?_, h.eq_mismatch u hu hmissing⟩
    obtain ⟨front, back, hcut⟩ := exists_isCutOut_of_found hu hfound
    exact hmissing front back hcut

end ReplacesWindow

/-- Units that the word does not have are all alike. -/
theorem FailsFaithfully.of_units_lt {e : Edit} {w : Word} {k k' : Nat}
    (hk : e.units w + 1 < k) (hk' : e.units w + 1 < k') (h : e.FailsFaithfully w k) :
    e.FailsFaithfully w k' where
  isOk_eq := h.isOk_eq
  eq_outOfRange_iff := by
    rw [h.eq_outOfRange_iff]
    exact iff_of_true (not_addresses_of_units_lt hk) (not_addresses_of_units_lt hk')
  eq_mismatch u hu := absurd hu (not_addresses_of_units_lt hk' u)

/-! ### All edits -/

theorem apply_of_zero {e : Edit} (hzero : e.place.val = 0)
    (htexts : e.removed ≠ [] ∨ e.inserted ≠ []) (w : Word) : e.apply w = .error .zeroIndex := by
  have hfromEnd : e.place.fromEnd = false := by simp [Position.fromEnd, hzero]
  have hcarry : e.carry w = .error .zeroIndex := by
    simp only [carry, check, window, hzero, if_true]
    rfl
  rw [apply_eq_attempt htexts]
  simp only [attempt, solve, hfromEnd, Bool.false_eq_true, if_false, hcarry]

/-- A lenient edit comes out as what was carried out, or else as the word. -/
theorem attempt_eq_ok_iff_of_lenient {e : Edit} (hlenient : e.strict = false) {w w' : Word}
    {act : Edit → Word → Edited Word} (hzero : e.solve w act ≠ .error .zeroIndex) :
    e.attempt w act = .ok w' ↔
      e.solve w act = .ok w' ∨ w' = w ∧ ∃ failure, e.solve w act = .error failure := by
  unfold attempt
  cases hout : e.solve w act with
  | ok result => simp
  | error failure =>
    cases failure with
    | zeroIndex => exact absurd hout hzero
    | outOfRange place units => simp [hlenient, eq_comm]
    | mismatch expected found place => simp [hlenient, eq_comm]

/-- **An edit says why it fails, and a lenient one does nothing instead.**  It fails
    exactly on the words that it is not applicable to: because its unit does not
    exist, or else because its window holds another text than the one to remove. -/
theorem apply_fails_faithfully {e : Edit} (htexts : e.removed ≠ [] ∨ e.inserted ≠ [])
    (w : Word) :
    (e.place.val = 0 → e.apply w = .error .zeroIndex) ∧
    (e.place.val ≠ 0 →
      e.strictly.FailsFaithfully w e.place.reach ∧
      (e.place.val ≠ -2147483648 ∨ e.units w + 1 < 2147483647 →
        e.strictly.FailsFaithfully w e.place.val.natAbs) ∧
      ∀ w', e.lenient.apply w = .ok w' ↔
        e.strictly.apply w = .ok w' ∨
          w' = w ∧ ∃ failure, e.strictly.apply w = .error failure) := by
  refine ⟨fun hzero => apply_of_zero hzero htexts w, fun hplace => ?_⟩
  have hstrictly : e.strictly.apply w = e.solve w carry :=
    apply_eq_solve (e := e.strictly) rfl htexts w
  have hlenient : e.lenient.apply w = e.lenient.attempt w carry :=
    apply_eq_attempt (e := e.lenient) htexts w
  have hreplaces : e.strictly.ReplacesWindow w e.place.reach :=
    replacesWindow_reach (e := e.strictly) rfl hplace htexts w
  have hfails : e.strictly.FailsFaithfully w e.place.reach := by
    refine hreplaces.failsFaithfully ?_
    rw [hstrictly]
    exact (isApplicable_eq e.strictly w).symm
  refine ⟨hfails, fun hcounts => ?_, fun w' => ?_⟩
  · exact Position.of_reach hcounts (fun _ _ hk hk' h => h.of_units_lt hk hk') hfails
  · have hnonzero : e.lenient.solve w carry ≠ .error .zeroIndex := by
      intro hzero
      exact hreplaces.apply_ne_zeroIndex (hstrictly.trans hzero)
    rw [hlenient, hstrictly]
    exact attempt_eq_ok_iff_of_lenient rfl hnonzero

/-- Behind the last vowel of `kabt` stands `bt`, and nothing of an `o` is left in the
    word.  Position `0` fails leniently as well. -/
theorem apply_fails_at_end_of_word :
    let e : Edit :=
      { removed := ['b', 't', 'o'], inserted := ['x'], place := Position.final, unit := .vowels }
    let nowhere : Edit := { e with place := { val := 0 } }
    (e.removed ≠ [] ∨ e.inserted ≠ []) ∧ e.place.val ≠ 0 ∧
      e.apply ['k', 'a', 'b', 't'] = .error (.mismatch ['b', 't', 'o'] ['b', 't'] e.place) ∧
      e.lenient.apply ['k', 'a', 'b', 't'] = .ok ['k', 'a', 'b', 't'] ∧
      nowhere.lenient.apply ['k', 'a', 'b', 't'] = .error .zeroIndex := by
  intro e nowhere
  have htexts : e.removed ≠ [] ∨ e.inserted ≠ [] := .inl (by decide)
  have hplace : e.place.val ≠ 0 := by decide
  have haddresses : e.strictly.Addresses ['k', 'a', 'b', 't'] e.place.reach 1 := by
    unfold Addresses
    rw [if_neg (by decide)]
    exact .inl ⟨['k'], 'a', ['b', 't'], rfl, by decide, by decide, by decide⟩
  obtain ⟨hfails, -, hlenient⟩ := (apply_fails_faithfully htexts ['k', 'a', 'b', 't']).2 hplace
  obtain ⟨-, hmismatch⟩ := hfails.eq_mismatch 1 haddresses rfl
  refine ⟨htexts, hplace, hmismatch, ?_, ?_⟩
  · exact (hlenient _).mpr (.inr ⟨rfl, _, hmismatch⟩)
  · exact (apply_fails_faithfully (e := nowhere.lenient) htexts _).1 rfl

/-- In front of 2147483646 letters `a` the most negative position looks for a `b` to remove.
    It fails, since nothing stands there, and not since it has no letter or gap of its
    number. -/
theorem apply_mismatch_lowest :
    let e : Edit := { removed := ['b'], inserted := [], place := Position.lowest }
    let w : Word := List.replicate 2147483646 'a'
    (e.removed ≠ [] ∨ e.inserted ≠ []) ∧ e.place.val ≠ 0 ∧
      e.strictly.apply w = .error (.mismatch ['b'] [] e.place) ∧
      (∀ u, ¬ e.Addresses w e.place.val.natAbs u) ∧
      ¬ e.strictly.FailsFaithfully w e.place.val.natAbs := by
  intro e w
  have htexts : e.removed ≠ [] ∨ e.inserted ≠ [] := .inl (by decide)
  have hunits : e.units w + 1 = e.place.reach := by
    rw [e.units_replicate rfl, Position.reach_lowest]
  obtain ⟨hfront, hnone⟩ := addresses_lowest rfl rfl hunits
  -- the window would begin in front of the word
  have houtside : ∀ front back, ¬ e.IsCutOut w (e.windowStart (-1)) front back := by
    rintro front back ⟨-, hstart⟩
    have hneg : e.windowStart (-1) = -1 := rfl
    omega
  have hreplaces := replacesWindow_reach (e := e.strictly) rfl (by decide) htexts w
  have hmismatch : e.strictly.apply w = .error (.mismatch ['b'] [] e.place) :=
    hreplaces.eq_mismatch (-1) hfront houtside
  refine ⟨htexts, by decide, hmismatch, hnone, fun hfails => ?_⟩
  rw [hfails.eq_outOfRange_iff.mpr hnone] at hmismatch
  cases hmismatch

end Edit

end WordFormation
