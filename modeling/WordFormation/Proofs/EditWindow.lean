/-
  WordFormation/Proofs/EditWindow.lean
  ====================================
  **The window that an edit replaces, defined from both ends of the word.**

  An edit that counts from the end is carried out as its mirror image on the
  reversed word.  Its position, its side and its two texts all flip on the way,
  and what "in front of a unit" means differs between letters and the classes of
  letters.  This module says without any of this where an edit lands:

    * `Addresses`    the index of the addressed unit, found by counting units from
                     the left or from the right;
    * `windowStart`  the index at which the window begins, given that unit.

  Both are integers, as a unit may lie in front of the word and a window begin
  there.  The result is `ReplacesWindow`: an edit comes out well exactly if the
  unit exists and the text to remove fills the window, and where it fails the
  failure says which of the two is missing.

  The proof has two halves.  For an edit that counts from the start the
  definitions can be followed as they stand (`addressed?_eq_some_iff`,
  `window_of_addressed?`).  An edit that counts from the end is brought back to
  its mirror image: indices are mirrored (`addresses_mirrored`,
  `windowStart_mirrored`), and so are the words taken apart
  (`isCutOut_windowStart_mirrored`).
-/
import WordFormation.Proofs.MirrorImage

namespace WordFormation

/-! ### The units of a word -/

namespace Alphabet

theorem length_unitPositionsFrom (a : Alphabet) (c : LetterClass) (i : Nat) (w : Word) :
    (a.unitPositionsFrom c i w).length = w.countP (a.isUnit c) := by
  induction w generalizing i with
  | nil => rfl
  | cons x w ih => by_cases hx : a.isUnit c x = true <;> simp [unitPositionsFrom, hx, ih]

/-- The unit with `k` units in front of it. -/
theorem getElem?_unitPositionsFrom (a : Alphabet) (c : LetterClass) (i : Nat) (w : Word)
    (k j : Nat) :
    (a.unitPositionsFrom c i w)[k]? = some j ↔
      ∃ front x back, w = front ++ x :: back ∧
        (a.isUnit c x = true ∧ front.countP (a.isUnit c) = k ∧ j = i + front.length) := by
  induction w generalizing i k with
  | nil => simp [unitPositionsFrom]
  | cons x w ih =>
    rw [exists_cons_split]
    by_cases hx : a.isUnit c x = true
    · cases k with
      | zero =>
        simp only [unitPositionsFrom, hx, if_true, List.getElem?_cons_zero, Option.some.injEq,
          List.countP_cons_of_pos, List.countP_nil, List.length_nil, Nat.add_zero, true_and]
        constructor
        · rintro rfl
          exact .inl rfl
        · rintro (rfl | ⟨front, y, back, -, -, hk, -⟩)
          · rfl
          · omega
      | succ k =>
        simp only [unitPositionsFrom, hx, if_true, List.getElem?_cons_succ, ih,
          List.countP_cons_of_pos, List.countP_nil, List.length_cons]
        constructor
        · rintro ⟨front, y, back, hw, hy, hk, hj⟩
          exact .inr ⟨front, y, back, hw, hy, by omega, by omega⟩
        · rintro (⟨-, hk, -⟩ | ⟨front, y, back, hw, hy, hk, hj⟩)
          · omega
          · exact ⟨front, y, back, hw, hy, by omega, by omega⟩
    · simp only [unitPositionsFrom, hx, if_false, ih, false_and, false_or, Bool.false_eq_true,
        not_false_eq_true, List.countP_cons_of_neg, List.length_cons]
      constructor
      · rintro ⟨front, y, back, hw, hy, hk, hj⟩
        exact ⟨front, y, back, hw, hy, hk, by omega⟩
      · rintro ⟨front, y, back, hw, hy, hk, hj⟩
        exact ⟨front, y, back, hw, hy, hk, by omega⟩

end Alphabet

/-- The characters of a word from one index up to another, as far as the word
    reaches. -/
def Word.stretch (w : Word) (start stop : Int) : Word := (w.take stop.toNat).drop start.toNat

namespace Edit

/-! ### The addressed unit and its window -/

/-- How many units a text has. -/
def units (e : Edit) (w : Word) : Nat := w.countP (e.alphabet.isUnit e.unit)

/-- `u` is the index of the `k`-th unit, counted from the end of the word that
    the position counts from.  One further unit is taken to lie behind the other
    end, for an edit on the near side of it. -/
def Addresses (e : Edit) (w : Word) (k : Nat) (u : Int) : Prop :=
  if 0 < e.place.val then
    (∃ front x back, w = front ++ x :: back ∧
      (e.alphabet.isUnit e.unit x = true ∧ e.units front + 1 = k ∧ u = front.length)) ∨
    (k = e.units w + 1 ∧ e.effectiveSide = .before ∧ u = w.length)
  else
    (∃ front x back, w = front ++ x :: back ∧
      (e.alphabet.isUnit e.unit x = true ∧ e.units back + 1 = k ∧ u = front.length)) ∨
    (k = e.units w + 1 ∧ e.effectiveSide = .after ∧ u = -1)

/-- The index at which the window of an edit begins, `u` being the index of its
    unit. -/
def windowStart (e : Edit) (u : Int) : Int :=
  if 0 < e.place.val then
    match e.effectiveSide with
    | .upon => u
    | .after => u + 1
    | .before => if e.unit = .letters then u else u - e.removed.length
  else
    match e.effectiveSide with
    | .upon => u + 1 - e.removed.length
    | .after => if e.unit = .letters then u + 1 - e.removed.length else u + 1
    | .before => u - e.removed.length

/-- The word taken apart into the text to remove, beginning at an index, and what
    is on either side of it. -/
def IsCutOut (e : Edit) (w : Word) (start : Int) (front back : Word) : Prop :=
  w = front ++ e.removed ++ back ∧ (front.length : Int) = start

/-- An edit whose position counts off `k` units replaces its window. -/
structure ReplacesWindow (e : Edit) (w : Word) (k : Nat) : Prop where
  /-- It comes out well exactly if the unit exists and its window lies in the word
      and holds the text to remove. -/
  eq_ok_iff : ∀ w', e.apply w = .ok w' ↔
    ∃ u front back, e.Addresses w k u ∧ e.IsCutOut w (e.windowStart u) front back ∧
      w' = front ++ e.inserted ++ back
  eq_outOfRange : (∀ u, ¬ e.Addresses w k u) →
    e.apply w = .error (.outOfRange e.place (e.units w))
  eq_mismatch : ∀ u, e.Addresses w k u →
    (∀ front back, ¬ e.IsCutOut w (e.windowStart u) front back) →
    e.apply w = .error (.mismatch e.removed
      (w.stretch (e.windowStart u) (e.windowStart u + e.removed.length)) e.place)

/-! ### Carrying out, in one form for all edits -/

/-- Replace the text to remove, for an edit that counts from the start. -/
def carry (e : Edit) (w : Word) : Edited Word :=
  (e.check w e.removed).map fun window => window.replace w e.inserted

theorem attempt_eq_solve {e : Edit} (hstrict : e.strict = true) (w : Word)
    (act : Edit → Word → Edited Word) : e.attempt w act = e.solve w act := by
  unfold attempt
  cases e.solve w act with
  | ok result => rfl
  | error failure => cases failure <;> simp [hstrict]

theorem solve_congr {e : Edit} {w : Word} {act act' : Edit → Word → Edited Word}
    (h : act e w = act' e w) (hmirrored : act e.mirrored w.reverse = act' e.mirrored w.reverse) :
    e.solve w act = e.solve w act' := by
  unfold solve solveReversed
  rw [h, hmirrored]

theorem attempt_congr {e : Edit} {w : Word} {act act' : Edit → Word → Edited Word}
    (h : act e w = act' e w) (hmirrored : act e.mirrored w.reverse = act' e.mirrored w.reverse) :
    e.attempt w act = e.attempt w act' := by
  unfold attempt
  rw [solve_congr h hmirrored]

theorem window_nil {e : Edit} {w : Word} {x : Window} (h : e.window w [] = .ok x) :
    x.stop = x.start := by
  unfold window at h
  split at h
  · cases h
  · split at h
    · cases h
    · split at h
      · cases h; rfl
      · cases h; rfl
      · split at h
        · cases h; rfl
        · split at h
          · cases h; simp
          · cases h

/-- Inserting is replacing nothing. -/
theorem insert_act_eq {e : Edit} (h : e.removed = []) (w : Word) :
    (do
      let window ← e.window w []
      return (Window.mk window.start window.start).replace w e.inserted) = e.carry w := by
  unfold carry check
  rw [h]
  cases hwindow : e.window w [] with
  | error failure => rfl
  | ok x =>
    have hstop := window_nil hwindow
    have htext : x.text w = [] := by
      rw [Window.text, hstop]
      exact List.drop_eq_nil_of_le (List.length_take_le _ _)
    obtain ⟨start, stop⟩ := x
    cases hstop
    simp only [htext, if_true]
    rfl

/-- An edit with something to do carries its own text out, or that of its mirror
    image. -/
theorem apply_eq_attempt {e : Edit} (htexts : e.removed ≠ [] ∨ e.inserted ≠ []) (w : Word) :
    e.apply w = e.attempt w carry := by
  cases hremoved : e.removed with
  | nil =>
    have hmirrored : e.mirrored.removed = [] := by simp [mirrored, hremoved]
    cases hinserted : e.inserted with
    | nil => simp [hremoved, hinserted] at htexts
    | cons i is =>
      unfold apply
      simp only [hremoved, hinserted, List.isEmpty_nil, List.isEmpty_cons]
      exact attempt_congr (insert_act_eq hremoved w) (insert_act_eq hmirrored w.reverse)
  | cons r rs =>
    -- both of the remaining edits check their window and replace it
    have hact : ∀ (e : Edit) (w : Word),
        (do
          let window ← e.check w e.removed
          return window.replace w e.inserted) = e.carry w := by
      intro e w
      unfold carry
      cases e.check w e.removed <;> rfl
    cases hinserted : e.inserted with
    | nil =>
      have hmirrored : e.mirrored.inserted = [] := by simp [mirrored, hinserted]
      unfold apply
      simp only [hremoved, hinserted, List.isEmpty_nil, List.isEmpty_cons]
      refine attempt_congr ?_ ?_
      · rw [← hact e w, hinserted]
      · rw [← hact e.mirrored w.reverse, hmirrored]
    | cons i is =>
      unfold apply
      simp only [hremoved, hinserted, List.isEmpty_cons]
      exact attempt_congr (hact e w) (hact e.mirrored w.reverse)

theorem apply_eq_solve {e : Edit} (hstrict : e.strict = true)
    (htexts : e.removed ≠ [] ∨ e.inserted ≠ []) (w : Word) :
    e.apply w = e.solve w carry := by
  rw [apply_eq_attempt htexts, attempt_eq_solve hstrict]

/-! ### Edits that count from the start -/

theorem addressed?_eq_some_iff {e : Edit} (hpos : 0 < e.place.val) (w : Word) (n : Nat) :
    e.addressed? w = some n ↔ e.Addresses w e.place.reach n := by
  have hreach := Position.reach_pos (p := e.place) (by omega)
  have hunits : (e.alphabet.unitPositions e.unit w).length = e.units w :=
    e.alphabet.length_unitPositionsFrom e.unit 0 w
  have hget := e.alphabet.getElem?_unitPositionsFrom e.unit 0 w (e.place.reach - 1)
  unfold addressed? Addresses
  simp only [Position.ordinal_eq_reach hpos, hpos, if_true, hunits]
  cases hplace : (e.alphabet.unitPositions e.unit w)[e.place.reach - 1]? with
  | some place =>
    have hlt : e.place.reach - 1 < e.units w := by
      rw [← hunits]
      exact (List.getElem?_eq_some_iff.mp hplace).1
    simp only [Option.some.injEq]
    constructor
    · rintro rfl
      obtain ⟨front, x, back, hw, hx, hk, hj⟩ := (hget place).mp hplace
      exact .inl ⟨front, x, back, hw, hx, by unfold units; omega, by omega⟩
    · rintro (⟨front, x, back, hw, hx, hk, hn⟩ | ⟨hk, -, -⟩)
      · have hn' := (hget n).mpr ⟨front, x, back, hw, hx, by unfold units at hk; omega, by omega⟩
        rw [Alphabet.unitPositions, hn'] at hplace
        exact (Option.some.inj hplace).symm
      · omega
  | none =>
    have hge : e.units w ≤ e.place.reach - 1 := by
      rw [← hunits]
      exact List.getElem?_eq_none_iff.mp hplace
    show (if e.place.reach = e.units w + 1 ∧ e.effectiveSide = .before then some w.length
      else none) = some n ↔ _
    constructor
    · intro h
      by_cases hlast : e.place.reach = e.units w + 1 ∧ e.effectiveSide = .before
      · rw [if_pos hlast] at h
        cases h
        exact .inr ⟨hlast.1, hlast.2, rfl⟩
      · rw [if_neg hlast] at h
        cases h
    · rintro (⟨front, x, back, hw, hx, hk, hn⟩ | ⟨hk, hside, hn⟩)
      · have hn' := (hget n).mpr ⟨front, x, back, hw, hx, by unfold units at hk; omega, by omega⟩
        rw [Alphabet.unitPositions, hn'] at hplace
        cases hplace
      · rw [if_pos ⟨hk, hside⟩, show w.length = n by omega]

/-- An addressed unit lies in the word, or right behind it where it is the front
    side that counts. -/
theorem bound_of_addresses {e : Edit} (hpos : 0 < e.place.val) {w : Word} {k : Nat} {u : Int}
    (h : e.Addresses w k u) : 0 ≤ u ∧ u ≤ w.length ∧ (e.effectiveSide ≠ .before → u < w.length) := by
  unfold Addresses at h
  rw [if_pos hpos] at h
  rcases h with ⟨front, x, back, rfl, -, -, rfl⟩ | ⟨-, hside, rfl⟩
  · simp only [List.length_append, List.length_cons]
    omega
  · refine ⟨by omega, by omega, fun hne => absurd hside hne⟩

theorem windowStart_le {e : Edit} (hpos : 0 < e.place.val) {w : Word} {k : Nat} {u : Int}
    (h : e.Addresses w k u) : e.windowStart u ≤ w.length := by
  obtain ⟨-, hle, hlt⟩ := bound_of_addresses hpos h
  unfold windowStart
  rw [if_pos hpos]
  cases hside : e.effectiveSide with
  | upon => exact hle
  | after =>
    have := hlt (by rw [hside]; decide)
    show u + 1 ≤ w.length
    omega
  | before =>
    show (if e.unit = .letters then u else u - e.removed.length) ≤ (w.length : Int)
    split <;> omega

/-- Where the window lies, or why there is no room for it. -/
theorem window_of_addressed? {e : Edit} (hpos : 0 < e.place.val) {w : Word} {n : Nat}
    (h : e.addressed? w = some n) :
    (∃ start : Nat, (start : Int) = e.windowStart n ∧
      e.window w e.removed = .ok ⟨start, start + e.removed.length⟩) ∨
    (e.windowStart n < 0 ∧ e.windowStart n + e.removed.length = n ∧
      e.window w e.removed = .error (e.mismatch e.removed (w.take n))) := by
  have hzero : e.place.val ≠ 0 := by omega
  unfold window windowStart
  simp only [hzero, if_false, h, hpos, if_true]
  cases e.effectiveSide with
  | upon => exact .inl ⟨n, rfl, rfl⟩
  | after => exact .inl ⟨n + 1, rfl, rfl⟩
  | before =>
    by_cases hletters : e.unit = .letters
    · simp only [hletters, if_true]
      exact .inl ⟨n, rfl, rfl⟩
    · simp only [hletters, if_false]
      by_cases hroom : e.removed.length ≤ n
      · refine .inl ⟨n - e.removed.length, by omega, ?_⟩
        rw [if_pos hroom, Nat.sub_add_cancel hroom]
      · refine .inr ⟨by omega, by omega, ?_⟩
        rw [if_neg hroom]

theorem isCutOut_iff {e : Edit} {w front back : Word} {start : Nat} :
    e.IsCutOut w start front back ↔
      front = w.take start ∧ back = w.drop (start + e.removed.length) ∧ start ≤ w.length ∧
        (w.drop start).take e.removed.length = e.removed := by
  unfold IsCutOut
  constructor
  · rintro ⟨rfl, hlength⟩
    obtain rfl : front.length = start := by omega
    refine ⟨by simp, ?_, by simp, by simp⟩
    rw [List.append_assoc, ← List.drop_drop, List.drop_left, List.drop_left]
  · rintro ⟨rfl, rfl, hstart, htext⟩
    refine ⟨?_, by rw [List.length_take]; omega⟩
    calc w = w.take start ++ w.drop start := (List.take_append_drop start w).symm
      _ = w.take start ++ ((w.drop start).take e.removed.length
            ++ (w.drop start).drop e.removed.length) :=
        congrArg (w.take start ++ ·) (List.take_append_drop _ _).symm
      _ = w.take start ++ e.removed ++ w.drop (start + e.removed.length) := by
        rw [htext, List.drop_drop, List.append_assoc]

/-- What becomes of an edit whose window begins in the word. -/
theorem carry_of_window {e : Edit} {w : Word} {start : Nat} (hbound : start ≤ w.length)
    (hwindow : e.window w e.removed = .ok ⟨start, start + e.removed.length⟩) :
    (∀ w', e.carry w = .ok w' ↔ ∃ front back, e.IsCutOut w start front back ∧
      w' = front ++ e.inserted ++ back) ∧
    ((∀ front back, ¬ e.IsCutOut w start front back) →
      e.carry w = .error (e.mismatch e.removed ((w.drop start).take e.removed.length))) := by
  have htext : (Window.mk start (start + e.removed.length)).text w =
      (w.drop start).take e.removed.length := by
    rw [Window.text, List.drop_take, Nat.add_sub_cancel_left]
  unfold carry check
  simp only [hwindow, htext, isCutOut_iff]
  by_cases hfound : (w.drop start).take e.removed.length = e.removed
  · rw [if_pos hfound]
    simp only [Except.map, Window.replace]
    constructor
    · intro w'
      constructor
      · intro h
        cases h
        exact ⟨_, _, ⟨rfl, rfl, hbound, hfound⟩, rfl⟩
      · rintro ⟨front, back, ⟨rfl, rfl, -, -⟩, rfl⟩
        rfl
    · intro hnone
      exact absurd ⟨rfl, rfl, hbound, hfound⟩ (hnone _ _)
  · rw [if_neg hfound]
    constructor
    · intro w'
      constructor
      · intro h
        cases h
      · rintro ⟨front, back, ⟨-, -, -, h⟩, -⟩
        exact absurd h hfound
    · intro _
      rfl

theorem stretch_of_nonneg (w : Word) (start length : Nat) :
    w.stretch start (start + length) = (w.drop start).take length := by
  have hstretch : w.stretch start (start + length) = (w.take (start + length)).drop start := rfl
  rw [hstretch, List.drop_take, Nat.add_sub_cancel_left]

/-- What becomes of an edit whose unit is addressed. -/
theorem carry_of_addresses {e : Edit} (hpos : 0 < e.place.val) {w : Word} {u : Int}
    (h : e.Addresses w e.place.reach u) :
    (∀ w', e.carry w = .ok w' ↔ ∃ front back, e.IsCutOut w (e.windowStart u) front back ∧
      w' = front ++ e.inserted ++ back) ∧
    ((∀ front back, ¬ e.IsCutOut w (e.windowStart u) front back) →
      e.carry w = .error (.mismatch e.removed
        (w.stretch (e.windowStart u) (e.windowStart u + e.removed.length)) e.place)) := by
  obtain ⟨hnonneg, -, -⟩ := bound_of_addresses hpos h
  obtain ⟨n, rfl⟩ := Int.eq_ofNat_of_zero_le hnonneg
  have haddressed := (addressed?_eq_some_iff hpos w n).mpr h
  have hle := windowStart_le hpos h
  rcases window_of_addressed? hpos haddressed with ⟨start, hstart, hwindow⟩ | ⟨hneg, hstop, hwindow⟩
  · rw [← hstart, stretch_of_nonneg]
    exact carry_of_window (by omega) hwindow
  · have hcarry : e.carry w = .error (e.mismatch e.removed (w.take n)) := by
      rw [carry, check, hwindow]
      rfl
    have hnone : ∀ front back, ¬ e.IsCutOut w (e.windowStart n) front back := by
      rintro front back ⟨-, hlength⟩
      omega
    constructor
    · intro w'
      rw [hcarry]
      constructor
      · intro hok
        cases hok
      · rintro ⟨front, back, hcut, -⟩
        exact absurd hcut (hnone front back)
    · intro _
      have hstretch : w.stretch (e.windowStart n) (e.windowStart n + e.removed.length) =
          w.take n := by
        rw [hstop, Word.stretch, Int.toNat_of_nonpos (by omega)]
        rfl
      rw [hcarry, hstretch]
      rfl

/-- What becomes of an edit whose unit does not exist. -/
theorem carry_of_not_addressed {e : Edit} (hpos : 0 < e.place.val) {w : Word}
    (h : ∀ u, ¬ e.Addresses w e.place.reach u) :
    e.carry w = .error (.outOfRange e.place (e.units w)) := by
  have haddressed : e.addressed? w = none := by
    cases haddressed : e.addressed? w with
    | none => rfl
    | some n => exact absurd ((addressed?_eq_some_iff hpos w n).mp haddressed) (h n)
  have hzero : e.place.val ≠ 0 := by omega
  have hunits : (e.alphabet.unitPositions e.unit w).length = e.units w :=
    e.alphabet.length_unitPositionsFrom e.unit 0 w
  simp only [carry, check, window, hzero, if_false, haddressed, hunits]
  rfl

theorem carry_eq_ok_iff {e : Edit} (hpos : 0 < e.place.val) {w w' : Word} :
    e.carry w = .ok w' ↔ ∃ u front back, e.Addresses w e.place.reach u ∧
      e.IsCutOut w (e.windowStart u) front back ∧ w' = front ++ e.inserted ++ back := by
  constructor
  · intro h
    by_cases hex : ∃ u, e.Addresses w e.place.reach u
    · obtain ⟨u, hu⟩ := hex
      obtain ⟨front, back, hcut, hw'⟩ := ((carry_of_addresses hpos hu).1 w').mp h
      exact ⟨u, front, back, hu, hcut, hw'⟩
    · rw [carry_of_not_addressed hpos fun u hu => hex ⟨u, hu⟩] at h
      cases h
  · rintro ⟨u, front, back, hu, hcut, hw'⟩
    exact ((carry_of_addresses hpos hu).1 w').mpr ⟨front, back, hcut, hw'⟩

theorem replacesWindow_of_pos {e : Edit} (hstrict : e.strict = true) (hpos : 0 < e.place.val)
    (htexts : e.removed ≠ [] ∨ e.inserted ≠ []) (w : Word) :
    e.ReplacesWindow w e.place.reach := by
  have happly : e.apply w = e.carry w := by
    rw [apply_eq_solve hstrict htexts, solve, Position.fromEnd_eq_false hpos]
    rfl
  refine ⟨fun w' => ?_, fun h => ?_, fun u hu h => ?_⟩
  · rw [happly, carry_eq_ok_iff hpos]
  · rw [happly, carry_of_not_addressed hpos h]
  · rw [happly, (carry_of_addresses hpos hu).2 h]

/-! ### Edits that count from the end -/

theorem addresses_mirrored {e : Edit} (hneg : e.place.val < 0) {w : Word} {k : Nat} {u : Int} :
    e.mirrored.Addresses w.reverse k u ↔ e.Addresses w k (w.length - 1 - u) := by
  have hpos : 0 < e.mirrored.place.val := Position.mirrored_pos hneg
  have hnotpos : ¬ 0 < e.place.val := by omega
  have hunits : e.mirrored.units w.reverse = e.units w := List.countP_reverse
  have hside : e.mirrored.effectiveSide = .before ↔ e.effectiveSide = .after := by
    show e.effectiveSide.flipped = .before ↔ _
    cases e.effectiveSide <;> decide
  unfold Addresses
  rw [if_pos hpos, if_neg hnotpos, hunits, hside, List.length_reverse]
  have hlast : u = w.length ↔ (w.length : Int) - 1 - u = -1 := by omega
  rw [hlast]
  refine or_congr_left ?_
  constructor
  · rintro ⟨front, x, back, hw, hx, hk, hu⟩
    have hw' : w = back.reverse ++ x :: front.reverse := by
      have := congrArg List.reverse hw
      simpa using this
    have hfront : e.units front.reverse = e.units front := List.countP_reverse
    refine ⟨back.reverse, x, front.reverse, hw', hx, by rw [hfront]; exact hk, ?_⟩
    rw [hw']
    simp only [List.length_append, List.length_reverse, List.length_cons]
    omega
  · rintro ⟨front, x, back, rfl, hx, hk, hu⟩
    have hback : e.units back.reverse = e.units back := List.countP_reverse
    refine ⟨back.reverse, x, front.reverse, by simp, hx, by rw [← hback] at hk; exact hk, ?_⟩
    simp only [List.length_append, List.length_cons] at hu
    rw [List.length_reverse]
    omega

theorem windowStart_mirrored {e : Edit} (hneg : e.place.val < 0) (length u : Int) :
    e.mirrored.windowStart u =
      length - (e.windowStart (length - 1 - u) + e.removed.length) := by
  have hpos : 0 < e.mirrored.place.val := Position.mirrored_pos hneg
  have hnotpos : ¬ 0 < e.place.val := by omega
  have hlength : e.mirrored.removed.length = e.removed.length := List.length_reverse
  have hside : e.mirrored.effectiveSide = e.effectiveSide.flipped := rfl
  have hunit : e.mirrored.unit = e.unit := rfl
  unfold windowStart
  rw [if_pos hpos, if_neg hnotpos, hside, hlength, hunit]
  cases e.effectiveSide with
  | upon => simp only [Side.flipped]; omega
  | before => simp only [Side.flipped]; omega
  | after =>
    simp only [Side.flipped]
    by_cases hletters : e.unit = .letters
    · simp only [hletters, if_true]; omega
    · simp only [hletters, if_false]; omega

theorem isCutOut_mirrored {e : Edit} {w front back : Word} {start : Int} :
    e.mirrored.IsCutOut w.reverse start front back ↔
      e.IsCutOut w (w.length - (start + e.removed.length)) back.reverse front.reverse := by
  unfold IsCutOut
  have hremoved : e.mirrored.removed = e.removed.reverse := rfl
  rw [hremoved, reverse_eq_append, List.reverse_reverse]
  refine and_congr_right fun hw => ?_
  have hlength := congrArg List.length hw
  simp only [List.length_append, List.length_reverse] at hlength ⊢
  omega

theorem stretch_reverse (w : Word) (start stop : Int) :
    (Word.stretch w.reverse start stop).reverse =
      w.stretch (w.length - stop) (w.length - start) := by
  unfold Word.stretch
  rw [List.take_reverse, List.drop_reverse, List.reverse_reverse, List.length_drop,
    List.drop_take]
  by_cases hstop : 0 ≤ stop
  · have hdrop : w.length - stop.toNat = ((w.length : Int) - stop).toNat := by omega
    rw [hdrop, List.take_eq_take_iff, List.length_drop]
    omega
  · rw [List.drop_eq_nil_of_le (by omega), List.drop_eq_nil_of_le (by omega), List.take_nil,
      List.take_nil]

/-- The window of the mirror image holds the reversed text. -/
theorem isCutOut_windowStart_mirrored {e : Edit} (hneg : e.place.val < 0) {w front back : Word}
    {u : Int} :
    e.mirrored.IsCutOut w.reverse (e.mirrored.windowStart u) front back ↔
      e.IsCutOut w (e.windowStart (w.length - 1 - u)) back.reverse front.reverse := by
  have hstart : (w.length : Int) - (w.length - (e.windowStart (w.length - 1 - u) +
      e.removed.length) + e.removed.length) = e.windowStart (w.length - 1 - u) := by
    omega
  rw [isCutOut_mirrored, windowStart_mirrored hneg w.length, hstart]

/-- What the window of the mirror image holds instead is reversed as well. -/
theorem stretch_windowStart_mirrored {e : Edit} (hneg : e.place.val < 0) (w : Word) (u : Int) :
    (Word.stretch w.reverse (e.mirrored.windowStart u)
        (e.mirrored.windowStart u + e.mirrored.removed.length)).reverse =
      w.stretch (e.windowStart (w.length - 1 - u))
        (e.windowStart (w.length - 1 - u) + e.removed.length) := by
  have hlength : e.mirrored.removed.length = e.removed.length := List.length_reverse
  rw [stretch_reverse, hlength, windowStart_mirrored hneg w.length]
  congr 1
  · omega
  · omega

theorem replacesWindow_of_neg {e : Edit} (hstrict : e.strict = true) (hneg : e.place.val < 0)
    (htexts : e.removed ≠ [] ∨ e.inserted ≠ []) (w : Word) :
    e.ReplacesWindow w e.place.reach := by
  have htexts' : e.mirrored.removed ≠ [] ∨ e.mirrored.inserted ≠ [] := by
    simpa [mirrored] using htexts
  have himage := replacesWindow_of_pos (e := e.mirrored) hstrict (Position.mirrored_pos hneg)
    htexts' w.reverse
  rw [show e.mirrored.place.reach = e.place.reach from Position.reach_mirrored hneg] at himage
  -- every index of the word is the image of one of the reversed word
  have hindex (u : Int) : ∃ v, u = w.length - 1 - v := ⟨w.length - 1 - u, by omega⟩
  refine ⟨fun w' => ?_, fun h => ?_, fun u hu h => ?_⟩
  · rw [e.apply_mirrored, solveReversed_eq_ok, himage.eq_ok_iff]
    constructor
    · rintro ⟨u, front, back, hu, hcut, hw'⟩
      refine ⟨w.length - 1 - u, back.reverse, front.reverse, (addresses_mirrored hneg).mp hu,
        (isCutOut_windowStart_mirrored hneg).mp hcut, ?_⟩
      have hinserted : e.mirrored.inserted = e.inserted.reverse := rfl
      rw [hinserted, reverse_eq_append, List.reverse_reverse] at hw'
      exact hw'
    · rintro ⟨u, front, back, hu, hcut, rfl⟩
      obtain ⟨v, rfl⟩ := hindex u
      refine ⟨v, back.reverse, front.reverse, (addresses_mirrored hneg).mpr hu, ?_, ?_⟩
      · rw [isCutOut_windowStart_mirrored hneg, List.reverse_reverse, List.reverse_reverse]
        exact hcut
      · have hinserted : e.mirrored.inserted = e.inserted.reverse := rfl
        rw [hinserted, List.reverse_append, List.reverse_append, List.append_assoc]
  · have hnone := himage.eq_outOfRange fun u hu => h _ ((addresses_mirrored hneg).mp hu)
    have hunits : e.mirrored.units w.reverse = e.units w := List.countP_reverse
    rw [e.apply_mirrored, solveReversed_of_error hnone, hunits]
    rfl
  · obtain ⟨v, rfl⟩ := hindex u
    have hmissing : ∀ front back, ¬ e.mirrored.IsCutOut w.reverse
        (e.mirrored.windowStart v) front back := by
      intro front back hcut
      exact h _ _ ((isCutOut_windowStart_mirrored hneg).mp hcut)
    have hmismatch := himage.eq_mismatch v ((addresses_mirrored hneg).mpr hu) hmissing
    have hremoved : e.mirrored.removed.reverse = e.removed := List.reverse_reverse _
    rw [e.apply_mirrored, solveReversed_of_error hmismatch, ← stretch_windowStart_mirrored hneg,
      ← hremoved]
    rfl

/-! ### How far a position counts -/

/-- No unit is further away than there are units. -/
theorem le_of_addresses {e : Edit} {w : Word} {k : Nat} {u : Int} (h : e.Addresses w k u) :
    k ≤ e.units w + 1 := by
  have hsplit : ∀ front x back, w = front ++ x :: back →
      e.units front ≤ e.units w ∧ e.units back ≤ e.units w := by
    rintro front x back rfl
    simp only [units, List.countP_append, List.countP_cons]
    omega
  unfold Addresses at h
  split at h
  · rcases h with ⟨front, x, back, hw, -, hk, -⟩ | ⟨hk, -, -⟩
    · have := (hsplit front x back hw).1
      omega
    · omega
  · rcases h with ⟨front, x, back, hw, -, hk, -⟩ | ⟨hk, -, -⟩
    · have := (hsplit front x back hw).2
      omega
    · omega

theorem not_addresses_of_units_lt {e : Edit} {w : Word} {k : Nat} (hk : e.units w + 1 < k)
    (u : Int) : ¬ e.Addresses w k u := by
  intro h
  have := le_of_addresses h
  omega

/-- Counted off from the end of a word that has one unit less, what the most negative
    position addresses stands in front of the word.  Its number is that of no unit. -/
theorem addresses_lowest {e : Edit} (hplace : e.place = Position.lowest)
    (hside : e.effectiveSide = .after) {w : Word} (hunits : e.units w + 1 = e.place.reach) :
    e.Addresses w e.place.reach (-1) ∧ ∀ u, ¬ e.Addresses w e.place.val.natAbs u := by
  constructor
  · unfold Addresses
    rw [hplace, if_neg (by decide), ← hplace]
    exact .inr ⟨hunits.symm, hside, rfl⟩
  · apply not_addresses_of_units_lt
    rw [hunits, hplace, Position.reach_lowest, Position.natAbs_lowest]
    omega

theorem units_replicate (e : Edit) {x : Char} (hx : e.alphabet.isUnit e.unit x = true) (n : Nat) :
    e.units (List.replicate n x) = n := by
  rw [units, List.countP_replicate, if_pos hx]

/-- Units that the word does not have are all alike. -/
theorem ReplacesWindow.of_units_lt {e : Edit} {w : Word} {k k' : Nat}
    (hk : e.units w + 1 < k) (hk' : e.units w + 1 < k') (h : e.ReplacesWindow w k) :
    e.ReplacesWindow w k' where
  eq_ok_iff w' := by
    rw [h.eq_ok_iff]
    constructor
    · rintro ⟨u, -, -, hu, -⟩
      exact absurd hu (not_addresses_of_units_lt hk u)
    · rintro ⟨u, -, -, hu, -⟩
      exact absurd hu (not_addresses_of_units_lt hk' u)
  eq_outOfRange _ := h.eq_outOfRange (not_addresses_of_units_lt hk)
  eq_mismatch u hu := absurd hu (not_addresses_of_units_lt hk' u)

theorem replacesWindow_reach {e : Edit} (hstrict : e.strict = true) (hplace : e.place.val ≠ 0)
    (htexts : e.removed ≠ [] ∨ e.inserted ≠ []) (w : Word) : e.ReplacesWindow w e.place.reach := by
  rcases Int.lt_or_gt_of_ne hplace with hneg | hpos
  · exact replacesWindow_of_neg hstrict hneg htexts w
  · exact replacesWindow_of_pos hstrict hpos htexts w

/-- **An edit replaces its window.**  Its position counts off as many units as it
    says; the most negative one counts off one less, which is the same for every
    word that does not have over two thousand million units. -/
theorem apply_replacesWindow {e : Edit} (hstrict : e.strict = true) (hplace : e.place.val ≠ 0)
    (htexts : e.removed ≠ [] ∨ e.inserted ≠ []) (w : Word) :
    e.ReplacesWindow w e.place.reach ∧
      (e.place.val ≠ -2147483648 ∨ e.units w + 1 < 2147483647 →
        e.ReplacesWindow w e.place.val.natAbs) := by
  have hreplaces := replacesWindow_reach hstrict hplace htexts w
  refine ⟨hreplaces, fun hcounts => ?_⟩
  exact Position.of_reach hcounts (fun _ _ hk hk' h => h.of_units_lt hk hk') hreplaces

/-- `bt` behind the second vowel from the end becomes `x`. -/
theorem apply_behind_vowel_from_end :
    let e : Edit := { removed := ['b', 't'], inserted := ['x'], place := { val := -2 }, unit := .vowels }
    e.strict = true ∧ e.place.val ≠ 0 ∧ (e.removed ≠ [] ∨ e.inserted ≠ []) ∧
      e.apply ['k', 'a', 'b', 't', 'o'] = .ok ['k', 'a', 'x', 'o'] := by
  intro e
  have htexts : e.removed ≠ [] ∨ e.inserted ≠ [] := .inl (by decide)
  have haddresses : e.Addresses ['k', 'a', 'b', 't', 'o'] e.place.reach 1 := by
    unfold Addresses
    rw [if_neg (by decide)]
    exact .inl ⟨['k'], 'a', ['b', 't', 'o'], rfl, by decide, by decide, by decide⟩
  have hwindow := (apply_replacesWindow (e := e) rfl (by decide) htexts
    ['k', 'a', 'b', 't', 'o']).1.eq_ok_iff ['k', 'a', 'x', 'o']
  exact ⟨rfl, by decide, htexts,
    hwindow.mpr ⟨1, ['k', 'a'], ['o'], haddresses, ⟨rfl, by decide⟩, rfl⟩⟩

/-- A word of 2147483646 letters has no letter of the number 2147483648, and the gap in
    front of it is the one before.  There the most negative position puts in an `x`. -/
theorem apply_insertsInFront_lowest :
    let e : Edit := { removed := [], inserted := ['x'], place := Position.lowest }
    let w : Word := List.replicate 2147483646 'a'
    e.strict = true ∧ e.place.val ≠ 0 ∧ (e.removed ≠ [] ∨ e.inserted ≠ []) ∧
      e.apply w = .ok ('x' :: w) ∧ (∀ u, ¬ e.Addresses w e.place.val.natAbs u) ∧
      ¬ e.ReplacesWindow w e.place.val.natAbs := by
  intro e w
  have htexts : e.removed ≠ [] ∨ e.inserted ≠ [] := .inr (by decide)
  have hunits : e.units w + 1 = e.place.reach := by
    rw [e.units_replicate rfl, Position.reach_lowest]
  obtain ⟨hfront, hnone⟩ := addresses_lowest rfl rfl hunits
  have hok : e.apply w = .ok ('x' :: w) := by
    rw [(replacesWindow_reach rfl (by decide) htexts w).eq_ok_iff]
    exact ⟨-1, [], w, hfront, ⟨rfl, rfl⟩, rfl⟩
  refine ⟨rfl, by decide, htexts, hok, hnone, fun hreplaces => ?_⟩
  rw [hreplaces.eq_outOfRange hnone] at hok
  cases hok

end Edit

end WordFormation
