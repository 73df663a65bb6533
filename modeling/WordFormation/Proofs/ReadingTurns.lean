/-
  WordFormation/Proofs/ReadingTurns.lean
  ======================================
  **Reading a set of forms ends, and it reads every form once and in order.**

  A reading keeps the sets that were begun, the innermost on top.  Turn by turn it
  looks at the one on top: at its end the set is left, a set that comes next in it is
  begun, and a form that comes next is read (`Turn`).  The pile grows and shrinks on the
  way, so neither its height nor any of its sets shows that there is an end.  Two things
  do not go up and down.  Each turn takes one off the entries and ends that are still
  ahead (`Turn.turnsOf_eq`), so that their number is the number of turns left.  And what
  was read, followed by the forms of all sets on the pile from the top downwards, is the
  same list before and after (`Turn.flatten_eq`).

  Asking for the next form is taking turns until one of them reads a form
  (`next?_eq_some_iff`), and reading is asking until there is no answer (`toList_unfold`).
  Hence it comes to the forms from left to right (`forms_read_in_order`).
-/
import WordFormation.Allomorphs

namespace WordFormation.Allomorphs

/-- The turns in which a set is read to its end: one for each entry at any depth, and
    one to leave each set. -/
def turns : Allomorphs → Nat
  | empty => 1
  | form _ more => more.turns + 1
  | nested inner more => inner.turns + more.turns + 1

namespace Cursor

/-- The turns until nothing is pending. -/
def turnsOf : List Allomorphs → Nat
  | [] => 0
  | a :: pending => a.turns + turnsOf pending

/-- One turn of a reading, with the form that is read in it, if one is. -/
inductive Turn : List Allomorphs → Option Word → List Allomorphs → Prop where
  | leave (pending : List Allomorphs) : Turn (empty :: pending) none pending
  | read (letters : Word) (more : Allomorphs) (pending : List Allomorphs) :
      Turn (form letters more :: pending) (some letters) (more :: pending)
  | enter (inner more : Allomorphs) (pending : List Allomorphs) :
      Turn (nested inner more :: pending) none (inner :: more :: pending)

/-- So many turns one after the other, with the forms that are read in them. -/
inductive Turns : Nat → List Allomorphs → List Word → List Allomorphs → Prop where
  | zero (pending : List Allomorphs) : Turns 0 pending [] pending
  | succ {n : Nat} {pending between later : List Allomorphs} {read : Option Word}
      {forms : List Word} (first : Turn pending read between)
      (others : Turns n between forms later) :
      Turns (n + 1) pending (read.toList ++ forms) later

variable {n : Nat} {pending later : List Allomorphs} {read : Option Word} {letters : Word}
  {forms : List Word}

/-! ### One turn -/

theorem Turn.turnsOf_eq (h : Turn pending read later) :
    turnsOf pending = turnsOf later + 1 := by
  cases h with
  | leave pending => simp only [turnsOf, turns]; omega
  | read letters more pending => simp only [turnsOf, turns]; omega
  | enter inner more pending => simp only [turnsOf, turns]; omega

theorem Turn.flatten_eq (h : Turn pending read later) :
    pending.flatMap flatten = read.toList ++ later.flatMap flatten := by
  cases h with
  | leave pending => rfl
  | read letters more pending => rfl
  | enter inner more pending => simp [flatten]

/-- Only a reading with nothing pending is at its end. -/
theorem exists_turn (a : Allomorphs) (pending : List Allomorphs) :
    ∃ read later, Turn (a :: pending) read later := by
  cases a with
  | empty => exact ⟨_, _, .leave pending⟩
  | form letters more => exact ⟨_, _, .read letters more pending⟩
  | nested inner more => exact ⟨_, _, .enter inner more pending⟩

/-! ### Many turns -/

theorem Turns.turnsOf_eq (h : Turns n pending forms later) :
    turnsOf pending = n + turnsOf later := by
  induction h with
  | zero pending => omega
  | succ first others ih =>
    have := first.turnsOf_eq
    omega

/-- What was read and what is pending make up what was pending before. -/
theorem Turns.flatten_eq (h : Turns n pending forms later) :
    pending.flatMap flatten = forms ++ later.flatMap flatten := by
  induction h with
  | zero pending => rfl
  | succ first others ih => rw [first.flatten_eq, ih, List.append_assoc]

theorem exists_turns (pending : List Allomorphs) : ∃ n forms, Turns n pending forms [] := by
  induction hn : turnsOf pending generalizing pending with
  | zero =>
    cases pending with
    | nil => exact ⟨0, [], .zero []⟩
    | cons a pending =>
      obtain ⟨read, later, hturn⟩ := exists_turn a pending
      have := hturn.turnsOf_eq
      omega
  | succ n ih =>
    cases pending with
    | nil => cases hn
    | cons a pending =>
      obtain ⟨read, later, hturn⟩ := exists_turn a pending
      have hlater := hturn.turnsOf_eq
      obtain ⟨m, forms, hturns⟩ := ih later (by omega)
      exact ⟨m + 1, _, .succ hturn hturns⟩

/-- The end is reached in the turns that were ahead, with all forms of the pending sets
    read, those of the innermost first. -/
theorem turns_to_end (pending : List Allomorphs) :
    Turns (turnsOf pending) pending (pending.flatMap flatten) [] := by
  obtain ⟨n, forms, hturns⟩ := exists_turns pending
  have hn : turnsOf pending = n := hturns.turnsOf_eq
  have hforms : pending.flatMap flatten = forms := by simpa using hturns.flatten_eq
  rw [hn, hforms]
  exact hturns

/-! ### The next form -/

theorem Turn.next?_eq (h : Turn pending (some letters) later) :
    next? pending = some (letters, later) := by
  cases h
  rfl

/-- A turn in which nothing is read leaves the next form what it was. -/
theorem Turn.next?_congr (h : Turn pending none later) : next? pending = next? later := by
  cases h with
  | leave pending => rfl
  | enter inner more pending =>
    simp only [next?, enter?]
    cases enter? inner (more :: pending) <;> rfl

theorem Turns.next?_congr (h : Turns n pending [] later) : next? pending = next? later := by
  generalize hnone : ([] : List Word) = forms at h
  induction h with
  | zero pending => rfl
  | @succ n pending between later read forms first others ih =>
    cases read with
    | some letters => cases hnone
    | none => exact first.next?_congr.trans (ih hnone)

/-- The next form is the one that is read first, if any is. -/
theorem exists_turns_next? (pending : List Allomorphs) :
    match next? pending with
    | some (letters, later) =>
      ∃ n between, Turns n pending [] between ∧ Turn between (some letters) later
    | none => ∃ n, Turns n pending [] [] := by
  obtain ⟨n, forms, hturns⟩ := exists_turns pending
  generalize hend : ([] : List Allomorphs) = last at hturns
  induction hturns with
  | zero pending => subst hend; exact ⟨0, .zero []⟩
  | @succ n pending between last read forms first others ih =>
    cases read with
    | some letters => rw [first.next?_eq]; exact ⟨0, pending, .zero pending, first⟩
    | none =>
      have hlater := ih hend
      rw [first.next?_congr]
      cases hnext : next? between with
      | some found =>
        rw [hnext] at hlater
        obtain ⟨m, before, hturns, hread⟩ := hlater
        exact ⟨m + 1, before, .succ first hturns, hread⟩
      | none =>
        rw [hnext] at hlater
        obtain ⟨m, hturns⟩ := hlater
        exact ⟨m + 1, .succ first hturns⟩

theorem next?_eq_some_iff :
    next? pending = some (letters, later) ↔
      ∃ n between, Turns n pending [] between ∧ Turn between (some letters) later := by
  constructor
  · intro h
    have hturns := exists_turns_next? pending
    rw [h] at hturns
    exact hturns
  · rintro ⟨n, between, hturns, hread⟩
    rw [hturns.next?_congr, hread.next?_eq]

theorem next?_eq_none_iff :
    next? pending = none ↔ Turns (turnsOf pending) pending [] [] := by
  constructor
  · intro h
    have hturns := exists_turns_next? pending
    rw [h] at hturns
    obtain ⟨n, hend⟩ := hturns
    rwa [hend.turnsOf_eq]
  · intro h
    rw [h.next?_congr]
    rfl

/-- Reading is asking for the next form until there is none. -/
theorem toList_unfold (pending : List Allomorphs) :
    (mk pending).toList = match next? pending with
      | some (letters, later) => letters :: (mk later).toList
      | none => [] := by
  have hspec := next?_spec pending
  rw [toList_eq]
  cases hnext : next? pending with
  | some found =>
    rw [hnext] at hspec
    exact hspec.1.trans (congrArg (found.1 :: ·) (toList_eq ⟨found.2⟩).symm)
  | none =>
    rw [hnext] at hspec
    exact hspec

end Cursor

open Cursor

/-- **Reading a set ends, and what is read are its forms from left to right.**  Whatever
    is pending, asking for the next form takes turns up to the first that reads one;
    there is none exactly if all turns that are left read nothing.  After any turns as
    many are left as were not taken, and what was read, continued by what is read from
    there on, are the forms of the sets that were pending, the innermost first. -/
theorem forms_read_in_order (a : Allomorphs) :
    a.forms = a.flatten ∧ Turns a.turns [a] a.flatten [] ∧
    ∀ pending : List Allomorphs,
      (Cursor.mk pending).toList = pending.flatMap flatten ∧
      ((Cursor.mk pending).toList = match next? pending with
        | some (letters, later) => letters :: (Cursor.mk later).toList
        | none => []) ∧
      (∀ letters later, next? pending = some (letters, later) ↔
        ∃ n between, Turns n pending [] between ∧ Turn between (some letters) later) ∧
      (next? pending = none ↔ Turns (turnsOf pending) pending [] []) ∧
      Turns (turnsOf pending) pending (pending.flatMap flatten) [] ∧
      ∀ n read later, Turns n pending read later →
        n + turnsOf later = turnsOf pending ∧
          read ++ (Cursor.mk later).toList = pending.flatMap flatten := by
  refine ⟨a.forms_eq_flatten, ?_, fun pending => ⟨toList_eq _, toList_unfold pending,
    fun letters later => next?_eq_some_iff, next?_eq_none_iff, turns_to_end pending, ?_⟩⟩
  · have hend := turns_to_end [a]
    simpa [turnsOf] using hend
  · intro n read later hturns
    have hforms : later.flatMap flatten = (Cursor.mk later).toList := (toList_eq _).symm
    exact ⟨hturns.turnsOf_eq.symm, by rw [hturns.flatten_eq, hforms]⟩

/-- A set that holds nothing is begun and left before the first form is read. -/
theorem forms_read_in_order_emptyFirst :
    let more := nested (only ['e', 'r']) (nested empty empty)
    let a := nested empty (form ['e', 'n'] more)
    Turns 3 [a] [['e', 'n']] [more] ∧ 3 + turnsOf [more] = turnsOf [a] ∧
      (Cursor.mk [more]).toList = [['e', 'r']] := by
  intro more a
  have hturns : Turns 3 [a] [['e', 'n']] [more] :=
    .succ (.enter empty _ []) (.succ (.leave _) (.succ (.read _ more []) (.zero [more])))
  obtain ⟨-, -, hreading⟩ := forms_read_in_order a
  obtain ⟨-, -, -, -, -, hbetween⟩ := hreading [a]
  obtain ⟨hcount, hforms⟩ := hbetween 3 _ _ hturns
  exact ⟨hturns, hcount, (List.cons.inj hforms).2⟩

end WordFormation.Allomorphs
