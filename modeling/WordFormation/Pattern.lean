/-
  WordFormation/Pattern.lean
  ==========================
  **Regular patterns and where they match in a word.**

  A pattern is made of parts that read one character each.  Which characters a
  part reads is left open by the type: a written pattern has sets of characters
  there (`WordPattern`), and for one word each of these turns into the places at
  which the part can read on (`located`).

  `reach` takes all places at which a match may have arrived to all places at
  which it can be after the pattern.  Many matches are so followed at once, and a
  repetition is left as soon as it comes to no new place.  A pattern is found in
  a word if some place is reached from anywhere in it.
-/
import WordFormation.Pattern.CharSet
import WordFormation.Pattern.Places

namespace WordFormation

/-- A regular pattern over parts that read one character each. -/
inductive Pattern (σ : Type) where
  /-- Matches without reading a character. -/
  | empty
  | one (s : σ)
  /-- Matches at the start of the word only. -/
  | start
  /-- Matches at the end of the word only. -/
  | final
  | seq (p q : Pattern σ)
  | alt (p q : Pattern σ)
  /-- At least `low` times, and at most `high` times if there is a limit. -/
  | repeated (p : Pattern σ) (low : Nat) (high : Option Nat)
deriving DecidableEq

/-- A pattern whose parts read the characters of a set. -/
abbrev WordPattern := Pattern CharSet

namespace Pattern

variable {σ τ : Type}

/-- The same pattern over other parts. -/
def map (f : σ → τ) : Pattern σ → Pattern τ
  | empty => empty
  | one s => one (f s)
  | start => start
  | final => final
  | seq p q => seq (p.map f) (q.map f)
  | alt p q => alt (p.map f) (q.map f)
  | repeated p low high => repeated (p.map f) low high

/-- How many parts the pattern has with its repetitions written out.  A round that
    can be left out takes one part more, and so do the two ends of a repetition
    without a limit; what reads nothing takes none. -/
def size : Pattern σ → Nat
  | empty => 0
  | one _ => 1
  | start => 0
  | final => 0
  | seq p q => p.size + q.size
  | alt p q => p.size + q.size
  | repeated p low high =>
    let extra := min p.size 1
    match high with
    | some high => low * p.size + (high - low) * (p.size + extra)
    | none => max low 1 * p.size + 2 * extra

/-! ### Moves -/

/-- The places after exactly `n` moves. -/
def exactly (move : Places → Places) : Nat → Places → Places
  | 0, places => places
  | n + 1, places => if places.isNone then places else exactly move n (move places)

/-- The places after at most `n` further moves, where `seen` is what was reached so
    far and `fresh` is the part of it that was reached last. -/
def atMost (move : Places → Places) : Nat → (seen fresh : Places) → Places
  | 0, seen, _ => seen
  | n + 1, seen, fresh =>
    let fresh := (move fresh).without seen
    if fresh.isNone then seen else atMost move n (seen.union fresh) fresh

/-- The places at which matches can be after the pattern if they are at the given
    places before it, in a word of the given length.

    No repetition takes more rounds than the word has places.  A round that is not
    needed reads nothing, and of rounds that read nothing one is as good as
    many. -/
def reach (length : Nat) : Pattern Places → Places → Places
  | empty, places => places
  | one readable, places => (places.inter readable).next
  | start, places => places.inter (.single 0)
  | final, places => places.inter (.single length)
  | seq p q, places => q.reach length (p.reach length places)
  | alt p q, places => (p.reach length places).union (q.reach length places)
  | repeated p low high, places =>
    let least := exactly (p.reach length) (min low (length + 1)) places
    let further := match high with
      | some high => min (high - low) (length + 1)
      | none => length + 1
    atMost (p.reach length) further least least

/-- The pattern with the places of a word at which its parts can read on. -/
def located (p : WordPattern) (w : Word) : Pattern Places :=
  let characters := Places.ofCharacters w
  p.map fun s => Places.select s.contains characters

/-- Does the pattern match anywhere in a word? -/
def isFoundIn (p : WordPattern) (w : Word) : Bool :=
  !((p.located w).reach w.length (.upTo w.length)).isNone

/-! ### What a pattern reaches -/

theorem reach_empty (length : Nat) (s : Places) : empty.reach length s = s := rfl

theorem contains_reach_one (length : Nat) (readable s : Places) (i : Nat) :
    ((one readable).reach length s).contains (i + 1) = (s.contains i && readable.contains i) := by
  rw [reach, Places.contains_next_succ, Places.contains_inter]

theorem contains_reach_start (length : Nat) (s : Places) (i : Nat) :
    (start.reach length s).contains i = (s.contains i && decide (0 = i)) := by
  rw [reach, Places.contains_inter, Places.contains_single]

theorem contains_reach_final (length : Nat) (s : Places) (i : Nat) :
    (final.reach length s).contains i = (s.contains i && decide (length = i)) := by
  rw [reach, Places.contains_inter, Places.contains_single]

theorem reach_seq (length : Nat) (p q : Pattern Places) (s : Places) :
    (seq p q).reach length s = q.reach length (p.reach length s) := rfl

theorem contains_reach_alt (length : Nat) (p q : Pattern Places) (s : Places) (i : Nat) :
    ((alt p q).reach length s).contains i =
      ((p.reach length s).contains i || (q.reach length s).contains i) := by
  rw [reach, Places.contains_union]

/-- A part can read on at the places in front of the characters of its set. -/
theorem contains_located_one (s : CharSet) (w : Word) (readable : Places) (i : Nat)
    (h : (one s).located w = one readable) : readable.contains i = (w[i]?).any s.contains := by
  obtain rfl : Places.select s.contains (Places.ofCharacters w) = readable := one.inj h
  exact Places.contains_select_ofCharacters s.contains w i

/-- A pattern is found exactly if it reaches some place. -/
theorem isFoundIn_iff (p : WordPattern) (w : Word) :
    p.isFoundIn w = true ↔
      ∃ i, ((p.located w).reach w.length (.upTo w.length)).contains i = true := by
  rw [isFoundIn, Bool.not_eq_true', ← Bool.not_eq_true, Places.isNone_iff]
  simp

end Pattern

end WordFormation
