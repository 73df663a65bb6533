/-
  WordFormation/RuleText/Reply.lean
  =================================
  **Productions: what a part of the grammar answers to a text.**

  A production either matches the beginning of a text or fails at some place in
  it.  A token that fails consumes nothing; a sequence fails where its failing
  part does; a choice tries its parts from the same place, and if all fail it
  fails where the last one did.  Failures carry what was expected there, the
  innermost expectation first.

  A repetition whose part matches without consuming anything would go on for
  ever.  Such a reply is called `stalled`, and it is final: no choice tries
  anything else after it.  `many` needs no more rounds than there are characters
  (`many_unfold`).
-/
import WordFormation.Word

namespace WordFormation.RuleText

/-- What can be missing at the place of a failure. -/
inductive Expectation where
  | mark
  | letters
  | segment
deriving DecidableEq

def Expectation.message : Expectation → String
  | mark => "'+', '-' or '.'"
  | letters => "letters"
  | segment => "prefix, postfix, circumfix or interfix"

/-- The answer of a production to a text. -/
inductive Reply (α : Type) where
  /-- The beginning was matched, and `rest` follows. -/
  | matched (value : α) (rest : Word)
  /-- Nothing was matched; the failure is in front of `rest`. -/
  | failed (rest : Word) (expected : List Expectation)
  /-- A repetition made no progress. -/
  | stalled

/-- A part of the grammar. -/
def Production (α : Type) := Word → Reply α

namespace Production

variable {α β : Type}

instance : Monad Production where
  pure value := fun s => .matched value s
  bind p next := fun s =>
    match p s with
    | .matched value rest => next value rest
    | .failed rest expected => .failed rest expected
    | .stalled => .stalled

/-! ### Tokens -/

/-- One character that passes `test`. -/
def satisfying (test : Char → Bool) : Production Char
  | [] => .failed [] []
  | c :: rest => if test c then .matched c rest else .failed (c :: rest) []

def mark (c : Char) : Production Char := satisfying (· == c)

/-- The longest run of characters that pass `test`, which must not be empty. -/
def run (test : Char → Bool) : Production Word := fun s =>
  match s.takeWhile test with
  | [] => .failed s []
  | taken => .matched taken (s.dropWhile test)

/-- All characters that pass `test`, if there are any. -/
def skip (test : Char → Bool) : Production Unit := fun s => .matched () (s.dropWhile test)

/-! ### Combinations -/

def orElse (p q : Production α) : Production α := fun s =>
  match p s with
  | .failed _ _ => q s
  | reply => reply

def optionally (p : Production α) : Production (Option α) := fun s =>
  match p s with
  | .matched value rest => .matched (some value) rest
  | .failed _ _ => .matched none s
  | .stalled => .stalled

/-- Say what was expected where the production fails. -/
def expecting (e : Expectation) (p : Production α) : Production α := fun s =>
  match p s with
  | .failed rest expected => .failed rest (expected ++ [e])
  | reply => reply

/-- A round of a repetition, `again` being the rounds after it. -/
def round (p : Production α) (again : Production (List α)) : Production (List α) := fun s =>
  match p s with
  | .matched value rest =>
    if rest.length < s.length then
      match again rest with
      | .matched values rest => .matched (value :: values) rest
      | .failed rest expected => .failed rest expected
      | .stalled => .stalled
    else
      .stalled
  | .failed _ _ => .matched [] s
  | .stalled => .stalled

/-- At most `n + 1` rounds. -/
def rounds (p : Production α) : Nat → Production (List α)
  | 0 => round p fun _ => .stalled
  | n + 1 => round p (rounds p n)

/-- The production as often as it matches. -/
def many (p : Production α) : Production (List α) := fun s => rounds p s.length s

/-- The production at least once and then as often as it matches. -/
def many1 (p : Production α) : Production (List α) := do
  let first ← p
  let more ← many p
  return first :: more

/-! ### Repetition ends by itself -/

theorem round_congr {p : Production α} {again again' : Production (List α)} {s : Word}
    (h : ∀ rest : Word, rest.length < s.length → again rest = again' rest) :
    round p again s = round p again' s := by
  unfold round
  cases p s with
  | matched value rest =>
    by_cases hr : rest.length < s.length
    · simp only [hr, if_true, h rest hr]
    · simp only [hr, if_false]
  | failed rest expected => rfl
  | stalled => rfl

theorem rounds_succ (p : Production α) {n : Nat} {s : Word} (h : s.length ≤ n) :
    rounds p (n + 1) s = rounds p n s := by
  induction n generalizing s with
  | zero => exact round_congr fun rest hr => by omega
  | succ n ih => exact round_congr fun rest hr => ih (by omega)

/-- As many rounds as there are characters are enough. -/
theorem rounds_eq_many (p : Production α) {n : Nat} {s : Word} (h : s.length ≤ n) :
    rounds p n s = many p s := by
  induction n with
  | zero => unfold many; rw [Nat.le_zero.mp h]
  | succ n ih =>
    by_cases hn : s.length ≤ n
    · rw [rounds_succ p hn, ih hn]
    · unfold many; rw [show s.length = n + 1 by omega]

/-- A repetition is one round and then the repetition again. -/
theorem many_unfold (p : Production α) (s : Word) : many p s = round p (many p) s := by
  rw [← rounds_eq_many p (Nat.le_succ s.length)]
  exact round_congr fun rest hr => rounds_eq_many p (Nat.le_of_lt hr)

end Production

end WordFormation.RuleText
