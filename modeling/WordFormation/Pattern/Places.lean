/-
  WordFormation/Pattern/Places.lean
  =================================
  **Sets of places in a word.**

  A place is a gap between characters, counted from the start of the word.  A set
  of places is kept as one number whose bits tell which places are in it, so that
  an operation treats all places of a word at once.

  Whether a place is in a set is asked with `Places.contains`.  For each operation
  there is a lemma that says what it does to the answers.
-/
import WordFormation.Word

namespace WordFormation

/-- A set of places: bit `i` tells whether place `i` is in it. -/
structure Places where
  bits : Nat
deriving DecidableEq

namespace Places

def contains (s : Places) (i : Nat) : Bool := s.bits.testBit i

def none : Places := ⟨0⟩

def single (i : Nat) : Places := ⟨1 <<< i⟩

/-- The places `0` to `n`. -/
def upTo (n : Nat) : Places := ⟨1 <<< (n + 1) - 1⟩

def isNone (s : Places) : Bool := s.bits == 0

def union (s t : Places) : Places := ⟨s.bits ||| t.bits⟩

def inter (s t : Places) : Places := ⟨s.bits &&& t.bits⟩

def without (s t : Places) : Places := ⟨s.bits ^^^ (s.bits &&& t.bits)⟩

/-- The places that follow. -/
def next (s : Places) : Places := ⟨s.bits <<< 1⟩

/-- The places in front of the characters for which `p` holds. -/
def inFront (p : Char → Bool) (w : Word) : Places :=
  ⟨w.foldr (fun c bits => 2 * bits + (p c).toNat) 0⟩

/-- The characters of a word, each with the places in front of it. -/
def ofCharacters (w : Word) : List (Char × Places) :=
  w.eraseDups.map fun c => (c, inFront (· == c) w)

/-- The places in front of those of the characters for which `p` holds. -/
def select (p : Char → Bool) : List (Char × Places) → Places
  | [] => none
  | (c, places) :: rest => if p c then places.union (select p rest) else select p rest

theorem contains_none (i : Nat) : none.contains i = false := Nat.zero_testBit i

theorem contains_single (i j : Nat) : (single i).contains j = decide (i = j) := by
  rw [single, contains, Nat.one_shiftLeft, Nat.testBit_two_pow]

theorem contains_upTo (n i : Nat) : (upTo n).contains i = decide (i ≤ n) := by
  rw [upTo, contains, Nat.one_shiftLeft, Nat.testBit_two_pow_sub_one, decide_eq_decide]
  exact Nat.lt_succ_iff

theorem contains_union (s t : Places) (i : Nat) :
    (s.union t).contains i = (s.contains i || t.contains i) :=
  Nat.testBit_or s.bits t.bits i

theorem contains_inter (s t : Places) (i : Nat) :
    (s.inter t).contains i = (s.contains i && t.contains i) :=
  Nat.testBit_and s.bits t.bits i

theorem contains_without (s t : Places) (i : Nat) :
    (s.without t).contains i = (s.contains i && !t.contains i) := by
  simp only [without, contains, Nat.testBit_xor, Nat.testBit_and]
  cases s.bits.testBit i <;> cases t.bits.testBit i <;> rfl

theorem contains_next_zero (s : Places) : s.next.contains 0 = false := by
  simp [next, contains]

theorem contains_next_succ (s : Places) (i : Nat) : s.next.contains (i + 1) = s.contains i := by
  simp [next, contains, Nat.testBit_shiftLeft]

theorem contains_inFront (p : Char → Bool) (w : Word) (i : Nat) :
    (inFront p w).contains i = (w[i]?).any p := by
  induction w generalizing i with
  | nil => simp [inFront, contains]
  | cons c w ih =>
    cases i with
    | zero =>
      cases h : p c <;> simp [inFront, contains, Nat.testBit_zero, h, Nat.add_mod]
    | succ i =>
      have half (n : Nat) : (2 * n + (p c).toNat) / 2 = n := by cases p c <;> grind
      rw [List.getElem?_cons_succ, ← ih i]
      simp only [inFront, contains, List.foldr_cons, Nat.testBit_succ, half]

theorem contains_select (p : Char → Bool) (table : List (Char × Places)) (i : Nat) :
    (select p table).contains i = table.any fun (c, places) => p c && places.contains i := by
  induction table with
  | nil => exact contains_none i
  | cons entry table ih => cases h : p entry.1 <;> simp [select, contains_union, h, ih]

/-- Selecting from the characters of a word gives the places in front of the ones
    that are asked for. -/
theorem contains_select_ofCharacters (p : Char → Bool) (w : Word) (i : Nat) :
    (select p (ofCharacters w)).contains i = (w[i]?).any p := by
  rw [contains_select, ofCharacters, List.any_map, Bool.eq_iff_iff]
  simp only [List.any_eq_true, List.mem_eraseDups, Function.comp_apply, Bool.and_eq_true,
    contains_inFront]
  cases h : w[i]? with
  | none => simp
  | some c =>
    simp only [Option.any_some, beq_iff_eq]
    exact ⟨fun ⟨d, _, hd, hc⟩ => hc ▸ hd, fun hp => ⟨c, List.mem_of_getElem? h, hp, rfl⟩⟩

theorem isNone_iff (s : Places) : s.isNone = true ↔ ∀ i, s.contains i = false := by
  rw [isNone, beq_iff_eq]
  exact ⟨fun h i => by rw [contains, h, Nat.zero_testBit],
    fun h => Nat.eq_of_testBit_eq fun i => (h i).trans (Nat.zero_testBit i).symm⟩

end Places

end WordFormation
