/-
  WordFormation/Pattern/Written.lean
  ==================================
  **Patterns as they are written.**

  Letters stand for themselves, `.` for any character of a line, `^` and `$` for
  the ends of the word, `\d` for a digit.  Punctuation loses its meaning after
  `\`.  `|` separates alternatives, `( )` and `(?: )` hold parts together, and
  `*`, `+`, `?`, `{m}`, `{m,}` and `{m,n}` repeat what is in front of them.  A
  further `?` asks for as few repetitions as possible, which does not matter for
  whether there is a match.

  A set in brackets has characters, ranges such as `a-z`, named sets such as
  `[:alpha:]` and further sets in brackets; `^` in front stands for what is
  outside of it.  Two sets side by side are joined by `&&` for what is in both,
  `--` for what is in the first only and `~~` for what is in one but not both.

  A text is first cut into symbols and these are then put together.  Both can
  fail: on brackets that are not closed, on a repetition of nothing, on limits or
  ranges in the wrong order and on unknown escapes.  A closing bracket or brace
  with nothing open stands for itself.  Patterns that are too large or too deep
  are refused.
-/
import WordFormation.Pattern

namespace WordFormation.Pattern

/-! ### Pieces -/

/-- A pattern and how deep its parts lie in one another. -/
structure Piece where
  pattern : WordPattern
  depth : Nat
deriving DecidableEq

def sequence : List WordPattern → WordPattern
  | [] => .empty
  | [p] => p
  | p :: ps => .seq p (sequence ps)

def choice : List WordPattern → WordPattern
  | [] => .empty
  | [p] => p
  | p :: ps => .alt p (choice ps)

namespace Piece

def leaf (p : WordPattern) : Piece := ⟨p, 0⟩

/-- A set in brackets. -/
def bracketed (set : CharSet) : Piece := ⟨.one set, 1⟩

def grouped (piece : Piece) : Piece := { piece with depth := piece.depth + 1 }

def repeated (piece : Piece) (low : Nat) (high : Option Nat) : Piece :=
  ⟨.repeated piece.pattern low high, piece.depth + 1⟩

/-- Several pieces in one, `join` being what becomes of their patterns.  A single
    piece stays what it is. -/
def joined (join : List WordPattern → WordPattern) : List Piece → Piece
  | [] => leaf .empty
  | [piece] => piece
  | pieces => ⟨join (pieces.map Piece.pattern), (pieces.map Piece.depth).foldl max 0 + 1⟩

end Piece

/-! ### Symbols -/

/-- A symbol of a written pattern. -/
inductive Symbol where
  | atom (piece : Piece)
  | opening
  | closing
  | bar
  /-- Repeat what is in front. -/
  | repetition (low : Nat) (high : Option Nat)
deriving DecidableEq

/-- Does the character stand for itself after `\`?  In ASCII all do but letters,
    digits and angle brackets. -/
def isEscapable (c : Char) : Bool :=
  c.toNat < 128 && !c.isAlphanum && c != '<' && c != '>'

/-- The set of characters that an escaped character stands for. -/
def escaped? (c : Char) : Option CharSet :=
  if c = 'd' then some CharSet.digits
  else if isEscapable c then some (CharSet.single c)
  else none

/-! ### Sets in brackets -/

/-- The character or set in front of a text and the text behind it. -/
def member? : Word → Option ((Char ⊕ CharSet) × Word)
  | [] => none
  | '\\' :: [] => none
  | '\\' :: e :: s =>
    if isEscapable e then some (.inl e, s) else (escaped? e).map fun set => (.inr set, s)
  | c :: s => some (.inl c, s)

def memberSet : Char ⊕ CharSet → CharSet
  | .inl c => .single c
  | .inr set => set

/-- The character, set or range in front of a text and the text behind it.  A dash
    in front of another dash or of a closing bracket makes no range. -/
def range? (s : Word) : Option (CharSet × Word) := do
  let (first, s) ← member? s
  match s with
  | '-' :: ']' :: _ | '-' :: '-' :: _ => return (memberSet first, s)
  | '-' :: s =>
    let (last, s) ← member? s
    match first, last with
    | .inl low, .inl high => if low ≤ high then return (.ranges [(low, high)], s) else none
    | _, _ => none
  | s => return (memberSet first, s)

/-- Read `^` if it is there. -/
def caret : Word → Bool × Word
  | '^' :: s => (true, s)
  | s => (false, s)

/-- What is in a set, or outside of it. -/
def unlessNegated (negated : Bool) (set : CharSet) : CharSet :=
  if negated then .complement set else set

def namedSet? : Word → Option (CharSet × Word)
  | ':' :: s =>
    let (negated, s) := caret s
    match s.dropWhile (· != ':') with
    | ':' :: ']' :: rest =>
      (CharSet.named? (String.ofList (s.takeWhile (· != ':')))).map fun set =>
        (unlessNegated negated set, rest)
    | _ => none
  | _ => none

/-- The characters in front of a set that stand for themselves there only: dashes,
    or one closing bracket. -/
def leading (s : Word) : CharSet × Word :=
  match s with
  | ']' :: rest => (.single ']', rest)
  | s => (.ranges ((s.takeWhile (· == '-')).map fun c => (c, c)), s.dropWhile (· == '-'))

/-- What the operations in front of the members of a set make of them. -/
def operated (before : Option (CharSet × SetOperation)) (members : CharSet) : CharSet :=
  match before with
  | none => members
  | some (set, op) => .combined op set members

/-- The rest of a set up to its closing bracket and the text behind it, where
    `members` were read since the last operation and `before` is what stands in
    front of them.  Operations bind alike and from the left.  At most `n` members
    and operations are read. -/
def set? : Nat → Option (CharSet × SetOperation) → CharSet → Word → Option (CharSet × Word)
  | 0, _, _, _ => none
  | n + 1, before, members, s =>
    match s with
    | ']' :: s => some (operated before members, s)
    | '[' :: s =>
      match namedSet? s with
      | some (inner, s) => set? n before (members.union inner) s
      | none =>
        let (negated, s) := caret s
        let (front, s) := leading s
        match set? n none front s with
        | some (inner, s) => set? n before (members.union (unlessNegated negated inner)) s
        | none => none
    | '&' :: '&' :: s => set? n (some (operated before members, .intersection)) .empty s
    | '-' :: '-' :: s => set? n (some (operated before members, .difference)) .empty s
    | '~' :: '~' :: s => set? n (some (operated before members, .symmetricDifference)) .empty s
    | s =>
      match range? s with
      | some (member, s) => set? n before (members.union member) s
      | none => none

/-- A set whose opening bracket was read, and the text behind it. -/
def outerSet? (s : Word) : Option (CharSet × Word) := do
  let (negated, s) := caret s
  let (front, s) := leading s
  let (set, s) ← set? (s.length + 1) none front s
  return (unlessNegated negated set, s)

/-! ### Repetitions -/

/-- White space of any script. -/
def isBlank (c : Char) : Bool :=
  let n := c.toNat
  (9 ≤ n && n ≤ 13) || n == 0x20 || n == 0x85 || n == 0xA0 || n == 0x1680 ||
    (0x2000 ≤ n && n ≤ 0x200A) || n == 0x2028 || n == 0x2029 || n == 0x202F || n == 0x205F ||
    n == 0x3000

/-- The decimal number in front of a text, blanks around it left out.  It has to
    fit in 32 bits. -/
def number? (s : Word) : Option (Nat × Word) :=
  let s := s.dropWhile isBlank
  let digits := s.takeWhile Char.isDigit
  let value := digits.foldl (fun n c => 10 * n + (c.toNat - 48)) 0
  if digits.isEmpty || 0x100000000 ≤ value then
    none
  else
    some (value, (s.dropWhile Char.isDigit).dropWhile isBlank)

/-- The limits of a repetition whose opening brace was read. -/
def limits? (s : Word) : Option (Nat × Option Nat × Word) := do
  let (low, s) ← number? s
  match s with
  | '}' :: s => return (low, some low, s)
  | ',' :: s =>
    match s with
    | '}' :: s => return (low, none, s)
    | s =>
      let (high, s) ← number? s
      match s with
      | '}' :: s => if low ≤ high then return (low, some high, s) else none
      | _ => none
  | _ => none

/-- Leave out the mark for as few repetitions as possible. -/
def withoutLaziness : Word → Word
  | '?' :: s => s
  | s => s

/-- Cut a text into at most `n` symbols. -/
def symbols? : Nat → Word → Option (List Symbol)
  | _, [] => some []
  | 0, _ :: _ => none
  | n + 1, c :: s =>
    let repetition (low : Nat) (high : Option Nat) (s : Word) : Option (List Symbol) :=
      (symbols? n (withoutLaziness s)).map (.repetition low high :: ·)
    let atom (piece : Piece) (s : Word) : Option (List Symbol) :=
      (symbols? n s).map (.atom piece :: ·)
    match c with
    | '.' => atom (.leaf (.one .inLine)) s
    | '^' => atom (.leaf .start) s
    | '$' => atom (.leaf .final) s
    | '|' => (symbols? n s).map (.bar :: ·)
    | ')' => (symbols? n s).map (.closing :: ·)
    | '*' => repetition 0 none s
    | '+' => repetition 1 none s
    | '?' => repetition 0 (some 1) s
    | '{' => do
      let (low, high, s) ← limits? s
      repetition low high s
    | '(' =>
      match s with
      | '?' :: ':' :: s => (symbols? n s).map (.opening :: ·)
      | '?' :: _ => none
      | s => (symbols? n s).map (.opening :: ·)
    | '[' => do
      let (set, s) ← outerSet? s
      atom (.bracketed set) s
    | '\\' =>
      match s with
      | [] => none
      | e :: s => do
        let set ← escaped? e
        atom (.leaf (.one set)) s
    | c => atom (.leaf (.one (.single c))) s

/-! ### Putting symbols together -/

/-- What was read since the last opening parenthesis: the alternatives before the
    last bar and the pieces behind it, both the last one first. -/
structure Open where
  earlier : List Piece := []
  pieces : List Piece := []

namespace Open

def push (o : Open) (piece : Piece) : Open := { o with pieces := piece :: o.pieces }

/-- The alternatives that were read, the last one first. -/
def alternatives (o : Open) : List Piece :=
  Piece.joined sequence o.pieces.reverse :: o.earlier

/-- All that was read, as one piece. -/
def close (o : Open) : Piece := Piece.joined choice o.alternatives.reverse

end Open

/-- Put symbols together, `inner` being what was read since the last parenthesis
    that is open and `outer` what was read before each of them. -/
def assemble? (outer : List Open) (inner : Open) : List Symbol → Option Piece
  | [] => if outer.isEmpty then some inner.close else none
  | .atom piece :: symbols => assemble? outer (inner.push piece) symbols
  | .opening :: symbols => assemble? (inner :: outer) {} symbols
  | .closing :: symbols =>
    match outer with
    | [] => none
    | before :: outer => assemble? outer (before.push inner.close.grouped) symbols
  | .bar :: symbols => assemble? outer { earlier := inner.alternatives } symbols
  | .repetition low high :: symbols =>
    match inner.pieces with
    | [] => none
    | piece :: pieces =>
      assemble? outer { inner with pieces := piece.repeated low high :: pieces } symbols

/-- How deep the parts of a pattern may lie in one another. -/
def maxDepth : Nat := 250

/-- How many parts a pattern may have with its repetitions written out. -/
def maxSize : Nat := 300000

/-- The pattern that a text stands for. -/
def ofText? (s : Word) : Option WordPattern := do
  let symbols ← symbols? s.length s
  let piece ← assemble? [] {} symbols
  if piece.depth ≤ maxDepth && piece.pattern.size ≤ maxSize then
    some piece.pattern
  else
    none

end WordFormation.Pattern
