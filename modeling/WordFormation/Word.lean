/-
  WordFormation/Word.lean
  =======================
  **Words as lists of characters, and the byte offsets at which they may be cut.**

  Everything that is edited here is a word: the base a rule is applied to, the
  letters an affix carries, the text of a rule itself.  A word is a list of
  Unicode characters and no normalisation is ever done, so `é` and `e` followed
  by a combining accent are different words.

  Positions count characters.  A cut, however, is made at an offset into the
  UTF-8 encoding, and an offset inside a character has no cut at all.  The two
  countings meet in `byteOffset?`: it is defined up to the length of the word,
  and cutting there gives exactly the first characters and the rest
  (`cutAt?_byteOffset?`).
-/

namespace WordFormation

/-- A word, or any other text, as its list of characters. -/
abbrev Word := List Char

namespace Word

/-! ### Length in bytes -/

/-- The number of bytes of the UTF-8 encoding of a word. -/
def byteSize : Word → Nat
  | [] => 0
  | c :: w => c.utf8Size + byteSize w

@[simp] theorem byteSize_nil : byteSize [] = 0 := rfl

@[simp] theorem byteSize_cons (c : Char) (w : Word) :
    byteSize (c :: w) = c.utf8Size + byteSize w := rfl

@[simp] theorem byteSize_append (v w : Word) :
    byteSize (v ++ w) = byteSize v + byteSize w := by
  induction v with
  | nil => simp
  | cons c v ih => simp [ih, Nat.add_assoc]

/-- An offset falls between two characters, or at either end, when some first
    part of the word takes up exactly that many bytes. -/
def IsBoundary (w : Word) (offset : Nat) : Prop :=
  ∃ front back, w = front ++ back ∧ byteSize front = offset

/-! ### Offsets and cuts -/

/-- The byte offset of the gap in front of the character with index `k`.  The
    length of the word stands for the gap behind its last character; further
    gaps do not exist. -/
def byteOffset? : Word → Nat → Option Nat
  | _, 0 => some 0
  | [], _ + 1 => none
  | c :: w, k + 1 => (byteOffset? w k).map (c.utf8Size + ·)

/-- The parts of a word before and after a byte offset, if the offset is not
    inside a character nor behind the end. -/
def cutAt? : Word → Nat → Option (Word × Word)
  | w, 0 => some ([], w)
  | [], _ + 1 => none
  | c :: w, offset + 1 =>
    if c.utf8Size ≤ offset + 1 then
      (cutAt? w (offset + 1 - c.utf8Size)).map fun (front, back) => (c :: front, back)
    else
      none

/-- Put `form` into a word at a byte offset.  Where there is no cut nothing is
    put. -/
def splice (w : Word) (offset : Nat) (form : Word) : Word :=
  match cutAt? w offset with
  | some (front, back) => front ++ form ++ back
  | none => w

/-- What follows a byte offset, nothing where there is no cut. -/
def afterByte (w : Word) (offset : Nat) : Word :=
  match cutAt? w offset with
  | some (_, back) => back
  | none => []

/-- A word without the bytes from `start` to `stop`, unchanged where either is
    no cut. -/
def exciseBytes (w : Word) (start stop : Nat) : Word :=
  match cutAt? w start, cutAt? w stop with
  | some (front, _), some (_, back) => front ++ back
  | _, _ => w

/-- Cutting at the bytes of a first part gives that part and the rest. -/
theorem cutAt?_byteSize (front back : Word) :
    cutAt? (front ++ back) (byteSize front) = some (front, back) := by
  induction front with
  | nil => cases back <;> rfl
  | cons c front ih =>
    have hc := c.utf8Size_pos
    obtain ⟨n, hn⟩ : ∃ n, c.utf8Size + byteSize front = n + 1 :=
      ⟨c.utf8Size + byteSize front - 1, by omega⟩
    have hle : c.utf8Size ≤ n + 1 := by omega
    have hsub : n + 1 - c.utf8Size = byteSize front := by omega
    simp [hn, cutAt?, hle, hsub, ih]

/-- The offset of a gap is the size of the characters in front of it. -/
theorem byteOffset?_eq (w : Word) (k : Nat) :
    byteOffset? w k = if k ≤ w.length then some (byteSize (w.take k)) else none := by
  induction w generalizing k with
  | nil => cases k <;> simp [byteOffset?]
  | cons c w ih =>
    cases k with
    | zero => simp [byteOffset?]
    | succ k => by_cases h : k ≤ w.length <;> simp [byteOffset?, ih, h]

/-- Cutting at the offset of a gap gives the characters in front of it and the
    rest. -/
theorem cutAt?_byteOffset? {w : Word} {k offset : Nat} (h : byteOffset? w k = some offset) :
    cutAt? w offset = some (w.take k, w.drop k) := by
  rw [byteOffset?_eq] at h
  split at h
  · cases h
    have := cutAt?_byteSize (w.take k) (w.drop k)
    rwa [List.take_append_drop] at this
  · cases h

/-- Splicing at the gap in front of the character with index `k`. -/
theorem splice_byteOffset? {w : Word} {k offset : Nat} (h : byteOffset? w k = some offset)
    (form : Word) : splice w offset form = w.take k ++ form ++ w.drop k := by
  unfold splice
  rw [cutAt?_byteOffset? h]

/-- What follows the gap in front of the character with index `k`. -/
theorem afterByte_byteOffset? {w : Word} {k offset : Nat} (h : byteOffset? w k = some offset) :
    afterByte w offset = w.drop k := by
  unfold afterByte
  rw [cutAt?_byteOffset? h]

/-- Behind a form that stands at a gap there is a cut again. -/
theorem cutAt?_behind {w form : Word} {k offset : Nat} (h : byteOffset? w k = some offset)
    (hform : form <+: w.drop k) :
    cutAt? w (offset + byteSize form) =
      some (w.take (k + form.length), w.drop (k + form.length)) := by
  rw [byteOffset?_eq] at h
  by_cases hk : k ≤ w.length
  · rw [if_pos hk] at h
    cases h
    obtain ⟨back, hback⟩ := hform
    have hfront : w.take (k + form.length) = w.take k ++ form := by
      rw [List.take_add, ← hback, List.take_left]
    have hdrop : w.drop (k + form.length) = back := by
      rw [← List.drop_drop, ← hback, List.drop_left]
    have hcut := cutAt?_byteSize (w.take k ++ form) back
    rw [List.append_assoc, hback, List.take_append_drop, byteSize_append] at hcut
    rw [hfront, hdrop, hcut]
  · rw [if_neg hk] at h
    cases h

/-- Taking out a form that stands at a gap. -/
theorem exciseBytes_byteOffset? {w form : Word} {k offset : Nat}
    (h : byteOffset? w k = some offset) (hform : form <+: w.drop k) :
    exciseBytes w offset (offset + byteSize form) = w.take k ++ w.drop (k + form.length) := by
  unfold exciseBytes
  rw [cutAt?_byteOffset? h, cutAt?_behind h hform]

end Word

end WordFormation
