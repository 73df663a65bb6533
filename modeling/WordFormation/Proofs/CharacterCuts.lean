/-
  WordFormation/Proofs/CharacterCuts.lean
  =======================================
  **No word is ever cut inside a character.**

  Characters take one to four bytes, and words are cut at byte offsets.  An offset at
  which a cut can be made is a boundary of the UTF-8 encoding (`isSome_cutAt?_iff`),
  and the offset of a gap is the one boundary with so many characters in front of it
  (`byteOffset?_eq_some_iff`).

  Where there is no cut, the functions that find, delete and insert forms would go on
  with the word as it is.  Whether they ever do is settled by a second way of running
  them, in which a part of a word is refused if it does not begin and end at a
  boundary, and one refusal is the end of the run (`formAt?`, `removeAt?`,
  `insertAt?`).  Nothing is ever refused.  The offsets of gaps are boundaries.  The
  only other offset adds the bytes of a form to the bytes in front of it, and since the
  form stands there in the word, this is again the offset of a gap, as many characters
  further on (`Word.behind?_found`).  The reversed word is no different from any other.
-/
import WordFormation.Allomorphs.Placement

namespace WordFormation

namespace Word

variable {w : Word} {k offset : Nat}

/-! ### The encoding of a word -/

theorem size_utf8Encode (w : Word) : w.utf8Encode.size = w.byteSize := by
  induction w with
  | nil => simp
  | cons c w ih =>
    rw [List.utf8Encode_cons, ByteArray.size_append, ih, List.utf8Encode_singleton]
    simp

theorem utf8ByteSize_ofList (w : Word) : (String.ofList w).utf8ByteSize = w.byteSize := by
  rw [← String.size_toByteArray, String.toByteArray_ofList, size_utf8Encode]

theorem isBoundary_iff_isValid :
    w.IsBoundary offset ↔ String.Pos.Raw.IsValid (String.ofList w) ⟨offset⟩ := by
  rw [String.Pos.Raw.isValid_ofList]
  constructor
  · rintro ⟨front, back, rfl, rfl⟩
    exact ⟨front.length, by rw [List.take_left, utf8ByteSize_ofList]⟩
  · rintro ⟨i, hi⟩
    rw [utf8ByteSize_ofList] at hi
    exact ⟨w.take i, w.drop i, (List.take_append_drop i w).symm, hi.symm⟩

theorem cutAt?_eq_some_iff {front back : Word} :
    w.cutAt? offset = some (front, back) ↔ w = front ++ back ∧ front.byteSize = offset := by
  constructor
  · intro h
    fun_induction cutAt? w offset generalizing front with
    | case1 w => cases h; exact ⟨rfl, rfl⟩
    | case2 offset => cases h
    | case3 c w offset hfits ih =>
      obtain ⟨⟨front', back'⟩, hcut, heq⟩ := Option.map_eq_some_iff.mp h
      cases heq
      obtain ⟨rfl, hsize⟩ := ih hcut
      refine ⟨rfl, ?_⟩
      rw [byteSize_cons]
      omega
    | case4 c w offset hfits => cases h
  · rintro ⟨rfl, rfl⟩
    exact cutAt?_byteSize front back

theorem isSome_cutAt?_iff :
    (w.cutAt? offset).isSome ↔ String.Pos.Raw.IsValid (String.ofList w) ⟨offset⟩ := by
  rw [← isBoundary_iff_isValid, Option.isSome_iff_exists]
  constructor
  · rintro ⟨⟨front, back⟩, hcut⟩
    obtain ⟨hw, hsize⟩ := cutAt?_eq_some_iff.mp hcut
    exact ⟨front, back, hw, hsize⟩
  · rintro ⟨front, back, hw, hsize⟩
    exact ⟨(front, back), cutAt?_eq_some_iff.mpr ⟨hw, hsize⟩⟩

/-- An offset is a boundary of the encoding of a word, and the bytes in front of it
    encode so many characters. -/
structure IsBoundaryBehind (w : Word) (k offset : Nat) : Prop where
  isValid : String.Pos.Raw.IsValid (String.ofList w) ⟨offset⟩
  encoded : ∃ front : Word, front.length = k ∧
    (String.ofList w).toByteArray.extract 0 offset = front.utf8Encode

theorem extract_utf8Encode (front back : Word) :
    (String.ofList (front ++ back)).toByteArray.extract 0 front.byteSize = front.utf8Encode := by
  rw [String.toByteArray_ofList, List.utf8Encode_append,
    ByteArray.extract_append_eq_left (size_utf8Encode front).symm]

theorem byteOffset?_eq_some_iff :
    w.byteOffset? k = some offset ↔ w.IsBoundaryBehind k offset := by
  constructor
  · intro h
    have hvalid : String.Pos.Raw.IsValid (String.ofList w) ⟨offset⟩ :=
      isSome_cutAt?_iff.mp (by rw [cutAt?_byteOffset? h]; rfl)
    obtain ⟨hw, hsize⟩ := cutAt?_eq_some_iff.mp (cutAt?_byteOffset? h)
    rw [byteOffset?_eq] at h
    split at h
    · rename_i hk
      refine ⟨hvalid, w.take k, List.length_take_of_le hk, ?_⟩
      have hencoded := extract_utf8Encode (w.take k) (w.drop k)
      rwa [← hw, hsize] at hencoded
    · cases h
  · rintro ⟨hvalid, front, rfl, hencoded⟩
    obtain ⟨front', back, rfl, rfl⟩ := isBoundary_iff_isValid.mpr hvalid
    rw [extract_utf8Encode] at hencoded
    have hfront : front' = front := String.ofList_injective (by
      rw [← String.toByteArray_inj, String.toByteArray_ofList, String.toByteArray_ofList, hencoded])
    subst hfront
    rw [byteOffset?_eq, if_pos (by simp), List.take_left]

theorem isSome_byteOffset?_iff : (w.byteOffset? k).isSome ↔ k ≤ w.length := by
  rw [byteOffset?_eq]
  split
  · rename_i hk
    exact ⟨fun _ => hk, fun _ => rfl⟩
  · rename_i hk
    exact ⟨fun h => absurd h (by simp), fun h => absurd h hk⟩

/-! ### Parts that can be refused -/

/-- The characters in front of a byte offset, which has to be a boundary. -/
def before? (w : Word) (offset : Nat) : Option Word := (w.cutAt? offset).map (·.1)

/-- The characters behind a byte offset, which has to be a boundary. -/
def behind? (w : Word) (offset : Nat) : Option Word := (w.cutAt? offset).map (·.2)

def splice? (w : Word) (offset : Nat) (form : Word) : Option Word := do
  let front ← w.before? offset
  let back ← w.behind? offset
  return front ++ form ++ back

theorem before?_gap (h : w.byteOffset? k = some offset) : w.before? offset = some (w.take k) := by
  rw [before?, cutAt?_byteOffset? h, Option.map_some]

theorem behind?_gap (h : w.byteOffset? k = some offset) : w.behind? offset = some (w.drop k) := by
  rw [behind?, cutAt?_byteOffset? h, Option.map_some]

/-- The end of a form that stands at a gap is a boundary too. -/
theorem behind?_found {form : Word} (h : w.byteOffset? k = some offset)
    (hform : form <+: w.drop k) :
    w.behind? (offset + form.byteSize) = some (w.drop (k + form.length)) := by
  rw [behind?, cutAt?_behind h hform, Option.map_some]

theorem isSome_before?_iff :
    (w.before? offset).isSome ↔ String.Pos.Raw.IsValid (String.ofList w) ⟨offset⟩ := by
  rw [before?, Option.isSome_map, isSome_cutAt?_iff]

theorem isSome_behind?_iff :
    (w.behind? offset).isSome ↔ String.Pos.Raw.IsValid (String.ofList w) ⟨offset⟩ := by
  rw [behind?, Option.isSome_map, isSome_cutAt?_iff]

theorem splice?_gap (h : w.byteOffset? k = some offset) (form : Word) :
    w.splice? offset form = some (w.take k ++ form ++ w.drop k) := by
  rw [splice?, before?_gap h, behind?_gap h]
  rfl

end Word

namespace Allomorphs

/-! ### Finding, deleting and inserting with such parts -/

def formAtGap? (a : Allomorphs) (w : Word) (k : Nat) : Option Word :=
  match w.byteOffset? k with
  | some offset => do
    let tail ← w.behind? offset
    return (longest (a.forms.filter (·.isPrefixOf tail))).getD []
  | none => some []

def removeAtGap? (a : Allomorphs) (w : Word) (k : Nat) : Option Word := do
  let found ← a.formAtGap? w k
  match w.byteOffset? k with
  | some offset =>
    if found.isEmpty then
      return w
    else
      let front ← w.before? offset
      let back ← w.behind? (offset + found.byteSize)
      return front ++ back
  | none => return w

/-- A form put at a byte offset, with its fit at the gap there. -/
def candidate? (a : Allomorphs) (w : Word) (k offset : Nat) (form : Word) :
    Option (Fit × Word) := do
  let result ← w.splice? offset form
  let found ← a.formAtGap? result k
  return (⟨found.length - form.length, form.length⟩, result)

def insertAtGap? (a : Allomorphs) (w : Word) (k : Nat) : Option (Option Word) :=
  match w.byteOffset? k with
  | some offset => do
    let candidates ← a.forms.mapM (a.candidate? w k offset)
    return some ((firstBest (fun next kept => next.1.better kept.1) candidates).elim w (·.2))
  | none => some none

def solveAt? (a : Allomorphs) (w : Word) (p : Position)
    (solve : Allomorphs → Word → Position → Nat → Option (Edited Word)) :
    Option (Edited Word) :=
  if p.val = 0 then
    some (.error .zeroIndex)
  else if p.fromEnd then do
    let outcome ← solve a.reversed w.reverse p.mirrored (p.mirrored.ordinal - 1)
    return solveReversed p w fun _ => outcome
  else
    solve a w p (p.ordinal - 1)

def formAt? (a : Allomorphs) (w : Word) (p : Position) : Option (Edited Word) :=
  a.solveAt? w p fun a w _ k => do return .ok (← a.formAtGap? w k)

def removeAt? (a : Allomorphs) (w : Word) (p : Position) : Option (Edited Word) :=
  a.solveAt? w p fun a w _ k => do return .ok (← a.removeAtGap? w k)

def insertAt? (a : Allomorphs) (w : Word) (p : Position) : Option (Edited Word) :=
  a.solveAt? w p fun a w p k => do
    match ← a.insertAtGap? w k with
    | some result => return .ok result
    | none => return .error (.outOfRange p w.length)

/-! ### Nothing is refused -/

section Gap

variable (a : Allomorphs) (w : Word) (k : Nat)

theorem formAtGap?_eq_some : a.formAtGap? w k = some (a.formAtGap w k) := by
  unfold formAtGap? formAtGap
  cases h : w.byteOffset? k with
  | none => rfl
  | some offset =>
    simp only [Word.behind?_gap h, Word.afterByte_byteOffset? h]
    rfl

theorem removeAtGap?_eq_some : a.removeAtGap? w k = some (a.removeAtGap w k) := by
  have hstands := a.formAtGap_prefix (w := w) (k := k)
  unfold removeAtGap? removeAtGap
  rw [formAtGap?_eq_some]
  cases h : w.byteOffset? k with
  | none => rfl
  | some offset =>
    simp only [Option.bind_eq_bind, Option.bind_some]
    split
    · rfl
    · rw [Word.before?_gap h, Word.behind?_found h hstands,
        Word.exciseBytes_byteOffset? h hstands]
      rfl

variable {w k} in
theorem candidate?_eq_some {offset : Nat} (h : w.byteOffset? k = some offset) (form : Word) :
    a.candidate? w k offset form =
      some (a.fit k form (w.splice offset form), w.splice offset form) := by
  unfold candidate?
  rw [Word.splice?_gap h, Word.splice_byteOffset? h]
  simp only [Option.bind_eq_bind, Option.bind_some, formAtGap?_eq_some]
  rfl

theorem insertAtGap?_eq_some : a.insertAtGap? w k = some (a.insertAtGap w k) := by
  unfold insertAtGap? insertAtGap
  cases h : w.byteOffset? k with
  | none => rfl
  | some offset =>
    have hcandidates : a.candidate? w k offset =
        fun form => pure (a.fit k form (w.splice offset form), w.splice offset form) :=
      funext (a.candidate?_eq_some h)
    simp only [hcandidates, List.mapM_pure]
    rfl

end Gap

/-- A run goes through at a position if it goes through at its gap, from either end. -/
theorem solveAt?_eq_some {solve : Allomorphs → Word → Position → Nat → Edited Word}
    {solve? : Allomorphs → Word → Position → Nat → Option (Edited Word)}
    (h : ∀ a w p k, solve? a w p k = some (solve a w p k)) (a : Allomorphs) (w : Word)
    (p : Position) : a.solveAt? w p solve? = some (a.solveAt w p solve) := by
  unfold solveAt? solveAt
  split
  · rfl
  · split
    · rw [h]
      rfl
    · exact h ..

theorem formAt?_eq_some (a : Allomorphs) (w : Word) (p : Position) :
    a.formAt? w p = some (a.formAt w p) :=
  solveAt?_eq_some (fun a w p k => by rw [formAtGap?_eq_some]; rfl) a w p

theorem removeAt?_eq_some (a : Allomorphs) (w : Word) (p : Position) :
    a.removeAt? w p = some (a.removeAt w p) :=
  solveAt?_eq_some (fun a w p k => by rw [removeAtGap?_eq_some]; rfl) a w p

theorem insertAt?_eq_some (a : Allomorphs) (w : Word) (p : Position) :
    a.insertAt? w p = some (a.insertAt w p) :=
  solveAt?_eq_some (fun a w p k => by
    rw [insertAtGap?_eq_some]
    cases a.insertAtGap w k <;> rfl) a w p

end Allomorphs

/-- **Every cut falls between two characters.**  The gaps of a word have offsets, and
    these are exactly the boundaries of its encoding, each with the number of characters
    in front of it.  A part of a word is refused exactly if it does not begin or end at
    a boundary, and none that is asked for is: neither where a form is put at a gap, nor
    where one is found, deleted or inserted at any position. -/
theorem cuts_between_characters (w : Word) :
    (∀ k, (w.byteOffset? k).isSome ↔ k ≤ w.length) ∧
    (∀ k offset, w.byteOffset? k = some offset ↔ w.IsBoundaryBehind k offset) ∧
    (∀ offset,
      ((w.before? offset).isSome ↔ String.Pos.Raw.IsValid (String.ofList w) ⟨offset⟩) ∧
      ((w.behind? offset).isSome ↔ String.Pos.Raw.IsValid (String.ofList w) ⟨offset⟩)) ∧
    (∀ k offset, w.byteOffset? k = some offset → ∀ form,
      w.splice? offset form = some (w.splice offset form) ∧
        w.splice offset form = w.take k ++ form ++ w.drop k) ∧
    ∀ (a : Allomorphs) (p : Position),
      a.formAt? w p = some (a.formAt w p) ∧
      a.removeAt? w p = some (a.removeAt w p) ∧
      a.insertAt? w p = some (a.insertAt w p) := by
  refine ⟨fun k => Word.isSome_byteOffset?_iff, fun k offset => Word.byteOffset?_eq_some_iff,
    fun offset => ⟨Word.isSome_before?_iff, Word.isSome_behind?_iff⟩, ?_, ?_⟩
  · intro k offset h form
    have hsplice := Word.splice_byteOffset? h form
    exact ⟨(Word.splice?_gap h form).trans (congrArg some hsplice.symm), hsplice⟩
  · intro a p
    exact ⟨a.formAt?_eq_some w p, a.removeAt?_eq_some w p, a.insertAt?_eq_some w p⟩

/-- `ł` takes two bytes and `匠` three. -/
theorem cuts_between_characters_wide :
    let w : Word := ['ł', '匠', 'a']
    let a := Allomorphs.ofForms [['a'], ['匠', 'a']]
    w.byteOffset? 2 = some 5 ∧ w.splice? 5 ['é'] = some ['ł', '匠', 'é', 'a'] ∧
      w.before? 3 = none ∧ a.removeAt? w Position.final = some (.ok ['ł']) := by
  intro w a
  have hgap : w.byteOffset? 2 = some 5 := by decide
  obtain ⟨-, -, -, hsplice, hrun⟩ := cuts_between_characters w
  obtain ⟨hnone, hput⟩ := hsplice 2 5 hgap ['é']
  have hremoved : a.removeAt w Position.final = .ok ['ł'] := by rfl
  exact ⟨hgap, hnone.trans (congrArg some hput), by decide,
    (hrun a Position.final).2.1.trans (congrArg some hremoved)⟩

end WordFormation
