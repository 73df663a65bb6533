/-
  WordFormation/Proofs/RuleText/Recognition.lean
  ==============================================
  **Conditionals are read as what they were written for.**

  There is one lemma for each part of the grammar.  It says that the part
  matches the canonical text of a value and nothing of what is behind it, and
  that the tree is read as the value.  What can stand behind a text is said by
  `EndsAt`: behind a test a bar or a question mark, behind a branch a colon or the
  end of an item, behind an item a comma or a semicolon.

  Lists with separators are treated once for all of their uses
  (`separated_joined`).  Canonical texts have no blanks and no parentheses
  (`IsPlain`), so nothing stands between a separator and what follows it.
-/
import WordFormation.Proofs.RuleText.Chains

namespace WordFormation

open RuleText RuleText.Production RuleText.Grammar

/-! ### What can stand behind a text -/

/-- The text is over or goes on with one of the given characters. -/
def EndsAt (cs : List Char) (rest : Word) : Prop := ∀ c, rest.head? = some c → c ∈ cs

theorem EndsAt.stops {cs : List Char} {test : Char → Bool} {rest : Word} (h : EndsAt cs rest)
    (hcs : cs.any test = false) : Stops test rest := by
  intro c hc
  have := List.any_eq_false.mp hcs c (h c hc)
  simpa using this

theorem EndsAt.head_ne {cs : List Char} {rest : Word} (h : EndsAt cs rest) {c : Char}
    (hc : c ∉ cs) : rest.head? ≠ some c :=
  fun hhead => hc (h c hhead)

theorem EndsAt.mono {cs cs' : List Char} {rest : Word} (h : EndsAt cs rest)
    (hcs : ∀ c ∈ cs, c ∈ cs') : EndsAt cs' rest :=
  fun c hc => hcs c (h c hc)

theorem endsAt_cons {cs : List Char} {c : Char} (hc : c ∈ cs) (rest : Word) :
    EndsAt cs (c :: rest) := by
  intro d hd
  cases hd
  exact hc

theorem endsAt_nil (cs : List Char) : EndsAt cs [] := by
  intro c hc
  cases hc

/-! ### Parts with separators between them -/

section Separated

variable {α β : Type} {c : Char} {cs : List Char} {part : Production Tree}
  {read : Tree → Read β} {write : α → Word} {value : α → β}

/-- What `items` keeps of parts with separators between them. -/
theorem items_separated (c : Char) (t : Tree) (ts : List Tree) :
    Tree.items (t :: (ts.map fun u => [.leaf [c], u]).flatten) = t :: ts := by
  induction ts generalizing t with
  | nil => rfl
  | cons u ts ih =>
    show t :: Tree.items (u :: (ts.map fun u => [.leaf [c], u]).flatten) = t :: u :: ts
    rw [ih u]

/-- The end of a list of parts can stand behind the part in front of it. -/
theorem endsAt_parts {rest : Word} (hrest : EndsAt cs rest) (texts : List Word) :
    EndsAt (c :: cs) (texts.flatMap (c :: ·) ++ rest) := by
  cases texts with
  | nil => exact hrest.mono fun d hd => List.mem_cons_of_mem c hd
  | cons text texts => exact endsAt_cons List.mem_cons_self _

/-- Where no separator stands no further part is looked for. -/
theorem many_separated_of_end {rest : Word} (hblank : Stops isBlank rest)
    (hc : rest.head? ≠ some c) : many (pair (separator c) part) rest = .matched [] rest :=
  many_of_fails (fails_bind (fails_separator hblank hc))

theorem separated_single {s rest : Word} {t : Tree} (hpart : part s = .matched t rest)
    (hblank : Stops isBlank rest) (hc : rest.head? ≠ some c) :
    separated c part s = .matched [t] rest := by
  unfold separated
  rw [bind_of_matched hpart, bind_of_matched (many_separated_of_end hblank hc)]
  rfl

section Joined

variable (hc : isBlank c = false) (hcs : cs.any isBlank = false) (hnot : c ∉ cs)
  (hpart : Advances part)
include hc hcs hnot hpart

/-- The parts behind the first one are matched one by one. -/
theorem many_separated_joined {xs : List α}
    (hmatch : ∀ x ∈ xs, ∀ rest, EndsAt (c :: cs) rest →
      ∃ t, part (write x ++ rest) = .matched t rest ∧ read t = .ok (value x))
    (hstart : ∀ x ∈ xs, ∀ rest, Stops isBlank (write x ++ rest))
    {rest : Word} (hrest : EndsAt cs rest) :
    ∃ ts : List Tree,
      many (pair (separator c) part) ((xs.map write).flatMap (c :: ·) ++ rest) =
        .matched (ts.map fun t => [.leaf [c], t]) rest ∧
      ts.mapM read = .ok (xs.map value) := by
  induction xs with
  | nil => exact ⟨[], many_separated_of_end (hrest.stops hcs) (hrest.head_ne hnot), rfl⟩
  | cons x xs ih =>
    obtain ⟨hmatch, hmatches⟩ := List.forall_mem_cons.mp hmatch
    obtain ⟨hstart, hstarts⟩ := List.forall_mem_cons.mp hstart
    obtain ⟨ts, hts, hread⟩ := ih hmatches hstarts
    obtain ⟨t, ht, hvalue⟩ := hmatch _ (endsAt_parts hrest (xs.map write))
    have hround : pair (separator c) part (((x :: xs).map write).flatMap (c :: ·) ++ rest) =
        .matched [.leaf [c], t] ((xs.map write).flatMap (c :: ·) ++ rest) := by
      have htext : ((x :: xs).map write).flatMap (c :: ·) ++ rest =
          c :: (write x ++ ((xs.map write).flatMap (c :: ·) ++ rest)) := by simp
      unfold pair
      rw [htext, bind_of_matched (separator_cons hc (hstart _)), bind_of_matched ht]
      rfl
    refine ⟨t :: ts, many_of_matched (advances_pair (advances_separator c) hpart.forward)
      hround hts, ?_⟩
    rw [List.mapM_cons, hvalue, ok_bind, hread]
    rfl

/-- What the list holds is matched part by part, and the list stops where it
    ends. -/
theorem separated_joined {xs : List α} (hne : xs ≠ [])
    (hmatch : ∀ x ∈ xs, ∀ rest, EndsAt (c :: cs) rest →
      ∃ t, part (write x ++ rest) = .matched t rest ∧ read t = .ok (value x))
    (hstart : ∀ x ∈ xs, ∀ rest, Stops isBlank (write x ++ rest))
    {rest : Word} (hrest : EndsAt cs rest) :
    ∃ ts, separated c part (joined c (xs.map write) ++ rest) = .matched ts rest ∧
      (Tree.items ts).mapM read = .ok (xs.map value) := by
  obtain ⟨x, xs, rfl⟩ := List.exists_cons_of_ne_nil hne
  obtain ⟨hmatch, hmatches⟩ := List.forall_mem_cons.mp hmatch
  obtain ⟨-, hstarts⟩ := List.forall_mem_cons.mp hstart
  obtain ⟨t, ht, hvalue⟩ := hmatch _ (endsAt_parts hrest (xs.map write))
  obtain ⟨ts, hts, hread⟩ := many_separated_joined hc hcs hnot hpart hmatches hstarts hrest
  have htext : joined c ((x :: xs).map write) ++ rest =
      write x ++ ((xs.map write).flatMap (c :: ·) ++ rest) := by simp [joined]
  refine ⟨t :: (ts.map fun u => [.leaf [c], u]).flatten, ?_, ?_⟩
  · unfold separated
    rw [htext, bind_of_matched ht, bind_of_matched hts]
    rfl
  · rw [items_separated, List.mapM_cons, hvalue, ok_bind, hread]
    rfl

end Joined

end Separated

/-! ### The characters of canonical texts -/

/-- The characters with which texts are written. -/
def isPlain (c : Char) : Bool :=
  isLetter c || ['+', '-', '.', '~', '|', '?', ':', ',', ';'].contains c

/-- No other character is plain. -/
theorem ne_of_isPlain {c d : Char} (hc : isPlain c = true) (hd : isPlain d = false) : c ≠ d := by
  rintro rfl
  rw [hc] at hd
  cases hd

theorem isBlank_of_isPlain {c : Char} (hc : isPlain c = true) : isBlank c = false :=
  isBlank_eq_false_of_test (by decide) hc

def IsPlain (text : Word) : Prop := ∀ c ∈ text, isPlain c = true

instance (text : Word) : Decidable (IsPlain text) := List.decidableBAll _ text

namespace IsPlain

variable {text text' : Word}

theorem nil : IsPlain [] := by
  intro c hc
  cases hc

theorem cons {c : Char} (hc : isPlain c = true) (h : IsPlain text) : IsPlain (c :: text) :=
  List.forall_mem_cons.mpr ⟨hc, h⟩

theorem append (h : IsPlain text) (h' : IsPlain text') : IsPlain (text ++ text') :=
  List.forall_mem_append.mpr ⟨h, h'⟩

theorem flatMap {α : Type} {write : α → Word} {xs : List α} (h : ∀ x ∈ xs, IsPlain (write x)) :
    IsPlain (xs.flatMap write) := by
  intro c hc
  obtain ⟨x, hx, hc⟩ := List.mem_flatMap.mp hc
  exact h x hx c hc

theorem joined {c : Char} (hc : isPlain c = true) {texts : List Word}
    (h : ∀ text ∈ texts, IsPlain text) : IsPlain (joined c texts) := by
  cases texts with
  | nil => exact nil
  | cons text texts =>
    refine append (h text (by simp)) (flatMap fun other hother => cons hc (h other ?_))
    simp [hother]

theorem symbol (p : Polarity) : isPlain p.symbol = true := by
  cases p <;> decide

theorem spelling {a : Allomorphs} (h : a.IsLiteral) : IsPlain a.spelling :=
  fun c hc => by simp [isPlain, h.isLetter_of_mem c hc]

/-- No blank stands at the beginning of a plain text. -/
theorem stops_isBlank (h : IsPlain text) (hne : text ≠ []) (rest : Word) :
    Stops isBlank (text ++ rest) := by
  cases text with
  | nil => exact absurd rfl hne
  | cons c text => exact stops_cons (isBlank_of_isPlain (h c (by simp))) _

end IsPlain

/-! ### Tests and conditions -/

section Stretch

variable {text : Word} {t : RuleText.Tree} {a : Allomorphs} (h : IsStretch text t a)
include h

theorem IsStretch.isMark (c : Char) : t.isMark c = false := by
  cases t with
  | leaf w => cases h.read
  | node label ts => rfl

theorem startTest_written (rest : Word) :
    startTest (text ++ '-' :: rest) = .matched [t, .leaf ['-']] rest := by
  unfold startTest
  rw [bind_of_matched (h.matched (stops_cons (by decide) rest)),
    bind_of_matched (mark_cons '-' rest)]
  rfl

theorem finalTest_written {rest : Word} (hrest : Stops isLetterPart rest) :
    finalTest ('-' :: (text ++ rest)) = .matched [.leaf ['-'], t] rest := by
  unfold finalTest
  rw [bind_of_matched (mark_cons '-' _), bind_of_matched (h.matched hrest)]
  rfl

theorem testBody_written (e : Edge) {rest : Word} (hrest : Stops isLetterPart rest) :
    orElse startTest finalTest (e.around text ++ rest) = .matched (e.trees t) rest := by
  cases e with
  | start =>
    have htext : Edge.start.around text ++ rest = text ++ '-' :: rest := by
      simp [Edge.around]
    rw [htext]
    exact orElse_of_matched (startTest_written h rest)
  | final =>
    have hstart : Fails startTest (Edge.final.around text ++ rest) :=
      fails_bind (fails_letters (stops_cons (by decide) _))
    rw [orElse_of_fails hstart]
    exact finalTest_written h hrest

theorem readTestBody_trees (e : Edge) (whole : RuleText.Tree) :
    Tree.readTestBody whole (e.trees t) = .ok (.isAt e a) := by
  rw [Tree.readTestBody_trees e (h.isMark '-'), h.read, ok_bind]

theorem Edge.stops_around {test : Char → Bool} (hletter : ∀ c, isLetter c = true → test c = false)
    (hmarks : ['(', '-'].any test = false) (e : Edge) (rest : Word) :
    Stops test (e.around text ++ rest) := by
  have hmark := List.any_eq_false.mp hmarks
  cases e with
  | start =>
    rw [Edge.around, List.append_assoc]
    exact h.stops hletter (Bool.eq_false_iff.mpr (hmark '(' (by simp))) _
  | final => exact stops_cons (Bool.eq_false_iff.mpr (hmark '-' (by simp))) _

theorem test_around (negated : Bool) (e : Edge) {rest : Word} (hrest : Stops isLetterPart rest) :
    ∃ tree, test ((if negated then '~' :: e.around text else e.around text) ++ rest) =
        .matched tree rest ∧ tree.readTest = .ok ⟨negated, e, a⟩ := by
  have hbody := testBody_written h e hrest
  have hread := readTestBody_trees h e
  cases negated with
  | true =>
    refine ⟨.node .test (.leaf ['~'] :: e.trees t), ?_, ?_⟩
    · show test ('~' :: (e.around text ++ rest)) = _
      unfold test
      rw [bind_of_matched (optionally_of_matched (mark_cons '~' _)), bind_of_matched hbody]
      rfl
    · have hmark : (Tree.leaf ['~']).isMark '~' = true := rfl
      simp [Tree.readTest, Tree.childrenOf, hmark, hread, EdgeTest.isAt, EdgeTest.negate]
  | false =>
    have htilde : Stops (· == '~') (e.around text ++ rest) :=
      Edge.stops_around h (fun c hc => beq_eq_false_iff_ne.mpr (ne_of_isLetter hc (by decide)))
        (by decide) e rest
    have hnone := optionally_of_fails (fails_mark fun hhead => Bool.noConfusion (htilde '~' hhead))
    refine ⟨.node .test (e.trees t), ?_, ?_⟩
    · show test (e.around text ++ rest) = _
      unfold test
      rw [bind_of_matched hnone, bind_of_matched hbody]
      rfl
    · have hwhole := hread (.node .test (e.trees t))
      have hdash : (Tree.leaf ['-']).isMark '~' = false := rfl
      cases e <;>
        · simp only [Tree.readTest, Tree.childrenOf, if_true, ok_bind, Edge.trees, h.isMark '~',
            hdash]
          exact hwhole

end Stretch

theorem test_written {t : EdgeTest} (h : t.form.IsLiteral) {rest : Word}
    (hrest : Stops isLetterPart rest) :
    ∃ tree, test (t.write ++ rest) = .matched tree rest ∧ tree.readTest = .ok t := by
  have hwrite : t.edge.write t.form = t.edge.around t.form.spelling := by
    cases t.edge with
    | start => rfl
    | final => rfl
  unfold EdgeTest.write
  rw [hwrite]
  exact test_around h.isStretch t.negated t.edge hrest

theorem EdgeTest.isPlain_write {t : EdgeTest} (h : t.form.IsLiteral) : IsPlain t.write := by
  have hform := IsPlain.spelling h
  have hbody : IsPlain (t.edge.write t.form) := by
    cases t.edge with
    | start => exact hform.append (IsPlain.cons (by decide) IsPlain.nil)
    | final => exact IsPlain.cons (by decide) hform
  unfold EdgeTest.write
  split
  · exact IsPlain.cons (by decide) hbody
  · exact hbody

theorem EdgeTest.write_ne_nil (t : EdgeTest) : t.write ≠ [] := by
  have hbody : t.edge.write t.form ≠ [] := by
    cases t.edge <;> simp [Edge.write]
  unfold EdgeTest.write
  split
  · exact List.cons_ne_nil _ _
  · exact hbody

theorem EdgeCondition.IsWritable.isPlain_write {c : EdgeCondition} (h : c.IsWritable) :
    IsPlain c.write := by
  refine IsPlain.joined (by decide) fun text htext => ?_
  obtain ⟨t, ht, rfl⟩ := List.mem_map.mp htext
  exact EdgeTest.isPlain_write (h.forms t ht)

/-- The text in front of a question mark is matched up to it and read as the condition. -/
def ConditionMatches (text : Word) (c : EdgeCondition) : Prop :=
  ∀ rest, EndsAt ['?'] rest →
    ∃ tree, condition (text ++ rest) = .matched tree rest ∧ tree.readCondition = .ok c

theorem condition_written {c : EdgeCondition} (h : c.IsWritable) : ConditionMatches c.write c := by
  intro rest hrest
  obtain ⟨ts, hts, hread⟩ := separated_joined (by decide : isBlank '|' = false)
    (by decide : ['?'].any isBlank = false) (by decide) advances_test h.asks
    (fun t ht rest hrest => test_written (h.forms t ht) (hrest.stops (by decide)))
    (fun t ht rest => (EdgeTest.isPlain_write (h.forms t ht)).stops_isBlank t.write_ne_nil rest)
    hrest
  refine ⟨.node .condition ts, ?_, ?_⟩
  · unfold condition
    exact bind_of_matched hts
  · rw [List.map_id'] at hread
    simp [Tree.readCondition_node, hread]

/-! ### Branches -/

theorem AffixKind.isPlain_write {mark : Char} (hmark : isPlain mark = true) (kind : AffixKind)
    {operands : List Allomorphs} (h : ∀ a ∈ operands, a.IsLiteral) :
    IsPlain (kind.write mark operands) := by
  unfold AffixKind.write
  split
  · exact (IsPlain.spelling (h _ (by simp))).append (IsPlain.cons hmark IsPlain.nil)
  · exact IsPlain.cons hmark (IsPlain.spelling (h _ (by simp)))
  · exact (IsPlain.spelling (h _ (by simp))).append
      (IsPlain.cons hmark (IsPlain.spelling (h _ (by simp))))
  · exact IsPlain.cons hmark
      ((IsPlain.spelling (h _ (by simp))).append (IsPlain.cons hmark IsPlain.nil))
  · exact IsPlain.nil

theorem Operation.isPlain_writeAffix {x : Operation} (h : x.HasLiterals) :
    IsPlain x.writeAffix := by
  cases x with
  | affix kind polarity operands =>
    cases polarity with
    | none => exact IsPlain.nil
    | some p => exact AffixKind.isPlain_write (IsPlain.symbol p) kind h
  | conditional c met unmet => exact IsPlain.nil

theorem IsChain.write_ne_nil {xs : List Operation} (h : IsChain xs) :
    xs.flatMap Operation.writeAffix ≠ [] := by
  cases h <;> simp

theorem Branch.IsWritable.isPlain_write {b : Branch} (h : b.IsWritable) : IsPlain b.write := by
  cases h with
  | identity => exact IsPlain.nil
  | @short p _ => exact IsPlain.cons (IsPlain.symbol p) IsPlain.nil
  | operations _ h => exact IsPlain.flatMap fun x hx => Operation.isPlain_writeAffix (h x hx)

theorem Branch.IsWritable.write_ne_nil {b : Branch} (h : b.IsWritable) (hne : b ≠ .identity) :
    b.write ≠ [] := by
  cases h with
  | identity => exact absurd rfl hne
  | short _ => simp [Branch.write]
  | operations hchain _ => exact hchain.write_ne_nil

def branchEnds : List Char := [':', ',', ';']

/-- A polarity alone is no chain, since no letters follow its mark. -/
theorem fails_edgeSegment_symbol (p : Polarity) {rest : Word} (hrest : Stops isLetterPart rest) :
    Fails edgeSegment (p.symbol :: rest) := by
  have hletters : Fails letters (p.symbol :: rest) :=
    fails_letters (stops_symbol (by decide) p rest)
  have hlink : Fails (pair affixMark letters) (p.symbol :: rest) :=
    fails_bind_of_matched (affixMark_symbol p rest) (fails_bind (fails_letters hrest))
  refine fails_orElse (fails_bind hletters) (fails_orElse ?_ (fails_bind (fails_many1 hlink)))
  exact fails_bind (fails_many1 (fails_bind hletters))

theorem branch_written {b : Branch} (h : b.IsWritable) (hne : b ≠ .identity) {rest : Word}
    (hrest : EndsAt branchEnds rest) :
    ∃ tree, branch (b.write ++ rest) = .matched tree rest ∧ tree.readBranch = .ok b := by
  have hletters : Stops isLetterPart rest := hrest.stops (by decide)
  cases h with
  | identity => exact absurd rfl hne
  | @short p hp =>
    have hmark : shortMark (p.symbol :: rest) = .matched (.leaf [p.symbol]) rest := by
      cases p with
      | insert => rfl
      | remove => rfl
      | toggle => exact absurd rfl hp
    refine ⟨.node .branch [.leaf [p.symbol]], ?_, ?_⟩
    · show branch (p.symbol :: rest) = _
      unfold branch
      rw [bind_of_matched ((orElse_of_fails (fails_edgeSegment_symbol p hletters)).trans hmark)]
      rfl
    · exact Tree.readBranch_symbol p
  | @operations xs hchain hforms =>
    obtain ⟨t, ht, hstands⟩ := edgeSegment_standsFor hchain hforms hletters
      (hrest.stops (by decide))
    refine ⟨.node .branch [t], ?_, hstands.readBranch⟩
    unfold branch
    exact bind_of_matched (orElse_of_matched ht)

/-! ### Conditionals -/

def itemEnds : List Char := [',', ';']

theorem itemEnds_branchEnds {rest : Word} (h : EndsAt itemEnds rest) : EndsAt branchEnds rest :=
  h.mono (by simp [itemEnds, branchEnds])

theorem separator_mark {c : Char} (hc : isBlank c = false) {text : Word} (h : IsPlain text)
    (hne : text ≠ []) (rest : Word) :
    separator c (c :: (text ++ rest)) = .matched (.leaf [c]) (text ++ rest) :=
  separator_cons hc (h.stops_isBlank hne rest)

theorem fails_elseBranch {rest : Word} (hrest : EndsAt itemEnds rest) : Fails elseBranch rest :=
  fails_bind (fails_separator (hrest.stops (by decide)) (hrest.head_ne (by decide)))

theorem elseBranch_written {b : Branch} (h : b.IsWritable) (hne : b ≠ .identity) {rest : Word}
    (hrest : EndsAt itemEnds rest) :
    ∃ tree, elseBranch (':' :: (b.write ++ rest)) = .matched tree rest ∧
      tree.readBranch = .ok b := by
  obtain ⟨t, ht, hread⟩ := branch_written h hne (itemEnds_branchEnds hrest)
  refine ⟨t, ?_, hread⟩
  unfold elseBranch
  rw [bind_of_matched (separator_mark (by decide) h.isPlain_write (h.write_ne_nil hne) rest), ht]

section Conditional

variable {asking : Word} {c : EdgeCondition} {met unmet : Branch} (hc : ConditionMatches asking c)
  (hunmet : unmet.IsWritable)
include hc hunmet

/-- A conditional with something to do where its condition holds. -/
theorem conditionalMet_written (hmet : met.IsWritable) (hne : met ≠ .identity) {rest : Word}
    (hrest : EndsAt itemEnds rest) :
    ∃ ts, conditionalMet (asking ++ '?' :: (met.write ++ unmet.writeUnmet) ++ rest) =
        .matched (.node .conditional ts) rest ∧
      (RuleText.Tree.node .conditional ts).readConditional = .ok (.conditional c met unmet) := by
  have htext : asking ++ '?' :: (met.write ++ unmet.writeUnmet) ++ rest =
      asking ++ '?' :: (met.write ++ (unmet.writeUnmet ++ rest)) := by
    simp
  obtain ⟨asked, hasked, hreadAsked⟩ :=
    hc _ (endsAt_cons (List.mem_singleton_self '?') (met.write ++ (unmet.writeUnmet ++ rest)))
  have hquestion := separator_mark (by decide : isBlank '?' = false) hmet.isPlain_write
    (hmet.write_ne_nil hne) (unmet.writeUnmet ++ rest)
  have hends : EndsAt branchEnds (unmet.writeUnmet ++ rest) := by
    by_cases hno : unmet = .identity
    · rw [hno]
      exact itemEnds_branchEnds hrest
    · rw [Branch.writeUnmet_of_ne hno]
      exact endsAt_cons (by decide) _
  obtain ⟨yes, hyes, hreadYes⟩ := branch_written hmet hne hends
  rw [htext]
  unfold conditionalMet
  rw [bind_of_matched hasked, bind_of_matched hquestion, bind_of_matched hyes]
  by_cases hno : unmet = .identity
  · subst hno
    have hnone := optionally_of_fails (fails_elseBranch hrest)
    refine ⟨[asked, .leaf ['?'], yes], ?_, ?_⟩
    · show (optionally elseBranch >>= _) rest = _
      rw [bind_of_matched hnone]
      rfl
    · simp [Tree.readConditional_met, hreadAsked, hreadYes]
  · obtain ⟨no, hno', hreadNo⟩ := elseBranch_written hunmet hno hrest
    refine ⟨[asked, .leaf ['?'], yes, .leaf [':'], no], ?_, ?_⟩
    · rw [Branch.writeUnmet_of_ne hno]
      exact (bind_of_matched (optionally_of_matched hno')).trans rfl
    · simp [Tree.readConditional_both, hreadAsked, hreadYes, hreadNo]

/-- A conditional with nothing to do where its condition holds. -/
theorem conditional_written_unmet (hidentity : met = .identity) (hne : unmet ≠ .identity)
    {rest : Word} (hrest : EndsAt itemEnds rest) :
    ∃ ts, conditional (asking ++ '?' :: (met.write ++ unmet.writeUnmet) ++ rest) =
        .matched (.node .conditional ts) rest ∧
      (RuleText.Tree.node .conditional ts).readConditional = .ok (.conditional c met unmet) := by
  subst hidentity
  have htext : asking ++ '?' :: (Branch.identity.write ++ unmet.writeUnmet) ++ rest =
      asking ++ '?' :: ':' :: (unmet.write ++ rest) := by
    simp [Branch.write, Branch.writeUnmet_of_ne hne]
  obtain ⟨asked, hasked, hreadAsked⟩ :=
    hc _ (endsAt_cons (List.mem_singleton_self '?') (':' :: (unmet.write ++ rest)))
  have hquestion : separator '?' ('?' :: ':' :: (unmet.write ++ rest)) =
      .matched (.leaf ['?']) (':' :: (unmet.write ++ rest)) :=
    separator_cons (by decide) (stops_cons (by decide) _)
  have hcolon := separator_mark (by decide : isBlank ':' = false) hunmet.isPlain_write
    (hunmet.write_ne_nil hne) rest
  obtain ⟨no, hno, hreadNo⟩ := branch_written hunmet hne (itemEnds_branchEnds hrest)
  -- a colon is no branch
  have hfails : Fails branch (':' :: (unmet.write ++ rest)) := by
    have hletters : Fails letters (':' :: (unmet.write ++ rest)) :=
      fails_letters (stops_cons (by decide) _)
    have hmark : Fails affixMark (':' :: (unmet.write ++ rest)) :=
      fails_affixMark (stops_cons (by decide) _)
    refine fails_bind (fails_orElse (fails_orElse (fails_bind hletters) (fails_orElse ?_ ?_)) ?_)
    · exact fails_bind (fails_many1 (fails_bind hletters))
    · exact fails_bind (fails_many1 (fails_bind hmark))
    · exact fails_bind (fails_satisfying (stops_cons (by decide) _))
  have hmet : Fails conditionalMet (asking ++ '?' :: ':' :: (unmet.write ++ rest)) :=
    fails_bind_of_matched hasked (fails_bind_of_matched hquestion (fails_bind hfails))
  refine ⟨[asked, .leaf ['?'], .leaf [':'], no], ?_, ?_⟩
  · rw [htext]
    refine (orElse_of_fails hmet).trans ?_
    unfold conditionalUnmet
    rw [bind_of_matched hasked, bind_of_matched hquestion, bind_of_matched hcolon,
      bind_of_matched hno]
    rfl
  · simp [Tree.readConditional_unmet, hreadAsked, hreadNo]

end Conditional

end WordFormation
