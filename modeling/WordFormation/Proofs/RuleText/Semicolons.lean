/-
  WordFormation/Proofs/RuleText/Semicolons.lean
  =============================================
  **A text is cut at its semicolons before anything else.**

  A semicolon that follows a text stops everything that is inside of a group, just
  as the end of the text does (`Prolongs`).  Only the list of groups goes on behind
  it, and there it finds the text that follows as if nothing were in front
  (`exhausts_separated_prolonged`).  An `@` is looked for at the very beginning and
  nowhere else.

  So two texts with a semicolon between them are a rule exactly if both of them
  are, and its groups are those of the first and then those of the second
  (`Blueprint.ofText_semicolon`).
-/
import WordFormation.Proofs.RuleText.Canonical
import WordFormation.Proofs.RuleText.Likeness
import WordFormation.Proofs.RuleText.Nesting

namespace WordFormation

namespace RuleText

open Production Grammar

variable {tail : Word}

/-! ### In front of a semicolon -/

/-- The first text is the second one with a semicolon and more behind it. -/
def Prolongs (tail s s' : Word) : Prop := s = s' ++ ';' :: tail

namespace Grammar

theorem respectsProlongs_satisfying {test : Char → Bool} (h : test ';' = false) :
    Respects (Prolongs tail) (satisfying test) :=
  respectsExtends_satisfying (stops_cons h tail)

theorem respectsProlongs_separator {c : Char} (hc : c ≠ ';') :
    Respects (Prolongs tail) (separator c) :=
  respectsExtends_separator (stops_cons (by decide) tail) (stops_cons (by simpa using hc.symm) tail)

theorem tokenwise_prolongs : Tokenwise (Prolongs tail) where
  satisfying h _ := respectsProlongs_satisfying (h.of_isSeparator (by decide))
  run := respectsExtends_run (stops_cons (by decide) tail)
  parenthesised hp _ := respects_parenthesised (respectsProlongs_satisfying (by decide))
    (respectsProlongs_satisfying (by decide)) hp
  separators h := respectsProlongs_separator (by
    rintro rfl
    simp at h)

theorem respectsProlongs_stage : Respects (Prolongs tail) stage :=
  tokenwise_prolongs.respects_stage (respectsProlongs_separator (by decide))

/-! ### The list of groups -/

/-- A semicolon and the group behind it. -/
def link : Production (List Tree) := pair (separator ';') stage

theorem advances_link : Advances link :=
  advances_pair (advances_separator ';') advances_stage.forward

theorem fails_link_of_blank {s : Word} (h : s.dropWhile isBlank = []) : Fails link s := by
  refine fails_bind ?_
  obtain ⟨r, es, hmark⟩ := fails_mark (c := ';') (s := []) (by simp)
  exact ⟨r, es, by rw [separator_apply, h, hmark]⟩

/-- Where there is nothing but blanks in front of the semicolon, it is this one that
    is found. -/
theorem link_of_blank {s : Word} (h : s.dropWhile isBlank = []) :
    link (s ++ ';' :: tail) =
      (stage >>= fun t => pure [.leaf [';'], t]) (tail.dropWhile isBlank) := by
  have hstops : Stops isBlank (';' :: tail) := stops_cons (by decide) tail
  have hseparator : separator ';' (s ++ ';' :: tail) =
      .matched (.leaf [';']) (tail.dropWhile isBlank) := by
    rw [separator_apply, hstops.dropWhile_append, h, List.nil_append, mark_cons]
  exact bind_of_matched hseparator

/-- Where there is something else, there is no difference. -/
theorem alike_link {s : Word} (h : s.dropWhile isBlank ≠ []) :
    Alike (Prolongs tail) (link (s ++ ';' :: tail)) (link s) := by
  have hstops : Stops isBlank (';' :: tail) := stops_cons (by decide) tail
  have hseparator : Alike (Prolongs tail) (separator ';' (s ++ ';' :: tail)) (separator ';' s) := by
    rw [separator_apply, separator_apply, hstops.dropWhile_append]
    cases hs : s.dropWhile isBlank with
    | nil => exact absurd hs h
    | cons c r =>
      by_cases hc : c = ';'
      · subst hc
        rw [List.cons_append, mark_cons, mark_cons]
        simp only [hstops.dropWhile_append]
        exact .matched _ rfl
      · have hfails (w : Word) : Fails (mark ';') (c :: w) := by
          apply fails_mark
          simpa using hc
        obtain ⟨r₁, es, hr₁⟩ := hfails (r ++ ';' :: tail)
        obtain ⟨r₂, es', hr₂⟩ := hfails r
        rw [List.cons_append, hr₁, hr₂]
        exact .failed r₁ r₂ es es'
  refine alike_bind_of_matched hseparator fun _ _ _ => ?_
  exact respects_bind respectsProlongs_stage fun _ => respects_pure _

end Grammar

/-! ### Productions that leave nothing but blanks -/

namespace Production

variable {α : Type}

/-- The production matches the whole text, blanks at the end apart. -/
def Exhausts (p : Production α) (s : Word) (value : α) : Prop :=
  ∃ rest, p s = .matched value rest ∧ rest.dropWhile isBlank = []

theorem exhausts_many {p : Production α} (hp : Advances p) {s : Word} {vs : List α} :
    Exhausts (many p) s vs ↔
      (vs = [] ∧ Fails p s ∧ s.dropWhile isBlank = []) ∨
        ∃ v r vs', vs = v :: vs' ∧ p s = .matched v r ∧ Exhausts (many p) r vs' := by
  constructor
  · rintro ⟨rest, hmany, hrest⟩
    rcases many_eq_matched hmany with ⟨rfl, rfl, hfails⟩ | ⟨v, r, vs', rfl, -, hv, hmore⟩
    · exact .inl ⟨rfl, hfails, hrest⟩
    · exact .inr ⟨v, r, vs', rfl, hv, rest, hmore, hrest⟩
  · rintro (⟨rfl, hfails, hs⟩ | ⟨v, r, vs', rfl, hv, rest, hmore, hrest⟩)
    · exact ⟨s, many_of_fails hfails, hs⟩
    · exact ⟨rest, many_of_matched hp hv hmore, hrest⟩

end Production

namespace Grammar

theorem exhausts_separated {s : Word} {ts : List Tree} :
    Exhausts (separated ';' stage) s ts ↔
      ∃ t r tss, stage s = .matched t r ∧ Exhausts (many link) r tss ∧ ts = t :: tss.flatten := by
  constructor
  · rintro ⟨rest, hseparated, hrest⟩
    obtain ⟨t, r, ht, hseparated⟩ := bind_matched hseparated
    obtain ⟨tss, r', htss, hseparated⟩ := bind_matched hseparated
    cases hseparated
    exact ⟨t, r, tss, ht, ⟨rest, htss, hrest⟩, rfl⟩
  · rintro ⟨t, r, tss, ht, ⟨rest, htss, hrest⟩, rfl⟩
    have hmore : many (pair (separator ';') stage) r = .matched tss rest := htss
    refine ⟨rest, ?_, hrest⟩
    unfold separated
    rw [bind_of_matched ht, bind_of_matched hmore]
    rfl

theorem dropWhile_prolonged_ne_nil (s : Word) : (s ++ ';' :: tail).dropWhile isBlank ≠ [] := by
  have hstops : Stops isBlank (';' :: tail) := stops_cons (by decide) tail
  rw [hstops.dropWhile_append]
  simp

theorem exhausts_many_link_of_blank {s : Word} (h : s.dropWhile isBlank = [])
    {tss : List (List Tree)} : Exhausts (many link) s tss ↔ tss = [] := by
  have hfails := fails_link_of_blank h
  rw [exhausts_many advances_link]
  constructor
  · rintro (⟨rfl, -⟩ | ⟨v, r, -, -, hv, -⟩)
    · rfl
    · obtain ⟨r', es, hfails⟩ := hfails
      rw [hfails] at hv
      cases hv
  · rintro rfl
    exact .inl ⟨rfl, hfails, h⟩

/-- With nothing but blanks in front of the semicolon, the first round is the one at
    the semicolon. -/
theorem exhausts_many_link_at {s : Word} (h : s.dropWhile isBlank = [])
    {tss : List (List Tree)} :
    Exhausts (many link) (s ++ ';' :: tail) tss ↔
      ∃ t r back, stage (tail.dropWhile isBlank) = .matched t r ∧ Exhausts (many link) r back ∧
        tss = [.leaf [';'], t] :: back := by
  rw [exhausts_many advances_link, link_of_blank h]
  constructor
  · rintro (⟨-, -, hblank⟩ | ⟨v, r, back, rfl, hv, hback⟩)
    · exact absurd hblank (dropWhile_prolonged_ne_nil s)
    · obtain ⟨t, r', ht, hv⟩ := bind_matched hv
      cases hv
      exact ⟨t, r, back, ht, hback, rfl⟩
  · rintro ⟨t, r, back, ht, hback, rfl⟩
    refine .inr ⟨_, r, back, rfl, ?_, hback⟩
    rw [bind_of_matched ht]
    rfl

/-- Rounds in front of the semicolon, one at it, and rounds behind it.  The
    induction is on the text in front, of which every round takes a part. -/
theorem exhausts_many_link {s : Word} {tss : List (List Tree)} :
    Exhausts (many link) (s ++ ';' :: tail) tss ↔
      ∃ front t r back, Exhausts (many link) s front ∧
        stage (tail.dropWhile isBlank) = .matched t r ∧ Exhausts (many link) r back ∧
        tss = front ++ [.leaf [';'], t] :: back := by
  induction hn : s.length using Nat.strongRecOn generalizing s tss with
  | ind n ih =>
    by_cases hs : s.dropWhile isBlank = []
    · rw [exhausts_many_link_at hs]
      constructor
      · rintro ⟨t, r, back, ht, hback, rfl⟩
        exact ⟨[], t, r, back, (exhausts_many_link_of_blank hs).mpr rfl, ht, hback, rfl⟩
      · rintro ⟨front, t, r, back, hfront, ht, hback, rfl⟩
        obtain rfl := (exhausts_many_link_of_blank hs).mp hfront
        exact ⟨t, r, back, ht, hback, rfl⟩
    · -- the first round is in front of the semicolon
      have halike : Alike (Prolongs tail) (link (s ++ ';' :: tail)) (link s) := alike_link hs
      rw [exhausts_many advances_link]
      constructor
      · rintro (⟨-, -, hblank⟩ | ⟨v, r, tss', rfl, hv, hmore⟩)
        · exact absurd hblank (dropWhile_prolonged_ne_nil s)
        · obtain ⟨r', hv', rfl⟩ := halike.exists_right hv
          have hless := (advances_link s v r' hv').2
          obtain ⟨front, t, r, back, hfront, ht, hback, rfl⟩ :=
            (ih r'.length (by omega) rfl).mp hmore
          refine ⟨v :: front, t, r, back, ?_, ht, hback, rfl⟩
          exact (exhausts_many advances_link).mpr (.inr ⟨v, r', front, rfl, hv', hfront⟩)
      · rintro ⟨front, t, r, back, hfront, ht, hback, rfl⟩
        rcases (exhausts_many advances_link).mp hfront with
          ⟨-, -, hblank⟩ | ⟨v, r', front', rfl, hv', hfront'⟩
        · exact absurd hblank hs
        · have hless := (advances_link s v r' hv').2
          obtain ⟨r'', hv, rfl⟩ := halike.exists_left hv'
          refine .inr ⟨v, _, front' ++ [.leaf [';'], t] :: back, rfl, hv, ?_⟩
          exact (ih r'.length (by omega) rfl).mpr ⟨front', t, r, back, hfront', ht, hback, rfl⟩

/-- The groups of a text with a semicolon in it are those in front of the semicolon
    and those behind it. -/
theorem exhausts_separated_prolonged {s : Word} {ts : List Tree} :
    Exhausts (separated ';' stage) (s ++ ';' :: tail) ts ↔
      ∃ front back, Exhausts (separated ';' stage) s front ∧
        Exhausts (separated ';' stage) (tail.dropWhile isBlank) back ∧
        ts = front ++ .leaf [';'] :: back := by
  have halike : Alike (Prolongs tail) (stage (s ++ ';' :: tail)) (stage s) :=
    respectsProlongs_stage _ _ rfl
  constructor
  · intro h
    obtain ⟨t, r, tss, ht, htss, rfl⟩ := exhausts_separated.mp h
    obtain ⟨r', ht', rfl⟩ := halike.exists_right ht
    obtain ⟨front, u, q, back, hfront, hu, hback, rfl⟩ := exhausts_many_link.mp htss
    refine ⟨_, _, exhausts_separated.mpr ⟨t, r', front, ht', hfront, rfl⟩,
      exhausts_separated.mpr ⟨u, q, back, hu, hback, rfl⟩, ?_⟩
    simp
  · rintro ⟨_, _, hgroups, hgroups', rfl⟩
    obtain ⟨t, r', front, ht', hfront, rfl⟩ := exhausts_separated.mp hgroups
    obtain ⟨u, q, back, hu, hback, rfl⟩ := exhausts_separated.mp hgroups'
    obtain ⟨r, ht, rfl⟩ := halike.exists_left ht'
    refine exhausts_separated.mpr ⟨t, _, front ++ [.leaf [';'], u] :: back, ht, ?_, ?_⟩
    · exact exhausts_many_link.mpr ⟨front, u, q, back, hfront, hu, hback, rfl⟩
    · simp

/-! ### Groups that are read -/

/-- The text is made of groups that are read as the given operations. -/
def HasGroups (s : Word) (gs : List (List Operation)) : Prop :=
  ∃ ts, Exhausts (separated ';' stage) s ts ∧ (Tree.node .stages ts).readStages = .ok gs

theorem items_append {P : Tree → Prop} {ts : List Tree} (h : Separated P ts) (c : Char)
    (ts' : List Tree) : Tree.items (ts ++ .leaf [c] :: ts') = Tree.items ts ++ Tree.items ts' := by
  induction h with
  | one part => rfl
  | @cons t ts d part others ih =>
    show t :: Tree.items (ts ++ .leaf [c] :: ts') = t :: (Tree.items ts ++ Tree.items ts')
    rw [ih]

theorem readStages_append {front : List Tree} {s : Word}
    (h : Exhausts (separated ';' stage) s front) (back : List Tree) :
    (Tree.node .stages (front ++ .leaf [';'] :: back)).readStages = (do
      let gs ← (Tree.node .stages front).readStages
      let gs' ← (Tree.node .stages back).readStages
      return gs ++ gs') := by
  obtain ⟨rest, hfront, -⟩ := h
  have hany : Consumes stage fun _ _ => True :=
    consumes_groupPart.mono fun _ _ _ => trivial
  obtain ⟨-, -, hseparated⟩ := separated_parts hany s front rest hfront
  simp only [Tree.readStages_node, items_append hseparated, List.mapM_append]

theorem hasGroups_prolonged {s : Word} {gs : List (List Operation)} :
    HasGroups (s ++ ';' :: tail) gs ↔
      ∃ gs₁ gs₂, HasGroups s gs₁ ∧ HasGroups (tail.dropWhile isBlank) gs₂ ∧ gs = gs₁ ++ gs₂ := by
  constructor
  · rintro ⟨ts, hts, hread⟩
    obtain ⟨front, back, hfront, hback, rfl⟩ := exhausts_separated_prolonged.mp hts
    rw [readStages_append hfront] at hread
    obtain ⟨gs₁, hgs₁, hread⟩ := bind_eq_ok.mp hread
    obtain ⟨gs₂, hgs₂, hread⟩ := bind_eq_ok.mp hread
    cases hread
    exact ⟨gs₁, gs₂, ⟨front, hfront, hgs₁⟩, ⟨back, hback, hgs₂⟩, rfl⟩
  · rintro ⟨gs₁, gs₂, ⟨front, hfront, hgs₁⟩, ⟨back, hback, hgs₂⟩, rfl⟩
    refine ⟨_, exhausts_separated_prolonged.mpr ⟨front, back, hfront, hback, rfl⟩, ?_⟩
    rw [readStages_append hfront, hgs₁, ok_bind, hgs₂]
    rfl

/-! ### Rules -/

/-- The tree of a rule with or without a context. -/
def ruleTree (before : Option Tree) (groups : List Tree) : Tree :=
  match before with
  | none => .node .rule [.node .stages groups]
  | some before => .node .rule [before, .leaf ['@'], .node .stages groups]

theorem readRule_ruleTree (before : Option Tree) (groups : List Tree) :
    (ruleTree before groups).readRule =
      (Tree.node .stages groups).readStages >>= fun gs => .ok { groups := gs } := by
  cases before with
  | none => exact Tree.readRule_groups [] _
  | some before => exact Tree.readRule_groups [before, .leaf ['@']] _

/-- A rule is its context, if it has one, and then its groups, blanks apart. -/
theorem rule_eq_matched {s : Word} {t : Tree} :
    rule s = .matched t [] ↔
      ∃ before r ts, optionally context (s.dropWhile isBlank) = .matched before r ∧
        Exhausts (separated ';' stage) r ts ∧ t = ruleTree before ts := by
  have hblanks (w : Word) : blanks w = .matched () (w.dropWhile isBlank) := rfl
  constructor
  · intro h
    obtain ⟨_, _, hstart, h⟩ := bind_matched h
    cases hstart
    obtain ⟨before, r, hbefore, h⟩ := bind_matched h
    obtain ⟨body, rest, hbody, h⟩ := bind_matched h
    obtain ⟨ts, _, hts, hbody⟩ := bind_matched hbody
    cases hbody
    obtain ⟨_, _, hend, h⟩ := bind_matched h
    cases hend
    have hwhole : ruleTree before ts = t ∧ rest.dropWhile isBlank = [] := by
      cases before with
      | none => exact Reply.matched.inj h
      | some before => exact Reply.matched.inj h
    exact ⟨before, r, ts, hbefore, ⟨rest, hts, hwhole.2⟩, hwhole.1.symm⟩
  · rintro ⟨before, r, ts, hbefore, ⟨rest, hts, hrest⟩, rfl⟩
    have hbody : stages r = .matched (.node .stages ts) rest := bind_of_matched hts
    unfold rule
    rw [bind_of_matched (hblanks s), bind_of_matched hbefore, bind_of_matched hbody,
      bind_of_matched (hblanks rest), hrest]
    cases before with
    | none => rfl
    | some before => rfl

/-- No context is found in a text without an `@`. -/
theorem fails_context {s : Word} (h : '@' ∉ s) : Fails context s := by
  have hmark : Fails (mark '@') (s.dropWhile isBlank) := by
    refine fails_mark fun hhead => h ?_
    exact (List.dropWhile_sublist isBlank).subset (List.mem_of_mem_head? hhead)
  obtain ⟨r, es, hmark⟩ := hmark
  refine fails_bind ⟨r, es, ?_⟩
  rw [separator_apply, hmark]

end Grammar

end RuleText

open RuleText RuleText.Production RuleText.Grammar

namespace Blueprint

theorem ofText_eq_ok {text : Word} {b : Blueprint} :
    ofText text = .ok b ↔ tooDeep? 0 text = none ∧
      ∃ before r gs, optionally Grammar.context (text.dropWhile isBlank) = .matched before r ∧
        HasGroups r gs ∧ b = { groups := gs } := by
  constructor
  · intro h
    obtain ⟨t, hparse, hread⟩ := exists_tree_of_ofText h
    obtain ⟨hdepth, hrule⟩ := parse_eq_ok.mp hparse
    obtain ⟨before, r, ts, hbefore, hts, rfl⟩ := rule_eq_matched.mp hrule
    rw [readRule_ruleTree] at hread
    obtain ⟨gs, hgs, hread⟩ := bind_eq_ok.mp hread
    cases hread
    exact ⟨hdepth, before, r, gs, hbefore, ⟨ts, hts, hgs⟩, rfl⟩
  · rintro ⟨hdepth, before, r, gs, hbefore, ⟨ts, hts, hgs⟩, rfl⟩
    have hrule := rule_eq_matched.mpr ⟨before, r, ts, hbefore, hts, rfl⟩
    have hread : (ruleTree before ts).readRule = .ok { groups := gs } := by
      rw [readRule_ruleTree, hgs, ok_bind]
    unfold ofText
    simp only [parse_eq_ok.mpr ⟨hdepth, hrule⟩, hread]

/-- A semicolon between two texts, of which the second has no `@`: the blueprint has
    the groups of the one and then those of the other. -/
theorem ofText_semicolon {text text' : Word} (h : '@' ∉ text') {b : Blueprint} :
    ofText (text ++ ';' :: text') = .ok b ↔
      ∃ b₁ b₂, ofText text = .ok b₁ ∧ ofText text' = .ok b₂ ∧
        b = { groups := b₁.groups ++ b₂.groups } := by
  have hstops : Stops isBlank (';' :: text') := stops_cons (by decide) text'
  have hnone : optionally Grammar.context (text'.dropWhile isBlank) =
      .matched none (text'.dropWhile isBlank) :=
    optionally_of_fails (fails_context fun hmem => h ((List.dropWhile_sublist isBlank).subset hmem))
  have hcontext : Respects (Prolongs text') (optionally Grammar.context) :=
    respects_optionally (respects_bind (respectsProlongs_separator (by decide)) fun _ =>
      respects_pure _)
  have halike := hcontext (text.dropWhile isBlank ++ ';' :: text') (text.dropWhile isBlank) rfl
  constructor
  · intro hofText
    obtain ⟨hdepth, before, r, gs, hbefore, hgs, rfl⟩ := ofText_eq_ok.mp hofText
    rw [hstops.dropWhile_append] at hbefore
    obtain ⟨r', hbefore', rfl⟩ := halike.exists_right hbefore
    obtain ⟨gs₁, gs₂, hgs₁, hgs₂, rfl⟩ := hasGroups_prolonged.mp hgs
    obtain ⟨hdepth₁, hdepth₂⟩ := tooDeep?_append_eq_none.mp hdepth
    refine ⟨_, _, ofText_eq_ok.mpr ⟨hdepth₁, before, r', gs₁, hbefore', hgs₁, rfl⟩,
      ofText_eq_ok.mpr ⟨?_, none, _, gs₂, hnone, hgs₂, rfl⟩, rfl⟩
    -- the semicolon does not count
    exact tooDeep?_mono (Nat.zero_le _) hdepth₂
  · rintro ⟨b₁, b₂, h₁, h₂, rfl⟩
    obtain ⟨t, hparse, -⟩ := exists_tree_of_ofText h₁
    obtain ⟨hdepth₁, before, r', gs₁, hbefore', hgs₁, rfl⟩ := ofText_eq_ok.mp h₁
    obtain ⟨hdepth₂, _, _, gs₂, hbefore₂, hgs₂, rfl⟩ := ofText_eq_ok.mp h₂
    rw [hnone] at hbefore₂
    cases hbefore₂
    obtain ⟨r, hbefore, rfl⟩ := halike.exists_left hbefore'
    refine ofText_eq_ok.mpr ⟨?_, before, _, _, ?_, hasGroups_prolonged.mpr
      ⟨gs₁, gs₂, hgs₁, hgs₂, rfl⟩, rfl⟩
    · exact (tooDeep?_append_of_rule (parse_eq_ok.mp hparse).2 _).mpr ⟨hdepth₁, hdepth₂⟩
    · rw [hstops.dropWhile_append]
      exact hbefore

end Blueprint

end WordFormation
