/-
  WordFormation/Proofs/RuleText/Replies.lean
  ==========================================
  **What a combined production answers, from the answers of its parts.**

  For every combination there is a lemma for each way in which its parts can
  answer.  Following a text through the grammar is done with these lemmas, and no
  combination has to be opened for it again.

  A production is said to fail on a text (`Fails`) wherever it does so: neither
  the place of the failure nor what was expected there has an effect on what is
  tried next.  Most answers hang on how a text begins, or rather on how it does
  not begin (`Stops`).
-/
import WordFormation.RuleText.Grammar.Progress

namespace WordFormation.RuleText

namespace Production

variable {α β : Type}

/-- The production fails on the text. -/
def Fails (p : Production α) (s : Word) : Prop := ∃ r es, p s = .failed r es

/-- The text does not begin with a character that passes `test`. -/
def Stops (test : Char → Bool) (s : Word) : Prop := ∀ c, s.head? = some c → test c = false

theorem stops_nil (test : Char → Bool) : Stops test [] := by
  intro c h
  cases h

theorem stops_cons {test : Char → Bool} {c : Char} (h : test c = false) (s : Word) :
    Stops test (c :: s) := by
  intro d hd
  cases hd
  exact h

theorem Stops.head_ne {c : Char} {s : Word} (h : Stops (· == c) s) : s.head? ≠ some c := by
  intro hhead
  have hstop := h c hhead
  simp at hstop

theorem Stops.append {test : Char → Bool} {s rest : Word} (hs : Stops test s)
    (hrest : Stops test rest) : Stops test (s ++ rest) := by
  cases s with
  | nil => exact hrest
  | cons c s => exact stops_cons (hs c rfl) _

theorem Stops.takeWhile {test : Char → Bool} {s : Word} (h : Stops test s) :
    s.takeWhile test = [] := by
  cases s with
  | nil => rfl
  | cons c s => simp [h c rfl]

theorem Stops.dropWhile {test : Char → Bool} {s : Word} (h : Stops test s) :
    s.dropWhile test = s := by
  cases s with
  | nil => rfl
  | cons c s => simp [h c rfl]

/-- A run that passes the test ends where the text behind it begins. -/
theorem Stops.takeWhile_append {test : Char → Bool} {rest : Word} (h : Stops test rest)
    (s : Word) : (s ++ rest).takeWhile test = s.takeWhile test := by
  rw [List.takeWhile_append, h.takeWhile, List.append_nil]
  split
  · next hall => exact ((List.takeWhile_prefix test).eq_of_length hall).symm
  · rfl

theorem Stops.dropWhile_append {test : Char → Bool} {rest : Word} (h : Stops test rest)
    (s : Word) : (s ++ rest).dropWhile test = s.dropWhile test ++ rest := by
  rw [List.dropWhile_append, h.dropWhile]
  split
  · next hnil => rw [List.isEmpty_iff.mp hnil, List.nil_append]
  · rfl

/-! ### Tokens -/

theorem satisfying_cons {test : Char → Bool} {c : Char} (h : test c = true) (rest : Word) :
    satisfying test (c :: rest) = .matched c rest := by
  simp only [satisfying, h, if_true]

theorem fails_satisfying {test : Char → Bool} {s : Word}
    (h : Stops test s) : Fails (satisfying test) s := by
  cases s with
  | nil => exact ⟨[], [], rfl⟩
  | cons c s =>
    have hc := h c rfl
    exact ⟨c :: s, [], by simp [satisfying, hc]⟩

theorem satisfying_eq_matched {test : Char → Bool} {s rest : Word} {c : Char}
    (h : satisfying test s = .matched c rest) : s = c :: rest ∧ test c = true := by
  cases s with
  | nil => cases h
  | cons d s =>
    by_cases hd : test d = true
    · rw [satisfying_cons hd] at h
      cases h
      exact ⟨rfl, hd⟩
    · simp only [satisfying, hd] at h
      cases h

theorem mark_cons (c : Char) (rest : Word) : mark c (c :: rest) = .matched c rest :=
  satisfying_cons (beq_self_eq_true c) rest

theorem fails_mark {c : Char} {s : Word} (h : s.head? ≠ some c) : Fails (mark c) s := by
  refine fails_satisfying fun d hd => ?_
  refine beq_eq_false_iff_ne.mpr ?_
  rintro rfl
  exact h hd

theorem run_append {test : Char → Bool} {taken : Word} (hne : taken ≠ [])
    (htaken : ∀ c ∈ taken, test c = true) {rest : Word}
    (hrest : Stops test rest) :
    run test (taken ++ rest) = .matched taken rest := by
  have htake : (taken ++ rest).takeWhile test = taken := by
    rw [List.takeWhile_append_of_pos htaken, hrest.takeWhile, List.append_nil]
  have hdrop : (taken ++ rest).dropWhile test = rest := by
    rw [List.dropWhile_append_of_pos htaken, hrest.dropWhile]
  unfold run
  rw [htake, hdrop]
  cases taken with
  | nil => exact absurd rfl hne
  | cons c taken => rfl

theorem fails_run {test : Char → Bool} {s : Word}
    (h : Stops test s) : Fails (run test) s := by
  refine ⟨s, [], ?_⟩
  unfold run
  rw [h.takeWhile]

theorem skip_eq {test : Char → Bool} {s : Word}
    (h : Stops test s) : skip test s = .matched () s := by
  unfold skip
  rw [h.dropWhile]

/-! ### Sequences -/

theorem bind_of_matched {p : Production α} {f : α → Production β} {s r : Word} {v : α}
    (h : p s = .matched v r) : (p >>= f) s = f v r := by
  rw [bind_apply, h]

theorem fails_bind {p : Production α} {f : α → Production β} {s : Word} (h : Fails p s) :
    Fails (p >>= f) s := by
  obtain ⟨r, es, h⟩ := h
  exact ⟨r, es, by rw [bind_apply, h]⟩

theorem fails_bind_of_matched {p : Production α} {f : α → Production β} {s r : Word} {v : α}
    (h : p s = .matched v r) (hf : Fails (f v) r) : Fails (p >>= f) s := by
  obtain ⟨r', es, hf⟩ := hf
  exact ⟨r', es, by rw [bind_of_matched h, hf]⟩

/-! ### Choices -/

theorem orElse_of_matched {p q : Production α} {s r : Word} {v : α} (h : p s = .matched v r) :
    orElse p q s = .matched v r := by
  unfold orElse
  rw [h]

theorem orElse_of_fails {p q : Production α} {s : Word} (h : Fails p s) :
    orElse p q s = q s := by
  obtain ⟨r, es, h⟩ := h
  unfold orElse
  rw [h]

theorem fails_orElse {p q : Production α} {s : Word} (hp : Fails p s) (hq : Fails q s) :
    Fails (orElse p q) s := by
  obtain ⟨r, es, hq⟩ := hq
  exact ⟨r, es, by rw [orElse_of_fails hp, hq]⟩

theorem orElse_eq_matched {p q : Production α} {s rest : Word} {v : α}
    (h : orElse p q s = .matched v rest) :
    p s = .matched v rest ∨ Fails p s ∧ q s = .matched v rest := by
  unfold orElse at h
  cases hp : p s with
  | matched v' r => rw [hp] at h; exact .inl h
  | failed r es => rw [hp] at h; exact .inr ⟨⟨r, es, hp⟩, h⟩
  | stalled => rw [hp] at h; cases h

theorem optionally_of_matched {p : Production α} {s r : Word} {v : α}
    (h : p s = .matched v r) : optionally p s = .matched (some v) r := by
  unfold optionally
  rw [h]

theorem optionally_of_fails {p : Production α} {s : Word} (h : Fails p s) :
    optionally p s = .matched none s := by
  obtain ⟨r, es, h⟩ := h
  unfold optionally
  rw [h]

theorem optionally_eq_matched {p : Production α} {s rest : Word} {v : Option α}
    (h : optionally p s = .matched v rest) :
    (∃ w, v = some w ∧ p s = .matched w rest) ∨ v = none ∧ rest = s ∧ Fails p s := by
  unfold optionally at h
  cases hp : p s with
  | matched w r => rw [hp] at h; cases h; exact .inl ⟨w, rfl, rfl⟩
  | failed r es => rw [hp] at h; cases h; exact .inr ⟨rfl, rfl, r, es, hp⟩
  | stalled => rw [hp] at h; cases h

theorem expecting_of_matched {e : Expectation} {p : Production α} {s r : Word} {v : α}
    (h : p s = .matched v r) : expecting e p s = .matched v r := by
  unfold expecting
  rw [h]

theorem fails_expecting {e : Expectation} {p : Production α} {s : Word} (h : Fails p s) :
    Fails (expecting e p) s := by
  obtain ⟨r, es, h⟩ := h
  exact ⟨r, es ++ [e], by unfold expecting; rw [h]⟩

theorem expecting_eq_matched {e : Expectation} {p : Production α} {s rest : Word} {v : α}
    (h : expecting e p s = .matched v rest) : p s = .matched v rest := by
  unfold expecting at h
  cases hp : p s with
  | matched v' r => rw [hp] at h; exact h
  | failed r es => rw [hp] at h; cases h
  | stalled => rw [hp] at h; cases h

/-! ### Repetitions -/

theorem many_of_matched {p : Production α} (hp : Advances p) {s r rest : Word} {v : α}
    {vs : List α} (h : p s = .matched v r) (hmore : many p r = .matched vs rest) :
    many p s = .matched (v :: vs) rest := by
  rw [many_unfold]
  unfold round
  simp only [h, (hp s v r h).2, if_true, hmore]

theorem many_of_fails {p : Production α} {s : Word} (h : Fails p s) :
    many p s = .matched [] s := by
  obtain ⟨r, es, h⟩ := h
  rw [many_unfold]
  unfold round
  rw [h]

/-- A repetition matches nothing more, or the text begins with a round of it. -/
theorem many_eq_matched {p : Production α} {s rest : Word} {vs : List α}
    (h : many p s = .matched vs rest) :
    vs = [] ∧ rest = s ∧ Fails p s ∨
      ∃ v r vs', vs = v :: vs' ∧ r.length < s.length ∧ p s = .matched v r ∧
        many p r = .matched vs' rest := by
  rw [many_unfold] at h
  unfold round at h
  cases hp : p s with
  | matched v r =>
    rw [hp] at h
    by_cases hr : r.length < s.length
    · simp only [hr, if_true] at h
      cases hm : many p r with
      | matched vs' r' => rw [hm] at h; cases h; exact .inr ⟨v, r, vs', rfl, hr, rfl, hm⟩
      | failed r' es => rw [hm] at h; cases h
      | stalled => rw [hm] at h; cases h
    · simp only [hr, if_false] at h
      cases h
  | failed r es => rw [hp] at h; cases h; exact .inl ⟨rfl, rfl, r, es, hp⟩
  | stalled => rw [hp] at h; cases h

theorem many1_of_matched {p : Production α} {s r rest : Word} {v : α} {vs : List α}
    (h : p s = .matched v r) (hmore : many p r = .matched vs rest) :
    many1 p s = .matched (v :: vs) rest := by
  unfold many1
  rw [bind_of_matched h, bind_of_matched hmore, pure_apply]

theorem fails_many1 {p : Production α} {s : Word} (h : Fails p s) : Fails (many1 p) s :=
  fails_bind h

theorem many1_eq_matched {p : Production α} {s rest : Word} {vs : List α}
    (h : many1 p s = .matched vs rest) :
    ∃ v r vs', vs = v :: vs' ∧ p s = .matched v r ∧ many p r = .matched vs' rest := by
  obtain ⟨v, r, hv, h⟩ := bind_matched h
  obtain ⟨vs', r', hvs, h⟩ := bind_matched h
  cases h
  exact ⟨v, r, vs', rfl, hv, hvs⟩

end Production

end WordFormation.RuleText
