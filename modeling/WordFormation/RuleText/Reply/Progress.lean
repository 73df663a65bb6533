/-
  WordFormation/RuleText/Reply/Progress.lean
  ==========================================
  **Productions go forward, and repetitions of what goes forward end.**

  A production that matches leaves an end of the text it was given (`Forward`).
  If it always leaves less (`Advances`), repeating it does not stall (`Settles`,
  `settles_many`).  Both are kept by every combination of productions.

  Settling is asked for texts up to a length, since a production may contain
  itself: what stands behind a character only has to settle on shorter texts
  (`settles_bind_advances`).
-/
import WordFormation.RuleText.Reply

namespace WordFormation.RuleText

namespace Production

variable {α β : Type}

/-- What a match leaves is an end of the text. -/
def Forward (p : Production α) : Prop :=
  ∀ s value rest, p s = .matched value rest → rest <:+ s

/-- What a match leaves is a shorter end of the text. -/
def Advances (p : Production α) : Prop :=
  ∀ s value rest, p s = .matched value rest → rest <:+ s ∧ rest.length < s.length

/-- No text of at most `n` characters makes the production stall. -/
def Settles (n : Nat) (p : Production α) : Prop :=
  ∀ s : Word, s.length ≤ n → p s ≠ .stalled

theorem Advances.forward {p : Production α} (h : Advances p) : Forward p :=
  fun s value rest hp => (h s value rest hp).1

theorem Settles.mono {p : Production α} {m n : Nat} (h : Settles n p) (hmn : m ≤ n) :
    Settles m p :=
  fun s hs => h s (by omega)

/-! ### Replies of a sequence -/

theorem bind_apply (p : Production α) (f : α → Production β) (s : Word) :
    (p >>= f) s = match p s with
      | .matched value rest => f value rest
      | .failed rest expected => .failed rest expected
      | .stalled => .stalled := rfl

theorem pure_apply (value : α) (s : Word) : (pure value : Production α) s = .matched value s := rfl

theorem bind_matched {p : Production α} {f : α → Production β} {s : Word} {value : β}
    {rest : Word} (h : (p >>= f) s = .matched value rest) :
    ∃ v r, p s = .matched v r ∧ f v r = .matched value rest := by
  rw [bind_apply] at h
  cases hp : p s with
  | matched v r => rw [hp] at h; exact ⟨v, r, rfl, h⟩
  | failed r e => rw [hp] at h; cases h
  | stalled => rw [hp] at h; cases h

theorem bind_stalled {p : Production α} {f : α → Production β} {s : Word}
    (h : (p >>= f) s = .stalled) :
    p s = .stalled ∨ ∃ v r, p s = .matched v r ∧ f v r = .stalled := by
  rw [bind_apply] at h
  cases hp : p s with
  | matched v r => rw [hp] at h; exact .inr ⟨v, r, rfl, h⟩
  | failed r e => rw [hp] at h; cases h
  | stalled => exact .inl rfl

/-! ### What combinations leave

A sequence leaves what its second part leaves of what its first one left.  What is left by
one of two productions, or by a production with an expectation, is left by one of their
parts, so whatever is known of it is kept. -/

/-- What a match leaves is related to the text. -/
def Leaves (R : Word → Word → Prop) (p : Production α) : Prop :=
  ∀ s value rest, p s = .matched value rest → R s rest

section Leaves

variable {R : Word → Word → Prop} {p q : Production α}

theorem leaves_bind {S T : Word → Word → Prop} {f : α → Production β}
    (hT : ∀ s r rest, R s r → S r rest → T s rest) (hp : Leaves R p)
    (hf : ∀ v, Leaves S (f v)) : Leaves T (p >>= f) := by
  intro s value rest h
  obtain ⟨v, r, h₁, h₂⟩ := bind_matched h
  exact hT s r rest (hp s v r h₁) (hf v r value rest h₂)

theorem leaves_orElse (hp : Leaves R p) (hq : Leaves R q) : Leaves R (orElse p q) := by
  intro s value rest h
  unfold orElse at h
  cases hps : p s with
  | matched v r => rw [hps] at h; cases h; exact hp s _ _ hps
  | failed r e => rw [hps] at h; exact hq s value rest h
  | stalled => rw [hps] at h; cases h

theorem leaves_expecting (e : Expectation) (hp : Leaves R p) : Leaves R (expecting e p) := by
  intro s value rest h
  unfold expecting at h
  cases hps : p s with
  | matched v r => rw [hps] at h; cases h; exact hp s _ _ hps
  | failed r es => rw [hps] at h; cases h
  | stalled => rw [hps] at h; cases h

theorem forward_orElse (hp : Forward p) (hq : Forward q) : Forward (orElse p q) :=
  leaves_orElse hp hq

theorem advances_orElse (hp : Advances p) (hq : Advances q) : Advances (orElse p q) :=
  leaves_orElse hp hq

theorem forward_expecting (e : Expectation) (hp : Forward p) : Forward (expecting e p) :=
  leaves_expecting e hp

theorem advances_expecting (e : Expectation) (hp : Advances p) : Advances (expecting e p) :=
  leaves_expecting e hp

end Leaves

/-! ### Going forward -/

theorem forward_pure (value : α) : Forward (pure value : Production α) := by
  intro s v rest h
  cases h
  exact List.suffix_refl s

theorem forward_bind {p : Production α} {f : α → Production β} (hp : Forward p)
    (hf : ∀ v, Forward (f v)) : Forward (p >>= f) :=
  leaves_bind (fun _ _ _ hr hrest => hrest.trans hr) hp hf

theorem forward_skip (test : Char → Bool) : Forward (skip test) := by
  intro s value rest h
  cases h
  exact List.dropWhile_suffix test

theorem forward_optionally {p : Production α} (hp : Forward p) : Forward (optionally p) := by
  intro s value rest h
  unfold optionally at h
  cases hps : p s with
  | matched v r => rw [hps] at h; cases h; exact hp s _ _ hps
  | failed r e => rw [hps] at h; cases h; exact List.suffix_refl _
  | stalled => rw [hps] at h; cases h

theorem forward_many {p : Production α} (hp : Forward p) : Forward (many p) := by
  intro s
  induction hn : s.length using Nat.strongRecOn generalizing s with
  | ind n ih =>
    intro values rest h
    rw [many_unfold] at h
    unfold round at h
    cases hps : p s with
    | matched v r =>
      rw [hps] at h
      by_cases hr : r.length < s.length
      · simp only [hr, if_true] at h
        cases hm : many p r with
        | matched vs r' =>
          rw [hm] at h
          cases h
          exact (ih r.length (by omega) r rfl _ _ hm).trans (hp s v r hps)
        | failed r' es => rw [hm] at h; cases h
        | stalled => rw [hm] at h; cases h
      · simp only [hr, if_false] at h
        cases h
    | failed r es => rw [hps] at h; cases h; exact List.suffix_refl _
    | stalled => rw [hps] at h; cases h

/-! ### Leaving less -/

theorem advances_satisfying (test : Char → Bool) : Advances (satisfying test) := by
  intro s value rest h
  cases s with
  | nil => cases h
  | cons c s =>
    unfold satisfying at h
    by_cases hc : test c = true
    · simp only [hc, if_true] at h
      cases h
      exact ⟨List.suffix_cons _ _, by simp⟩
    · simp only [hc] at h
      cases h

theorem advances_mark (c : Char) : Advances (mark c) := advances_satisfying _

theorem advances_run (test : Char → Bool) : Advances (run test) := by
  intro s value rest h
  unfold run at h
  cases ht : s.takeWhile test with
  | nil => rw [ht] at h; cases h
  | cons c taken =>
    rw [ht] at h
    cases h
    refine ⟨List.dropWhile_suffix test, ?_⟩
    have hsplit := congrArg List.length (List.takeWhile_append_dropWhile (p := test) (l := s))
    rw [List.length_append, ht, List.length_cons] at hsplit
    omega

theorem advances_bind {p : Production α} {f : α → Production β} (hp : Advances p)
    (hf : ∀ v, Forward (f v)) : Advances (p >>= f) := by
  refine leaves_bind (fun s r rest hr hrest => ?_) hp hf
  exact ⟨hrest.trans hr.1, Nat.lt_of_le_of_lt hrest.length_le hr.2⟩

/-- A sequence leaves less also if it is not its first part that does. -/
theorem advances_bind_right {p : Production α} {f : α → Production β} (hp : Forward p)
    (hf : ∀ v, Advances (f v)) : Advances (p >>= f) := by
  refine leaves_bind (fun s r rest hr hrest => ?_) hp hf
  exact ⟨hrest.1.trans hr, Nat.lt_of_lt_of_le hrest.2 hr.length_le⟩

theorem advances_many1 {p : Production α} (hp : Advances p) : Advances (many1 p) :=
  advances_bind hp fun _ => forward_bind (forward_many hp.forward) fun _ => forward_pure _

/-! ### Settling -/

theorem settles_pure (n : Nat) (value : α) : Settles n (pure value : Production α) := by
  intro s _ h
  cases h

theorem settles_satisfying (n : Nat) (test : Char → Bool) : Settles n (satisfying test) := by
  intro s _ h
  cases s with
  | nil => cases h
  | cons c s =>
    unfold satisfying at h
    by_cases hc : test c = true <;> simp [hc] at h

theorem settles_mark (n : Nat) (c : Char) : Settles n (mark c) := settles_satisfying n _

theorem settles_run (n : Nat) (test : Char → Bool) : Settles n (run test) := by
  intro s _ h
  unfold run at h
  cases ht : s.takeWhile test <;> rw [ht] at h <;> cases h

theorem settles_skip (n : Nat) (test : Char → Bool) : Settles n (skip test) := by
  intro s _ h
  cases h

theorem settles_bind {n : Nat} {p : Production α} {f : α → Production β} (hp : Settles n p)
    (hforward : Forward p) (hf : ∀ v, Settles n (f v)) : Settles n (p >>= f) := by
  intro s hs h
  rcases bind_stalled h with h | ⟨v, r, h₁, h₂⟩
  · exact hp s hs h
  · exact hf v r (Nat.le_trans (hforward s v r h₁).length_le hs) h₂

/-- After a part that takes a character, less has to settle. -/
theorem settles_bind_advances {n : Nat} {p : Production α} {f : α → Production β}
    (hp : Settles (n + 1) p) (hadvances : Advances p) (hf : ∀ v, Settles n (f v)) :
    Settles (n + 1) (p >>= f) := by
  intro s hs h
  rcases bind_stalled h with h | ⟨v, r, h₁, h₂⟩
  · exact hp s hs h
  · have := (hadvances s v r h₁).2
    exact hf v r (by omega) h₂

theorem settles_orElse {n : Nat} {p q : Production α} (hp : Settles n p) (hq : Settles n q) :
    Settles n (orElse p q) := by
  intro s hs h
  unfold orElse at h
  cases hps : p s with
  | matched v r => rw [hps] at h; cases h
  | failed r e => rw [hps] at h; exact hq s hs h
  | stalled => exact hp s hs hps

theorem settles_optionally {n : Nat} {p : Production α} (hp : Settles n p) :
    Settles n (optionally p) := by
  intro s hs h
  unfold optionally at h
  cases hps : p s with
  | matched v r => rw [hps] at h; cases h
  | failed r e => rw [hps] at h; cases h
  | stalled => exact hp s hs hps

theorem settles_expecting {n : Nat} (e : Expectation) {p : Production α} (hp : Settles n p) :
    Settles n (expecting e p) := by
  intro s hs h
  unfold expecting at h
  cases hps : p s with
  | matched v r => rw [hps] at h; cases h
  | failed r e => rw [hps] at h; cases h
  | stalled => exact hp s hs hps

theorem settles_many {n : Nat} {p : Production α} (hp : Settles n p) (hadvances : Advances p) :
    Settles n (many p) := by
  intro s
  induction hn : s.length using Nat.strongRecOn generalizing s with
  | ind k ih =>
    intro hs h
    rw [many_unfold] at h
    unfold round at h
    cases hps : p s with
    | matched v r =>
      rw [hps] at h
      have hr := (hadvances s v r hps).2
      simp only [hr, if_true] at h
      cases hm : many p r with
      | matched vs r' => rw [hm] at h; cases h
      | failed r' es => rw [hm] at h; cases h
      | stalled => exact ih r.length (by omega) r rfl (by omega) hm
    | failed r es => rw [hps] at h; cases h
    | stalled => exact hp s (by omega) hps

theorem settles_many1 {n : Nat} {p : Production α} (hp : Settles n p) (hadvances : Advances p) :
    Settles n (many1 p) :=
  settles_bind hp hadvances.forward fun _ =>
    settles_bind (settles_many hp hadvances) (forward_many hadvances.forward) fun _ =>
      settles_pure n _

/-! ### Productions that agree -/

/-- Rounds agree where their parts agree on all texts that are not longer. -/
theorem rounds_congr {p q : Production α} {n : Nat} {s : Word}
    (h : ∀ r : Word, r.length ≤ s.length → p r = q r) : rounds p n s = rounds q n s := by
  induction n generalizing s with
  | zero =>
    show round p _ s = round q _ s
    unfold round
    rw [h s (Nat.le_refl _)]
  | succ n ih =>
    show round p (rounds p n) s = round q (rounds q n) s
    rw [round_congr fun r hr => ih fun r' hr' => h r' (by omega)]
    unfold round
    rw [h s (Nat.le_refl _)]

theorem many1_congr {p q : Production α} {s : Word} (hp : Forward p)
    (h : ∀ r : Word, r.length ≤ s.length → p r = q r) : many1 p s = many1 q s := by
  unfold many1
  rw [bind_apply, bind_apply, ← h s (Nat.le_refl _)]
  cases hps : p s with
  | matched v r =>
    have hr := (hp s v r hps).length_le
    have hmany : many p r = many q r := rounds_congr fun r' hr' => h r' (by omega)
    show (many p >>= _) r = (many q >>= _) r
    rw [bind_apply, bind_apply, hmany]
  | failed r es => rfl
  | stalled => rfl

end Production

end WordFormation.RuleText
