/-
  WordFormation/Proofs/RuleText/Cutting.lean
  ==========================================
  **Cutting off the rest of a text changes nothing in front of it.**

  A production that matches may have looked at what it leaves: a run of letters ends
  where something else begins, a choice tries a longer part first.  So the answer to a
  text with its end cut off is compared with the answer to the whole text (`Cut`).  A
  match that ends in front of the cut is found again, and a failure stays a failure,
  wherever it was.  Of a match that ends behind the cut nothing is said, and this is
  the difficulty in a sequence: its second part may fail on the whole text and match
  what the first part leaves of the shorter one.  The grammar does not allow it
  (`Blocks`), for one of these reasons: the second part never fails; the first part
  leaves nothing of the shorter text (`Spends`); what it has taken has no character in
  it with which the second part begins (`Avoids`); or the second part begins with a
  closing parenthesis and the first takes balanced text.

  Failures are in the text as well: what follows the place of a failure is an end of
  it (`Steady.inside`).
-/
import WordFormation.Proofs.RuleText.Nesting

namespace WordFormation.RuleText

namespace Production

variable {α β : Type}

/-- The production does not match the text. -/
def Refuses (p : Production α) (s : Word) : Prop := ∀ value rest, p s ≠ .matched value rest

theorem refuses_bind {p : Production α} (f : α → Production β) {s : Word} (h : Refuses p s) :
    Refuses (p >>= f) s := by
  intro value rest hbind
  obtain ⟨v, r, hv, -⟩ := bind_matched hbind
  exact h v r hv

theorem Advances.refuses_nil {p : Production α} (h : Advances p) : Refuses p [] := by
  intro value rest hp
  exact Nat.not_lt_zero _ (h [] value rest hp).2

/-- The answer to a text with `tail` at its end, and the answer to the text without
    it. -/
inductive Cut (tail : Word) : Reply α → Reply α → Prop where
  /-- The match ends in front of the cut. -/
  | within (value : α) (rest : Word) :
      Cut tail (.matched value (rest ++ tail)) (.matched value rest)
  /-- The match ends behind the cut. -/
  | beyond (value : α) {rest : Word} (h : rest.length < tail.length) (reply : Reply α) :
      Cut tail (.matched value rest) reply
  | failed (rest rest' : Word) (expected expected' : List Expectation) :
      Cut tail (.failed rest expected) (.failed rest' expected')
  | stalled_whole (reply : Reply α) : Cut tail .stalled reply
  | stalled_cut (reply : Reply α) : Cut tail reply .stalled

theorem Cut.of_not_matched {tail : Word} {reply : Reply α} (rest : Word)
    (expected : List Expectation) (h : ∀ value r, reply ≠ .matched value r) :
    Cut tail (.failed rest expected) reply := by
  cases reply with
  | matched value r => exact absurd rfl (h value r)
  | failed r es => exact .failed rest r expected es
  | stalled => exact .stalled_cut _

/-- What a match leaves of a text that ends with `tail` is as much of the text without
    it, or it is shorter than `tail`. -/
theorem Cut.of_suffix {tail : Word} (value : α) {rest : Word} {reply : Reply α}
    (hsuffix : rest <:+ tail) (hreply : reply = .matched value []) :
    Cut tail (.matched value rest) reply := by
  rcases Nat.lt_or_ge rest.length tail.length with hlt | hge
  · exact .beyond value hlt reply
  · obtain rfl : rest = tail := hsuffix.eq_of_length_le hge
    rw [hreply]
    exact .within value []

/-- What follows the place of a failure is an end of the text. -/
def FailsInside (p : Production α) : Prop := ∀ s rest es, p s = .failed rest es → rest <:+ s

/-- The production goes forward also where it fails, and cutting off an end of the text
    that it has left changes no answer. -/
structure Steady (p : Production α) : Prop where
  forward : Forward p
  inside : FailsInside p
  cut : ∀ s tail, Cut tail (p (s ++ tail)) (p s)

/-- A match that ends in front of the cut is found again. -/
def KeepsMatches (p : Production α) : Prop :=
  ∀ s tail v rest, p (s ++ tail) = .matched v (rest ++ tail) →
    p s = .matched v rest ∨ p s = .stalled

theorem Steady.keepsMatches {p : Production α} (h : Steady p) : KeepsMatches p := by
  intro s tail v rest hwhole
  have hcut := h.cut s tail
  rw [hwhole] at hcut
  generalize hr : rest ++ tail = r at hcut
  generalize p s = reply at hcut ⊢
  cases hcut with
  | within _ rest' =>
    obtain rfl : rest = rest' := List.append_cancel_right hr
    exact .inl rfl
  | beyond _ hbeyond =>
    rw [← hr, List.length_append] at hbeyond
    omega
  | stalled_cut => exact .inr rfl

/-! ### Tokens -/

theorem steady_pure (value : α) : Steady (pure value : Production α) where
  forward := forward_pure value
  inside := by
    intro s rest es h
    cases h
  cut := fun s _ => .within value s

theorem steady_stalled : Steady (fun _ => .stalled : Production α) where
  forward := by
    intro s value rest h
    cases h
  inside := by
    intro s rest es h
    cases h
  cut := fun _ _ => .stalled_whole _

theorem steady_satisfying (test : Char → Bool) : Steady (satisfying test) where
  forward := (advances_satisfying test).forward
  inside := by
    intro s rest es h
    unfold satisfying at h
    split at h
    · cases h
      exact List.suffix_refl []
    · split at h
      · cases h
      · cases h
        exact List.suffix_refl _
  cut := by
    intro s tail
    cases s with
    | nil =>
      rw [List.nil_append]
      cases htail : satisfying test tail with
      | matched c rest => exact .beyond c (advances_satisfying test tail c rest htail).2 _
      | failed rest es => exact .failed _ _ _ _
      | stalled => exact .stalled_whole _
    | cons c s =>
      cases hc : test c with
      | true =>
        rw [List.cons_append, satisfying_cons hc, satisfying_cons hc]
        exact .within c s
      | false =>
        obtain ⟨r, es, hr⟩ := fails_satisfying (stops_cons hc (s ++ tail))
        obtain ⟨r', es', hr'⟩ := fails_satisfying (stops_cons hc s)
        rw [List.cons_append, hr, hr']
        exact .failed r r' es es'

theorem steady_mark (c : Char) : Steady (mark c) := steady_satisfying _

theorem steady_skip (test : Char → Bool) : Steady (skip test) where
  forward := forward_skip test
  inside := by
    intro s rest es h
    cases h
  cut := by
    intro s tail
    unfold skip
    rw [List.dropWhile_append]
    split
    · next hall =>
      exact .of_suffix () (List.dropWhile_suffix test) (by rw [List.isEmpty_iff.mp hall])
    · exact .within () _

/-- The run is what skipping it leaves out. -/
theorem steady_run (test : Char → Bool) : Steady (run test) where
  forward := (advances_run test).forward
  inside := by
    intro s rest es h
    unfold run at h
    split at h
    · cases h
      exact List.suffix_refl _
    · cases h
  cut := by
    intro s tail
    have hskip := (steady_skip test).cut s tail
    have hwhole := List.takeWhile_append_dropWhile (p := test) (l := s ++ tail)
    have hcut := List.takeWhile_append_dropWhile (p := test) (l := s)
    unfold skip at hskip
    unfold run
    generalize (s ++ tail).dropWhile test = rest at hskip hwhole ⊢
    generalize s.dropWhile test = rest' at hskip hcut ⊢
    generalize (s ++ tail).takeWhile test = taken at hwhole ⊢
    cases hskip with
    | within =>
      obtain rfl : s.takeWhile test = taken := by
        rw [← List.append_assoc, List.append_left_inj] at hwhole
        rw [← hcut, List.append_left_inj] at hwhole
        exact hwhole.symm
      cases s.takeWhile test with
      | nil => exact .failed _ _ _ _
      | cons c taken => exact .within (c :: taken) rest'
    | beyond _ h =>
      cases taken with
      | nil =>
        have hlength := congrArg List.length (show rest = s ++ tail from hwhole)
        rw [List.length_append] at hlength
        omega
      | cons c taken => exact .beyond (c :: taken) h _

/-! ### What stands in the way of a second part -/

/-- If the second part fails behind a match that ends behind the cut, it does not match
    what the first part leaves of the shorter text. -/
def Blocks (p : Production α) (f : α → Production β) : Prop :=
  ∀ s tail v r v' r', p (s ++ tail) = .matched v r → r.length < tail.length →
    Fails (f v) r → p s = .matched v' r' → Refuses (f v') r'

/-- A match behind the cut means that nothing is left of the shorter text. -/
def Spends (p : Production α) : Prop :=
  ∀ s tail v r v' r', p (s ++ tail) = .matched v r → r.length < tail.length →
    p s = .matched v' r' → r' = []

def NeverFails (p : Production α) : Prop := ∀ s, ¬ Fails p s

/-- No character that passes the test is taken. -/
def Avoids (test : Char → Bool) (p : Production α) : Prop :=
  Consumes p fun used _ => ∀ c ∈ used, test c = false

theorem blocks_of_neverFails {p : Production α} {f : α → Production β}
    (h : ∀ v, NeverFails (f v)) : Blocks p f := by
  intro s tail v r v' r' _ _ hfails
  exact absurd hfails (h v r)

theorem blocks_of_spends {p : Production α} {f : α → Production β} (hp : Spends p)
    (hf : ∀ v, Advances (f v)) : Blocks p f := by
  intro s tail v r v' r' hwhole hbeyond _ hcut
  rw [hp s tail v r v' r' hwhole hbeyond hcut]
  exact (hf v').refuses_nil

/-- A single character that is taken is in front of the cut or behind it. -/
theorem satisfying_beyond {test : Char → Bool} {s tail r : Word} {c : Char}
    (h : satisfying test (s ++ tail) = .matched c r) (hr : r.length < tail.length) : s = [] := by
  obtain ⟨hs, -⟩ := satisfying_eq_matched h
  have hlength := congrArg List.length hs
  simp only [List.length_append, List.length_cons] at hlength
  exact List.eq_nil_of_length_eq_zero (by omega)

theorem blocks_satisfying (test : Char → Bool) (f : Char → Production β) :
    Blocks (satisfying test) f := by
  intro s tail v r v' r' hwhole hbeyond _ hcut
  obtain rfl := satisfying_beyond hwhole hbeyond
  cases hcut

/-- A match that ends behind the cut has taken all in front of it. -/
theorem Consumes.beyond {p : Production α} {R : Word → α → Prop} (hp : Consumes p R)
    {s tail r : Word} {v : α} (h : p (s ++ tail) = .matched v r) (hr : r.length < tail.length) :
    ∃ more, R (s ++ more) v := by
  obtain ⟨used, hused, hR⟩ := hp (s ++ tail) v r h
  rcases List.append_eq_append_iff.mp hused with ⟨more, rfl, -⟩ | ⟨more, -, rfl⟩
  · exact ⟨more, hR⟩
  · rw [List.length_append] at hr
    omega

theorem blocks_of_avoids {test : Char → Bool} {p : Production α} {f : α → Production β}
    (hp : Avoids test p)
    (hf : ∀ v w, (∀ c ∈ w, test c = false) → Refuses (f v) w) : Blocks p f := by
  intro s tail v r v' r' hwhole hbeyond _ hcut
  obtain ⟨more, hmore⟩ := hp.beyond hwhole hbeyond
  obtain ⟨used, rfl, -⟩ := hp s v' r' hcut
  refine hf v' r' fun c hc => hmore c ?_
  exact List.mem_append_left more (List.mem_append_right used hc)

/-- In balanced text nothing is closed that has not been opened. -/
theorem blocks_of_balances {p : Production α} {f : α → Production β} (hp : Balances p)
    (hf : ∀ v w, w.head? ≠ some ')' → Refuses (f v) w) : Blocks p f := by
  intro s tail v r v' r' hwhole hbeyond _ hcut
  obtain ⟨more, hmore⟩ := hp.beyond hwhole hbeyond
  obtain ⟨used, rfl, hused⟩ := hp s v' r' hcut
  refine hf v' r' fun hhead => ?_
  obtain ⟨w, rfl⟩ : ∃ w, r' = ')' :: w := List.head?_eq_some_iff.mp hhead
  rw [List.append_assoc, List.cons_append] at hmore
  exact hused.not_append_closing hmore

/-! #### Parts that never fail -/

theorem neverFails_pure (value : α) : NeverFails (pure value : Production α) := by
  rintro s ⟨r, es, h⟩
  cases h

theorem neverFails_skip (test : Char → Bool) : NeverFails (skip test) := by
  rintro s ⟨r, es, h⟩
  cases h

theorem neverFails_bind {p : Production α} {f : α → Production β} (hp : NeverFails p)
    (hf : ∀ v, NeverFails (f v)) : NeverFails (p >>= f) := by
  rintro s ⟨r, es, h⟩
  rw [bind_apply] at h
  cases hps : p s with
  | matched v r' =>
    rw [hps] at h
    exact hf v r' ⟨r, es, h⟩
  | failed r' es' => exact hp s ⟨r', es', hps⟩
  | stalled =>
    rw [hps] at h
    cases h

theorem neverFails_optionally (p : Production α) : NeverFails (optionally p) := by
  rintro s ⟨r, es, h⟩
  unfold optionally at h
  split at h <;> cases h

theorem neverFails_many (p : Production α) : NeverFails (many p) := by
  intro s
  induction hn : s.length using Nat.strongRecOn generalizing s with
  | ind n ih =>
    rintro ⟨r, es, h⟩
    rw [many_unfold] at h
    unfold round at h
    split at h
    · next v r' hps =>
      split at h
      · next hless =>
        split at h
        · cases h
        · next r'' es' hagain => exact ih r'.length (by omega) r' rfl ⟨r'', es', hagain⟩
        · cases h
      · cases h
    · cases h
    · cases h

/-! #### Parts that leave nothing of the shorter text -/

theorem spends_pure (value : α) : Spends (pure value : Production α) := by
  intro s tail v r v' r' hwhole hbeyond _
  cases hwhole
  rw [List.length_append] at hbeyond
  omega

theorem spends_satisfying (test : Char → Bool) : Spends (satisfying test) := by
  intro s tail v r v' r' hwhole hbeyond hcut
  obtain rfl := satisfying_beyond hwhole hbeyond
  cases hcut

theorem spends_optionally_satisfying (test : Char → Bool) :
    Spends (optionally (satisfying test)) := by
  intro s tail v r v' r' hwhole hbeyond hcut
  rcases optionally_eq_matched hwhole with ⟨c, -, hc⟩ | ⟨-, rfl, -⟩
  · obtain rfl := satisfying_beyond hc hbeyond
    cases hcut
    rfl
  · rw [List.length_append] at hbeyond
    omega

theorem spends_skip (test : Char → Bool) : Spends (skip test) := by
  intro s tail v r v' r' hwhole hbeyond hcut
  obtain ⟨more, hmore⟩ := (consumes_skip test).beyond hwhole hbeyond
  cases hcut
  have hall : ∀ c ∈ s, test c = true := fun c hc => hmore c (List.mem_append_left more hc)
  rw [← List.append_nil s, List.dropWhile_append_of_pos hall]
  rfl

theorem spends_expecting (e : Expectation) {p : Production α} (hp : Spends p) :
    Spends (expecting e p) := by
  intro s tail v r v' r' hwhole hbeyond hcut
  exact hp s tail v r v' r' (expecting_eq_matched hwhole) hbeyond (expecting_eq_matched hcut)

theorem spends_bind {p : Production α} {f : α → Production β} (hp : Steady p)
    (hspends : Spends p) (hforward : ∀ v, Forward (f v)) (hf : ∀ v, Spends (f v)) :
    Spends (p >>= f) := by
  intro s tail v r v' r' hwhole hbeyond hcut
  obtain ⟨w, x, hw, hwhole⟩ := bind_matched hwhole
  obtain ⟨w', x', hw', hcut⟩ := bind_matched hcut
  have hpcut := hp.cut s tail
  rw [hw, hw'] at hpcut
  cases hpcut with
  | within => exact hf w x' tail v r v' r' hwhole hbeyond hcut
  | beyond _ hx =>
    obtain rfl : x' = [] := hspends s tail w x w' x' hw hx hw'
    exact List.suffix_nil.mp (hforward w' [] v' r' hcut)

/-! ### Combinations -/

theorem failsInside_bind_of_matched {p : Production α} {f : α → Production β} (hp : FailsInside p)
    (hforward : Forward p) (hf : ∀ s v r, p s = .matched v r → FailsInside (f v)) :
    FailsInside (p >>= f) := by
  intro s rest es h
  rw [bind_apply] at h
  cases hps : p s with
  | matched v r =>
    rw [hps] at h
    exact (hf s v r hps r rest es h).trans (hforward s v r hps)
  | failed r es' =>
    rw [hps] at h
    cases h
    exact hp s rest es hps
  | stalled =>
    rw [hps] at h
    cases h

theorem failsInside_bind {p : Production α} {f : α → Production β} (hp : FailsInside p)
    (hforward : Forward p) (hf : ∀ v, FailsInside (f v)) : FailsInside (p >>= f) :=
  failsInside_bind_of_matched hp hforward fun _ v _ _ => hf v

theorem keepsMatches_bind {p : Production α} {f : α → Production β} (hp : KeepsMatches p)
    (hforward : ∀ v, Forward (f v)) (hf : ∀ v, KeepsMatches (f v)) :
    KeepsMatches (p >>= f) := by
  intro s tail v rest h
  obtain ⟨w, r, hw, hmore⟩ := bind_matched h
  obtain ⟨r', rfl⟩ : ∃ r', r = r' ++ tail := by
    obtain ⟨front, rfl⟩ := hforward w r v (rest ++ tail) hmore
    exact ⟨front ++ rest, (List.append_assoc front rest tail).symm⟩
  rw [bind_apply]
  rcases hp s tail w r' hw with hs | hs
  · rw [hs]
    exact hf w r' tail v rest hmore
  · rw [hs]
    exact .inr rfl

theorem steady_bind_of_matched {p : Production α} {f : α → Production β} (hp : Steady p)
    (hf : ∀ s v r, p s = .matched v r → Steady (f v)) (hblocks : Blocks p f) :
    Steady (p >>= f) where
  forward := by
    intro s value rest h
    obtain ⟨v, r, hv, hrest⟩ := bind_matched h
    exact ((hf s v r hv).forward r value rest hrest).trans (hp.forward s v r hv)
  inside := failsInside_bind_of_matched hp.inside hp.forward fun s v r h => (hf s v r h).inside
  cut := by
    intro s tail
    have hcut := hp.cut s tail
    rw [bind_apply, bind_apply]
    generalize hwhole : p (s ++ tail) = whole at hcut ⊢
    generalize hshorter : p s = shorter at hcut ⊢
    cases hcut with
    | within v r => exact (hf s v r hshorter).cut r tail
    | beyond v hr =>
      rename_i r
      show Cut tail (f v r) _
      cases hmore : f v r with
      | matched w rest =>
        have hrest := ((hf _ v r hwhole).forward r w rest hmore).length_le
        exact .beyond w (Nat.lt_of_le_of_lt hrest hr) _
      | failed rest es =>
        apply Cut.of_not_matched
        cases shorter with
        | matched v' r' => exact hblocks s tail v r v' r' hwhole hr ⟨rest, es, hmore⟩ hshorter
        | failed r' es' => intro _ _ h; cases h
        | stalled => intro _ _ h; cases h
      | stalled => exact .stalled_whole _
    | failed r r' es es' => exact .failed r r' es es'
    | stalled_whole => exact .stalled_whole _
    | stalled_cut => exact .stalled_cut _

theorem steady_bind {p : Production α} {f : α → Production β} (hp : Steady p)
    (hf : ∀ v, Steady (f v)) (hblocks : Blocks p f) : Steady (p >>= f) :=
  steady_bind_of_matched hp (fun _ v _ _ => hf v) hblocks

theorem steady_bind_pure {p : Production α} (hp : Steady p) (g : α → β) :
    Steady (p >>= fun v => pure (g v)) :=
  steady_bind hp (fun _ => steady_pure _) (blocks_of_neverFails fun _ => neverFails_pure _)

theorem steady_orElse {p q : Production α} (hp : Steady p) (hq : Steady q) :
    Steady (orElse p q) where
  forward := forward_orElse hp.forward hq.forward
  inside := by
    intro s rest es h
    unfold orElse at h
    split at h
    · exact hq.inside s rest es h
    · next hfailed => exact absurd h (hfailed rest es)
  cut := by
    intro s tail
    have hcut := hp.cut s tail
    unfold orElse
    generalize p (s ++ tail) = whole at hcut ⊢
    generalize p s = shorter at hcut ⊢
    cases hcut with
    | within v r => exact .within v r
    | beyond v hr => exact .beyond v hr _
    | failed r r' es es' => exact hq.cut s tail
    | stalled_whole => exact .stalled_whole _
    | stalled_cut => exact .stalled_cut _

theorem steady_optionally {p : Production α} (hp : Steady p) : Steady (optionally p) where
  forward := forward_optionally hp.forward
  inside := fun s rest es h => absurd ⟨rest, es, h⟩ (neverFails_optionally p s)
  cut := by
    intro s tail
    have hcut := hp.cut s tail
    unfold optionally
    generalize p (s ++ tail) = whole at hcut ⊢
    generalize p s = shorter at hcut ⊢
    cases hcut with
    | within v r => exact .within (some v) r
    | beyond v hr => exact .beyond (some v) hr _
    | failed r r' es es' => exact .within none s
    | stalled_whole => exact .stalled_whole _
    | stalled_cut => exact .stalled_cut _

/-- Behind a match, something more that may be missing is no reason to fail. -/
theorem steady_bind_optionally {γ : Type} {p : Production α} {q : Production β}
    {f : α → Option β → Production γ} (hp : Steady p) (hq : Steady q)
    (hf : ∀ v w, ∃ u, f v w = pure u) : Steady (p >>= fun v => optionally q >>= f v) := by
  have hsteady (v : α) (w : Option β) : Steady (f v w) := by
    obtain ⟨u, hu⟩ := hf v w
    rw [hu]
    exact steady_pure u
  have hnever (v : α) (w : Option β) : NeverFails (f v w) := by
    obtain ⟨u, hu⟩ := hf v w
    rw [hu]
    exact neverFails_pure u
  refine steady_bind hp (fun v => ?_) (blocks_of_neverFails fun v => ?_)
  · exact steady_bind (steady_optionally hq) (hsteady v) (blocks_of_neverFails (hnever v))
  · exact neverFails_bind (neverFails_optionally q) (hnever v)

theorem steady_expecting (e : Expectation) {p : Production α} (hp : Steady p) :
    Steady (expecting e p) where
  forward := forward_expecting e hp.forward
  inside := by
    intro s rest es h
    unfold expecting at h
    split at h
    · next r es' hps =>
      cases h
      exact hp.inside s rest es' hps
    · exact hp.inside s rest es h
  cut := by
    intro s tail
    have hcut := hp.cut s tail
    unfold expecting
    generalize p (s ++ tail) = whole at hcut ⊢
    generalize p s = shorter at hcut ⊢
    cases hcut with
    | within v r => exact .within v r
    | beyond v hr => exact .beyond v hr _
    | failed r r' es es' => exact .failed r r' _ _
    | stalled_whole => exact .stalled_whole _
    | stalled_cut => exact .stalled_cut _

/-- The rounds that end in front of the cut are the same, and so is the failure that
    ends them. -/
theorem steady_many {p : Production α} (hp : Steady p) : Steady (many p) where
  forward := forward_many hp.forward
  inside := fun s rest es h => absurd ⟨rest, es, h⟩ (neverFails_many p s)
  cut := by
    intro s tail
    induction hn : s.length using Nat.strongRecOn generalizing s with
    | ind n ih =>
      have hcut := hp.cut s tail
      rw [many_unfold p (s ++ tail), many_unfold p s]
      unfold round
      generalize p (s ++ tail) = whole at hcut ⊢
      generalize p s = shorter at hcut ⊢
      cases hcut with
      | within v r =>
        by_cases hr : r.length < s.length
        · have hwhole : (r ++ tail).length < (s ++ tail).length := by
            simpa using hr
          have hagain := ih r.length (by omega) r rfl
          simp only [hr, hwhole, if_true]
          generalize many p (r ++ tail) = again at hagain ⊢
          generalize many p r = again' at hagain ⊢
          cases hagain with
          | within vs rest => exact .within (v :: vs) rest
          | beyond vs hrest => exact .beyond (v :: vs) hrest _
          | failed rest rest' es es' => exact .failed rest rest' es es'
          | stalled_whole => exact .stalled_whole _
          | stalled_cut => exact .stalled_cut _
        · simp only [hr, if_false]
          exact .stalled_cut _
      | beyond v hr =>
        rename_i r
        have hwhole : r.length < (s ++ tail).length := by
          rw [List.length_append]
          omega
        simp only [hwhole, if_true]
        cases hmore : many p r with
        | matched vs rest =>
          have hrest := (forward_many hp.forward r vs rest hmore).length_le
          exact .beyond (v :: vs) (Nat.lt_of_le_of_lt hrest hr) _
        | failed rest es => exact absurd ⟨rest, es, hmore⟩ (neverFails_many p r)
        | stalled => exact .stalled_whole _
      | failed r r' es es' => exact .within [] s
      | stalled_whole => exact .stalled_whole _
      | stalled_cut => exact .stalled_cut _

theorem steady_many1 {p : Production α} (hp : Steady p) : Steady (many1 p) := by
  refine steady_bind hp (fun v => ?_) (blocks_of_neverFails fun v => ?_)
  · exact steady_bind_pure (steady_many hp) _
  · exact neverFails_bind (neverFails_many p) fun _ => neverFails_pure _

/-! ### Characters that are not taken -/

section Avoiding

variable {test : Char → Bool}

theorem avoids_pure (value : α) : Avoids test (pure value : Production α) := by
  apply consumes_pure
  intro c hc
  cases hc

theorem avoids_bind {p : Production α} {f : α → Production β} (hp : Avoids test p)
    (hf : ∀ v, Avoids test (f v)) : Avoids test (p >>= f) := by
  refine consumes_bind hp fun used v hused => ?_
  exact (hf v).mono fun more _ hmore => List.forall_mem_append.mpr ⟨hused, hmore⟩

theorem avoids_optionally {p : Production α} (hp : Avoids test p) :
    Avoids test (optionally p) := by
  refine (consumes_optionally hp).mono ?_
  rintro used v (⟨-, rfl⟩ | ⟨-, -, hused⟩)
  · intro c hc
    cases hc
  · exact hused

theorem avoids_many {p : Production α} (hp : Avoids test p) : Avoids test (many p) := by
  refine (consumes_many hp).mono fun used vs h => ?_
  induction h with
  | nil => exact fun c hc => absurd hc List.not_mem_nil
  | cons first others ih => exact List.forall_mem_append.mpr ⟨first, ih⟩

theorem avoids_many1 {p : Production α} (hp : Avoids test p) : Avoids test (many1 p) :=
  avoids_bind hp fun _ => avoids_bind (avoids_many hp) fun _ => avoids_pure _

theorem avoids_mark {c : Char} (h : test c = false) : Avoids test (mark c) := by
  refine (consumes_mark c).mono ?_
  rintro used d ⟨rfl, -⟩
  simpa using h

end Avoiding

end Production

end WordFormation.RuleText
