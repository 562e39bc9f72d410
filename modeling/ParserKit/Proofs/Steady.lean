import ParserKit.Proofs.Movement

/-!
# Reading the same characters again

A parser that has read some characters may meet them again in front of another
rest, where the text is cut short or goes on in another way.  A steady parser
then reads at least these characters, and just these if the rest cannot be taken
for more of them.  Parsers in general are not steady: an alternative that was
passed over may come to match.  The combinators are, under conditions on what
may stand behind their parts.
-/

namespace ParserKit

variable {α β γ : Type} {F G : List Char → Prop}

theorem Outcome.andThen_eq_some {o : Outcome α} {next : α → Cursor → Outcome β}
    {found : β × Cursor} :
    o.andThen next = .ok (some found) ↔
      ∃ a d, o = .ok (some (a, d)) ∧ next a d = .ok (some found) := by
  rcases o with fault | (_ | ⟨a, d⟩)
  · simp [Outcome.andThen]
  · simp [Outcome.andThen]
  · constructor
    · exact fun h => ⟨a, d, rfl, h⟩
    · rintro ⟨_, _, heq, h⟩
      cases heq
      exact h

theorem Outcome.otherwise_eq_some {o other : Outcome α} {found : α × Cursor} :
    o.otherwise other = .ok (some found) ↔
      o = .ok (some found) ∨ o = .ok none ∧ other = .ok (some found) := by
  rcases o with fault | (_ | ⟨a, d⟩) <;> simp [Outcome.otherwise]

theorem Outcome.otherwise_eq_none {o other : Outcome α} :
    o.otherwise other = .ok none ↔ o = .ok none ∧ other = .ok none := by
  rcases o with fault | (_ | ⟨a, d⟩) <;> simp [Outcome.otherwise]

theorem Cursor.Reads.eq_of_reads {c d : Cursor} {s t : List Char} (h : c.Reads s d)
    (h' : c.Reads t d) : s = t :=
  h.slice_eq.symm.trans h'.slice_eq

/-- Wherever the characters that the step has read stand in front of a rest, it
reads at least these.  If the rest satisfies `F`, it reads no more and ends in no
fault. -/
def Steady (F : List Char → Prop) (step : Cursor → Outcome α) : Prop :=
  ∀ ⦃c d a s c' rest⦄, step c = .ok (some (a, d)) → c.Reads s d → c'.remaining = s ++ rest →
    (step c').Meets (fun _ => ¬ F rest) False fun _ d' =>
      d'.remaining <:+ rest ∧ (F rest → d'.remaining = rest)

/-- Fewer rests may be asked for. -/
theorem Steady.mono {step : Cursor → Outcome α} (h : Steady F step)
    (hGF : ∀ rest, G rest → F rest) : Steady G step := by
  intro c d a s c' rest hrun hread hc'
  refine (h hrun hread hc').mono (fun _ hF hG => hF (hGF rest hG)) id ?_
  intro _ d' hd'
  exact ⟨hd'.1, fun hG => hd'.2 (hGF rest hG)⟩

/-- A step that never fails to match. -/
def Total (step : Cursor → Outcome α) : Prop :=
  ∀ c, (step c).Meets (fun _ => True) False fun _ d => c.Reaches d

/-- The rounds of a repetition from one cursor to another, up to the first that
does not match. -/
inductive Rounds (step : Cursor → Outcome α) : Cursor → List α → Cursor → Prop
  | stop {c : Cursor} (h : step c = .ok none) : Rounds step c [] c
  | next {c d e : Cursor} {a : α} {tokens : List α} (h : step c = .ok (some (a, d)))
      (hlt : d.left < c.left) (more : Rounds step d tokens e) : Rounds step c (a :: tokens) e

/-- Where the first step does not match and the second one does, the first one does
not match either if these characters stand in front of another rest. -/
def Excludes (step step' : Cursor → Outcome α) : Prop :=
  ∀ ⦃c d a s c' rest⦄, step c = .ok none → step' c = .ok (some (a, d)) → c.Reads s d →
    c'.remaining = s ++ rest → step c' = .ok none

/-- A success takes at least one character. -/
def Takes (step : Cursor → Outcome α) : Prop :=
  ∀ ⦃c a d s⦄, step c = .ok (some (a, d)) → c.Reads s d → s ≠ []

theorem Moves.suffix {step : Cursor → Outcome α} (h : Moves step) (c : Cursor) :
    (step c).Meets (fun _ => True) True fun _ d => d.remaining <:+ c.remaining :=
  (h c).imp fun _ _ ⟨_, hs⟩ => hs.suffix

theorem Takes.advances {step : Cursor → Outcome α} (h : Takes step) (hmoves : Moves step)
    (c : Cursor) : (step c).Meets (fun _ => True) True fun _ d => d.left < c.left := by
  rcases hrun : step c with fault | (_ | ⟨a, d⟩)
  · trivial
  · trivial
  · obtain ⟨s, hread⟩ := hmoves.reaches hrun
    have hlength := List.length_pos_iff.2 (h hrun hread)
    have hleft := hread.left_eq
    rw [Outcome.Meets]
    omega

theorem Rounds.reaches {step : Cursor → Outcome α} (hmoves : Moves step) {c d : Cursor}
    {tokens : List α} (h : Rounds step c tokens d) : c.Reaches d := by
  induction h with
  | stop => exact .refl _
  | next h _ _ ih => exact (hmoves.reaches h).trans ih

/-- Behind a round nothing more is read, or a next round which may stand there. -/
theorem Rounds.eq_nil_or_follows {step : Cursor → Outcome α} (hmoves : Moves step)
    (hlink : ∀ ⦃c a d b e s rest⦄, step c = .ok (some (a, d)) → step d = .ok (some (b, e)) →
      d.Reads s e → F (s ++ rest))
    {c d e : Cursor} {a : α} {tokens : List α} {s : List Char}
    (hround : step c = .ok (some (a, d))) (h : Rounds step d tokens e) (hread : d.Reads s e)
    (rest : List Char) : s = [] ∨ F (s ++ rest) := by
  cases h with
  | stop _ => exact .inl (hread.eq_of_reads (.nil d))
  | next hround' _ more =>
      obtain ⟨t, ht⟩ := hmoves.reaches hround'
      obtain ⟨u, hu⟩ := more.reaches hmoves
      obtain rfl := hread.eq_of_reads (ht.append hu)
      rw [List.append_assoc]
      exact .inr (hlink hround hround' ht)

/-- Where a repetition whose rounds ended at `d` may be when it runs again in front of
a rest: some rounds are still to come, or it has run into a rest that it may enter. -/
def Underway (step : Cursor → Outcome α) (G : List Char → Prop) (d : Cursor) (rest : List Char)
    (e : Cursor) : Prop :=
  (∃ x todo t, Rounds step x todo d ∧ x.Reads t d ∧ e.remaining = t ++ rest) ∨
    ¬ G rest ∧ e.remaining <:+ rest

namespace Parser

variable {R : Type → Type} {rules : Rules R}

/-! ## Single parsers -/

theorem reads_of_satisfy {k : Char → Bool} {c d : Cursor} {a : Char} {s : List Char}
    (hrun : (satisfy k : Parser R Char).runWith rules c = .ok (some (a, d)))
    (hread : c.Reads s d) : ∃ ch, s = [ch] ∧ k ch = true := by
  have hmeets : ((satisfy k : Parser R Char).runWith rules c).Meets (fun _ => True) True
      fun _ d => ∃ ch, c.Reads [ch] d ∧ k ch = true :=
    meets_satisfy k (fun _ => trivial) fun ch d hd hk => ⟨ch, hd, hk⟩
  rw [hrun] at hmeets
  obtain ⟨ch, hd, hk⟩ := hmeets
  exact ⟨ch, hread.eq_of_reads hd, hk⟩

theorem reads_of_literal {text a : String} {c d : Cursor} {s : List Char}
    (hrun : (literal text : Parser R String).runWith rules c = .ok (some (a, d)))
    (hread : c.Reads s d) : s = text.toList := by
  have hmeets : ((literal text : Parser R String).runWith rules c).Meets (fun _ => True) True
      fun _ d => c.Reads text.toList d :=
    meets_literal text (fun _ => trivial) fun d hd => hd
  rw [hrun] at hmeets
  exact hread.eq_of_reads hmeets

theorem steady_satisfy (k : Char → Bool) :
    Steady F ((satisfy k : Parser R Char).runWith rules) := by
  intro c d ch s c' rest hrun hread hc'
  obtain ⟨x, rfl, hk⟩ := reads_of_satisfy hrun hread
  refine meets_satisfy k (fun hstops => ?_) fun y d' hy _ => ?_
  · rw [hc', List.singleton_append, stops_cons, hk] at hstops
    exact absurd hstops (by simp)
  · have hcons := hy.remaining_eq
    rw [hc', List.singleton_append, List.singleton_append, List.cons.injEq] at hcons
    exact ⟨hcons.2 ▸ List.suffix_rfl, fun _ => hcons.2.symm⟩

theorem steady_char (x : Char) : Steady F ((char x : Parser R Char).runWith rules) :=
  steady_satisfy _

theorem steady_literal (text : String) :
    Steady F ((literal text : Parser R String).runWith rules) := by
  intro c d a s c' rest hrun hread hc'
  obtain rfl := reads_of_literal hrun hread
  refine meets_literal text (fun hno => hno ⟨rest, hc'.symm⟩) fun d' hd' => ?_
  have hsame := hd'.remaining_eq
  rw [hc', List.append_cancel_left_eq] at hsame
  exact ⟨hsame ▸ List.suffix_rfl, fun _ => hsame.symm⟩

theorem exists_of_map {p : Parser R α} {f : α → β} {c d : Cursor} {b : β}
    (hrun : (map p f).runWith rules c = .ok (some (b, d))) :
    ∃ a, p.runWith rules c = .ok (some (a, d)) := by
  rw [runWith_map, Outcome.andThen_eq_some] at hrun
  obtain ⟨a, d', hp, hsome⟩ := hrun
  cases hsome
  exact ⟨a, hp⟩

theorem exists_of_withLocation {p : Parser R α} {c d : Cursor} {found : Located α}
    (hrun : (withLocation p).runWith rules c = .ok (some (found, d))) :
    ∃ a, p.runWith rules c = .ok (some (a, d)) := by
  rw [runWith_withLocation, Outcome.andThen_eq_some] at hrun
  obtain ⟨a, d', hp, hsome⟩ := hrun
  cases hsome
  exact ⟨a, hp⟩

theorem takes_map {p : Parser R α} (h : Takes (p.runWith rules)) (f : α → β) :
    Takes ((map p f).runWith rules) := by
  intro c b d s hrun hread
  obtain ⟨a, hp⟩ := exists_of_map hrun
  exact h hp hread

theorem steady_map {p : Parser R α} (h : Steady F (p.runWith rules)) (f : α → β) :
    Steady F ((map p f).runWith rules) := by
  intro c d b s c' rest hrun hread hc'
  obtain ⟨a, hp⟩ := exists_of_map hrun
  rw [meets_map]
  exact h hp hread hc'

theorem steady_withLocation {p : Parser R α} (h : Steady F (p.runWith rules)) :
    Steady F ((withLocation p).runWith rules) := by
  intro c d b s c' rest hrun hread hc'
  obtain ⟨a, hp⟩ := exists_of_withLocation hrun
  rw [meets_withLocation]
  exact h hp hread hc'

/-! ## Parsers one behind the other -/

section Moving

variable (hrules : ∀ {β : Type} (r : R β), Moves (rules r))

include hrules

theorem reads_of_sequence {p : Parser R α} {q : Parser R β} {f : α → β → γ} {c e : Cursor}
    {found : γ} {s : List Char} (hrun : (sequence p q f).runWith rules c = .ok (some (found, e)))
    (hread : c.Reads s e) :
    ∃ a d b s₁ s₂, p.runWith rules c = .ok (some (a, d)) ∧
      q.runWith rules d = .ok (some (b, e)) ∧ c.Reads s₁ d ∧ d.Reads s₂ e ∧ s = s₁ ++ s₂ := by
  rw [runWith_sequence, Outcome.andThen_eq_some] at hrun
  obtain ⟨a, d, hp, hrun⟩ := hrun
  rw [Outcome.andThen_eq_some] at hrun
  obtain ⟨b, e', hq, hsome⟩ := hrun
  cases hsome
  obtain ⟨s₁, hread₁⟩ := (moves_runWith hrules p).reaches hp
  obtain ⟨s₂, hread₂⟩ := (moves_runWith hrules q).reaches hq
  exact ⟨a, d, b, s₁, s₂, hp, hq, hread₁, hread₂, hread.eq_of_reads (hread₁.append hread₂)⟩

theorem takes_sequence_left {p : Parser R α} {q : Parser R β} {f : α → β → γ}
    (h : Takes (p.runWith rules)) : Takes ((sequence p q f).runWith rules) := by
  intro c found e s hrun hread
  obtain ⟨a, d, b, s₁, s₂, hp, -, hread₁, -, rfl⟩ := reads_of_sequence hrules hrun hread
  exact List.append_ne_nil_of_left_ne_nil (h hp hread₁) s₂

theorem takes_sequence_right {p : Parser R α} {q : Parser R β} {f : α → β → γ}
    (h : Takes (q.runWith rules)) : Takes ((sequence p q f).runWith rules) := by
  intro c found e s hrun hread
  obtain ⟨a, d, b, s₁, s₂, -, hq, -, hread₂, rfl⟩ := reads_of_sequence hrules hrun hread
  exact List.append_ne_nil_of_right_ne_nil s₁ (h hq hread₂)

/-- A sequence is steady if what its second part reads may stand behind the
first, or if the second part is one that may as well read nothing. -/
theorem steady_sequence {p : Parser R α} {q : Parser R β} {f : α → β → γ}
    (hp : Steady F (p.runWith rules)) (hq : Steady G (q.runWith rules))
    (hlink : ∀ ⦃c a d b e s rest⦄, p.runWith rules c = .ok (some (a, d)) →
      q.runWith rules d = .ok (some (b, e)) → d.Reads s e →
        F (s ++ rest) ∨ s = [] ∧ ¬ G rest ∧ Total (q.runWith rules)) :
    Steady G ((sequence p q f).runWith rules) := by
  intro c e found s c' rest hrun hread hc'
  obtain ⟨a, d, b, s₁, s₂, hpc, hqd, hread₁, hread₂, rfl⟩ := reads_of_sequence hrules hrun hread
  rw [List.append_assoc] at hc'
  have hagain := hp hpc hread₁ hc'
  have hbehind : F (s₂ ++ rest) ∨ s₂ = [] ∧ ¬ G rest ∧ Total (q.runWith rules) :=
    hlink hpc hqd hread₂
  rw [meets_sequence]
  rcases hbehind with hF | ⟨rfl, hG, htotal⟩
  · refine hagain.mono (fun _ hno => absurd hF hno) False.elim ?_
    intro _ d' hd'
    exact hq hqd hread₂ (hd'.2 hF)
  · refine hagain.mono (fun _ _ => hG) False.elim ?_
    intro _ d' hd'
    apply (htotal d').mono (fun _ _ => hG) id
    rintro _ e' ⟨t, ht⟩
    exact ⟨ht.suffix.trans hd'.1, fun h => absurd h hG⟩

/-- If the second part never fails to match, it is enough that whatever it reads
may stand behind the first. -/
theorem steady_sequence_of_total {p : Parser R α} {q : Parser R β} {f : α → β → γ}
    (hp : Steady F (p.runWith rules)) (hq : Steady G (q.runWith rules))
    (htotal : Total (q.runWith rules)) (hGF : ∀ rest, G rest → F rest)
    (hlink : ∀ ⦃c a d b e s rest⦄, p.runWith rules c = .ok (some (a, d)) →
      q.runWith rules d = .ok (some (b, e)) → d.Reads s e → s = [] ∨ F (s ++ rest)) :
    Steady G ((sequence p q f).runWith rules) := by
  apply steady_sequence hrules hp hq
  intro c a d b e s rest hpc hqd hread
  have hbehind : s = [] ∨ F (s ++ rest) := hlink hpc hqd hread
  rcases hbehind with rfl | hF
  · by_cases hG : G rest
    · exact .inl (hGF rest hG)
    · exact .inr ⟨rfl, hG, htotal⟩
  · exact .inl hF

/-! ## Alternatives -/

omit hrules in
theorem steady_orElse {p q : Parser R α} (hp : Steady F (p.runWith rules))
    (hq : Steady F (q.runWith rules)) (hother : Excludes (p.runWith rules) (q.runWith rules)) :
    Steady F ((orElse p q).runWith rules) := by
  intro c d a s c' rest hrun hread hc'
  rw [runWith_orElse, Outcome.otherwise_eq_some] at hrun
  rw [meets_orElse]
  rcases hrun with hpc | ⟨hnone, hqc⟩
  · exact (hp hpc hread hc').mono (fun _ hF => hF) False.elim fun _ _ hd' => hd'
  · rw [hother hnone hqc hread hc']
    exact hq hqc hread hc'

omit hrules in
theorem exists_mem_of_choiceOf {alternatives : List (Parser R α)} {c : Cursor}
    {found : α × Cursor} (hrun : (choiceOf alternatives).runWith rules c = .ok (some found)) :
    ∃ p ∈ alternatives, p.runWith rules c = .ok (some found) := by
  induction alternatives with
  | nil =>
      rw [runWith_choiceOf_nil] at hrun
      cases hrun
  | cons p more ih =>
      rw [runWith_choiceOf_cons, runWith_orElse, Outcome.otherwise_eq_some] at hrun
      rcases hrun with hp | ⟨-, hmore⟩
      · exact ⟨p, List.mem_cons_self, hp⟩
      · obtain ⟨q, hq, hqc⟩ := ih hmore
        exact ⟨q, List.mem_cons_of_mem p hq, hqc⟩

omit hrules in
/-- A choice fails to match where all alternatives do. -/
theorem forall_mem_of_choiceOf {alternatives : List (Parser R α)} {c : Cursor}
    (hrun : (choiceOf alternatives).runWith rules c = .ok none) :
    ∀ p ∈ alternatives, p.runWith rules c = .ok none := by
  induction alternatives with
  | nil => exact List.forall_mem_nil _
  | cons p more ih =>
      rw [runWith_choiceOf_cons, runWith_orElse] at hrun
      rcases hp : p.runWith rules c with fault | (_ | found)
      · rw [hp] at hrun
        cases hrun
      · rw [hp] at hrun
        exact List.forall_mem_cons.2 ⟨hp, ih hrun⟩
      · rw [hp] at hrun
        cases hrun

omit hrules in
theorem takes_choiceOf {alternatives : List (Parser R α)}
    (h : ∀ p ∈ alternatives, Takes (p.runWith rules)) :
    Takes ((choiceOf alternatives).runWith rules) := by
  intro c a d s hrun hread
  obtain ⟨p, hp, hrun⟩ := exists_mem_of_choiceOf hrun
  exact h p hp hrun hread

omit hrules in
/-- Alternatives of which no two match before the same characters. -/
theorem steady_choiceOf {alternatives : List (Parser R α)}
    (h : ∀ p ∈ alternatives, Steady F (p.runWith rules))
    (hother : alternatives.Pairwise fun p q => Excludes (p.runWith rules) (q.runWith rules)) :
    Steady F ((choiceOf alternatives).runWith rules) := by
  induction alternatives with
  | nil =>
      intro c d a s c' rest hrun
      rw [runWith_choiceOf_nil] at hrun
      cases hrun
  | cons p more ih =>
      rw [List.pairwise_cons] at hother
      have hmore := ih (fun q hq => h q (List.mem_cons_of_mem p hq)) hother.2
      have hexcludes : Excludes (p.runWith rules) ((choiceOf more).runWith rules) := by
        intro c d a s c' rest hnone hrun hread hc'
        obtain ⟨q, hq, hqc⟩ := exists_mem_of_choiceOf hrun
        exact hother.1 q hq hnone hqc hread hc'
      have hboth := steady_orElse (h p List.mem_cons_self) hmore hexcludes
      intro c d a s c' rest hrun hread hc'
      rw [runWith_choiceOf_cons] at hrun ⊢
      exact hboth hrun hread hc'

/-- An optional part reads nothing in front of a rest where it does not match. -/
theorem steady_optional {p : Parser R α} {default : α} (hp : Steady F (p.runWith rules))
    (hstop : ∀ ⦃c d⦄, p.runWith rules d = .ok none → F c.remaining →
      p.runWith rules c = .ok none) :
    Steady F ((Parser.optional p default).runWith rules) := by
  intro c d a s c' rest hrun hread hc'
  rw [Parser.optional, runWith_orElse, Outcome.otherwise_eq_some] at hrun
  rw [Parser.optional, meets_orElse, meets_success]
  rcases hrun with hpc | ⟨hnone, hsuccess⟩
  · exact (hp hpc hread hc').mono (fun _ hF => hF) False.elim fun _ _ hd' => hd'
  · cases hsuccess
    obtain rfl := hread.eq_of_reads (.nil c)
    rw [List.nil_append] at hc'
    have hhere : c'.remaining <:+ rest ∧ (F rest → c'.remaining = rest) :=
      ⟨hc' ▸ List.suffix_rfl, fun _ => hc'⟩
    by_cases hF : F rest
    · rw [hstop hnone (hc' ▸ hF)]
      exact hhere
    · refine ((moves_runWith hrules p).suffix c').mono (fun _ _ => hF) (fun _ => hhere) ?_
      intro _ d' hd'
      exact ⟨hc' ▸ hd', fun h => absurd h hF⟩

omit hrules in
theorem total_map {p : Parser R α} (h : Total (p.runWith rules)) (f : α → β) :
    Total ((map p f).runWith rules) := by
  intro c
  rw [meets_map]
  exact h c

/-! ## Repetition -/

omit hrules in
theorem rounds_of_many {p : Parser R α} {c d : Cursor} {tokens : List α}
    (hrun : (many p).runWith rules c = .ok (some (tokens, d))) :
    Rounds (p.runWith rules) c tokens d := by
  have hmeets : ((many p).runWith rules c).Meets (fun _ => True) True fun tokens d =>
      Rounds (p.runWith rules) c tokens d := by
    -- What is found so far stands in front of any rounds that come.
    apply meets_many_of_rounds p (fun tokens d => ∀ more e, Rounds (p.runWith rules) d more e →
      Rounds (p.runWith rules) c (tokens ++ more) e) fun _ _ h => h
    intro tokens d hI
    rcases hround : p.runWith rules d with fault | (_ | ⟨a, e⟩)
    · trivial
    · have hall := hI [] d (.stop hround)
      rwa [List.append_nil] at hall
    · by_cases hlt : e.left < d.left
      · simp only [Outcome.Meets, if_pos hlt]
        intro more e' hmore
        rw [List.append_assoc]
        exact hI _ _ (.next hround hlt hmore)
      · simp only [Outcome.Meets, if_neg hlt]
  rwa [hrun] at hmeets

/-- What a repetition reads, if anything, is first what its parser reads. -/
theorem reads_of_many {p : Parser R α} {c d : Cursor} {tokens : List α} {s : List Char}
    (hrun : (many p).runWith rules c = .ok (some (tokens, d))) (hread : c.Reads s d) :
    s = [] ∨ ∃ a e t u, p.runWith rules c = .ok (some (a, e)) ∧ c.Reads t e ∧ s = t ++ u := by
  cases rounds_of_many hrun with
  | stop _ => exact .inl (hread.eq_of_reads (.nil c))
  | @next _ e _ a _ h _ more =>
      obtain ⟨t, ht⟩ := (moves_runWith hrules p).reaches h
      obtain ⟨u, hu⟩ := more.reaches (moves_runWith hrules p)
      exact .inr ⟨a, e, t, u, h, ht, hread.eq_of_reads (ht.append hu)⟩

theorem total_many {p : Parser R α} : Total ((many p).runWith rules) := by
  intro c
  apply meets_many_of_rounds p (fun _ d => c.Reaches d) (.refl c)
  intro tokens d hd
  apply ((moves_runWith hrules p).after hd).mono (fun _ hF => hF) fun _ => hd
  intro a e he
  split
  · exact he
  · trivial

/-- A repetition reads the same rounds again.  Each round must be such that the
next one may stand behind it. -/
theorem steady_many {p : Parser R α} (hp : Steady F (p.runWith rules))
    (htakes : Takes (p.runWith rules)) (hGF : ∀ rest, G rest → F rest)
    (hlink : ∀ ⦃c a d b e s rest⦄, p.runWith rules c = .ok (some (a, d)) →
      p.runWith rules d = .ok (some (b, e)) → d.Reads s e → F (s ++ rest))
    (hstop : ∀ ⦃c d⦄, p.runWith rules d = .ok none → G c.remaining →
      p.runWith rules c = .ok none) :
    Steady G ((many p).runWith rules) := by
  intro c d tokens s c' rest hrun hread hc'
  have hmoves := moves_runWith hrules p
  have hadvances := htakes.advances hmoves
  refine meets_many_of_invariant p (fun _ e => Underway (p.runWith rules) G d rest e)
    (.inl ⟨c, tokens, s, rounds_of_many hrun, hread, hc'⟩) fun found e hI => ?_
  have hentered : ¬ G rest → e.remaining <:+ rest → (p.runWith rules e).Meets
      (fun _ => ¬ G rest) (e.remaining <:+ rest ∧ (G rest → e.remaining = rest)) fun _ e' =>
        e'.left < e.left ∧ Underway (p.runWith rules) G d rest e' := by
    intro hG he
    have hboth := (hmoves.suffix e).and (hadvances e)
    apply hboth.mono (fun _ _ => hG) fun _ => ⟨he, fun h => absurd h hG⟩
    intro _ e' he'
    exact ⟨he'.2, .inr ⟨hG, he'.1.trans he⟩⟩
  rcases hI with ⟨x, todo, t, hrounds, hreads, he⟩ | ⟨hG, he⟩
  · cases hrounds with
    | stop hnone =>
        obtain rfl := hreads.eq_of_reads (.nil d)
        rw [List.nil_append] at he
        by_cases hG : G rest
        · rw [hstop hnone (he ▸ hG)]
          exact ⟨he ▸ List.suffix_rfl, fun _ => he⟩
        · exact hentered hG (he ▸ List.suffix_rfl)
    | @next _ y _ a more hround _ hmore =>
        obtain ⟨s₁, hread₁⟩ := hmoves.reaches hround
        obtain ⟨s₂, hread₂⟩ := hmore.reaches hmoves
        obtain rfl := hreads.eq_of_reads (hread₁.append hread₂)
        rw [List.append_assoc] at he
        have hagain := (hp hround hread₁ he).and (hadvances e)
        have hbehind : F (s₂ ++ rest) ∨ s₂ = [] ∧ ¬ G rest := by
          rcases hmore.eq_nil_or_follows hmoves hlink hround hread₂ rest with rfl | hF
          · exact (Classical.em (G rest)).imp (hGF rest) fun hG => ⟨rfl, hG⟩
          · exact .inl hF
        rcases hbehind with hF | ⟨rfl, hG⟩
        · apply hagain.mono (fun _ h => absurd hF h.1) fun h => h.1.elim
          intro _ e' he'
          exact ⟨he'.2, .inl ⟨y, more, s₂, hmore, hread₂, he'.1.2 hF⟩⟩
        · apply hagain.mono (fun _ _ => hG) fun h => h.1.elim
          intro _ e' he'
          exact ⟨he'.2, .inr ⟨hG, he'.1.1⟩⟩
  · exact hentered hG he

/-- The longest run of a class of characters. -/
theorem steady_many_satisfy (k : Char → Bool) :
    Steady (Stops k) ((many (satisfy k) : Parser R (List Char)).runWith rules) := by
  have htakes : Takes ((satisfy k : Parser R Char).runWith rules) := by
    intro c a d s hrun hread
    obtain ⟨ch, rfl, -⟩ := reads_of_satisfy hrun hread
    exact List.cons_ne_nil ch []
  apply steady_many hrules (steady_satisfy k) htakes (F := fun _ => True) (fun _ _ => trivial)
  · intros
    trivial
  · intro c d _ hstops
    apply Outcome.Meets.eq_none
    apply meets_satisfy k (fun _ => trivial)
    intro ch d hread hk
    rw [hread.remaining_eq, List.singleton_append, stops_cons, hk] at hstops
    exact absurd hstops (by simp)

end Moving

end Parser

end ParserKit
