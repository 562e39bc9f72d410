import ParserKit.Proofs.Steady

/-!
# Tokens read again

What a token may be is told by the first character that is no blank.  A parser
that starts with the characters of a class matches nowhere else, so of two
parsers with disjoint classes one does not match where the other one does.

A token takes the blanks behind it, so the next token stands where it ends.
This makes tokens steady in front of what neither goes on with them nor begins
with a blank.
-/

namespace ParserKit

open CharClass

/-- Behind any blanks stands a character of the class `k`. -/
inductive Leads (k : Char → Bool) : List Char → Prop
  | here {ch : Char} {s : List Char} (hk : k ch = true) (hspace : isSpace ch = false) :
      Leads k (ch :: s)
  | behind {ch : Char} {s : List Char} (hspace : isSpace ch = true) (more : Leads k s) :
      Leads k (ch :: s)

variable {k k' : Char → Bool} {s t blanks : List Char} {α β γ : Type}

theorem Leads.append (h : Leads k s) (t : List Char) : Leads k (s ++ t) := by
  induction h with
  | here hk hspace => exact .here hk hspace
  | behind hspace _ ih => exact .behind hspace ih

theorem Leads.blank_append (hblank : Blank blanks) (h : Leads k s) : Leads k (blanks ++ s) := by
  induction blanks with
  | nil => exact h
  | cons ch more ih =>
      exact .behind (hblank ch List.mem_cons_self)
        (ih fun x hx => hblank x (List.mem_cons_of_mem ch hx))

theorem Leads.ne_nil (h : Leads k s) : s ≠ [] := by
  cases h <;> exact List.cons_ne_nil _ _

/-- One character cannot be of two classes that have none in common. -/
theorem Leads.exists_common (h : Leads k s) (h' : Leads k' s) :
    ∃ ch, k ch = true ∧ k' ch = true := by
  induction h with
  | @here ch s hk hspace =>
      cases h' with
      | here hk' _ => exact ⟨ch, hk, hk'⟩
      | behind hblank _ => exact absurd hblank (by simp [hspace])
  | behind hblank _ ih =>
      cases h' with
      | here _ hspace => exact absurd hblank (by simp [hspace])
      | behind _ more => exact ih more

/-- Where no blank stands, the character is the first one. -/
theorem Leads.exists_cons (h : Leads k s) (hstops : Stops isSpace (s ++ t)) :
    ∃ ch more, s = ch :: more ∧ k ch = true := by
  cases h with
  | here hk _ => exact ⟨_, _, rfl, hk⟩
  | behind hspace _ =>
      rw [List.cons_append, stops_cons, hspace] at hstops
      exact absurd hstops (by simp)

/-- Before something that is read, no blank stands there alone. -/
theorem Stops.append_of_ne_nil (h : Stops k (s ++ t)) (hs : s ≠ []) (rest : List Char) :
    Stops k (s ++ rest) := by
  cases s with
  | nil => exact absurd rfl hs
  | cons ch more =>
      rw [List.cons_append, stops_cons] at h ⊢
      exact h

/-- A run that is read to its end again stops no sooner than it did. -/
theorem Run.suffix_of_append {r r' : List Char} (hs : Run k s)
    (ht : Run k t) (hr' : Stops k r') (h : s ++ r = t ++ r') :
    r' <:+ r ∧ (Stops k r → r' = r) := by
  refine ⟨?_, fun hr => (hs.append_inj ht hr hr' h).2.symm⟩
  rcases List.append_eq_append_iff.1 h with ⟨u, -, hu⟩ | ⟨u, hu, hu'⟩
  · exact ⟨u, hu.symm⟩
  · have hrun : Run k u := fun ch hch => hs ch (hu ▸ List.mem_append_right t hch)
    obtain rfl := hrun.eq_nil_of_stops (hu' ▸ hr')
    exact hu' ▸ List.suffix_rfl

/-- The step matches only where, behind any blanks, a character of the class
`k` stands, and reads this character. -/
structure StartsWith (k : Char → Bool) (step : Cursor → Outcome α) : Prop where
  leads : ∀ ⦃c a d s⦄, step c = .ok (some (a, d)) → c.Reads s d → Leads k s
  eq_none : ∀ ⦃c⦄, ¬ Leads k c.remaining → step c = .ok none

theorem StartsWith.takes {step : Cursor → Outcome α} (h : StartsWith k step) : Takes step :=
  fun _ _ _ _ hrun hread => (h.leads hrun hread).ne_nil

/-- No blank stands where the step ends. -/
def Tight (step : Cursor → Outcome α) : Prop :=
  ∀ c, (step c).Meets (fun _ => True) True fun _ d => Stops isSpace d.remaining

theorem Tight.stops {step : Cursor → Outcome α} (h : Tight step) {c d : Cursor} {a : α}
    (hrun : step c = .ok (some (a, d))) : Stops isSpace d.remaining := by
  have hmeets := h c
  rwa [hrun] at hmeets

/-- The classes have no character in common. -/
def Apart (k k' : Char → Bool) : Prop := ∀ ch, k ch = true → k' ch = false

theorem Apart.symm (h : Apart k k') : Apart k' k := by
  intro ch hk'
  refine Bool.eq_false_iff.2 fun hk => ?_
  rw [h ch hk] at hk'
  exact absurd hk' (by simp)

theorem apart_char {x : Char} (hx : k x = false) : Apart (· == x) k := by
  intro ch hch
  rwa [eq_of_beq hch]

/-- The two steps start with characters of classes that have none in common. -/
def StartApart (step step' : Cursor → Outcome α) : Prop :=
  ∃ k k', StartsWith k step ∧ StartsWith k' step' ∧ Apart k k'

theorem StartsWith.apart {step step' : Cursor → Outcome α} (h : StartsWith k step)
    (h' : StartsWith k' step') (hapart : Apart k k') : StartApart step step' :=
  ⟨k, k', h, h', hapart⟩

/-- What begins with a character of one class does not begin with one of the other. -/
theorem Leads.not_of_apart (h : Leads k' s) (hapart : Apart k k') : ¬ Leads k s := by
  intro hleads
  obtain ⟨ch, hk, hk'⟩ := hleads.exists_common h
  rw [hapart ch hk] at hk'
  exact absurd hk' (by simp)

/-- Of two parsers that start in different ways one fails to match. -/
theorem StartApart.eq_none_or {step step' : Cursor → Outcome α} (h : StartApart step step')
    (c : Cursor) : step c = .ok none ∨ step' c = .ok none := by
  obtain ⟨k, k', h, h', hapart⟩ := h
  by_cases hleads : Leads k' c.remaining
  · exact .inl (h.eq_none (hleads.not_of_apart hapart))
  · exact .inr (h'.eq_none hleads)

namespace Parser

variable {R : Type → Type} {rules : Rules R}

theorem startsWith_satisfy (hk : ∀ ch, k ch = true → isSpace ch = false) :
    StartsWith k ((satisfy k : Parser R Char).runWith rules) := by
  constructor
  · intro c a d s hrun hread
    obtain ⟨ch, rfl, hch⟩ := reads_of_satisfy hrun hread
    exact .here hch (hk ch hch)
  · intro c hleads
    apply Outcome.Meets.eq_none
    apply meets_satisfy k (fun _ => trivial)
    intro ch d hread hch
    apply hleads
    rw [hread.remaining_eq]
    exact .here hch (hk ch hch)

theorem startsWith_literal {ch : Char} {text : String} (htext : text.toList = [ch])
    (hspace : isSpace ch = false) :
    StartsWith (· == ch) ((literal text : Parser R String).runWith rules) := by
  have hleads : ∀ s, Leads (· == ch) (text.toList ++ s) := by
    intro s
    rw [htext]
    exact .here (beq_self_eq_true ch) hspace
  constructor
  · intro c a d s hrun hread
    obtain rfl := reads_of_literal hrun hread
    rw [← List.append_nil text.toList]
    exact hleads []
  · intro c hno
    apply Outcome.Meets.eq_none
    apply meets_literal text (fun _ => trivial)
    intro d hread
    exact hno (hread.remaining_eq ▸ hleads d.remaining)

theorem reads_of_nat {c d : Cursor} {n : Nat} {s : List Char}
    (hrun : (nat : Parser R Nat).runWith rules c = .ok (some (n, d))) (hread : c.Reads s d) :
    s ≠ [] ∧ Run isDigit s ∧ s.length ≤ Decimal.digitLimit := by
  have hmeets : ((nat : Parser R Nat).runWith rules c).Meets (fun _ => True) True fun _ d =>
      ∃ run, c.Reads run d ∧ run ≠ [] ∧ Run isDigit run ∧ run.length ≤ Decimal.digitLimit :=
    meets_nat (fun _ => trivial) (fun _ _ _ _ _ _ => trivial)
      fun run d hd hne hdigits _ hshort => ⟨run, hd, hne, hdigits, hshort⟩
  rw [hrun] at hmeets
  obtain ⟨run, hd, hfound⟩ := hmeets
  rwa [hread.eq_of_reads hd]

theorem startsWith_nat : StartsWith isDigit ((nat : Parser R Nat).runWith rules) := by
  have hleads : ∀ {run : List Char} (s), run ≠ [] → Run isDigit run → Leads isDigit (run ++ s) := by
    intro run s hne hrun
    cases run with
    | nil => exact absurd rfl hne
    | cons ch more =>
        have hdigit := hrun ch List.mem_cons_self
        exact .here hdigit (isSpace_eq_false_of_isAlphanum (by simp [isAlphanum, hdigit]))
  constructor
  · intro c a d s hrun hread
    obtain ⟨hne, hdigits, -⟩ := reads_of_nat hrun hread
    rw [← List.append_nil s]
    exact hleads [] hne hdigits
  · intro c hno
    apply Outcome.Meets.eq_none
    refine meets_nat (fun _ => trivial) (fun run d hread hrun _ hlong => hno ?_)
      fun run d hread hne hrun _ _ => hno (hread.remaining_eq ▸ hleads _ hne hrun)
    refine hread.remaining_eq ▸ hleads _ (fun hnil => ?_) hrun
    rw [hnil] at hlong
    exact absurd hlong (by simp)

theorem reads_of_space {c d : Cursor} {a : Unit} {s : List Char}
    (hrun : (space : Parser R Unit).runWith rules c = .ok (some (a, d))) (hread : c.Reads s d) :
    Blank s := by
  have hmeets : ((space : Parser R Unit).runWith rules c).Meets (fun _ => True) True
      fun _ d => ∃ t, c.Reads t d ∧ Blank t :=
    meets_space fun t d ht hblank _ => ⟨t, ht, hblank⟩
  rw [hrun] at hmeets
  obtain ⟨t, ht, hblank⟩ := hmeets
  rwa [hread.eq_of_reads ht]

theorem startsWith_map {p : Parser R α} (h : StartsWith k (p.runWith rules)) (f : α → β) :
    StartsWith k ((map p f).runWith rules) := by
  constructor
  · intro c b d s hrun hread
    obtain ⟨a, hp⟩ := exists_of_map hrun
    exact h.leads hp hread
  · intro c hno
    rw [runWith_map, h.eq_none hno]
    rfl

theorem startsWith_withLocation {p : Parser R α} (h : StartsWith k (p.runWith rules)) :
    StartsWith k ((withLocation p).runWith rules) := by
  constructor
  · intro c b d s hrun hread
    obtain ⟨a, hp⟩ := exists_of_withLocation hrun
    exact h.leads hp hread
  · intro c hno
    rw [runWith_withLocation, h.eq_none hno]
    rfl

section Moving

variable (hrules : ∀ {β : Type} (r : R β), Moves (rules r))

include hrules

theorem startsWith_sequence {p : Parser R α} {q : Parser R β} {f : α → β → γ}
    (h : StartsWith k (p.runWith rules)) : StartsWith k ((sequence p q f).runWith rules) := by
  constructor
  · intro c found e s hrun hread
    obtain ⟨a, d, b, s₁, s₂, hp, -, hread₁, -, rfl⟩ := reads_of_sequence hrules hrun hread
    exact (h.leads hp hread₁).append s₂
  · intro c hno
    rw [runWith_sequence, h.eq_none hno]
    rfl

/-- Blanks in front of a token do not count. -/
theorem startsWith_token {p : Parser R α} (h : StartsWith k (p.runWith rules)) :
    StartsWith k ((token p).runWith rules) := by
  apply startsWith_sequence hrules
  constructor
  · intro c found e s hrun hread
    obtain ⟨_, d, a, s₁, s₂, hspace, hp, hread₁, hread₂, rfl⟩ :=
      reads_of_sequence hrules hrun hread
    exact (h.leads hp hread₂).blank_append (reads_of_space hspace hread₁)
  · intro c hno
    apply Outcome.Meets.eq_none
    rw [discardLeft, meets_sequence]
    apply meets_space
    intro blanks d hblanks hblank _
    rw [h.eq_none fun hleads => hno (hblanks.remaining_eq ▸ hleads.blank_append hblank)]
    trivial

/-! ## Blanks -/

theorem steady_space : Steady (Stops isSpace) ((space : Parser R Unit).runWith rules) :=
  steady_map (steady_many_satisfy hrules isSpace) _

theorem total_space : Total ((space : Parser R Unit).runWith rules) :=
  total_map (total_many hrules) _

omit hrules in
theorem tight_space : Tight ((space : Parser R Unit).runWith rules) :=
  fun _ => meets_space fun _ _ _ _ hstops => hstops

omit hrules in
theorem tight_sequence (p : Parser R α) {q : Parser R β} {f : α → β → γ}
    (h : Tight (q.runWith rules)) : Tight ((sequence p q f).runWith rules) := by
  intro c
  rw [meets_sequence]
  rcases p.runWith rules c with fault | (_ | ⟨a, d⟩)
  · trivial
  · trivial
  · exact h d

omit hrules in
theorem tight_map {p : Parser R α} (h : Tight (p.runWith rules)) (f : α → β) :
    Tight ((map p f).runWith rules) := by
  intro c
  rw [meets_map]
  exact h c

omit hrules in
theorem tight_withLocation {p : Parser R α} (h : Tight (p.runWith rules)) :
    Tight ((withLocation p).runWith rules) := by
  intro c
  rw [meets_withLocation]
  exact h c

omit hrules in
theorem tight_choiceOf {alternatives : List (Parser R α)}
    (h : ∀ p ∈ alternatives, Tight (p.runWith rules)) :
    Tight ((choiceOf alternatives).runWith rules) :=
  fun c => meets_choiceOf alternatives trivial fun p hp => h p hp c

omit hrules in
theorem tight_token (p : Parser R α) : Tight ((token p).runWith rules) :=
  tight_sequence _ tight_space

/-- Behind a parser that takes the blanks, one that reads something begins at
once. -/
theorem steady_behind {p : Parser R α} {q : Parser R β}
    (hp : Steady (Stops isSpace) (p.runWith rules)) (htight : Tight (p.runWith rules))
    (hq : Steady F (q.runWith rules)) (htakes : Takes (q.runWith rules)) :
    Steady F ((discardLeft p q).runWith rules) := by
  apply steady_sequence hrules hp hq
  intro c a d b e s rest hrun hrun' hread
  have hstops : Stops isSpace (s ++ e.remaining) := hread.remaining_eq ▸ htight.stops hrun
  exact .inl (hstops.append_of_ne_nil (htakes hrun' hread) rest)

/-- A token that a blank ends. -/
theorem steady_token {p : Parser R α} (hp : Steady F (p.runWith rules))
    (htakes : Takes (p.runWith rules)) (hblank : ∀ ch rest, isSpace ch = true → F (ch :: rest)) :
    Steady (fun rest => Stops isSpace rest ∧ F rest) ((token p).runWith rules) := by
  have hfront := steady_behind hrules (steady_space hrules) tight_space hp htakes
  apply steady_sequence_of_total hrules hfront ((steady_space hrules).mono fun _ h => h.1)
    (total_space hrules) fun _ h => h.2
  intro c a d b e s rest _ hrun hread
  cases s with
  | nil => exact .inl rfl
  | cons ch more => exact .inr (hblank ch _ (reads_of_space hrun hread ch List.mem_cons_self))

/-! ## Words -/

theorem startsWith_symbol {ch : Char} (hspace : isSpace ch = false) :
    StartsWith (· == ch) ((symbol (String.singleton ch) : Parser R String).runWith rules) :=
  startsWith_token hrules (startsWith_literal (String.toList_singleton ch) hspace)

omit hrules in
/-- A number is ended by any character that is no digit.  Digits behind it may
make it too long. -/
theorem steady_nat : Steady (Stops isDigit) ((nat : Parser R Nat).runWith rules) := by
  intro c d n s c' rest hrun hread hc'
  obtain ⟨hne, hdigits, hshort⟩ := reads_of_nat hrun hread
  refine meets_nat (fun hstops => ?_) (fun run' d' hd' hdigits' hstops hlong hrest => ?_)
    fun run' d' hd' _ hdigits' hstops _ => ?_
  · exact hne (hdigits.eq_nil_of_stops (hc' ▸ hstops))
  · obtain ⟨rfl, -⟩ := hdigits.append_inj hdigits' hrest hstops (hc' ▸ hd'.remaining_eq)
    omega
  · exact hdigits.suffix_of_append hdigits' hstops (hc' ▸ hd'.remaining_eq)

theorem startsWith_ident : StartsWith isLetter ((ident : Parser R String).runWith rules) := by
  apply startsWith_sequence hrules
  apply startsWith_satisfy (k := isLetter)
  intro ch hletter
  exact isSpace_eq_false_of_isAlphanum (by simp [isAlphanum, hletter])

end Moving

end Parser

end ParserKit
