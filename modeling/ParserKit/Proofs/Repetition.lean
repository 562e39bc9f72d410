import ParserKit.Proofs.Guarded

/-!
# What a repetition takes

A repetition runs its parser round after round, up to the first cursor from
which the parser does not move on.  `Repeats` describes the rounds up to there,
and what the parser does at the last cursor decides what the repetition answers.
Of a parser that moves on with every success, the loop is the only solution of
the equation by which a repetition is defined recursively.
-/

namespace ParserKit

variable {α : Type} {step : Cursor → Outcome α} {c d : Cursor} {tokens : List α}

/-- Rounds one behind the other, each of which takes some character. -/
inductive Repeats (step : Cursor → Outcome α) : Cursor → List α → Cursor → Prop
  | nil (c : Cursor) : Repeats step c [] c
  | cons {c d e : Cursor} {a : α} {tokens : List α} (first : step c = .ok (some (a, d)))
      (hlt : c.offset < d.offset) (more : Repeats step d tokens e) :
      Repeats step c (a :: tokens) e

/-- The step does not move on from the cursor. -/
def Halts (step : Cursor → Outcome α) (c : Cursor) : Prop :=
  ∀ a d, step c = .ok (some (a, d)) → d = c

theorem Cursor.Reaches.left_lt (h : c.Reaches d) (hlt : c.offset < d.offset) :
    d.left < c.left := by
  obtain ⟨s, hread⟩ := h
  have hleft := hread.left_eq
  have hoffset := hread.offset_eq
  omega

theorem Cursor.Reaches.offset_lt (h : c.Reaches d) (hne : d ≠ c) : c.offset < d.offset := by
  obtain ⟨s, hread⟩ := h
  cases hread with
  | nil => exact absurd rfl hne
  | cons first more => exact Cursor.Passes.offset_lt ⟨_, _, .cons first more⟩

/-- Each round leaves less of the text. -/
theorem Repeats.length_le (hmoves : Moves step) (h : Repeats step c tokens d) :
    tokens.length + d.left ≤ c.left := by
  induction h with
  | nil c => simp
  | cons first hlt _ ih =>
      have hleft := (hmoves.reaches first).left_lt hlt
      rw [List.length_cons]
      omega

theorem exists_repeats (hmoves : Moves step) (c : Cursor) :
    ∃ tokens d, Repeats step c tokens d ∧ Halts step d := by
  -- On what is left of the text: a round that moves on leaves less.
  induction hleft : c.left using Nat.strong_induction_on generalizing c with
  | _ left ih =>
      by_cases hhalts : Halts step c
      · exact ⟨[], c, .nil c, hhalts⟩
      · obtain ⟨a, d, first, hne⟩ : ∃ a d, step c = .ok (some (a, d)) ∧ d ≠ c := by
          simpa [Halts] using hhalts
        have hreaches := hmoves.reaches first
        have hlt := hreaches.offset_lt hne
        obtain ⟨tokens, e, hmore, hend⟩ := ih d.left (hleft ▸ hreaches.left_lt hlt) d rfl
        exact ⟨a :: tokens, e, .cons first hlt hmore, hend⟩

/-! ## The loop -/

/-- The loop goes through the rounds and on from there. -/
theorem repeatFrom_of_repeats (hmoves : Moves step) {more : List α} (h : Repeats step c more d)
    (tokens : List α) : repeatFrom step tokens c = repeatFrom step (more.reverse ++ tokens) d := by
  induction h generalizing tokens with
  | nil c => rfl
  | @cons c d e a more first hlt _ ih =>
      have hleft := (hmoves.reaches first).left_lt hlt
      rw [repeatFrom, first]
      simp only [if_pos hleft]
      rw [ih, List.reverse_cons, List.append_assoc, List.singleton_append]

/-- What a repetition answers that has found `tokens` and halts. -/
def Outcome.closing (o : Outcome α) (tokens : List α) (d : Cursor) :
    Except Fault (List α × Cursor) :=
  match o with
  | .error fault => .error fault
  | .ok none => .ok (tokens, d)
  | .ok (some _) => .error (.emptyRepetition d.location)

theorem repeatFrom_of_halts (h : Halts step d) (tokens : List α) :
    repeatFrom step tokens d = (step d).closing tokens.reverse d := by
  rw [repeatFrom]
  rcases hstep : step d with fault | (_ | ⟨a, e⟩)
  · rfl
  · rfl
  · rw [h a e hstep]
    simp only [Nat.lt_irrefl, if_false, Outcome.closing]

theorem repeatFrom_nil (hmoves : Moves step) (h : Repeats step c tokens d)
    (hhalts : Halts step d) : repeatFrom step [] c = (step d).closing tokens d := by
  rw [repeatFrom_of_repeats hmoves h, List.append_nil, repeatFrom_of_halts hhalts,
    List.reverse_reverse]

namespace Parser

variable {R : Type → Type} {rules : Rules R} {p : Parser R α}

theorem runWith_oneOrMore_of_repeats (hmoves : Moves (p.runWith rules))
    (h : Repeats (p.runWith rules) c tokens d) (hhalts : Halts (p.runWith rules) d) :
    (oneOrMore p).runWith rules c =
      ((p.runWith rules d).closing tokens d).map fun found =>
        if found.1 = [] then none else some found := by
  simp only [runWith, repeatOutcome, repeatFrom_nil hmoves h hhalts]
  rcases (p.runWith rules d).closing tokens d with fault | ⟨_ | ⟨a, more⟩, e⟩ <;> rfl

/-- The empty list of tokens takes the place of the failure, at the same cursor. -/
theorem runWith_many_of_repeats (hmoves : Moves (p.runWith rules))
    (h : Repeats (p.runWith rules) c tokens d) (hhalts : Halts (p.runWith rules) d) :
    (many p).runWith rules c = ((p.runWith rules d).closing tokens d).map some := by
  rw [many, runWith_orElse, runWith_oneOrMore_of_repeats hmoves h hhalts]
  rcases p.runWith rules d with fault | (_ | ⟨a, e⟩)
  · rfl
  · cases h with
    | nil => simp [Outcome.closing, Outcome.otherwise, Except.map, runWith]
    | cons _ _ _ => simp [Outcome.closing, Outcome.otherwise, Except.map]
  · rfl

/-- A repetition defined recursively: the step and then the repetition, or else
no tokens at all. -/
def Unrolls (step : Cursor → Outcome α) (loop : Cursor → Outcome (List α)) : Prop :=
  ∀ c, loop c =
    Outcome.otherwise
      ((step c).andThen fun a d =>
        (loop d).andThen fun tokens e => .ok (some (a :: tokens, e)))
      (.ok (some ([], c)))

theorem unrolls_many (hmoves : Moves (p.runWith rules)) :
    Unrolls (p.runWith rules) ((many p).runWith rules) := by
  intro c
  obtain ⟨tokens, e, h, hhalts⟩ := exists_repeats hmoves c
  rw [runWith_many_of_repeats hmoves h hhalts]
  cases h with
  | nil =>
      -- A success that stays in place is refused again by the repetition behind it.
      have hagain := runWith_many_of_repeats hmoves (.nil c) hhalts
      rcases hstep : p.runWith rules c with fault | (_ | ⟨a, d⟩)
      · rfl
      · rfl
      · rw [hstep] at hagain
        simp only [Outcome.andThen, hhalts a d hstep, hagain]
        rfl
  | @cons _ d _ a more first hlt hmore =>
      rw [first]
      simp only [Outcome.andThen, runWith_many_of_repeats hmoves hmore hhalts]
      rcases p.runWith rules e with fault | (_ | ⟨b, e'⟩) <;> rfl

/-- Where every success takes some character, only one repetition unrolls. -/
theorem Unrolls.unique {step : Cursor → Outcome α} (hmoves : Moves step)
    (hconsumes : ∀ c a d, step c = .ok (some (a, d)) → c.offset < d.offset)
    {loop loop' : Cursor → Outcome (List α)} (h : Unrolls step loop) (h' : Unrolls step loop')
    (c : Cursor) : loop c = loop' c := by
  induction hleft : c.left using Nat.strong_induction_on generalizing c with
  | _ left ih =>
      rw [h c, h' c]
      rcases hstep : step c with fault | (_ | ⟨a, d⟩)
      · rfl
      · rfl
      · have hlt := (hmoves.reaches hstep).left_lt (hconsumes c a d hstep)
        simp only [Outcome.andThen, ih d.left (hleft ▸ hlt) d rfl]

/-- A repetition takes all the rounds that move on, and its parser decides at
the cursor behind them: it fails, and the tokens are the answer; or it succeeds
and stays there, or gives up, and that is a fault for the repetition as well.
If the parser moves on with every success, then every recursive definition of
the repetition agrees with it. -/
theorem repetition_takes_longest_run (grammar : Grammar R) (depth : Nat) (p : Parser R α) :
    (∀ c, ∃ tokens d, Repeats (p.runWith (Grammar.rule grammar depth)) c tokens d ∧
      tokens.length ≤ c.remaining.length ∧
      match p.runWith (Grammar.rule grammar depth) d with
      | .ok none =>
          (many p).runWith (Grammar.rule grammar depth) c = .ok (some (tokens, d)) ∧
          (oneOrMore p).runWith (Grammar.rule grammar depth) c =
            .ok (if tokens = [] then none else some (tokens, d))
      | .ok (some (_, e)) =>
          e = d ∧
          (many p).runWith (Grammar.rule grammar depth) c =
            .error (.emptyRepetition d.location) ∧
          (oneOrMore p).runWith (Grammar.rule grammar depth) c =
            .error (.emptyRepetition d.location)
      | .error fault =>
          (many p).runWith (Grammar.rule grammar depth) c = .error fault ∧
          (oneOrMore p).runWith (Grammar.rule grammar depth) c = .error fault) ∧
    Unrolls (p.runWith (Grammar.rule grammar depth))
      ((many p).runWith (Grammar.rule grammar depth)) ∧
    ((∀ c a d, p.runWith (Grammar.rule grammar depth) c = .ok (some (a, d)) →
        c.offset < d.offset) →
      ∀ loop, Unrolls (p.runWith (Grammar.rule grammar depth)) loop →
        ∀ c, (many p).runWith (Grammar.rule grammar depth) c = loop c) := by
  have hmoves : Moves (p.runWith (Grammar.rule grammar depth)) :=
    moves_runWith (moves_rule grammar depth) p
  refine ⟨fun c => ?_, unrolls_many hmoves, fun hconsumes loop hloop =>
    (unrolls_many hmoves).unique hmoves hconsumes hloop⟩
  obtain ⟨tokens, d, h, hhalts⟩ := exists_repeats hmoves c
  have hlength : tokens.length ≤ c.remaining.length := by
    have := h.length_le hmoves
    rw [← Cursor.left_eq_length_remaining]
    omega
  have hmany := runWith_many_of_repeats hmoves h hhalts
  have hone := runWith_oneOrMore_of_repeats hmoves h hhalts
  refine ⟨tokens, d, h, hlength, ?_⟩
  rcases hstep : p.runWith (Grammar.rule grammar depth) d with fault | (_ | ⟨a, e⟩) <;>
    rw [hstep] at hmany hone
  · exact ⟨hmany, hone⟩
  · exact ⟨hmany, hone⟩
  · exact ⟨hhalts a e hstep, hmany, hone⟩

/-- All characters that remain, and the cursor behind them. -/
def takeRest (c : Cursor) : List Char × Cursor :=
  match _hstep : c.advance with
  | none => ([], c)
  | some (ch, d) => (ch :: (takeRest d).1, (takeRest d).2)
termination_by c.left
decreasing_by all_goals exact Cursor.left_lt_of_advance _hstep

theorem unrolls_takeRest : Unrolls (fun c => .ok c.advance) fun c => .ok (some (takeRest c)) := by
  intro c
  rcases hstep : c.advance with _ | ⟨ch, d⟩
  · have hrest : takeRest c = ([], c) := by
      rw [takeRest]
      split <;> simp_all
    simp only [hrest, hstep, Outcome.andThen, Outcome.otherwise]
  · have hrest : takeRest c = (ch :: (takeRest d).1, (takeRest d).2) := by
      rw [takeRest]
      split <;> simp_all
    simp only [hrest, hstep, Outcome.andThen, Outcome.otherwise]

/-- Any character, as often as there is one. -/
theorem repetition_takes_longest_run_item :
    (∀ (c d : Cursor) (ch : Char), (item : Parser NoRule Char).run c = .ok (some (ch, d)) →
        c.offset < d.offset) ∧
      (many item : Parser NoRule (List Char)).run (.start "ab") =
        .ok (some (takeRest (.start "ab"))) ∧
      takeRest (.start "ab") = (['a', 'b'], ⟨#['a', 'b'], 2, ⟨1, 3⟩⟩) := by
  have hconsumes : ∀ (c : Cursor) (ch : Char) (d : Cursor),
      (item : Parser NoRule Char).run c = .ok (some (ch, d)) → c.offset < d.offset := by
    intro c ch d hrun
    have hstep : c.advance = some (ch, d) := by simpa [Parser.run, Grammar.run, runWith] using hrun
    rw [Cursor.eq_of_advance hstep]
    exact Nat.lt_succ_self c.offset
  have hunrolls : Unrolls (item : Parser NoRule Char).run fun c => .ok (some (takeRest c)) := by
    intro c
    simpa only [Parser.run, Grammar.run, runWith] using unrolls_takeRest c
  have hrest := (repetition_takes_longest_run NoRule.grammar Grammar.nestingLimit item).2.2
    hconsumes _ hunrolls (.start "ab")
  exact ⟨fun c d ch => hconsumes c ch d, hrest, by cbv⟩

end Parser

end ParserKit
