import ParserKit.Arith.Grammar
import ParserKit.Pattern.Grammar
import ParserKit.Proofs.Movement

/-!
# What a parser observes

One parser is run twice, from two cursors that may stand in different texts.
If the cursors are equal, the two runs have the same outcome; and a parser that
never asks for its place needs only the same characters in front of it.  Both
follow from one simulation: a relation between cursors that every character
keeps is kept by every combinator.
-/

namespace ParserKit

/-- Two outcomes of one kind.  Faults are related by `F`; tokens are equal and
the cursors behind them are related by `K`. -/
inductive Outcome.Related {α : Type} (F : Fault → Fault → Prop) (K : Cursor → Cursor → Prop) :
    Outcome α → Outcome α → Prop
  | fault {f g : Fault} (h : F f g) : Related F K (.error f) (.error g)
  | noMatch : Related F K (.ok none) (.ok none)
  | found {a : α} {d e : Cursor} (h : K d e) : Related F K (.ok (some (a, d))) (.ok (some (a, e)))

/-- Related cursors show the same characters, and reading one of these leads to
related cursors again. -/
structure Lockstep (K : Cursor → Cursor → Prop) : Prop where
  remaining_eq : ∀ {c d : Cursor}, K c d → c.remaining = d.remaining
  advance : ∀ {c c' d d' : Cursor} {ch : Char}, K c d → c.advance = some (ch, c') →
    d.advance = some (ch, d') → K c' d'

/-- Related cursors stand at one place, so that a parser may ask for it. -/
def SamePlace (K : Cursor → Cursor → Prop) : Prop := ∀ c d, K c d → c.location = d.location

/-- Equal faults, or repetitions of an empty match at related cursors. -/
inductive Fault.Related (K : Cursor → Cursor → Prop) : Fault → Fault → Prop
  | refl (fault : Fault) : Related K fault fault
  | place {c d : Cursor} (h : K c d) :
      Related K (.emptyRepetition c.location) (.emptyRepetition d.location)

variable {α β : Type} {K : Cursor → Cursor → Prop} {c d : Cursor}

/-- Two outcomes that a simulation along `K` relates. -/
abbrev Outcome.Matched (K : Cursor → Cursor → Prop) (o o' : Outcome α) : Prop :=
  Outcome.Related (Fault.Related K) K o o'

/-- A step that has matching outcomes at related cursors. -/
def Respects (K : Cursor → Cursor → Prop) (step : Cursor → Outcome α) : Prop :=
  ∀ ⦃c d⦄, K c d → Outcome.Matched K (step c) (step d)

theorem Lockstep.left_eq (hK : Lockstep K) (h : K c d) : c.left = d.left := by
  rw [Cursor.left_eq_length_remaining, Cursor.left_eq_length_remaining, hK.remaining_eq h]

/-- One character, or the end of both texts. -/
theorem Lockstep.advance_cases (hK : Lockstep K) (h : K c d) :
    c.advance = none ∧ d.advance = none ∨
      ∃ ch c' d', c.advance = some (ch, c') ∧ d.advance = some (ch, d') ∧ K c' d' := by
  have hremaining := hK.remaining_eq h
  rcases hc : c.advance with _ | ⟨ch, c'⟩
  · rw [Cursor.advance_eq_none_iff_remaining, hremaining] at hc
    exact .inl ⟨rfl, (Cursor.advance_eq_none_iff_remaining d).2 hc⟩
  · rw [Cursor.remaining_of_advance hc] at hremaining
    obtain ⟨d', hread, -⟩ := Cursor.exists_reads_of_remaining (s := [ch]) hremaining.symm
    cases hread with
    | cons first more =>
        cases more
        exact .inr ⟨ch, c', d', rfl, first, hK.advance h hc first⟩

theorem Lockstep.takeLiteral_cases (hK : Lockstep K) (s : List Char) (h : K c d) :
    takeLiteral s c = none ∧ takeLiteral s d = none ∨
      ∃ c' d', takeLiteral s c = some c' ∧ takeLiteral s d = some d' ∧ K c' d' := by
  induction s generalizing c d with
  | nil => exact .inr ⟨c, d, rfl, rfl, h⟩
  | cons expected more ih =>
      rcases hK.advance_cases h with ⟨hc, hd⟩ | ⟨ch, c', d', hc, hd, h'⟩
      · simp [takeLiteral, hc, hd]
      · by_cases hch : ch = expected
        · simpa [takeLiteral, hc, hd, hch] using ih h'
        · simp [takeLiteral, hc, hd, hch]

/-! ## Steps one behind the other -/

theorem Outcome.Matched.andThen {o o' : Outcome α} {next next' : α → Cursor → Outcome β}
    (h : Outcome.Matched K o o')
    (hnext : ∀ a d e, K d e → Outcome.Matched K (next a d) (next' a e)) :
    Outcome.Matched K (o.andThen next) (o'.andThen next') := by
  cases h with
  | fault hF => exact .fault hF
  | noMatch => exact .noMatch
  | found hK => exact hnext _ _ _ hK

theorem Outcome.Matched.otherwise {o o' other other' : Outcome α} (h : Outcome.Matched K o o')
    (hother : Outcome.Matched K other other') :
    Outcome.Matched K (o.otherwise other) (o'.otherwise other') := by
  cases h with
  | fault hF => exact .fault hF
  | noMatch => exact hother
  | found hK => exact .found hK

theorem respects_advance (hK : Lockstep K) : Respects K fun c => .ok c.advance := by
  intro c d hcd
  dsimp only
  rcases hK.advance_cases hcd with ⟨hc, hd⟩ | ⟨ch, c', d', hc, hd, h'⟩
  · rw [hc, hd]
    exact .noMatch
  · rw [hc, hd]
    exact .found h'

theorem respects_collect (n : Nat) (τ : Fin n → Type)
    {steps : (i : Fin n) → Cursor → Outcome (τ i)} (h : ∀ i, Respects K (steps i)) :
    Respects K (collect n τ steps) := by
  induction n with
  | zero => exact fun c d hcd => .found hcd
  | succ n ih =>
      have hmore := ih (fun i => τ i.succ) fun i => h i.succ
      intro c d hcd
      rw [collect_succ, collect_succ]
      refine (h 0 hcd).andThen fun a c' d' h' => ?_
      exact Outcome.Matched.andThen (hmore h') fun _ _ _ h'' => .found h''

theorem respects_firstMatch (n : Nat) {steps : Fin n → Cursor → Outcome α}
    (h : ∀ i, Respects K (steps i)) : Respects K (firstMatch n steps) := by
  induction n with
  | zero => exact fun c d _ => .noMatch
  | succ n ih =>
      have hmore := ih fun i => h i.succ
      intro c d hcd
      rw [firstMatch_succ, firstMatch_succ]
      exact (h 0 hcd).otherwise (hmore hcd)

/-- The rounds of a repetition stay in step: each of them moves on in both runs
or in neither. -/
theorem matched_repeatFrom (hK : Lockstep K) {step : Cursor → Outcome α} (h : Respects K step)
    (tokens : List α) (hcd : K c d) :
    Outcome.Matched K ((repeatFrom step tokens c).map some)
      ((repeatFrom step tokens d).map some) := by
  induction hleft : c.left using Nat.strongRecOn generalizing tokens c d with
  | _ n ih =>
      have hround := h hcd
      rw [repeatFrom.eq_def step tokens c, repeatFrom.eq_def step tokens d]
      generalize step c = o at hround ⊢
      generalize step d = o' at hround ⊢
      cases hround with
      | fault hF => exact .fault hF
      | noMatch => exact .found hcd
      | @found a c' d' h' =>
          dsimp only
          rw [← hK.left_eq hcd, ← hK.left_eq h']
          split
          · rename_i hlt
            exact ih c'.left (hleft ▸ hlt) (a :: tokens) h' rfl
          · exact .fault (.place hcd)

theorem respects_repeatOutcome (hK : Lockstep K) {step : Cursor → Outcome α}
    (h : Respects K step) : Respects K (repeatOutcome step) := by
  intro c d hcd
  have hloop := matched_repeatFrom hK h [] hcd
  rw [repeatOutcome, repeatOutcome]
  generalize repeatFrom step [] c = r at hloop ⊢
  generalize repeatFrom step [] d = r' at hloop ⊢
  rcases r with f | ⟨tokens, c'⟩ <;> rcases r' with g | ⟨tokens', d'⟩ <;> cases hloop
  · rename_i hF
    exact .fault hF
  · rename_i hK'
    cases tokens with
    | nil => exact .noMatch
    | cons a more => exact .found hK'

/-! ## Parsers -/

namespace Parser

variable {R : Type → Type} {rules : Rules R}

/-- The parser never asks where it stands, as long as the rules in `free` do
not. -/
def Placeless (free : {β : Type} → R β → Prop) : {α : Type} → Parser R α → Prop
  | _, map p _ => Placeless free p
  | _, convert p _ => Placeless free p
  | _, bind p f => Placeless free p ∧ ∀ a, Placeless free (f a)
  | _, sequence p q _ => Placeless free p ∧ Placeless free q
  | _, sequenceAll _ _ parts _ => ∀ i, Placeless free (parts i)
  | _, orElse p q => Placeless free p ∧ Placeless free q
  | _, choice _ alternatives => ∀ i, Placeless free (alternatives i)
  | _, oneOrMore p => Placeless free p
  | _, currentRow => False
  | _, currentCol => False
  | _, currentLocation => False
  | _, ref rule => free rule
  | _, _ => True

variable {free : {β : Type} → R β → Prop}

/-- The simulation: a relation between cursors that every character keeps is
kept by a parser, if it determines the place or the parser does not ask for it. -/
theorem respects_runWith (hK : Lockstep K)
    (hrules : ∀ {β : Type} (r : R β), SamePlace K ∨ free r → Respects K (rules r))
    (p : Parser R α) (hblind : SamePlace K ∨ p.Placeless free) :
    Respects K (p.runWith rules) := by
  induction p with
  | item =>
      intro c d hcd
      rw [runWith, runWith]
      exact respects_advance hK hcd
  | accept tokenOf =>
      intro c d hcd
      rw [runWith_accept, runWith_accept]
      refine Outcome.Matched.andThen (respects_advance hK hcd) fun ch c' d' h' => ?_
      cases tokenOf ch with
      | none => exact .noMatch
      | some a => exact .found h'
  | literal s =>
      intro c d hcd
      rw [runWith, runWith]
      rcases hK.takeLiteral_cases s.toList hcd with ⟨hc, hd⟩ | ⟨c', d', hc, hd, h'⟩
      · rw [hc, hd]
        exact .noMatch
      · rw [hc, hd]
        exact .found h'
  | success a => exact fun c d hcd => .found hcd
  | failure => exact fun c d _ => .noMatch
  | raise fault => exact fun c d _ => .fault (.refl fault)
  | map p f ih =>
      intro c d hcd
      rw [runWith_map, runWith_map]
      exact (ih hblind hcd).andThen fun _ _ _ h' => .found h'
  | convert p f ih =>
      intro c d hcd
      rw [runWith_convert, runWith_convert]
      refine (ih hblind hcd).andThen fun a c' d' h' => ?_
      cases f a with
      | error fault => exact .fault (.refl fault)
      | ok b => exact .found h'
  | bind p f ihp ihf =>
      have hp := ihp (hblind.imp_right fun h => h.1)
      have hf := fun a => ihf a (hblind.imp_right fun h => h.2 a)
      intro c d hcd
      rw [runWith_bind, runWith_bind]
      exact (hp hcd).andThen fun a _ _ h' => hf a h'
  | sequence p q combine ihp ihq =>
      have hp := ihp (hblind.imp_right fun h => h.1)
      have hq := ihq (hblind.imp_right fun h => h.2)
      intro c d hcd
      rw [runWith_sequence, runWith_sequence]
      refine (hp hcd).andThen fun a c' d' h' => ?_
      exact (hq h').andThen fun _ _ _ h'' => .found h''
  | sequenceAll n τ parts combine ih =>
      have hparts := respects_collect n τ fun i => ih i (hblind.imp_right fun h => h i)
      intro c d hcd
      rw [runWith_sequenceAll, runWith_sequenceAll]
      exact Outcome.Matched.andThen (hparts hcd) fun _ _ _ h' => .found h'
  | orElse p q ihp ihq =>
      have hp := ihp (hblind.imp_right fun h => h.1)
      have hq := ihq (hblind.imp_right fun h => h.2)
      intro c d hcd
      rw [runWith_orElse, runWith_orElse]
      exact (hp hcd).otherwise (hq hcd)
  | choice n alternatives ih =>
      intro c d hcd
      rw [runWith, runWith]
      exact respects_firstMatch n (fun i => ih i (hblind.imp_right fun h => h i)) hcd
  | oneOrMore p ih =>
      intro c d hcd
      rw [runWith, runWith]
      exact respects_repeatOutcome hK (ih hblind) hcd
  | currentRow | currentCol | currentLocation =>
      intro c d hcd
      have hplace := hblind.resolve_right id c d hcd
      rw [runWith, runWith, hplace]
      exact .found hcd
  | ref rule =>
      intro c d hcd
      rw [runWith, runWith]
      exact hrules rule hblind hcd

end Parser

/-- The rules in `free` never ask where they stand, neither themselves nor
through the rules that they refer to. -/
def Grammar.PlacelessOn {R : Type → Type} (grammar : Grammar R)
    (free : {β : Type} → R β → Prop) : Prop :=
  ∀ {β : Type} (r : R β), free r → (grammar r).Placeless free

variable {R : Type → Type} {grammar : Grammar R} {free : {β : Type} → R β → Prop}

theorem respects_rule (hK : Lockstep K)
    (hgrammar : SamePlace K ∨ grammar.PlacelessOn free)
    (depth : Nat) (r : R α) (hblind : SamePlace K ∨ free r) :
    Respects K (Grammar.rule grammar depth r) := by
  induction depth generalizing α with
  | zero => exact fun c d _ => .fault (.refl .tooDeep)
  | succ depth ih =>
      apply Parser.respects_runWith hK ih (grammar r)
      rcases hgrammar with hplace | hgrammar
      · exact .inl hplace
      · exact hblind.imp_right (hgrammar r)

theorem respects_run (grammar : Grammar R) (free : {β : Type} → R β → Prop) (hK : Lockstep K)
    (hgrammar : SamePlace K ∨ grammar.PlacelessOn free)
    (depth : Nat) (p : Parser R α)
    (hblind : SamePlace K ∨ p.Placeless free) :
    Respects K (p.runWith (Grammar.rule grammar depth)) :=
  Parser.respects_runWith hK (respects_rule hK hgrammar depth) p hblind

/-! ## Equal cursors and equal remainders -/

theorem Cursor.beq_iff_view_eq : (c == d) = true ↔ c.view = d.view := by
  change (c.view == d.view) = true ↔ c.view = d.view
  exact beq_iff_eq

theorem lockstep_equal : Lockstep fun c d => (c == d) = true where
  remaining_eq h := congrArg Prod.snd (Cursor.beq_iff_view_eq.1 h)
  advance {c c' d d' ch} h hc hd := by
    rw [Cursor.beq_iff_view_eq, Cursor.view, Cursor.view, Prod.mk.injEq] at h ⊢
    have hremaining := h.2
    rw [Cursor.remaining_of_advance hc, Cursor.remaining_of_advance hd] at hremaining
    rw [Cursor.eq_of_advance hc, Cursor.eq_of_advance hd] at hremaining ⊢
    exact ⟨by simp only [h.1], by simpa using hremaining⟩

theorem lockstep_remaining : Lockstep fun c d => c.remaining = d.remaining where
  remaining_eq h := h
  advance {c c' d d' ch} h hc hd := by
    rw [Cursor.remaining_of_advance hc, Cursor.remaining_of_advance hd] at h
    exact (List.cons.inj h).2

/-- Faults that differ in their places at most. -/
def Fault.SameKind : Fault → Fault → Prop
  | .emptyRepetition _, .emptyRepetition _ => True
  | f, g => f = g

theorem Fault.SameKind.refl (fault : Fault) : fault.SameKind fault := by
  cases fault <;> simp [SameKind]

/-- Matching outcomes of runs from `c` and `d`: faults related by `F`, or equal
tokens and related cursors, behind the same characters read. -/
def SameOutcome (F : Fault → Fault → Prop) (K : Cursor → Cursor → Prop) (c d : Cursor) :
    Outcome α → Outcome α → Prop :=
  Outcome.Related F fun c' d' => K c' d' ∧ ∃ s, c.Reads s c' ∧ d.Reads s d'

/-- Between cursors that show the same characters before and after, the same
characters were read. -/
theorem exists_reads_of_remaining_eq {c' d' : Cursor} (hbefore : c.remaining = d.remaining)
    (hafter : c'.remaining = d'.remaining) (hc : c.Reaches c') (hd : d.Reaches d') :
    ∃ s, c.Reads s c' ∧ d.Reads s d' := by
  obtain ⟨s, hs⟩ := hc
  obtain ⟨t, ht⟩ := hd
  have hst : s = t := by
    rw [hs.remaining_eq, ht.remaining_eq, hafter] at hbefore
    exact List.append_cancel_right hbefore
  exact ⟨s, hs, hst ▸ ht⟩

theorem sameOutcome_of_respects (hK : Lockstep K) {F : Fault → Fault → Prop}
    (hF : ∀ f g, Fault.Related K f g → F f g) {step : Cursor → Outcome α} (hmoves : Moves step)
    (hstep : Respects K step) (h : K c d) : SameOutcome F K c d (step c) (step d) := by
  have hmatched := hstep h
  have hc := hmoves c
  have hd := hmoves d
  generalize step c = o at hmatched hc ⊢
  generalize step d = o' at hmatched hd ⊢
  cases hmatched with
  | fault hfault => exact .fault (hF _ _ hfault)
  | noMatch => exact .noMatch
  | found h' =>
      exact .found ⟨h', exists_reads_of_remaining_eq (hK.remaining_eq h) (hK.remaining_eq h') hc hd⟩

/-- A parser has the same outcome at equal cursors; and where it never asks for
its place, it has the same outcome up to places in front of the same
characters. -/
theorem runs_agree (grammar : Grammar R) (depth : Nat) (p : Parser R α) (c d : Cursor) :
    ((c == d) = true →
      SameOutcome (· = ·) (fun c' d' => (c' == d') = true) c d
        (p.runWith (Grammar.rule grammar depth) c) (p.runWith (Grammar.rule grammar depth) d)) ∧
    ∀ free : {β : Type} → R β → Prop, grammar.PlacelessOn free → p.Placeless free →
      c.remaining = d.remaining →
      SameOutcome Fault.SameKind (fun c' d' => c'.remaining = d'.remaining) c d
        (p.runWith (Grammar.rule grammar depth) c) (p.runWith (Grammar.rule grammar depth) d) := by
  have hmoves := Parser.moves_runWith (fun r => moves_rule grammar depth r) p
  constructor
  · intro hcd
    have hplace : SamePlace fun c d => (c == d) = true :=
      fun c d h => congrArg Prod.fst (Cursor.beq_iff_view_eq.1 h)
    have hrun :=
      respects_run grammar (fun _ => False) lockstep_equal (.inl hplace) depth p (.inl hplace)
    refine sameOutcome_of_respects lockstep_equal ?_ hmoves hrun hcd
    intro f g hfault
    cases hfault with
    | refl => rfl
    | place h => rw [hplace _ _ h]
  · intro free hgrammar hp hcd
    have hrun := respects_run grammar free lockstep_remaining (.inr hgrammar) depth p (.inr hp)
    refine sameOutcome_of_respects lockstep_remaining ?_ hmoves hrun hcd
    intro f g hfault
    cases hfault with
    | refl => exact .refl f
    | place h => trivial

/-- Every rule of patterns is placeless. -/
theorem placelessOn_pattern : Pattern.grammar.PlacelessOn fun _ => True := by
  rintro _ ⟨⟩ -
  simp [Pattern.grammar, Pattern.expression, Pattern.term, Pattern.factor, Pattern.basic,
    Pattern.grouped, Pattern.plain, Parser.many, Parser.optional, Parser.discardLeft,
    Parser.discardRight, Parser.char, Parser.satisfy, Parser.Placeless]

/-- A sum behind other characters is read with the same spans if it stands in
the same place, and a pattern is read alike in any place. -/
theorem runs_agree_behind_other_characters :
    (∃ c d : Cursor, c = ⟨"1\n+2".toList.toArray, 0, ⟨1, 5⟩⟩ ∧
      d = ⟨"(7, 1\n+2".toList.toArray, 4, ⟨1, 5⟩⟩ ∧ (c == d) = true ∧
      SameOutcome (· = ·) (fun c' d' => (c' == d') = true) c d
        (Arith.program.runWith (Grammar.rule Arith.grammar 2) c)
        (Arith.program.runWith (Grammar.rule Arith.grammar 2) d)) ∧
    ∃ c d : Cursor, c = .start "(a|b)*" ∧ d = ⟨"x\n(a|b)*".toList.toArray, 2, ⟨2, 1⟩⟩ ∧
      Pattern.grammar.PlacelessOn (fun _ => True) ∧
      Pattern.expression.Placeless (fun _ => True) ∧ c.remaining = d.remaining ∧
      SameOutcome Fault.SameKind (fun c' d' => c'.remaining = d'.remaining) c d
        (Pattern.expression.runWith (Grammar.rule Pattern.grammar 2) c)
        (Pattern.expression.runWith (Grammar.rule Pattern.grammar 2) d) := by
  refine ⟨⟨_, _, rfl, rfl, ?_⟩, _, _, rfl, rfl, ?_⟩
  · have hequal : ((⟨"1\n+2".toList.toArray, 0, ⟨1, 5⟩⟩ : Cursor) ==
        ⟨"(7, 1\n+2".toList.toArray, 4, ⟨1, 5⟩⟩) = true := by decide
    exact ⟨hequal, (runs_agree Arith.grammar 2 Arith.program _ _).1 hequal⟩
  · have hexpression := placelessOn_pattern .expression trivial
    have hremaining : (Cursor.start "(a|b)*").remaining =
        (⟨"x\n(a|b)*".toList.toArray, 2, ⟨2, 1⟩⟩ : Cursor).remaining := by decide
    exact ⟨placelessOn_pattern, hexpression, hremaining,
      (runs_agree Pattern.grammar 2 Pattern.expression _ _).2 _ placelessOn_pattern hexpression
        hremaining⟩

end ParserKit
