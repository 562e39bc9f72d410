import Mathlib
import ParserKit.Proofs.Arith.Stops
import ParserKit.Proofs.Arith.Reading
import ParserKit.Proofs.LongestFront
import ParserKit.Proofs.SteadyOnStack

/-!
# Where an expression stops

The parser of arithmetic is steady: what it has read as an expression it reads
again in front of anything that does not go on with an expression.  So the place
that is reported for a malformed text is the end of the longest expression that
the text begins with.  All parts take the blanks behind them, which is why the
next token, and no blank, stands where a part ends.

All this is about the parser on the stack: reading the same characters again takes
no more frames than reading them took.
-/

namespace ParserKit.Arith

open ParserKit.Parser CharClass

variable {c d : Cursor} {s t rest : List Char} {l : Level} {part : ArithParser}

/-- A character in front decides what may stand before it. -/
theorem follows_of_leads {part : Part} {ch : Char} (hleads : Leads (· == ch) s)
    (hstops : Stops isSpace (s ++ t)) (hch : ch ∈ part.follow) : Follows part (s ++ rest) := by
  obtain ⟨first, more, rfl, hfirst⟩ := hleads.exists_cons hstops
  obtain rfl : first = ch := by simpa using hfirst
  intro x hx
  obtain rfl : first = x := by simpa using hx
  exact hch

/-! ## How operands and steps start -/

/-- The operands, each with the characters that it starts with. -/
def operandStarts : List (ArithParser × (Char → Bool)) :=
  [(parenOperand, (· == '(')), (numberOperand, isDigit), (nameOperand, isLetter),
    (minusOperand, (· == Operator.subtract.sign)), (plusOperand, (· == Operator.add.sign))]

/-- The first character tells the operands apart. -/
theorem operandStarts_apart : operandStarts.Pairwise fun x y => Apart x.2 y.2 := by
  have hwords : Apart isDigit isLetter := Apart.symm fun _ => isDigit_eq_false_of_isLetter
  simp only [operandStarts, List.pairwise_cons, List.forall_mem_cons, List.not_mem_nil,
    false_imp_iff, implies_true, and_true, List.Pairwise.nil]
  refine ⟨⟨?_, ?_, ?_, ?_⟩, ⟨hwords, ?_, ?_⟩, ⟨?_, ?_⟩, ?_⟩
  · exact apart_char rfl
  · exact apart_char rfl
  · exact apart_char rfl
  · exact apart_char rfl
  · exact (apart_char rfl).symm
  · exact (apart_char rfl).symm
  · exact (apart_char rfl).symm
  · exact (apart_char rfl).symm
  · exact apart_char rfl

/-- The sign tells the steps of a level apart. -/
theorem signs_apart (l : Level) :
    l.operators.Pairwise fun op op' => Apart (· == op.sign) (· == op'.sign) := by
  have hdistinct : l.operators.Pairwise (· ≠ ·) := by cases l <;> decide
  apply hdistinct.imp
  intro op op' hne
  exact apart_char (beq_eq_false_iff_ne.2 fun hsign => hne (sign_injective hsign))

section Plain

variable {rules : Rules Rule} (hmoves : ∀ {β : Type} (r : Rule β), Moves (rules r))

include hmoves

theorem startsWith_word {k : Char → Bool} {α : Type} {p : Parser Rule α}
    (h : StartsWith k (p.runWith rules)) (build : α → Option Span → Node) :
    StartsWith k ((token (located p build)).runWith rules) :=
  startsWith_token hmoves (startsWith_map (startsWith_withLocation h) _)

theorem startsWith_signed {α : Type} (op : Operator) (p : Parser Rule α) :
    StartsWith (· == op.sign)
      ((discardLeft (symbol (String.singleton op.sign)) p).runWith rules) :=
  startsWith_sequence hmoves (startsWith_symbol hmoves op.isSpace_sign)

theorem startsWith_of_mem_operandStarts :
    ∀ x ∈ operandStarts, StartsWith x.2 (x.1.runWith rules) := by
  simp only [operandStarts, List.forall_mem_cons, List.not_mem_nil, false_imp_iff, implies_true,
    and_true]
  refine ⟨?_, ?_, ?_, ?_, ?_⟩
  · exact startsWith_map (startsWith_sequence hmoves
      (startsWith_sequence hmoves (startsWith_symbol hmoves (by decide)))) _
  · exact startsWith_word hmoves startsWith_nat _
  · exact startsWith_word hmoves (startsWith_ident hmoves) _
  · exact startsWith_map (startsWith_signed hmoves .subtract _) _
  · exact startsWith_signed hmoves .add _

theorem operands_startApart :
    [parenOperand, numberOperand, nameOperand, minusOperand, plusOperand].Pairwise
      fun p q => StartApart (p.runWith rules) (q.runWith rules) := by
  have hstarts : ∀ x ∈ operandStarts, StartsWith x.2 (x.1.runWith rules) :=
    startsWith_of_mem_operandStarts hmoves
  have hpairs : (operandStarts.map Prod.fst).Pairwise
      fun p q => StartApart (p.runWith rules) (q.runWith rules) :=
    List.pairwise_map.2 (operandStarts_apart.imp_of_mem fun hx hy hapart =>
      (hstarts _ hx).apart (hstarts _ hy) hapart)
  exact hpairs

theorem startsWith_stepOf (op : Operator) (part : ArithParser) :
    StartsWith (· == op.sign)
      ((stepOf (String.singleton op.sign) part op).runWith rules) :=
  startsWith_map (startsWith_withLocation (startsWith_signed hmoves op part)) _

theorem steps_startApart (l : Level) (part : ArithParser) :
    (l.operators.map fun op => stepOf (String.singleton op.sign) part op).Pairwise
      fun p q => StartApart (p.runWith rules) (q.runWith rules) :=
  List.pairwise_map.2 ((signs_apart l).imp fun {op op'} hapart =>
    (startsWith_stepOf hmoves op part).apart (startsWith_stepOf hmoves op' part) hapart)

end Plain

/-! ## Parts that are settled -/

/-- What chains and groups rely on in their parts. -/
structure Settled (part : Part) (step : Cursor → Outcome Node) : Prop where
  steady : Steady (Follows part) step
  tight : Tight step
  takes : Takes step

theorem Settled.of_runsAs {part : Part} {step step' : Cursor → Outcome Node}
    (hruns : RunsAs step step') (h : Settled part step') : Settled part step where
  steady := hruns.steady h.steady
  tight := hruns.tight h.tight
  takes := hruns.takes h.takes

variable {rules : Rules (Framed Rule)}

/-- The parser is settled on the stack, whatever the number of frames. -/
def SettledOn (rules : Rules (Framed Rule)) (part : Part) (p : ArithParser) : Prop :=
  ∀ n, Settled part ((p.onStack n).runWith rules)

structure SettledRules (rules : Rules (Framed Rule)) : Prop where
  expression : ∀ n, Settled (.level .expression) (rules ⟨.expression, n⟩)
  operand : ∀ n, Settled .operand (rules ⟨.operand, n⟩)

theorem settledOn_ref {part : Part} {r : Rule Node} (h : ∀ n, Settled part (rules ⟨r, n⟩)) :
    SettledOn rules part (ref r) :=
  fun n => .of_runsAs (runsAs_ref r n) (h _)

theorem SettledOn.map {part : Part} {p : ArithParser} (h : SettledOn rules part p)
    (f : Node → Node) : SettledOn rules part (Parser.map p f) := by
  intro n
  apply Settled.of_runsAs (runsAs_map p f n)
  exact ⟨steady_map (h _).steady f, tight_map (h _).tight f, takes_map (h _).takes f⟩

theorem settledOn_choiceOf {part : Part} {alternatives : List ArithParser}
    (h : ∀ p ∈ alternatives, SettledOn rules part p)
    (hother : ∀ n, alternatives.Pairwise fun p q =>
      Excludes ((p.onStack n).runWith rules) ((q.onStack n).runWith rules)) :
    SettledOn rules part (choiceOf alternatives) := by
  intro n
  apply Settled.of_runsAs (runsAs_choiceOf alternatives n)
  have hall : ∀ p ∈ alternatives.map fun p => p.onStack (n - callFrames),
      Settled part (p.runWith rules) :=
    List.forall_mem_map.2 fun p hp => h p hp _
  constructor
  · exact steady_choiceOf (fun p hp => (hall p hp).steady) (List.pairwise_map.2 (hother _))
  · exact tight_choiceOf fun p hp => (hall p hp).tight
  · exact takes_choiceOf fun p hp => (hall p hp).takes

section Rules

variable (hmoves : ∀ {β : Type} (r : Framed Rule β), Moves (rules r))

include hmoves

/-! ## Operands -/

omit hmoves in
theorem mayStart_located {k : Char → Bool} {α : Type} {p : Parser Rule α}
    (h : ∀ m, MayStart k ((p.onStack m).runWith rules)) (build : α → Option Span → Node)
    (n : Nat) : MayStart k (((located p build).onStack n).runWith rules) :=
  (runsAs_map ..).mayStart (((runsAs_withLocation ..).mayStart (h _).withLocation).map _)

theorem mayStart_word {k : Char → Bool} {α : Type} {p : Parser Rule α}
    (h : ∀ m, MayStart k ((p.onStack m).runWith rules)) (build : α → Option Span → Node)
    (n : Nat) : MayStart k (((token (located p build)).onStack n).runWith rules) :=
  (runsAs_token ..).mayStart ((mayStart_located h build _).token hmoves)

theorem mayStart_signed {α : Type} (op : Operator) (p : Parser Rule α) (n : Nat) :
    MayStart (· == op.sign)
      (((discardLeft (symbol (String.singleton op.sign)) p).onStack n).runWith rules) :=
  (runsAs_sequence ..).mayStart ((mayStart_symbol hmoves op.isSpace_sign _).sequence hmoves _ _)

theorem mayStart_of_mem_operandStarts :
    ∀ x ∈ operandStarts, ∀ n, MayStart x.2 ((x.1.onStack n).runWith rules) := by
  simp only [operandStarts, List.forall_mem_cons, List.not_mem_nil, false_imp_iff, implies_true,
    and_true]
  refine ⟨fun n => ?_, ?_, ?_, fun n => ?_, ?_⟩
  · apply (runsAs_map ..).mayStart
    apply MayStart.map
    apply (runsAs_sequence ..).mayStart
    apply MayStart.sequence hmoves
    apply (runsAs_sequence ..).mayStart
    exact (mayStart_symbol hmoves (by decide) _).sequence hmoves _ _
  · exact mayStart_word hmoves (fun m => (runsAs_nat m).mayStart (.inr startsWith_nat)) _
  · exact mayStart_word hmoves (mayStart_ident hmoves) _
  · exact (runsAs_map ..).mayStart ((mayStart_signed hmoves .subtract _ _).map _)
  · exact mayStart_signed hmoves .add _

theorem operands_excludes (n : Nat) :
    [parenOperand, numberOperand, nameOperand, minusOperand, plusOperand].Pairwise
      fun p q => Excludes ((p.onStack n).runWith rules) ((q.onStack n).runWith rules) := by
  have hstarts : ∀ x ∈ operandStarts, ∀ n, MayStart x.2 ((x.1.onStack n).runWith rules) :=
    mayStart_of_mem_operandStarts hmoves
  have hpairs : (operandStarts.map Prod.fst).Pairwise
      fun p q => Excludes ((p.onStack n).runWith rules) ((q.onStack n).runWith rules) :=
    List.pairwise_map.2 (operandStarts_apart.imp_of_mem fun hx hy hapart =>
      (hstarts _ hx n).excludes (hstarts _ hy n) hapart)
  exact hpairs

/-- A part behind something that takes the blanks. -/
theorem settledOn_behind {α : Type} {part : Part} {q : Parser Rule α} {p : ArithParser}
    (hq : ∀ m, Steady (Stops isSpace) ((q.onStack m).runWith rules))
    (htight : ∀ m, Tight ((q.onStack m).runWith rules)) (h : SettledOn rules part p) :
    SettledOn rules part (discardLeft q p) := by
  intro n
  apply Settled.of_runsAs (runsAs_sequence q p _ n)
  constructor
  · exact steady_behind hmoves (hq _) (htight _) (h _).steady (h _).takes
  · exact tight_sequence _ (h _).tight
  · exact takes_sequence_right hmoves (h _).takes

theorem settledOn_signed (op : Operator) {part : Part} {p : ArithParser}
    (h : SettledOn rules part p) :
    SettledOn rules part (discardLeft (symbol (String.singleton op.sign)) p) :=
  settledOn_behind hmoves (steady_symbol_onStack hmoves op.isSpace_sign) (tight_token_onStack _) h

theorem settledOn_parenOperand (hrules : SettledRules rules) :
    SettledOn rules .operand parenOperand := by
  have hspace : isSpace '(' = false := by decide
  have hspace' : isSpace ')' = false := by decide
  have hopened : SettledOn rules (.level .expression)
      (discardLeft (symbol "(") (ref .expression)) :=
    settledOn_behind hmoves (steady_symbol_onStack hmoves hspace) (tight_token_onStack _)
      (settledOn_ref hrules.expression)
  apply SettledOn.map
  intro n
  apply Settled.of_runsAs (runsAs_sequence _ _ _ n)
  constructor
  · apply steady_sequence hmoves (hopened _).steady
      ((steady_symbol_onStack hmoves hspace' _).mono fun _ => Follows.stops_isSpace)
    intro c body d _ e s rest hrun hclose hread
    have hstops : Stops isSpace (s ++ e.remaining) :=
      hread.remaining_eq ▸ (hopened _).tight.stops hrun
    have hleads := (mayStart_symbol hmoves hspace' _).leads hclose hread
    exact .inl (follows_of_leads hleads hstops (by simp [Part.follow, Level.follow]))
  · exact tight_sequence _ (tight_token_onStack _ _)
  · exact takes_sequence_left hmoves (hopened _).takes

/-- A number or a name. -/
theorem settledOn_word {F : List Char → Prop} {k : Char → Bool} {α : Type} {p : Parser Rule α}
    (h : ∀ m, Steady F ((p.onStack m).runWith rules))
    (hstarts : ∀ m, MayStart k ((p.onStack m).runWith rules))
    (hfollow : ∀ rest, Follows .operand rest → F rest)
    (hblank : ∀ ch rest, isSpace ch = true → F (ch :: rest))
    (build : α → Option Span → Node) :
    SettledOn rules .operand (token (located p build)) := by
  have hword : ∀ m, Steady F (((located p build).onStack m).runWith rules) := fun m =>
    (runsAs_map ..).steady
      (steady_map ((runsAs_withLocation ..).steady (steady_withLocation (h _))) _)
  have htakes : ∀ m, Takes (((located p build).onStack m).runWith rules) := fun m =>
    (mayStart_located hstarts build m).takes
  intro n
  constructor
  · apply (steady_token_onStack hmoves hword htakes hblank n).mono
    exact fun rest hrest => ⟨hrest.stops_isSpace, hfollow rest hrest⟩
  · exact tight_token_onStack _ n
  · exact (mayStart_word hmoves hstarts build n).takes

theorem settledOn_operand (hrules : SettledRules rules) : SettledOn rules .operand operand := by
  have hoperand : SettledOn rules .operand (ref .operand) := settledOn_ref hrules.operand
  apply settledOn_choiceOf _ (operands_excludes hmoves)
  intro p hp
  simp only [List.mem_cons, List.not_mem_nil, or_false] at hp
  rcases hp with rfl | rfl | rfl | rfl | rfl
  · exact settledOn_parenOperand hmoves hrules
  · exact settledOn_word hmoves (fun m => (runsAs_nat m).steady steady_nat)
      (fun m => (runsAs_nat m).mayStart (.inr startsWith_nat)) (fun _ h => h.stops (by decide))
      (fun _ _ h => (stops_cons ..).2 (isDigit_eq_false_of_isSpace h)) _
  · exact settledOn_word hmoves (steady_ident_onStack hmoves) (mayStart_ident hmoves)
      (fun _ h => h.stops (by decide))
      (fun _ _ h => (stops_cons ..).2 (isAlphanum_eq_false_of_isSpace h)) _
  · exact (settledOn_signed hmoves .subtract hoperand).map _
  · exact settledOn_signed hmoves .add hoperand

/-! ## Chains -/

theorem mayStart_stepOf (op : Operator) (part : ArithParser) (n : Nat) :
    MayStart (· == op.sign)
      (((stepOf (String.singleton op.sign) part op).onStack n).runWith rules) :=
  (runsAs_map ..).mayStart
    (((runsAs_withLocation ..).mayStart (mayStart_signed hmoves op part _).withLocation).map _)

theorem steady_stepsOf (hpart : SettledOn rules l.part part) (n : Nat) :
    Steady (Follows l.part) (((stepsOf l part).onStack n).runWith rules) := by
  apply (runsAs_choiceOf _ n).steady
  apply steady_choiceOf
  · refine List.forall_mem_map.2 fun p hp => ?_
    obtain ⟨op, -, rfl⟩ := List.mem_map.1 hp
    have hsigned := settledOn_signed hmoves op hpart
    exact (runsAs_map ..).steady
      (steady_map ((runsAs_withLocation ..).steady (steady_withLocation (hsigned _).steady)) _)
  · rw [List.pairwise_map, List.pairwise_map]
    exact (signs_apart l).imp fun {op op'} hapart =>
      (mayStart_stepOf hmoves op part _).excludes (mayStart_stepOf hmoves op' part _) hapart

omit hmoves in
theorem tight_stepsOf (hpart : SettledOn rules l.part part) (n : Nat) :
    Tight (((stepsOf l part).onStack n).runWith rules) := by
  apply (runsAs_choiceOf _ n).tight
  apply tight_choiceOf
  refine List.forall_mem_map.2 fun p hp => ?_
  obtain ⟨op, -, rfl⟩ := List.mem_map.1 hp
  apply (runsAs_map ..).tight
  apply tight_map
  apply (runsAs_withLocation ..).tight
  apply tight_withLocation
  exact (runsAs_sequence ..).tight (tight_sequence _ (hpart _).tight)

/-- Where no blank stands a step begins with its sign, which may stand behind
the part before it. -/
theorem follows_of_stepsOf {n : Nat} {step : Step}
    (hrun : ((stepsOf l part).onStack n).runWith rules c = .ok (some (step, d)))
    (hread : c.Reads s d) :
    s ≠ [] ∧ ∀ rest, Stops isSpace c.remaining → Follows l.part (s ++ rest) := by
  have hchoice := (runsAs_choiceOf _ n).eq_of_ok hrun
  rw [stepsOf, hchoice] at hrun
  obtain ⟨p, hp, hrun⟩ := exists_mem_of_choiceOf hrun
  rw [List.map_map] at hp
  obtain ⟨op, hop, rfl⟩ := List.mem_map.1 hp
  have hleads := (mayStart_stepOf hmoves op part _).leads hrun hread
  refine ⟨hleads.ne_nil, fun rest hstops => ?_⟩
  exact follows_of_leads hleads (hread.remaining_eq ▸ hstops) (sign_mem_follow hop)

/-- Where the steps have failed to match there is room for them, so they fail again
in front of what may follow. -/
theorem stepsOf_eq_none {n : Nat}
    (hnone : ((stepsOf l part).onStack n).runWith rules d = .ok none)
    (h : Follows (.level l) c.remaining) :
    ((stepsOf l part).onStack n).runWith rules c = .ok none := by
  have hchoice := (runsAs_choiceOf _ n).eq_of_ok hnone
  rw [stepsOf, hchoice] at hnone ⊢
  apply Outcome.Meets.eq_none
  apply meets_choiceOf _ trivial
  intro p hp
  have hfailed := forall_mem_of_choiceOf hnone p hp
  rw [List.map_map] at hp
  obtain ⟨op, hop, rfl⟩ := List.mem_map.1 hp
  have hstarts := (mayStart_stepOf hmoves op part _).startsWith hfailed
  have hnot : ¬ Leads (· == op.sign) c.remaining := by
    intro hleads
    obtain ⟨ch, more, hcons, hch⟩ := hleads.exists_cons (t := []) (by simpa using h.stops_isSpace)
    obtain rfl : ch = op.sign := by simpa using hch
    exact sign_not_mem_follow hop (h _ (by simp [hcons]))
  rw [Function.comp_apply, hstarts.eq_none hnot]
  trivial

omit hmoves in
/-- The tail of a level repeats its steps. -/
theorem runsAs_tail (rules : Rules (Framed Rule)) (l : Level) (part : ArithParser) (n : Nat) :
    ∃ m, RunsAs (((chainOf (l.operators.map fun op =>
        stepOf (String.singleton op.sign) part op)).onStack n).runWith rules)
      ((Parser.map (many ((stepsOf l part).onStack m)) Node.ofSteps).runWith rules) :=
  ⟨_, (runsAs_map ..).trans ((runsAs_many (stepsOf l part) _).map Node.ofSteps)⟩

theorem settledOn_levelParser (hpart : SettledOn rules l.part part) :
    SettledOn rules (.level l) (levelParser l part) := by
  intro n
  have hfollow : ∀ rest, Follows (.level l) rest → Follows l.part rest :=
    fun rest hrest ch hch => l.follow_subset (hrest ch hch)
  apply Settled.of_runsAs (runsAs_sequence part _ _ n)
  obtain ⟨m, htail⟩ := runsAs_tail rules l part (n - callFrames)
  have htakes : Takes (((stepsOf l part).onStack m).runWith rules) :=
    fun _ _ _ _ hrun hread => (follows_of_stepsOf hmoves hrun hread).1
  constructor
  · have hmany : Steady (Follows (.level l))
        ((many ((stepsOf l part).onStack m)).runWith rules) := by
      apply steady_many hmoves (steady_stepsOf hmoves hpart m) htakes hfollow
      · intro c a d b e s rest hrun hrun' hread
        have hstops := (tight_stepsOf hpart m).stops hrun
        exact (follows_of_stepsOf hmoves hrun' hread).2 rest hstops
      · exact fun _ _ hnone => stepsOf_eq_none hmoves hnone
    apply steady_sequence_of_total hmoves (hpart _).steady (htail.steady (steady_map hmany _))
      (htail.total (total_map (total_many hmoves) _)) hfollow
    intro c head d tail e s rest hhead hrun hread
    rw [htail.eq_of_ok hrun] at hrun
    obtain ⟨steps, hrun⟩ := exists_of_map hrun
    rcases reads_of_many hmoves hrun hread with hnil | ⟨step, d', t, u, hnext, ht, rfl⟩
    · exact .inl hnil
    · rw [List.append_assoc]
      exact .inr ((follows_of_stepsOf hmoves hnext ht).2 _ ((hpart _).tight.stops hhead))
  · intro c
    rw [meets_sequence]
    apply ((hpart _).tight c).imp
    intro head d hd
    rcases htail with hroom | htail
    · rw [hroom]
      trivial
    · rw [htail, meets_map]
      -- Each round ends where no blank stands, as the head did.
      apply meets_many_of_rounds _ (fun _ e => Stops isSpace e.remaining) hd
      intro steps e he
      apply (tight_stepsOf hpart m e).mono (fun _ hF => hF) fun _ => he
      intro step e' he'
      split
      · exact he'
      · trivial
  · exact takes_sequence_left hmoves (hpart _).takes

theorem settledOn_expression (hrules : SettledRules rules) :
    SettledOn rules (.level .expression) expression := by
  rw [expression_eq, term_eq, factor_eq]
  apply settledOn_levelParser hmoves
  apply settledOn_levelParser hmoves
  exact settledOn_levelParser hmoves (settledOn_operand hmoves hrules)

end Rules

/-- By induction on the depth: a rule that may open no reference ends in a
fault. -/
theorem settledRules_rule (depth : Nat) :
    SettledRules (Grammar.rule (Grammar.onStack grammar) depth) := by
  induction depth with
  | zero =>
      constructor
      · exact fun n => ⟨nofun, fun _ => trivial, nofun⟩
      · exact fun n => ⟨nofun, fun _ => trivial, nofun⟩
  | succ depth ih =>
      have hmoves : ∀ {β : Type} (r : Framed Rule β),
          Moves (Grammar.rule (Grammar.onStack grammar) depth r) :=
        moves_rule (Grammar.onStack grammar) depth
      exact ⟨settledOn_expression hmoves ih, settledOn_operand hmoves ih⟩

theorem settled_program : Settled (.level .expression) (grammar.runOnStack program) := by
  have hmoves : ∀ {β : Type} (r : Framed Rule β),
      Moves (Grammar.rule (Grammar.onStack grammar) Grammar.nestingLimit r) :=
    moves_rule (Grammar.onStack grammar) _
  exact settledOn_behind hmoves (fun m => (runsAs_space m).steady (steady_space hmoves))
    (fun m => (runsAs_space m).tight tight_space)
    (settledOn_expression hmoves (settledRules_rule _)) stackFrames

/-! ## Malformed texts -/

/-- The text is an expression as a whole. -/
def IsExpression (text : String) : Prop := ∃ tree, read text = .ok (some tree)

theorem accepts_program : Accepts (grammar.runOnStack program) = IsExpression := by
  funext text
  simp only [Accepts, IsExpression, read_eq_some_iff_run]

/-- Where no tree is read, nothing was read or something remains. -/
theorem stop_of_readAt {text : String} {stopped : Cursor} (h : readAt text = .ok ⟨none, stopped⟩) :
    grammar.runOnStack program (.start text) = .ok none ∧ stopped = .start text ∨
      ∃ tree, grammar.runOnStack program (.start text) = .ok (some (tree, stopped)) ∧
        stopped.atEnd = false := by
  rw [readAt] at h
  rcases hrun : grammar.runOnStack program (.start text) with fault | (_ | ⟨tree, d⟩)
  · simp [hrun] at h
  · exact .inl ⟨rfl, by simpa [hrun, eq_comm] using h⟩
  · obtain ⟨hend, rfl⟩ : d.atEnd = false ∧ d = stopped := by simpa [hrun] using h
    exact .inr ⟨tree, rfl, hend⟩

/-- Either nothing was read and no expression stands in front, or the text was
read up to the end of the longest one. -/
theorem longestFront_of_readAt {text : String} {stopped : Cursor}
    (h : readAt text = .ok ⟨none, stopped⟩) :
    stopped = .start text ∧ NoFront IsExpression text ∨
    0 < stopped.offset ∧
      LongestFront IsExpression text (String.ofList (text.toList.take stopped.offset)) ∧
      stopped.location = (text.toList.take stopped.offset).foldl Location.after .start := by
  have hmoves : Moves (grammar.runOnStack program) := grammar.moves_runOnStack program
  have hlongest := settled_program.steady.longestFront (by simp [Follows]) hmoves text
  rw [accepts_program] at hlongest
  rcases stop_of_readAt h with ⟨hrun, rfl⟩ | ⟨tree, hrun, -⟩
  · rw [hrun] at hlongest
    exact .inl ⟨rfl, hlongest⟩
  · rw [hrun] at hlongest
    obtain ⟨s, hread⟩ := hmoves.reaches hrun
    have hlength := List.length_pos_iff.2 (settled_program.takes hrun hread)
    have hoffset := hread.offset_eq
    exact .inr ⟨by omega, hlongest⟩

theorem labels_malformed (stopped : Cursor) :
    (Evaluator.malformed stopped).labels =
      [⟨.between stopped.location stopped.location.nextCol,
        if stopped.offset = 0 then "expected an expression" else "unexpected input"⟩] := by
  rw [Evaluator.malformed]
  split <;> rfl

theorem code_malformed (stopped : Cursor) : (Evaluator.malformed stopped).code = "E100" := by
  rw [Evaluator.malformed]
  split <;> rfl

/-- Where a problem with a text comes from: from reading it, from its nesting or
from its tree. -/
theorem failed_cases {e : Evaluator} {text : String} {problem : Diagnostic}
    (h : e.evaluateText text = .ok (.failed problem)) :
    (∃ stopped, readAt text = .ok ⟨none, stopped⟩ ∧ problem = Evaluator.malformed stopped) ∨
      problem = tooDeepProblem ∨
      ∃ tree, read text = .ok (some tree) ∧ e.evaluate tree = .ok (.failed problem) := by
  unfold Evaluator.evaluateText at h
  rcases hread : readAt text with fault | ⟨_ | tree, stopped⟩
  · cases fault <;> simp [hread] at h
    exact .inr (.inl h.symm)
  · simp only [hread, Except.ok.injEq, Evaluation.failed.injEq] at h
    exact .inl ⟨stopped, rfl, h.symm⟩
  · simp only [hread] at h
    exact .inr (.inr ⟨tree, by rw [read, hread]; rfl, h⟩)

/-- Only a text that is no expression is reported as malformed. -/
theorem exists_readAt_of_code {e : Evaluator} {text : String} {problem : Diagnostic}
    (h : e.evaluateText text = .ok (.failed problem)) (hcode : problem.code = "E100") :
    ∃ stopped, readAt text = .ok ⟨none, stopped⟩ ∧ problem = Evaluator.malformed stopped := by
  rcases failed_cases h with hmalformed | rfl | ⟨tree, -, htree⟩
  · exact hmalformed
  · exact absurd hcode (by decide)
  · rcases e.code_of_evaluate htree with hwalk | hdeep
    · rw [hcode] at hwalk
      exact absurd hwalk (by decide)
    · rw [hcode] at hdeep
      exact absurd hdeep (by decide)

/-- Where the label of a malformed text stands, and what it says. -/
theorem label_of_readAt {text : String} {stopped : Cursor}
    (h : readAt text = .ok ⟨none, stopped⟩) :
    ∃ label, (Evaluator.malformed stopped).labels = [label] ∧
      EndsLongest IsExpression text label.span.start ∧
      (label.message = "expected an expression" ↔ NoFront IsExpression text) := by
  refine ⟨_, labels_malformed stopped, ?_⟩
  rcases longestFront_of_readAt h with ⟨rfl, hnone⟩ | ⟨hpos, hlongest, hplace⟩
  · exact ⟨.inr ⟨hnone, rfl⟩, iff_of_true rfl hnone⟩
  · rw [if_neg (by omega)]
    refine ⟨.inl ⟨_, hlongest, ?_⟩, iff_of_false (by simp) hlongest.not_noFront⟩
    rw [String.toList_ofList]
    exact hplace

/-- Where reading stops, and what is reported there. -/
theorem stopped_at_longest (text : String) :
    (∀ stopped, readAt text = .ok ⟨none, stopped⟩ →
      (0 < stopped.offset →
        LongestFront IsExpression text (String.ofList (text.toList.take stopped.offset))) ∧
      (stopped.offset = 0 → NoFront IsExpression text) ∧
      ∀ e : Evaluator, ∃ problem,
        e.evaluateText text = .ok (.failed problem) ∧ problem.code = "E100") ∧
    ∀ (e : Evaluator) (problem : Diagnostic),
      e.evaluateText text = .ok (.failed problem) → problem.code = "E100" →
        ∃ label, problem.labels = [label] ∧
          EndsLongest IsExpression text label.span.start ∧
          (label.message = "expected an expression" ↔ NoFront IsExpression text) := by
  constructor
  · intro stopped hread
    have hmalformed : ∀ e : Evaluator,
        e.evaluateText text = .ok (.failed (Evaluator.malformed stopped)) := by
      intro e
      unfold Evaluator.evaluateText
      simp only [hread]
    refine ⟨fun hpos => ?_, fun hzero => ?_, fun e => ⟨_, hmalformed e, code_malformed stopped⟩⟩
    · rcases longestFront_of_readAt hread with ⟨rfl, -⟩ | ⟨-, hlongest, -⟩
      · exact absurd hpos (Nat.lt_irrefl 0)
      · exact hlongest
    · rcases longestFront_of_readAt hread with ⟨-, hnone⟩ | ⟨hpos, -⟩
      · exact hnone
      · omega
  · intro e problem hproblem hcode
    obtain ⟨stopped, hread, rfl⟩ := exists_readAt_of_code hproblem hcode
    exact label_of_readAt hread

/-- A group that is not closed behind an expression, and a text that begins with
no expression. -/
theorem stopped_at_longest_open_group :
    (∃ stopped, readAt "1 +2*(3" = .ok ⟨none, stopped⟩ ∧ 0 < stopped.offset ∧
      LongestFront IsExpression "1 +2*(3"
        (String.ofList ("1 +2*(3".toList.take stopped.offset))) ∧
    ∃ stopped, readAt "*2" = .ok ⟨none, stopped⟩ ∧ stopped.offset = 0 ∧
      NoFront IsExpression "*2" ∧
      ∃ problem, ({} : Evaluator).evaluateText "*2" = .ok (.failed problem) ∧
        problem.code = "E100" ∧ ∃ label, problem.labels = [label] ∧
          EndsLongest IsExpression "*2" label.span.start := by
  have hgroup : readAt "1 +2*(3" = .ok ⟨none, ⟨"1 +2*(3".toList.toArray, 4, ⟨1, 5⟩⟩⟩ := by
    cbv
  have hsign : readAt "*2" = .ok ⟨none, .start "*2"⟩ := by
    cbv
  have hlongest := ((stopped_at_longest "1 +2*(3").1 _ hgroup).1 (by decide)
  obtain ⟨hreads, hreports⟩ := stopped_at_longest "*2"
  obtain ⟨-, hnone, hmalformed⟩ := hreads _ hsign
  obtain ⟨problem, hproblem, hcode⟩ := hmalformed {}
  obtain ⟨label, hlabels, hends, -⟩ := hreports _ _ hproblem hcode
  exact ⟨⟨_, hgroup, by decide, hlongest⟩, _, hsign, rfl, hnone rfl, problem, hproblem, hcode,
    label, hlabels, hends⟩

end ParserKit.Arith
