import ParserKit.Proofs.Arith.Soundness

/-!
# What is derived is read

Where the characters in front of a cursor spell a part of the grammar and no
character behind them could go on with it, the parser of that part reads just
these characters, unless its tokens stand deeper than its rules may nest.  So
neither the greed of repetitions nor the order of alternatives loses a
derivation, and no length of a chain counts as nesting.
-/

namespace ParserKit.Arith

open ParserKit.Parser CharClass

/-- Tokens with any blanks behind each of them. -/
inductive Laid : List Token → List Char → Prop
  | nil : Laid [] []
  | cons {t : Token} {ts : List Token} {word blanks s : List Char} (hword : t.Written word)
      (hblank : Blank blanks) (more : Laid ts s) : Laid (t :: ts) (word ++ (blanks ++ s))

variable {ts us vs : List Token} {s s' word rest : List Char} {tree : Node} {ch : Char}

theorem Spaced.exists_laid (h : Spaced ts s) :
    ∃ blanks t, s = blanks ++ t ∧ Blank blanks ∧ Laid ts t := by
  induction h with
  | @nil blanks hblank => exact ⟨blanks, [], (List.append_nil blanks).symm, hblank, .nil⟩
  | cons hblank hword _ ih =>
      obtain ⟨blanks, t, rfl, hblank', hlaid⟩ := ih
      exact ⟨_, _, rfl, hblank, .cons hword hblank' hlaid⟩

theorem Laid.of_append (h : Laid (us ++ vs) s) :
    ∃ t t', s = t ++ t' ∧ Laid us t ∧ Laid vs t' := by
  induction us generalizing s with
  | nil => exact ⟨[], s, rfl, .nil, h⟩
  | cons u us ih =>
      rw [List.cons_append] at h
      cases h with
      | cons hword hblank more =>
          obtain ⟨t, t', rfl, ht, ht'⟩ := ih more
          exact ⟨_, t', by simp only [List.append_assoc], .cons hword hblank ht, ht'⟩

theorem Operator.isSpace_sign (op : Operator) : isSpace op.sign = false := by
  cases op <;> rfl

/-- No token begins with a blank. -/
theorem Token.Written.stops {t : Token} (h : t.Written word) (s : List Char) :
    Stops isSpace (word ++ s) := by
  cases h with
  | opening => exact (stops_cons ..).2 rfl
  | closing => exact (stops_cons ..).2 rfl
  | operator op => cases op <;> exact (stops_cons ..).2 rfl
  | @number digits hne hdigits =>
      cases word with
      | nil => exact absurd rfl hne
      | cons ch more =>
          have hdigit : isDigit ch = true := hdigits ch (by simp)
          exact (stops_cons ..).2 (isSpace_eq_false_of_isAlphanum (by simp [isAlphanum, hdigit]))
  | name hletter hs =>
      exact (stops_cons ..).2 (isSpace_eq_false_of_isAlphanum (by simp [isAlphanum, hletter]))

theorem Laid.stops (h : Laid ts s) (hrest : Stops isSpace rest) :
    Stops isSpace (s ++ rest) := by
  cases h with
  | nil => exact hrest
  | cons hword _ _ =>
      rw [List.append_assoc]
      exact hword.stops _

/-! ## What may stand behind a part -/

def Level.follow : Level → List Char
  | expression => [')']
  | term => [')', '+', '-']
  | factor => [')', '+', '-', '*', '/']

def Part.follow : Part → List Char
  | operand => [')', '+', '-', '*', '/', '^']
  | level l => l.follow
  | tail l => l.follow

/-- The characters do not go on with a part. -/
def Follows (part : Part) (rest : List Char) : Prop := ∀ ch ∈ rest.head?, ch ∈ part.follow

theorem Level.follow_subset (l : Level) : l.follow ⊆ l.part.follow := by
  cases l <;> simp [Level.follow, Level.part, Part.follow]

theorem sign_mem_follow {l : Level} {op : Operator} (hop : op ∈ l.operators) :
    op.sign ∈ l.part.follow := by
  cases l <;> cases op <;>
    simp [Level.operators, Operator.sign, Level.part, Part.follow, Level.follow] at hop ⊢

theorem sign_not_mem_follow {l : Level} {op : Operator} (hop : op ∈ l.operators) :
    op.sign ∉ l.follow := by
  cases l <;> cases op <;> simp [Level.operators, Operator.sign, Level.follow] at hop ⊢

theorem sign_injective {op op' : Operator} (h : op.sign = op'.sign) : op = op' := by
  cases op <;> cases op' <;> simp [Operator.sign] at h ⊢

theorem Follows.stops {part : Part} (h : Follows part rest) {k : Char → Bool}
    (hk : Part.operand.follow.any k = false) : Stops k rest := by
  have hsubset : part.follow ⊆ Part.operand.follow := by
    rcases part with _ | l | l
    · exact fun _ hch => hch
    all_goals cases l <;> simp [Part.follow, Level.follow]
  intro ch hch
  exact Bool.eq_false_iff.2 (List.any_eq_false.1 hk ch (hsubset (h ch hch)))

theorem Follows.stops_isSpace {part : Part} (h : Follows part rest) : Stops isSpace rest :=
  h.stops (by decide)

/-- A word of a class ends at the blanks behind it or at what follows. -/
theorem Follows.stops_blanks {part : Part} {blanks : List Char} (h : Follows part rest)
    (hblank : Blank blanks) {k : Char → Bool} (hk : Part.operand.follow.any k = false)
    (hspace : ∀ ch, isSpace ch = true → k ch = false) : Stops k (blanks ++ rest) := by
  cases blanks with
  | nil => exact h.stops hk
  | cons ch more => exact (stops_cons ..).2 (hspace ch (hblank ch (by simp)))

theorem Follows.of_laid_tail {l : Level} (hrest : Follows (.tail l) rest)
    (hderives : Derives (.tail l) vs tree) (hlaid : Laid vs s) : Follows l.part (s ++ rest) := by
  cases hderives with
  | done =>
      cases hlaid
      exact fun ch hch => l.follow_subset (hrest ch hch)
  | step hop _ _ =>
      cases hlaid with
      | cons hword _ _ =>
          cases hword
          intro ch hch
          obtain rfl : _ = ch := by simpa using hch
          exact sign_mem_follow hop

/-! ## Alternatives that do not match -/

section Alternatives

variable {rules : Rules Rule} {c : Cursor}

theorem parenOperand_eq_none (hspace : Stops isSpace c.remaining)
    (hhead : c.remaining.head? ≠ some '(') : parenOperand.runWith rules c = .ok none := by
  have hno : ¬ "(".toList <+: c.remaining := by
    rintro ⟨more, hmore⟩
    exact hhead (by rw [← hmore]; rfl)
  apply Outcome.Meets.eq_none
  rw [parenOperand, meets_map, discardRight, meets_sequence, discardLeft, meets_sequence,
    symbol_eq_none "(" hspace hno]
  trivial

theorem numberOperand_eq_none (hspace : Stops isSpace c.remaining)
    (hdigit : Stops isDigit c.remaining) : numberOperand.runWith rules c = .ok none := by
  refine Outcome.Meets.eq_none (meets_token_of_stops _ hspace ?_)
  rw [located, meets_map, meets_withLocation]
  have hno : ∀ {run : List Char} {d : Cursor}, c.Reads run d → run ≠ [] → ¬ Run isDigit run :=
    fun hread hne hrun => hne (hrun.eq_nil_of_stops (hread.remaining_eq ▸ hdigit))
  refine meets_nat (fun _ => trivial) (fun run d hread hrun _ hlong => ?_)
    fun run d hread hne hrun _ _ => absurd hrun (hno hread hne)
  refine hno hread (fun hnil => ?_) hrun
  rw [hnil] at hlong
  exact absurd hlong (by simp)

theorem nameOperand_eq_none (hspace : Stops isSpace c.remaining)
    (hletter : Stops isLetter c.remaining) : nameOperand.runWith rules c = .ok none := by
  refine Outcome.Meets.eq_none (meets_token_of_stops _ hspace ?_)
  rw [located, meets_map, meets_withLocation]
  apply meets_ident (fun _ => trivial)
  intro ch s d hread htrue
  rw [hread.remaining_eq, List.cons_append, stops_cons, htrue] at hletter
  exact absurd hletter (by simp)

theorem signedOperand_eq_none (op : Operator) (hspace : Stops isSpace c.remaining)
    (hhead : c.remaining.head? ≠ some op.sign) {α : Type} (p : Parser Rule α) :
    (discardLeft (symbol (String.singleton op.sign)) p).runWith rules c = .ok none := by
  have hno : ¬ (String.singleton op.sign).toList <+: c.remaining := by
    rw [String.toList_singleton]
    rintro ⟨more, hmore⟩
    exact hhead (by rw [← hmore]; rfl)
  apply Outcome.Meets.eq_none
  rw [discardLeft, meets_sequence, symbol_eq_none _ hspace hno]
  trivial

theorem minusOperand_eq_none (hspace : Stops isSpace c.remaining)
    (hhead : c.remaining.head? ≠ some '-') : minusOperand.runWith rules c = .ok none := by
  apply Outcome.Meets.eq_none
  rw [minusOperand, meets_map]
  have hnone : (discardLeft (symbol "-") (ref Rule.operand)).runWith rules c = .ok none :=
    signedOperand_eq_none .subtract hspace hhead _
  rw [hnone]
  trivial

/-- An operator is the start of no operand without a sign. -/
theorem unsigned_eq_none (op : Operator) (hspace : Stops isSpace c.remaining)
    (hhead : c.remaining.head? = some op.sign) :
    ∀ q ∈ [parenOperand, numberOperand, nameOperand], q.runWith rules c = .ok none := by
  have hstops : ∀ k : Char → Bool, k op.sign = false → Stops k c.remaining := by
    intro k hk ch hch
    obtain rfl : op.sign = ch := by simpa [hhead] using hch
    exact hk
  intro q hq
  simp only [List.mem_cons, List.not_mem_nil, or_false] at hq
  rcases hq with rfl | rfl | rfl
  · exact parenOperand_eq_none hspace (by cases op <;> simp [hhead, Operator.sign])
  · exact numberOperand_eq_none hspace (hstops _ (by cases op <;> rfl))
  · exact nameOperand_eq_none hspace (hstops _ (by cases op <;> rfl))

end Alternatives

/-! ## Parts of the grammar -/

/-- The parser `run` reads every text of a part that is followed by nothing
that could go on with it, at least if its tokens nest less deep than the limit. -/
def Completes (limit : Nat) (part : Part) (run : Cursor → Outcome Node) : Prop :=
  ∀ ⦃n ts tree s rest c⦄, DerivesWithin n part ts tree → Laid ts s → Follows part rest →
    ShortRuns s → c.remaining = s ++ rest →
    (run c).Meets (DeepFault limit n) False fun found d =>
      found.eraseSpans = tree ∧ d.remaining = rest

structure CompleteRules (limit : Nat) (rules : Rules Rule) : Prop where
  expression : Completes limit (.level .expression) (rules .expression)
  operand : Completes limit .operand (rules .operand)

section Parts

variable {rules : Rules Rule} {c : Cursor} {limit n : Nat}

theorem meets_parenOperand (hrules : CompleteRules limit rules)
    (hbody : DerivesWithin n (.level .expression) ts tree)
    (hlaid : Laid (.opening :: (ts ++ [.closing])) s) (hrest : Follows .operand rest)
    (hshort : ShortRuns s) (hc : c.remaining = s ++ rest) :
    (parenOperand.runWith rules c).Meets (DeepFault (limit + 1) (n + 1)) False fun found d =>
      found.eraseSpans = .paren tree ∧ d.remaining = rest := by
  have hstart := hlaid.stops hrest.stops_isSpace
  cases hlaid with
  | @cons _ _ _ blanks _ hword hblank hmore =>
  obtain ⟨s₁, s₂, rfl, hlaid₁, hlaid₂⟩ := hmore.of_append
  have hclose := hlaid₂.stops hrest.stops_isSpace
  cases hlaid₂ with
  | @cons _ _ _ blanks' _ hword' hblank' hnil =>
  cases hnil
  cases hword
  cases hword'
  rw [parenOperand, meets_map, discardRight, meets_sequence, discardLeft, meets_sequence]
  rw [List.append_nil] at hc hclose
  have hbehind : Follows (.level .expression) ([')'] ++ (blanks' ++ rest)) := by
    intro ch hch
    obtain rfl : ')' = ch := by simpa using hch
    simp [Part.follow, Level.follow]
  have hopen : c.remaining = ['('] ++ (blanks ++ (s₁ ++ ([')'] ++ (blanks' ++ rest)))) := by
    simpa using hc
  refine meets_symbol_of_remaining "(" hopen (hc ▸ by simpa using hstart) hblank
    (hlaid₁.stops (by simpa using hclose)) fun d hd => ?_
  rw [meets_ref]
  have hshort' : ShortRuns s₁ := hshort.of_infix ⟨['('] ++ blanks, [')'] ++ blanks', by simp⟩
  refine (hrules.expression hbody hlaid₁ hbehind hshort' hd).mono (fun _ => DeepFault.succ) id ?_
  rintro body e ⟨htree, he⟩
  refine meets_symbol_of_remaining ")" he
    (he ▸ by simpa using hclose) hblank' hrest.stops_isSpace fun e' he' => ?_
  exact ⟨congrArg Node.paren htree, he'⟩

theorem meets_numberOperand {F : Fault → Prop} {digits blanks : List Char} (hne : digits ≠ [])
    (hdigits : Run isDigit digits) (hblank : Blank blanks) (hrest : Follows .operand rest)
    (hshort : digits.length ≤ Decimal.digitLimit) (hspace : Stops isSpace c.remaining)
    (hc : c.remaining = digits ++ (blanks ++ rest)) :
    (numberOperand.runWith rules c).Meets F False fun found d =>
      found.eraseSpans = .number (Decimal.value digits) none ∧ d.remaining = rest := by
  apply meets_token_of_stops _ hspace
  rw [located, meets_map, meets_withLocation]
  have hbehind : Stops isDigit (blanks ++ rest) :=
    hrest.stops_blanks hblank (by decide) fun _ => isDigit_eq_false_of_isSpace
  refine meets_nat_of_remaining hne hdigits hshort hbehind hc
    fun d hd after e hafter hblank' hstops' => ⟨rfl, ?_⟩
  rw [hafter.remaining_eq] at hd
  exact (hblank'.append_inj hblank hstops' hrest.stops_isSpace hd).2

theorem meets_nameOperand {F : Fault → Prop} {ch : Char} {more blanks : List Char}
    (hletter : isLetter ch = true) (hmore : Run isAlphanum more) (hblank : Blank blanks)
    (hrest : Follows .operand rest)
    (hspace : Stops isSpace c.remaining) (hc : c.remaining = ch :: more ++ (blanks ++ rest)) :
    (nameOperand.runWith rules c).Meets F False fun found d =>
      found.eraseSpans = .identifier (String.ofList (ch :: more)) none ∧ d.remaining = rest := by
  apply meets_token_of_stops _ hspace
  rw [located, meets_map, meets_withLocation]
  have hbehind : Stops isAlphanum (blanks ++ rest) :=
    hrest.stops_blanks hblank (by decide) fun _ => isAlphanum_eq_false_of_isSpace
  refine meets_ident_of_remaining hletter hmore hbehind hc
    fun d hd after e hafter hblank' hstops' => ⟨rfl, ?_⟩
  rw [hafter.remaining_eq] at hd
  exact (hblank'.append_inj hblank hstops' hrest.stops_isSpace hd).2

theorem meets_signedOperand_of_remaining (hrules : CompleteRules limit rules) {op : Operator}
    {blanks : List Char} (hoperand : DerivesWithin n .operand ts tree) (hlaid : Laid ts s)
    (hblank : Blank blanks) (hrest : Follows .operand rest) (hshort : ShortRuns s)
    (hspace : Stops isSpace c.remaining)
    (hc : c.remaining = [op.sign] ++ (blanks ++ (s ++ rest))) :
    ((discardLeft (symbol (String.singleton op.sign)) (ref .operand)).runWith rules c).Meets
      (DeepFault (limit + 1) (n + 1)) False fun found d =>
        found.eraseSpans = tree ∧ d.remaining = rest := by
  rw [discardLeft, meets_sequence]
  refine meets_symbol_of_remaining _ (by rw [String.toList_singleton, hc]) hspace hblank
    (hlaid.stops hrest.stops_isSpace) fun d hd => ?_
  rw [meets_ref]
  exact (hrules.operand hoperand hlaid hrest hshort hd).mono (fun _ => DeepFault.succ) id
    fun _ _ h => h

theorem completes_operand (hrules : CompleteRules limit rules) :
    Completes (limit + 1) .operand (operand.runWith rules) := by
  intro n ts tree s rest c hderives hlaid hrest hshort hc
  have hspace : Stops isSpace c.remaining := hc ▸ hlaid.stops hrest.stops_isSpace
  -- The first character decides the alternative: those before it fail on that character.
  cases hderives with
  | paren hbody =>
      exact meets_choiceOf_append [] (by simp)
        (meets_parenOperand hrules hbody hlaid hrest hshort hc)
  | number n =>
      cases hlaid with
      | @cons _ _ digits blanks _ hword hblank hnil =>
      cases hnil
      cases hword with
      | number hne hdigits =>
      rw [List.append_nil, List.append_assoc] at hc
      have hlength := hshort digits (List.prefix_append _ _).isInfix hdigits
      have hparen : c.remaining.head? ≠ some '(' := by
        obtain ⟨ch, more, rfl⟩ := List.exists_cons_of_ne_nil hne
        rw [hc]
        rintro ⟨⟩
        exact absurd (hdigits '(' (by simp)) (by decide)
      exact meets_choiceOf_append [parenOperand]
        (by simpa using parenOperand_eq_none hspace hparen)
        (meets_numberOperand hne hdigits hblank hrest hlength hspace hc)
  | name name =>
      cases hlaid with
      | cons hword hblank hnil =>
      cases hnil
      cases hword with
      | name hletter hmore =>
      rw [List.append_nil, List.append_assoc] at hc
      have hparen : c.remaining.head? ≠ some '(' := by
        rw [hc]
        rintro ⟨⟩
        exact absurd hletter (by decide)
      have hdigit : Stops isDigit c.remaining := by
        rw [hc]
        exact (stops_cons ..).2 (isDigit_eq_false_of_isLetter hletter)
      exact meets_choiceOf_append [parenOperand, numberOperand]
        (by simpa using
          ⟨parenOperand_eq_none hspace hparen, numberOperand_eq_none hspace hdigit⟩)
        (meets_nameOperand hletter hmore hblank hrest hspace hc)
  | minus hoperand =>
      cases hlaid with
      | cons hword hblank hmore =>
      cases hword
      rw [List.append_assoc, List.append_assoc] at hc
      refine meets_choiceOf_append [parenOperand, numberOperand, nameOperand]
        (unsigned_eq_none .subtract hspace (by simp [hc])) ?_
      rw [minusOperand, meets_map]
      have hshort' :=
        hshort.of_infix (List.suffix_append_of_suffix (List.suffix_append _ _)).isInfix
      apply (meets_signedOperand_of_remaining hrules hoperand hmore hblank hrest hshort' hspace
        hc).imp
      rintro found d ⟨htree, hd⟩
      exact ⟨congrArg Node.negate htree, hd⟩
  | plus hoperand =>
      cases hlaid with
      | cons hword hblank hmore =>
      cases hword
      rw [List.append_assoc, List.append_assoc] at hc
      have hminus : minusOperand.runWith rules c = .ok none :=
        minusOperand_eq_none hspace (by simp [hc, Operator.sign])
      refine meets_choiceOf_append [parenOperand, numberOperand, nameOperand, minusOperand]
        (fun q hq => ?_) ?_
      · rcases List.mem_append.1 (show q ∈ [parenOperand, numberOperand, nameOperand] ++
          [minusOperand] from hq) with hq | hq
        · exact unsigned_eq_none .add hspace (by simp [hc]) q hq
        · rwa [List.mem_singleton.1 hq]
      · have hshort' := hshort.of_infix
          (List.suffix_append_of_suffix (List.suffix_append _ _)).isInfix
        exact meets_signedOperand_of_remaining hrules hoperand hmore hblank hrest hshort' hspace hc

/-- Steps in front of a tail. -/
def prependSteps (steps : List Step) (tail : Node) : Node :=
  steps.foldr (fun step rest => .step step.1 step.2.1 rest step.2.2) tail

theorem eraseSpans_prependSteps_congr {tail tail' : Node} (steps : List Step)
    (h : tail.eraseSpans = tail'.eraseSpans) :
    (prependSteps steps tail).eraseSpans = (prependSteps steps tail').eraseSpans := by
  induction steps with
  | nil => exact h
  | cons step more ih =>
      simp only [prependSteps, List.foldr_cons, Node.eraseSpans] at ih ⊢
      rw [ih]

theorem stepOf_eq_none {op : Operator} {part : ArithParser} (hspace : Stops isSpace c.remaining)
    (hhead : c.remaining.head? ≠ some op.sign) :
    (stepOf (String.singleton op.sign) part op).runWith rules c = .ok none := by
  apply Outcome.Meets.eq_none
  rw [stepOf, meets_map, meets_withLocation, signedOperand_eq_none op hspace hhead]
  trivial

theorem meets_stepOf_of_remaining {l : Level} {part : ArithParser} {op : Operator}
    {blanks : List Char} (hpart : Completes limit l.part (part.runWith rules))
    (hoperand : DerivesWithin n l.part us tree) (hlaid : Laid us s) (hblank : Blank blanks)
    (hspace : Stops isSpace rest) (hrest : Follows l.part rest) (hshort : ShortRuns s)
    (hc : c.remaining = [op.sign] ++ (blanks ++ (s ++ rest))) :
    ((stepOf (String.singleton op.sign) part op).runWith rules c).Meets (DeepFault limit n) False
      fun found d => found.1 = op ∧ found.2.1.eraseSpans = tree ∧ d.remaining = rest := by
  rw [stepOf, meets_map, meets_withLocation, discardLeft, meets_sequence]
  have hstart : Stops isSpace c.remaining := hc ▸ (Token.Written.operator op).stops _
  refine meets_symbol_of_remaining _ (by rw [String.toList_singleton, hc]) hstart hblank
    (hlaid.stops hspace) fun d hd => ?_
  exact (hpart hoperand hlaid hrest hshort hd).imp fun found e h => ⟨rfl, h⟩

/-- The rest of a chain is read step by step: `steps` are those read so far. -/
theorem completes_levelParser (l : Level) {part : ArithParser}
    (hpart : Completes limit l.part (part.runWith rules)) :
    Completes limit (.level l) ((levelParser l part).runWith rules) := by
  intro n ts tree s rest c hderives hlaid hrest hshort hc
  cases hderives with
  | @chain _ _ us vs head tail hhead htail =>
  obtain ⟨s₁, s₂, rfl, hlaid₁, hlaid₂⟩ := hlaid.of_append
  rw [List.append_assoc] at hc
  have hshort₁ := hshort.of_infix (List.prefix_append s₁ s₂).isInfix
  have hshort₂ := hshort.of_infix (List.suffix_append s₁ s₂).isInfix
  have hbehind : Follows l.part (s₂ ++ rest) := Follows.of_laid_tail hrest htail.derives hlaid₂
  rw [levelParser, meets_sequence]
  apply (hpart hhead hlaid₁ hbehind hshort₁ hc).imp
  rintro found d ⟨hfound, hd⟩
  rw [chainOf, meets_map]
  apply meets_many_of_invariant _
    (fun steps e => ∃ vs' t tail', DerivesWithin n (.tail l) vs' tail' ∧ Laid vs' t ∧ ShortRuns t ∧
      e.remaining = t ++ rest ∧ (prependSteps steps tail').eraseSpans = tail)
    ⟨vs, s₂, tail, htail, hlaid₂, hshort₂, hd, htail.derives.eraseSpans_eq⟩
  rintro steps e ⟨vs', t, tail', htail', hlaid', hshort', he, hsteps⟩
  have hspace : Stops isSpace e.remaining := he ▸ hlaid'.stops hrest.stops_isSpace
  cases htail' with
  | done =>
      cases hlaid'
      have hnone : ∀ op ∈ l.operators,
          (stepOf (String.singleton op.sign) part op).runWith rules e = .ok none := by
        intro op hop
        apply stepOf_eq_none hspace
        intro hhead
        rw [he] at hhead
        exact sign_not_mem_follow hop (hrest _ hhead)
      have hdone : (Node.chain l found (Node.ofSteps steps)).eraseSpans = .chain l head tail ∧
          e.remaining = rest := by
        rw [Node.eraseSpans, hfound]
        exact ⟨congrArg (Node.chain l head) hsteps, he⟩
      apply meets_choiceOf _ hdone
      intro p hp
      obtain ⟨op, hop, rfl⟩ := List.mem_map.1 hp
      rw [hnone op hop]
      exact hdone
  | @step _ _ op us' vs'' operand rest' hop hoperand hrest' =>
      cases hlaid' with
      | @cons _ _ _ blanks _ hword hblank hmore =>
      cases hword
      obtain ⟨t₁, t₂, rfl, hlaid₃, hlaid₄⟩ := hmore.of_append
      have hshort₃ : ShortRuns t₁ := hshort'.of_infix ⟨[op.sign] ++ blanks, t₂, by simp⟩
      have hshort₄ : ShortRuns t₂ := hshort'.of_infix ⟨[op.sign] ++ (blanks ++ t₁), [], by simp⟩
      have hbehind' : Follows l.part (t₂ ++ rest) :=
        Follows.of_laid_tail hrest hrest'.derives hlaid₄
      have he' : e.remaining = [op.sign] ++ (blanks ++ (t₁ ++ (t₂ ++ rest))) := by simpa using he
      obtain ⟨before, after, hsplit, hother⟩ := List.eq_append_cons_of_mem hop
      rw [hsplit, List.map_append, List.map_cons]
      refine meets_choiceOf_append _ (fun q hq => ?_) ?_
      · obtain ⟨op', hop', rfl⟩ := List.mem_map.1 hq
        refine stepOf_eq_none hspace fun hhead => hother ?_
        rw [he'] at hhead
        have hsign : op.sign = op'.sign := by simpa using hhead
        exact sign_injective hsign ▸ hop'
      · apply (meets_stepOf_of_remaining hpart hoperand hlaid₃ hblank
          (hlaid₄.stops hrest.stops_isSpace) hbehind' hshort₃ he').imp
        rintro step e'' ⟨hop', htree, he''⟩
        refine ⟨?_, vs'', t₂, rest', hrest', hlaid₄, hshort₄, he'', ?_⟩
        · simp only [Cursor.left_eq_length_remaining, he', he'', List.length_append,
            List.length_singleton]
          omega
        · rw [← hsteps, prependSteps, List.foldr_append]
          apply eraseSpans_prependSteps_congr steps
          simp only [List.foldr_cons, List.foldr_nil, Node.eraseSpans, hop', htree]
          rw [hoperand.derives.eraseSpans_eq]

theorem completes_expression (hrules : CompleteRules limit rules) :
    Completes (limit + 1) (.level .expression) (expression.runWith rules) := by
  rw [expression_eq, term_eq, factor_eq]
  exact completes_levelParser .expression
    (completes_levelParser .term (completes_levelParser .factor (completes_operand hrules)))

/-- By induction on the depth, as for soundness. -/
theorem completeRules_rule (depth : Nat) : CompleteRules depth (Grammar.rule grammar depth) := by
  induction depth with
  | zero =>
      exact ⟨fun n _ _ _ _ _ _ _ _ _ _ => ⟨rfl, Nat.zero_le n⟩,
        fun n _ _ _ _ _ _ _ _ _ _ => ⟨rfl, Nat.zero_le n⟩⟩
  | succ depth ih => exact ⟨completes_expression ih, completes_operand ih⟩

end Parts

end ParserKit.Arith
