import ParserKit.Arith.Grammar
import ParserKit.Proofs.Arith.Derivation

/-!
# What is read is derived

Every rule of the arithmetic grammar reads only what the grammar derives, at
every cursor and at every depth of nesting.  A rule that does not answer ends
in one of two faults: nesting, or a run of digits that is too long.  In
particular no repetition comes to a step that reads nothing.
-/

namespace ParserKit.Arith

open ParserKit.Parser CharClass

/-- A level of the grammar over the parser of its parts. -/
def levelParser (l : Level) (part : ArithParser) : ArithParser :=
  sequence part
    (chainOf (l.operators.map fun op => stepOf (String.singleton op.sign) part op))
    (.chain l)

/-- The steps that a level may go on with, as one parser. -/
def stepsOf (l : Level) (part : ArithParser) : Parser Rule Step :=
  choiceOf (l.operators.map fun op => stepOf (String.singleton op.sign) part op)

theorem factor_eq : factor = levelParser .factor operand := rfl

theorem term_eq : term = levelParser .term factor := rfl

theorem expression_eq : expression = levelParser .expression term := rfl

/-- The faults that reading `s` may end in. -/
def ReadingFault (s : List Char) (fault : Fault) : Prop :=
  fault = .tooDeep ∨ ∃ run, run <:+: s ∧ Run isDigit run ∧
    Decimal.digitLimit < run.length ∧ fault = .tooManyDigits run.length

theorem ReadingFault.of_suffix {s t : List Char} {fault : Fault} (hst : s <:+ t)
    (h : ReadingFault s fault) : ReadingFault t fault := by
  rcases h with h | ⟨run, hrun, hrest⟩
  · exact .inl h
  · exact .inr ⟨run, hrun.trans hst.isInfix, hrest⟩

/-- An outcome at `c` that is a tree, spans aside, of the characters read. -/
def Sound (part : Part) (c : Cursor) : Outcome Node → Prop :=
  Outcome.Meets (ReadingFault c.remaining) True fun tree d =>
    ∃ ts s, c.Reads s d ∧ Spaced ts s ∧ Derives part ts tree.eraseSpans

structure SoundRules (rules : Rules Rule) : Prop where
  expression : ∀ c, Sound (.level .expression) c (rules .expression c)
  operand : ∀ c, Sound .operand c (rules .operand c)

variable {rules : Rules Rule} {c d : Cursor} {s : List Char}

/-- An outcome behind `s` meets what is asked before `s`. -/
theorem Sound.after {part : Part} {o : Outcome Node} {Q : Node → Cursor → Prop}
    (h : Sound part d o) (hread : c.Reads s d)
    (hQ : ∀ tree e ts t, d.Reads t e → Spaced ts t → Derives part ts tree.eraseSpans →
      Q tree e) :
    o.Meets (ReadingFault c.remaining) True Q := by
  apply h.mono (fun _ => ReadingFault.of_suffix hread.suffix) id
  rintro tree e ⟨ts, t, hreads, hspaced, hderives⟩
  exact hQ tree e ts t hreads hspaced hderives

theorem meets_symbol_spaced {F : Fault → Prop} {Q : String → Cursor → Prop} (text : String)
    (t : Token) (hword : t.Written text.toList)
    (hQ : ∀ s d, c.Reads s d → Spaced [t] s → Q text d) :
    ((symbol text : Parser Rule String).runWith rules c).Meets F True Q := by
  apply meets_token _
  intro before d hbefore hblank _
  apply meets_literal text (fun _ => trivial)
  intro e hliteral after e' hafter hblank' _
  refine hQ (before ++ (text.toList ++ after)) e' ?_ (.cons hblank hword (.nil hblank'))
  exact hbefore.append (hliteral.append hafter)

theorem sound_parenOperand (hrules : SoundRules rules) (c : Cursor) :
    Sound .operand c (parenOperand.runWith rules c) := by
  rw [Sound, parenOperand, meets_map, discardRight, meets_sequence, discardLeft,
    meets_sequence]
  apply meets_symbol_spaced "(" .opening .opening
  intro s₁ d₁ hread₁ hopen
  rw [meets_ref]
  apply (hrules.expression d₁).after hread₁
  intro body d₂ ts s₂ hread₂ hbody hderives
  apply meets_symbol_spaced ")" .closing .closing
  intro s₃ d₃ hread₃ hclose
  have hread := hread₁.append (hread₂.append hread₃)
  exact ⟨_, _, hread, hopen.append (hbody.append hclose), .paren hderives⟩

theorem sound_numberOperand (c : Cursor) :
    Sound .operand c (numberOperand.runWith rules c) := by
  apply meets_token _
  intro before d hbefore hblank _
  rw [located, meets_map, meets_withLocation]
  refine meets_nat (fun _ => trivial) (fun run e hread hrun _ hlong => ?_)
    fun run e hread hne hrun _ _ after e' hafter hblank' _ => ?_
  · refine .inr ⟨run, ?_, hrun, hlong, rfl⟩
    exact ⟨before, e.remaining, by
      rw [hbefore.remaining_eq, hread.remaining_eq, List.append_assoc]⟩
  · have hread' := hbefore.append (hread.append hafter)
    exact ⟨_, _, hread', .cons hblank (.number hne hrun) (.nil hblank'), .number _⟩

theorem sound_nameOperand (c : Cursor) :
    Sound .operand c (nameOperand.runWith rules c) := by
  apply meets_token _
  intro before d hbefore hblank _
  rw [located, meets_map, meets_withLocation]
  refine meets_ident (fun _ => trivial)
    fun ch s e hread hletter hs _ after e' hafter hblank' _ => ?_
  have hread' := hbefore.append (hread.append hafter)
  exact ⟨_, _, hread', .cons hblank (.name hletter hs) (.nil hblank'), .name _⟩

theorem Token.written_sign (op : Operator) :
    (Token.operator op).Written (String.singleton op.sign).toList := by
  rw [String.toList_singleton]
  exact .operator op

/-- An operand behind a sign. -/
theorem meets_signedOperand (hrules : SoundRules rules) {Q : Node → Cursor → Prop}
    (op : Operator)
    (hQ : ∀ tree d ts s, c.Reads s d → Spaced (.operator op :: ts) s →
      Derives .operand ts tree.eraseSpans → Q tree d) :
    ((discardLeft (symbol (String.singleton op.sign)) (ref .operand)).runWith rules c).Meets
      (ReadingFault c.remaining) True Q := by
  rw [discardLeft, meets_sequence]
  refine meets_symbol_spaced _ (.operator op) (Token.written_sign op)
    fun s d hread hspaced => ?_
  rw [meets_ref]
  apply (hrules.operand d).after hread
  intro tree e ts t hread' hspaced' hderives
  exact hQ tree e ts _ (hread.append hread') (hspaced.append hspaced') hderives

theorem sound_operand (hrules : SoundRules rules) (c : Cursor) :
    Sound .operand c (operand.runWith rules c) := by
  apply meets_choiceOf _ trivial
  intro p hp
  simp only [List.mem_cons, List.not_mem_nil, or_false] at hp
  rcases hp with rfl | rfl | rfl | rfl | rfl
  · exact sound_parenOperand hrules c
  · exact sound_numberOperand c
  · exact sound_nameOperand c
  · rw [minusOperand, meets_map]
    exact meets_signedOperand hrules .subtract fun tree d ts s hread hspaced hderives =>
      ⟨_, s, hread, hspaced, .minus hderives⟩
  · exact meets_signedOperand hrules .add fun tree d ts s hread hspaced hderives =>
      ⟨_, s, hread, hspaced, .plus hderives⟩

theorem Spaced.ne_nil {t : Token} {ts : List Token} (h : Spaced (t :: ts) s) : s ≠ [] := by
  cases h with
  | cons _ hword _ => cases hword <;> simp_all

/-- One step of a chain reads its operator and its operand, so it moves on. -/
theorem meets_stepOf {l : Level} {part : ArithParser} (op : Operator)
    (hpart : ∀ c, Sound l.part c (part.runWith rules c)) {Q : Step → Cursor → Prop}
    (hQ : ∀ operand span e us s, d.Reads s e → e.left < d.left →
      Spaced (.operator op :: us) s → Derives l.part us operand.eraseSpans →
      Q (op, operand, span) e) :
    ((stepOf (String.singleton op.sign) part op).runWith rules d).Meets
      (ReadingFault d.remaining) True Q := by
  rw [stepOf, meets_map, meets_withLocation, discardLeft, meets_sequence]
  refine meets_symbol_spaced _ (.operator op) (Token.written_sign op)
    fun s₁ d₁ hread₁ hspaced => ?_
  apply (hpart d₁).after hread₁
  intro operand e us s₂ hread₂ hspaced' hderives
  have hread := hread₁.append hread₂
  have hboth := hspaced.append hspaced'
  refine hQ operand _ e us _ hread ?_ hboth hderives
  have hleft := hread.left_eq
  have hlength := List.length_pos_iff.2 hboth.ne_nil
  omega

theorem sound_levelParser (l : Level) {part : ArithParser}
    (hpart : ∀ c, Sound l.part c (part.runWith rules c)) (c : Cursor) :
    Sound (.level l) c ((levelParser l part).runWith rules c) := by
  rw [levelParser, Sound, meets_sequence]
  apply (hpart c).after (.nil c)
  intro head d us s hread hspaced hhead
  rw [chainOf, meets_map]
  -- The steps read so far are a tail, and the loop ends with the tail that was read.
  refine meets_many_of_invariant _
    (fun steps e => ∃ vs t, d.Reads t e ∧ Spaced vs t ∧
      Derives (.tail l) vs (Node.ofSteps steps).eraseSpans)
    ⟨[], [], .nil d, .nil (by simp [Run]), .done l⟩ ?_
  rintro steps e ⟨vs, t, hread', hspaced', htail⟩
  refine Outcome.Meets.mono (F := ReadingFault e.remaining) (N := True) ?_
    (fun _ => ReadingFault.of_suffix (hread'.suffix.trans hread.suffix))
    (fun _ => ⟨_, _, hread.append hread', hspaced.append hspaced', .chain hhead htail⟩)
    fun _ _ hQ => hQ
  apply meets_choiceOf _ trivial
  intro p hp
  obtain ⟨op, hop, rfl⟩ := List.mem_map.1 hp
  apply meets_stepOf op hpart
  intro operand span e' us' s' hread'' hlt hspaced'' hoperand
  exact ⟨hlt, _, _, hread'.append hread'', hspaced'.append hspaced'', htail.snoc hop hoperand span⟩

theorem sound_expression (hrules : SoundRules rules) (c : Cursor) :
    Sound (.level .expression) c (expression.runWith rules c) := by
  rw [expression_eq, term_eq, factor_eq]
  exact sound_levelParser .expression
    (sound_levelParser .term (sound_levelParser .factor (sound_operand hrules))) c

/-- By induction on the depth: a rule that may open no reference ends in a
fault of nesting. -/
theorem soundRules_rule (depth : Nat) : SoundRules (Grammar.rule grammar depth) := by
  induction depth with
  | zero => exact ⟨fun _ => .inl rfl, fun _ => .inl rfl⟩
  | succ depth ih => exact ⟨sound_expression ih, sound_operand ih⟩

end ParserKit.Arith
