import ParserKit.Proofs.Arith.Names

/-!
# Definitions and what they define

A definition is a name, an equals sign and an integer without any blanks, and a
list of them makes a store: the last definition of a name counts.  A list with
anything else in it is refused at the first text that is no definition.  The
names that can be defined are just the names that expressions look up.
-/

namespace ParserKit

open ParserKit.Parser CharClass

namespace Definition

/-- How a definition is spelled. -/
inductive Spelled : Definition → List Char → Prop
  | positive {name digits : List Char} (hname : IsName name) (hne : digits ≠ [])
      (hdigits : Run isDigit digits) :
      Spelled ⟨String.ofList name, Decimal.value digits⟩ (name ++ '=' :: digits)
  | negative {name digits : List Char} (hname : IsName name) (hne : digits ≠ [])
      (hdigits : Run isDigit digits) :
      Spelled ⟨String.ofList name, -Decimal.value digits⟩ (name ++ '=' :: '-' :: digits)

/-- The text is `NAME=VALUE`. -/
def IsDefinition (text : String) : Prop := ∃ d, Spelled d text.toList

variable {R : Type → Type} {rules : Rules R} {c : Cursor} {d : Definition} {text : String}
variable {name digits : List Char} {sign : String}

/-! ## Reading one definition -/

theorem spelled_ofParts (hname : IsName name) (hsign : sign = "" ∨ sign = "-")
    (hne : digits ≠ []) (hdigits : Run isDigit digits) :
    Spelled (ofParts (String.ofList name) sign (Decimal.value digits))
      (name ++ '=' :: (sign.toList ++ digits)) := by
  rcases hsign with rfl | rfl
  · exact .positive hname hne hdigits
  · exact .negative hname hne hdigits

theorem Spelled.exists_parts {s : List Char} (h : Spelled d s) :
    ∃ name sign digits, IsName name ∧ (sign = "" ∨ sign = "-") ∧ digits ≠ [] ∧
      Run isDigit digits ∧ s = name ++ '=' :: (sign.toList ++ digits) ∧
      d = ofParts (String.ofList name) sign (Decimal.value digits) := by
  cases h with
  | @positive name digits hname hne hdigits =>
      exact ⟨name, "", digits, hname, .inl rfl, hne, hdigits, rfl, rfl⟩
  | @negative name digits hname hne hdigits =>
      exact ⟨name, "-", digits, hname, .inr rfl, hne, hdigits, rfl, rfl⟩

/-- The sign in front of a cursor, or none. -/
theorem meets_sign {F : Fault → Prop} {N : Prop} {Q : String → Cursor → Prop}
    (hQ : ∀ sign e, (sign = "" ∨ sign = "-") → c.Reads sign.toList e → Q sign e) :
    ((optionalString (literal "-") : Parser R String).runWith rules c).Meets F N Q := by
  rw [optionalString, Parser.optional, meets_orElse, meets_success]
  apply meets_literal "-"
  · intro _
    exact hQ "" c (.inl rfl) (.nil c)
  · intro e hread
    exact hQ "-" e (.inr rfl) hread

theorem meets_sign_of_remaining {F : Fault → Prop} {N : Prop} {Q : String → Cursor → Prop}
    {rest : List Char} (hsign : sign = "" ∨ sign = "-") (hrest : rest.head? ≠ some '-')
    (hc : c.remaining = sign.toList ++ rest) (hQ : ∀ e, e.remaining = rest → Q sign e) :
    ((optionalString (literal "-") : Parser R String).runWith rules c).Meets F N Q := by
  rw [optionalString, Parser.optional, meets_orElse, meets_success]
  rcases hsign with rfl | rfl
  · refine meets_literal "-" (fun _ => hQ c hc) fun e hread => ?_
    have hminus : rest.head? = some '-' := by
      rw [← List.nil_append rest, ← String.toList_empty, ← hc, hread.remaining_eq]
      rfl
    exact absurd hminus hrest
  · refine meets_literal "-" (fun hno => ?_) fun e hread => ?_
    · exact absurd ⟨rest, hc.symm⟩ hno
    · exact hQ e (List.append_cancel_left (hread.remaining_eq.symm.trans hc))

/-- The parts of a definition follow one another: the name, the equals sign with
the sign, and the digits. -/
theorem runWith_definition (rules : Rules R) (c : Cursor) :
    (parser : Parser R Definition).runWith rules c =
      (sequence ident
        (sequence (discardLeft (char '=') (optionalString (literal "-"))) nat Prod.mk)
        fun name value => ofParts name value.1 value.2).runWith rules c := by
  rw [parser, runWith_sequenceAll_succ, runWith_bind]
  change ((ident : Parser R String).runWith rules c).andThen _ = _
  simp only [discardLeft, runWith_sequence, Outcome.andThen_assoc, Outcome.some_andThen]
  congr 1
  funext name d
  rw [runWith_sequenceAll_succ, runWith_bind]
  change ((char '=' : Parser R Char).runWith rules d).andThen _ = _
  congr 1
  funext _ d'
  rw [runWith_sequenceAll_succ, runWith_bind]
  change ((optionalString (literal "-") : Parser R String).runWith rules d').andThen _ = _
  congr 1
  funext sign e
  rw [runWith_sequenceAll_succ, runWith_bind]
  change ((nat : Parser R Nat).runWith rules e).andThen _ = _
  rfl
/-- What is read is spelled; the only fault is a run of too many digits. -/
theorem sound_definition (c : Cursor) :
    ((parser : Parser R Definition).runWith rules c).Meets
      (fun _ => ¬ Arith.ShortRuns c.remaining) True fun d e => ∃ s, c.Reads s e ∧ Spelled d s := by
  rw [runWith_definition, meets_sequence]
  apply meets_ident (fun _ => trivial)
  intro ch more c₁ hname hletter hmore _
  rw [meets_sequence, discardLeft, meets_sequence]
  apply meets_char '=' (fun _ => trivial)
  intro c₂ hequals
  apply meets_sign
  intro sign c₃ hsign hreadSign
  have hfront := (hname.append hequals).append hreadSign
  refine meets_nat (fun _ => trivial) (fun run e hread hrun _ hlong hshort => ?_)
    fun digits e hread hne hdigits _ _ => ?_
  · have hinfix : run <:+: c.remaining := by
      rw [(hfront.append hread).remaining_eq]
      exact ⟨_, e.remaining, rfl⟩
    exact absurd (hshort run hinfix hrun) (Nat.not_le.2 hlong)
  · refine ⟨_, hfront.append hread, ?_⟩
    have hname : IsName (ch :: more) := ⟨hletter, hmore⟩
    simpa using spelled_ofParts hname hsign hne hdigits

theorem complete_definition (h : Spelled d c.remaining) (hshort : Arith.ShortRuns c.remaining) :
    ((parser : Parser R Definition).runWith rules c).Meets (fun _ => False) False
      fun found e => found = d ∧ e.remaining = [] := by
  obtain ⟨name, sign, digits, hname, hsign, hne, hdigits, hc, rfl⟩ := h.exists_parts
  have hlength : digits.length ≤ Decimal.digitLimit := by
    apply hshort digits _ hdigits
    rw [hc]
    exact ((List.suffix_append _ _).trans (List.suffix_cons _ _)).trans
      (List.suffix_append _ _) |>.isInfix
  rw [runWith_definition, meets_sequence]
  rcases name with _ | ⟨ch, more⟩
  · exact hname.elim
  · apply meets_ident_of_remaining hname.1 hname.2 ((stops_cons ..).2 (by decide)) hc
    intro c₁ hc₁
    rw [meets_sequence, discardLeft, meets_sequence]
    apply meets_char_of_remaining hc₁
    intro c₂ hc₂
    have hdigit : digits.head? ≠ some '-' := by
      intro hhead
      exact absurd (hdigits '-' (List.mem_of_mem_head? hhead)) (by decide)
    apply meets_sign_of_remaining hsign hdigit hc₂
    intro c₃ hc₃
    rw [← List.append_nil digits] at hc₃
    exact meets_nat_of_remaining hne hdigits hlength (stops_nil isDigit) hc₃ fun e he => ⟨rfl, he⟩

/-- A text is read as the definition that it spells, and refused if it spells none. -/
theorem read_cases (hshort : Arith.ShortRuns text.toList) :
    (∃ d, read text = .ok d ∧ Spelled d text.toList) ∨
      read text = .error (.malformed text) ∧ ¬ IsDefinition text := by
  have hsound := @sound_definition _ (Grammar.rule NoRule.grammar Grammar.nestingLimit)
    (.start text)
  have hcomplete : ∀ d, Spelled d text.toList →
      ((parser : Parser NoRule Definition).run (.start text)).Meets (fun _ => False) False
        fun found e => found = d ∧ e.remaining = [] := by
    intro d hd
    rw [← Cursor.remaining_start text] at hd hshort
    exact complete_definition hd hshort
  change ((parser : Parser NoRule Definition).run (.start text)).Meets _ _ _ at hsound
  rw [read]
  rcases hrun : (parser : Parser NoRule Definition).run (.start text) with fault | (_ | ⟨d, e⟩)
  · rw [hrun, Outcome.Meets, Cursor.remaining_start] at hsound
    exact absurd hshort hsound
  · refine .inr ⟨rfl, ?_⟩
    rintro ⟨d, hd⟩
    have hnone := hcomplete d hd
    rwa [hrun] at hnone
  · rw [hrun] at hsound
    obtain ⟨s, hread, hspelled⟩ := hsound
    by_cases hend : e.atEnd = true
    · have htext : text.toList = s := by
        rw [← Cursor.remaining_start text, hread.remaining_eq,
          (Cursor.atEnd_iff_remaining e).1 hend, List.append_nil]
      exact .inl ⟨d, by simp only [hend, if_true], htext ▸ hspelled⟩
    · refine .inr ⟨by simp only [hend]; rfl, ?_⟩
      rintro ⟨d', hd'⟩
      have hwhole := hcomplete d' hd'
      rw [hrun] at hwhole
      exact hend ((Cursor.atEnd_iff_remaining e).2 hwhole.2)

/-! ## Reading a list of definitions -/

/-- The value of the last definition of a name. -/
def lastValue? (ds : List Definition) (name : String) : Option Int :=
  (ds.reverse.find? fun d => d.name == name).map (·.value)

/-- The texts spell the definitions, one by one. -/
abbrev SpelledAll (ds : List Definition) (texts : List String) : Prop :=
  List.Forall₂ (fun d text => Spelled d text.toList) ds texts

def bindAll (store : Store) (ds : List Definition) : Store :=
  ds.foldl (fun store d => store.bind d.name d.value) store

theorem value?_bindAll (store : Store) (ds : List Definition) (name : String) :
    (bindAll store ds).value? name = (lastValue? ds name).or (store.value? name) := by
  induction ds using List.reverseRecOn with
  | nil => rfl
  | append_singleton ds d ih =>
      rw [bindAll, List.foldl_append, List.foldl_cons, List.foldl_nil, ← bindAll, lastValue?,
        List.reverse_append, List.reverse_singleton, List.singleton_append]
      by_cases hname : d.name = name
      · subst hname
        rw [Store.value?_bind_self, List.find?_cons_of_pos (by simp)]
        rfl
      · rw [Store.value?_bind_of_ne _ _ (Ne.symm hname),
          List.find?_cons_of_neg (by simpa using hname), ih, lastValue?]

variable {texts : List String} {store : Store}

/-- Definitions extend a store one behind the other, up to the first text that is
none. -/
theorem extend_cases (hshort : ∀ text ∈ texts, Arith.ShortRuns text.toList) :
    (∃ ds, SpelledAll ds texts ∧ extend store texts = .ok (bindAll store ds)) ∨
    ∃ before bad after, texts = before ++ bad :: after ∧ (∀ text ∈ before, IsDefinition text) ∧
      ¬ IsDefinition bad ∧ extend store texts = .error (.malformed bad) := by
  induction texts generalizing store with
  | nil => exact .inl ⟨[], .nil, rfl⟩
  | cons text more ih =>
      rw [List.forall_mem_cons] at hshort
      rcases read_cases hshort.1 with ⟨d, hread, hspelled⟩ | ⟨hread, hbad⟩
      · rcases @ih (store.bind d.name d.value) hshort.2 with
          ⟨ds, hds, hextend⟩ | ⟨before, bad, after, rfl, hbefore, hbad, hextend⟩
        · exact .inl ⟨d :: ds, .cons hspelled hds, by rw [extend, hread]; exact hextend⟩
        · refine .inr ⟨text :: before, bad, after, rfl, ?_, hbad, ?_⟩
          · exact List.forall_mem_cons.2 ⟨⟨d, hspelled⟩, hbefore⟩
          · rw [extend, hread]
            exact hextend
      · exact .inr ⟨[], text, more, rfl, by simp, hbad, by rw [extend, hread]⟩

/-- The first text that is no definition. -/
def FirstBad (bad : String) (texts : List String) : Prop :=
  ∃ before after, texts = before ++ bad :: after ∧ (∀ text ∈ before, IsDefinition text) ∧
    ¬ IsDefinition bad

/-- A store holds what its definitions bind. -/
theorem storeOf_eq_ok (hshort : ∀ text ∈ texts, Arith.ShortRuns text.toList)
    (h : storeOf texts = .ok store) :
    ∃ ds, SpelledAll ds texts ∧ store = bindAll Store.empty ds := by
  rw [storeOf] at h
  rcases @extend_cases texts Store.empty hshort with
    ⟨ds, hds, hextend⟩ | ⟨before, bad, after, -, -, -, hextend⟩
  · rw [hextend] at h
    cases h
    exact ⟨ds, hds, rfl⟩
  · rw [hextend] at h
    cases h

/-- A list is refused for its first text that is no definition. -/
theorem storeOf_eq_error {problem : Problem} (hshort : ∀ text ∈ texts, Arith.ShortRuns text.toList)
    (h : storeOf texts = .error problem) :
    ∃ bad, FirstBad bad texts ∧ problem = .malformed bad := by
  rw [storeOf] at h
  rcases @extend_cases texts Store.empty hshort with
    ⟨ds, -, hextend⟩ | ⟨before, bad, after, htexts, hbefore, hbad, hextend⟩
  · rw [hextend] at h
    cases h
  · rw [hextend] at h
    cases h
    exact ⟨bad, ⟨before, after, htexts, hbefore, hbad⟩, rfl⟩

theorem FirstBad.not_forall {bad : String} (h : FirstBad bad texts) :
    ¬ ∀ text ∈ texts, IsDefinition text := by
  obtain ⟨before, after, rfl, -, hbad⟩ := h
  exact fun hall => hbad (hall bad (by simp))

theorem SpelledAll.exists_text {ds : List Definition} (h : SpelledAll ds texts) (hd : d ∈ ds) :
    ∃ text ∈ texts, Spelled d text.toList := by
  induction h with
  | nil => exact absurd hd List.not_mem_nil
  | @cons first text _ more hfirst _ ih =>
      rcases List.mem_cons.1 hd with rfl | hd
      · exact ⟨text, List.mem_cons_self, hfirst⟩
      · obtain ⟨text', htext', hspelled⟩ := ih hd
        exact ⟨text', List.mem_cons_of_mem _ htext', hspelled⟩

theorem SpelledAll.isDefinition {ds : List Definition} (h : SpelledAll ds texts) :
    ∀ text ∈ texts, IsDefinition text := by
  induction h with
  | nil => simp
  | cons hfirst _ ih => exact List.forall_mem_cons.2 ⟨⟨_, hfirst⟩, ih⟩

/-- What is defined is a name, and its value can be written. -/
theorem Spelled.isName_and_writable (h : Spelled d text.toList)
    (hshort : Arith.ShortRuns text.toList) :
    IsName d.name.toList ∧ Arith.Writable d.value := by
  generalize htext : text.toList = s at h hshort
  cases h with
  | @positive name digits hname hne hdigits =>
      have hinfix : digits <:+: name ++ '=' :: digits :=
        ((List.suffix_cons _ _).trans (List.suffix_append _ _)).isInfix
      exact ⟨by simpa using hname, Arith.writable_value hdigits (hshort digits hinfix hdigits)⟩
  | @negative name digits hname hne hdigits =>
      have hinfix : digits <:+: name ++ '=' :: '-' :: digits :=
        (((List.suffix_cons _ _).trans (List.suffix_cons _ _)).trans
          (List.suffix_append _ _)).isInfix
      exact ⟨by simpa using hname,
        (Arith.writable_value hdigits (hshort digits hinfix hdigits)).neg⟩

theorem isName_and_writable_of_lastValue? {ds : List Definition} {name : String} {v : Int}
    (h : SpelledAll ds texts) (hshort : ∀ text ∈ texts, Arith.ShortRuns text.toList)
    (hlast : lastValue? ds name = some v) : IsName name.toList ∧ Arith.Writable v := by
  rw [lastValue?, Option.map_eq_some_iff] at hlast
  obtain ⟨d, hfind, rfl⟩ := hlast
  obtain rfl : d.name = name := by simpa using List.find?_some hfind
  have hd : d ∈ ds := by simpa using List.mem_of_find?_eq_some hfind
  obtain ⟨text, htext, hspelled⟩ := h.exists_text hd
  exact hspelled.isName_and_writable (hshort text htext)

/-! ## Definitions and expressions -/

/-- Each name that the store binds is an expression of its value where that is of
the width, and a problem of width elsewhere. -/
def EvaluatesNames (store : Store) : Prop :=
  ∀ (settings : EvaluationSettings) (name : String) (v : Int), 0 ≤ settings.integerBits →
    store.value? name = some v →
      (settings.integerBits = 0 ∨ Arith.InWidth settings.integerBits v →
        Arith.Evaluator.evaluateText ⟨settings, store⟩ name = .ok (.value v)) ∧
      (settings.integerBits ≠ 0 → ¬ Arith.InWidth settings.integerBits v →
        ∃ problem, Arith.Evaluator.evaluateText ⟨settings, store⟩ name = .ok (.failed problem) ∧
          problem.code = "E103")

theorem evaluatesNames_of_bound
    (h : ∀ name v, store.value? name = some v → IsName name.toList ∧ Arith.Writable v) :
    EvaluatesNames store := by
  intro settings name v hbits hv
  obtain ⟨hname, hwritable⟩ := h name v hv
  let e : Arith.Evaluator := ⟨settings, store⟩
  obtain ⟨span, htext⟩ := Arith.Evaluator.evaluateText_name (e := e) hname hv
  rw [htext]
  exact ⟨fun hwidth => Arith.Evaluator.answer_checked hbits hwidth span,
    fun hzero hwidth =>
      Arith.Evaluator.answer_checked_of_not_inWidth hbits hwritable hzero hwidth span⟩

/-- A list of definitions makes the store of the last value of each name, and a
list with anything else in it is refused for the first text that is no
definition.  The names that are defined, and no other texts without blanks and
plus signs, are expressions of one identifier, which has the defined value. -/
theorem definitions_bind_names (texts : List String)
    (hshort : ∀ text ∈ texts, Arith.ShortRuns text.toList) :
    ((∃ store, storeOf texts = .ok store) ↔ ∀ text ∈ texts, IsDefinition text) ∧
    (∀ store, storeOf texts = .ok store → EvaluatesNames store ∧
      ∃ ds, SpelledAll ds texts ∧ ∀ name, store.value? name = lastValue? ds name) ∧
    (∀ problem, storeOf texts = .error problem → ∃ bad, FirstBad bad texts ∧
      problem = .malformed bad ∧
      complaint bad = "expected NAME=INTEGER, got " ++ Quoted.text bad ∧
      ∀ settings color expression,
        Command.evalWith settings color texts expression =
          .ok (Command.usageFailure Command.evalSpec (.badValue "-D" (complaint bad)))) ∧
    ∀ text name : String, (∀ ch ∈ text.toList, isSpace ch = false ∧ ch ≠ '+') →
      ((∃ span, Arith.read text = .ok (some (.alone (.identifier name span)))) ↔
        IsName text.toList ∧ name = text) := by
  refine ⟨⟨?_, fun hall => ?_⟩, fun store h => ?_, fun problem h => ?_, ?_⟩
  · rintro ⟨store, h⟩
    obtain ⟨ds, hds, -⟩ := storeOf_eq_ok hshort h
    exact hds.isDefinition
  · cases h : storeOf texts with
    | ok store => exact ⟨store, rfl⟩
    | error problem =>
        obtain ⟨bad, hbad, -⟩ := storeOf_eq_error hshort h
        exact absurd hall hbad.not_forall
  · obtain ⟨ds, hds, rfl⟩ := storeOf_eq_ok hshort h
    have hvalue : ∀ name, (bindAll Store.empty ds).value? name = lastValue? ds name := by
      intro name
      rw [value?_bindAll]
      exact Option.or_none
    refine ⟨evaluatesNames_of_bound fun name v hv => ?_, ds, hds, hvalue⟩
    rw [hvalue] at hv
    exact isName_and_writable_of_lastValue? hds hshort hv
  · obtain ⟨bad, hbad, rfl⟩ := storeOf_eq_error hshort h
    refine ⟨bad, hbad, rfl, rfl, fun settings color expression => ?_⟩
    rw [Command.evalWith, h]
  · intro text name hplain
    exact Arith.read_identifier_iff hplain

/-- A name that is defined twice, and a text with a blank behind a definition. -/
theorem definitions_bind_names_twice :
    (∀ text ∈ ["x1=-07", "y=2", "x1=300"], Arith.ShortRuns text.toList) ∧
    (∃ store, storeOf ["x1=-07", "y=2", "x1=300"] = .ok store ∧ EvaluatesNames store ∧
      store.value? "x1" = some 300) ∧
    (∀ text ∈ ["x=1", "y =2"], Arith.ShortRuns text.toList) ∧
      (¬ ∀ text ∈ ["x=1", "y =2"], IsDefinition text) ∧
      ∃ bad, FirstBad bad ["x=1", "y =2"] ∧ Problem.malformed "y =2" = .malformed bad ∧
        complaint bad = "expected NAME=INTEGER, got " ++ Quoted.text bad := by
  have hgood : ∀ text ∈ ["x1=-07", "y=2", "x1=300"], Arith.ShortRuns text.toList := by
    intro text htext
    apply Arith.shortRuns_of_length_le
    fin_cases htext <;> decide
  have hbad : ∀ text ∈ ["x=1", "y =2"], Arith.ShortRuns text.toList := by
    intro text htext
    apply Arith.shortRuns_of_length_le
    fin_cases htext <;> decide
  have hstore : storeOf ["x1=-07", "y=2", "x1=300"] = .ok [("x1", 300), ("y", 2)] := by cbv
  have hrefused : storeOf ["x=1", "y =2"] = .error (.malformed "y =2") := by cbv
  obtain ⟨hdefined, -, hproblem, -⟩ := definitions_bind_names _ hbad
  obtain ⟨bad, hfirst, hmalformed, hcomplaint, -⟩ := hproblem _ hrefused
  refine ⟨hgood, ⟨_, hstore, ((definitions_bind_names _ hgood).2.1 _ hstore).1, rfl⟩, hbad, ?_,
    bad, hfirst, hmalformed, hcomplaint⟩
  intro hall
  obtain ⟨store, h⟩ := hdefined.2 hall
  rw [hrefused] at h
  cases h

end Definition

end ParserKit
