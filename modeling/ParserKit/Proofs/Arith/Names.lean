import ParserKit.Proofs.Arith.Numerals

/-!
# Names as expressions

A letter with letters and digits behind it is an expression of one identifier,
and the value of that expression is what the store binds the name to.  Blanks
and plus signs leave no node, so texts that hold them can be such expressions as
well; no other text is.
-/

namespace ParserKit.Arith

open ParserKit.Parser CharClass

variable {text name : String} {ts : List Token} {s : List Char}

/-! ## Names are read -/

theorem exists_identifier_of_eraseSpans {node : Node}
    (h : node.eraseSpans = .identifier name none) : ∃ span, node = .identifier name span := by
  cases node with
  | identifier other span =>
      obtain rfl : other = name := by simpa [Node.eraseSpans] using h
      exact ⟨span, rfl⟩
  | _ => simp [Node.eraseSpans] at h

theorem readsAll_name {rules : Rules Rule} {c : Cursor} (hname : IsName c.remaining) :
    ReadsAll (operand.runWith rules) c fun found =>
      ∃ span, found = .identifier (String.ofList c.remaining) span := by
  have hspace : Stops isSpace c.remaining := hname.stops
  rcases hc : c.remaining with _ | ⟨ch, more⟩
  · rw [hc] at hname
    exact hname.elim
  · rw [hc] at hname
    obtain ⟨hletter, hmore⟩ := hname
    have hdigit : Stops isDigit c.remaining := by
      rw [hc]
      exact (stops_cons ..).2 (isDigit_eq_false_of_isLetter hletter)
    have hparen : c.remaining.head? ≠ some '(' := by
      rw [hc]
      rintro ⟨⟩
      exact absurd hletter (by decide)
    have hend : Follows .operand [] := by simp [Follows]
    refine meets_choiceOf_append [parenOperand, numberOperand] (by simpa using
      ⟨parenOperand_eq_none hspace hparen, numberOperand_eq_none hspace hdigit⟩) ?_
    apply (meets_nameOperand hletter hmore (run_nil isSpace) hend hspace (by simpa using hc)).imp
    rintro found d ⟨hfound, hd⟩
    exact ⟨exists_identifier_of_eraseSpans hfound, hd⟩

/-- Every name is an expression of one identifier, which is that name. -/
theorem read_name (h : IsName text.toList) :
    ∃ span, read text = .ok (some (.alone (.identifier text span))) := by
  have hreads : ∀ c : Cursor, c.remaining = text.toList →
      ReadsAll (operand.runWith (Grammar.rule grammar roomForNesting)) c fun found =>
        ∃ span, found = .identifier text span := by
    intro c hc
    rw [← hc] at h
    have hall := @readsAll_name (Grammar.rule grammar roomForNesting) c h
    rwa [hc, String.ofList_toList] at hall
  obtain ⟨_, ⟨span, rfl⟩, hread⟩ := exists_read_alone h.stops hreads
  exact ⟨span, hread⟩

/-! ## Only names are read as identifiers -/

theorem Derives.of_alone {operand : Node} (h : Derives (.level .expression) ts (.alone operand)) :
    Derives .operand ts operand := by
  cases h with
  | chain hterm hdone₁ =>
      cases hdone₁
      cases hterm with
      | chain hfactor hdone₂ =>
          cases hdone₂
          cases hfactor with
          | chain hoperand hdone₃ =>
              cases hdone₃
              simp only [List.append_nil]
              exact hoperand

/-- An identifier is a name behind plus signs. -/
theorem Derives.of_identifier (h : Derives .operand ts (.identifier name none)) :
    ts = [.name name] ∨ ∃ more, ts = .operator .add :: more := by
  cases h with
  | name => exact .inl rfl
  | plus => exact .inr ⟨_, rfl⟩

/-- One name without blanks around it is spelled as itself. -/
theorem Spaced.of_name (h : Spaced [.name name] s) (hs : ∀ ch ∈ s, isSpace ch = false) :
    IsName s ∧ String.ofList s = name := by
  have hstops : ∀ t, t <:+ s → Stops isSpace t :=
    fun t ht ch hch => hs ch (ht.subset (List.mem_of_mem_head? hch))
  cases h with
  | @cons _ _ blanks word more hblank hword hmore =>
      cases hmore with
      | nil hblank' =>
          have hbefore : blanks = [] := hblank.eq_nil_of_stops (hstops _ (List.suffix_refl _))
          have hbehind : more = [] := by
            apply hblank'.eq_nil_of_stops (r := [])
            rw [List.append_nil]
            exact hstops more ((List.suffix_append _ _).trans (List.suffix_append _ _))
          subst hbefore hbehind
          cases hword with
          | name hletter hrun => exact ⟨by simpa using ⟨hletter, hrun⟩, by simp⟩

theorem Spaced.mem_sign {op : Operator} (h : Spaced (.operator op :: ts) s) : op.sign ∈ s := by
  cases h with
  | cons _ hword _ =>
      cases hword
      simp

/-- A text without blanks and plus signs that is an expression of one identifier
is the name of it. -/
theorem isName_of_read {span : Option Span}
    (hplain : ∀ ch ∈ text.toList, isSpace ch = false ∧ ch ≠ '+')
    (h : read text = .ok (some (.alone (.identifier name span)))) :
    IsName text.toList ∧ name = text := by
  have hrenders := read_sound text
  rw [h] at hrenders
  obtain ⟨ts, hderives, hspaced⟩ := hrenders
  have hoperand : Derives .operand ts (.identifier name none) := Derives.of_alone hderives
  rcases hoperand.of_identifier with rfl | ⟨more, rfl⟩
  · obtain ⟨hname, hspelled⟩ := hspaced.of_name fun ch hch => (hplain ch hch).1
    rw [String.ofList_toList] at hspelled
    exact ⟨hname, hspelled.symm⟩
  · exact absurd rfl (hplain '+' hspaced.mem_sign).2

theorem read_identifier_iff (hplain : ∀ ch ∈ text.toList, isSpace ch = false ∧ ch ≠ '+') :
    (∃ span, read text = .ok (some (.alone (.identifier name span)))) ↔
      IsName text.toList ∧ name = text := by
  constructor
  · rintro ⟨span, hread⟩
    exact isName_of_read hplain hread
  · rintro ⟨hname, rfl⟩
    exact read_name hname

/-! ## The value of a name -/

namespace Evaluator

variable {e : Evaluator} {v : Int}

theorem comesToCheck_identifier (hv : e.store.value? name = some v) (span : Option Span) :
    e.ComesToCheck v span (.identifier name span) := by
  refine comesToCheck_of_succ (Nat.succ_pos _) fun depth => .inl ?_
  rw [walk, nameValue, hv]

/-- A bound name is answered with its value, which is checked. -/
theorem evaluateText_name (hname : IsName name.toList) (hv : e.store.value? name = some v) :
    ∃ span, e.evaluateText name = answer (e.checked v span) := by
  obtain ⟨span, hread⟩ := read_name hname
  refine ⟨span, e.evaluateText_of_alone hread (comesToCheck_identifier hv span) ?_⟩
  simp only [Node.alone, Node.nesting, walkLimit]
  decide

end Evaluator

end ParserKit.Arith
