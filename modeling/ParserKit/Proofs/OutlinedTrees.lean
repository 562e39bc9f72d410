import ParserKit.Proofs.Arith.Reading
import ParserKit.Proofs.Decimals
import ParserKit.Proofs.Outlines
import ParserKit.Proofs.Pattern.Gathering

/-!
# Outlines of trees

The outlines of expressions and of patterns are both outlines of kinds and named
parts.  A tree is determined by them, up to the spans, which are not shown.  A
chain is shown link by link, so its outline nests at least as deep as the chain
is long.
-/

namespace ParserKit

open Outline

namespace Arith

/-- No value that is not an arithmetic node stands in the tree. -/
def Node.isArithmetic : Node → Bool
  | identifier _ _ => true
  | number _ _ => true
  | negate operand => operand.isArithmetic
  | paren body => body.isArithmetic
  | chain _ head tail => head.isArithmetic && tail.isArithmetic
  | step _ operand rest _ => operand.isArithmetic && rest.isArithmetic
  | done => true
  | foreign _ => false

/-- What an outline shows of a node below its kind. -/
def Node.parts : Node → Parts
  | identifier name _ => .text "name" (Quoted.text name) .done
  | number value _ => .text "value" (Decimal.numeral value) .done
  | negate operand => .node "operand" operand.kind operand.parts .done
  | paren body => .node "expr" body.kind body.parts .done
  | chain _ head tail => .node "head" head.kind head.parts (.node "tail" tail.kind tail.parts .done)
  | step _ operand rest _ =>
      .node "operand" operand.kind operand.parts (.node "rest" rest.kind rest.parts .done)
  | done | foreign _ => .done

theorem outlineWithin_eq (limit depth : Nat) (node : Node) :
    node.outlineWithin limit depth = linesWithin limit depth node.kind node.parts := by
  induction node generalizing limit depth with
  | identifier | number | done | foreign => cases limit <;> rfl
  | negate operand ih | paren operand ih =>
      cases limit with
      | zero => rfl
      | succ limit =>
          rw [Node.outlineWithin, ih, Node.parts, linesWithin_one]
          cases linesWithin limit (depth + 2) operand.kind operand.parts <;> rfl
  | chain _ first second ihfirst ihsecond | step _ first second _ ihfirst ihsecond =>
      cases limit with
      | zero => rfl
      | succ limit =>
          rw [Node.outlineWithin, ihfirst, ihsecond, Node.parts, linesWithin_two]
          cases linesWithin limit (depth + 2) first.kind first.parts
          · rfl
          · cases linesWithin limit (depth + 2) second.kind second.parts <;> rfl

variable {node node' : Node}

theorem Node.isWord_kind (h : node.isArithmetic = true) : IsWord node.kind := by
  cases node with
  | chain level =>
      rw [Node.kind]
      cases level <;> decide
  | step operator =>
      rw [Node.kind]
      cases operator <;> decide
  | foreign => cases h
  | _ =>
      rw [Node.kind]
      decide

theorem allPrintable_numeral (v : Int) : AllPrintable (Decimal.numeral v) := by
  have hdigits : ∀ c ∈ Nat.toDigits 10 v.natAbs, Printable.isPrintable c = true := by
    intro c hc
    have hdigit := Decimal.run_toDigits v.natAbs c hc
    simp only [CharClass.isDigit, Bool.and_eq_true, decide_eq_true_eq, Char.le_def,
      UInt32.le_iff_toNat_le] at hdigit
    exact Printable.isPrintable_of_le (Nat.le_trans (by decide) hdigit.1)
      (Nat.le_trans hdigit.2 (by decide))
  rw [AllPrintable, Decimal.toList_numeral]
  split
  · exact List.forall_mem_cons.2 ⟨by decide, hdigits⟩
  · exact hdigits

theorem Node.legible_parts (h : node.isArithmetic = true) : node.parts.Legible := by
  induction node with
  | identifier name => exact ⟨by decide, fun _ => Quoted.isPrintable_of_mem_text, trivial⟩
  | number value => exact ⟨by decide, allPrintable_numeral value, trivial⟩
  | negate operand ih | paren operand ih => exact ⟨by decide, operand.isWord_kind h, ih h, trivial⟩
  | chain _ first second ihfirst ihsecond | step _ first second _ ihfirst ihsecond =>
      rw [Node.isArithmetic, Bool.and_eq_true] at h
      exact ⟨by decide, first.isWord_kind h.1, ihfirst h.1, by decide, second.isWord_kind h.2,
        ihsecond h.2, trivial⟩
  | done => trivial
  | foreign => cases h

theorem Node.kind_eraseSpans (node : Node) : node.eraseSpans.kind = node.kind := by
  cases node <;> rfl

theorem Node.parts_eraseSpans (node : Node) : node.eraseSpans.parts = node.parts := by
  induction node with
  | identifier | number | done | foreign => rfl
  | negate operand ih | paren operand ih =>
      rw [Node.eraseSpans, Node.parts, Node.parts, kind_eraseSpans, ih]
  | chain _ first second ihfirst ihsecond | step _ first second _ ihfirst ihsecond =>
      rw [Node.eraseSpans, Node.parts, Node.parts, kind_eraseSpans, kind_eraseSpans, ihfirst,
        ihsecond]

theorem Level.kind_injective {l l' : Level} (h : l.kind = l'.kind) : l = l' := by
  cases l <;> cases l' <;> first | rfl | exact absurd h (by decide)

theorem Operator.kind_injective {op op' : Operator} (h : op.kind = op'.kind) : op = op' := by
  cases op <;> cases op' <;> first | rfl | exact absurd h (by decide)

/-- The kind and the parts of a node determine it up to its spans. -/
theorem Node.eraseSpans_eq_of_parts (h : node.isArithmetic = true) (h' : node'.isArithmetic = true)
    (hkind : node.kind = node'.kind) (hparts : node.parts = node'.parts) :
    node.eraseSpans = node'.eraseSpans := by
  induction node generalizing node' with
  | identifier name =>
      cases node' with
      | identifier name' =>
          obtain ⟨-, hname, -⟩ := Parts.text.inj hparts
          rw [Node.eraseSpans, Node.eraseSpans, Quoted.text_injective hname]
      | _ => simp [Node.parts] at hparts
  | number value =>
      cases node' with
      | number value' =>
          obtain ⟨-, hvalue, -⟩ := Parts.text.inj hparts
          rw [Node.eraseSpans, Node.eraseSpans, Decimal.numeral_injective hvalue]
      | _ => simp [Node.parts] at hparts
  | negate operand ih =>
      cases node' with
      | negate operand' =>
          obtain ⟨-, hkind, hoperand, -⟩ := Parts.node.inj hparts
          have hsame : operand.eraseSpans = operand'.eraseSpans := ih h h' hkind hoperand
          rw [Node.eraseSpans, Node.eraseSpans, hsame]
      | _ => simp [Node.parts] at hparts
  | paren body ih =>
      cases node' with
      | paren body' =>
          obtain ⟨-, hkind, hbody, -⟩ := Parts.node.inj hparts
          have hsame : body.eraseSpans = body'.eraseSpans := ih h h' hkind hbody
          rw [Node.eraseSpans, Node.eraseSpans, hsame]
      | _ => simp [Node.parts] at hparts
  | chain level head tail ihhead ihtail =>
      cases node' with
      | chain level' head' tail' =>
          rw [Node.isArithmetic, Bool.and_eq_true] at h h'
          obtain ⟨-, hheadkind, hhead, hrest⟩ := Parts.node.inj hparts
          obtain ⟨-, htailkind, htail, -⟩ := Parts.node.inj hrest
          rw [Node.eraseSpans, Node.eraseSpans, Level.kind_injective hkind,
            ihhead h.1 h'.1 hheadkind hhead, ihtail h.2 h'.2 htailkind htail]
      | _ => simp [Node.parts] at hparts
  | step operator operand rest _ ihoperand ihrest =>
      cases node' with
      | step operator' operand' rest' =>
          rw [Node.isArithmetic, Bool.and_eq_true] at h h'
          obtain ⟨-, hoperandkind, hoperand, hmore⟩ := Parts.node.inj hparts
          obtain ⟨-, hrestkind, hrest, -⟩ := Parts.node.inj hmore
          rw [Node.eraseSpans, Node.eraseSpans, Operator.kind_injective hkind,
            ihoperand h.1 h'.1 hoperandkind hoperand, ihrest h.2 h'.2 hrestkind hrest]
      | _ => simp [Node.parts] at hparts
  | done =>
      cases node' with
      | done => rfl
      | foreign => cases h'
      | _ => simp [Node.parts] at hparts
  | foreign => cases h

theorem Node.isArithmetic_eraseSpans (node : Node) :
    node.eraseSpans.isArithmetic = node.isArithmetic := by
  induction node with
  | identifier | number | done | foreign => rfl
  | negate _ ih | paren _ ih => exact ih
  | chain _ _ _ ihfirst ihsecond | step _ _ _ _ ihfirst ihsecond =>
      rw [Node.eraseSpans, Node.isArithmetic, Node.isArithmetic, ihfirst, ihsecond]

theorem Derives.isArithmetic {part : Part} {ts : List Token} (h : Derives part ts node) :
    node.isArithmetic = true := by
  induction h with
  | paren _ ih | minus _ ih | plus _ ih => exact ih
  | number | name | done => rfl
  | chain _ _ ihfirst ihsecond | step _ _ _ ihfirst ihsecond =>
      rw [Node.isArithmetic, ihfirst, ihsecond, Bool.and_self]

theorem isArithmetic_of_read {text : String} (h : read text = .ok (some node)) :
    node.isArithmetic = true := by
  have hrenders := read_sound text
  rw [h] at hrenders
  obtain ⟨ts, hderives, -⟩ := hrenders
  rw [← node.isArithmetic_eraseSpans]
  exact hderives.isArithmetic

theorem Token.Written.length_pos {t : Token} {word : List Char} (h : t.Written word) :
    0 < word.length := by
  cases h with
  | number hne _ => exact List.length_pos_of_ne_nil hne
  | opening | closing | operator | name => exact Nat.zero_lt_succ _

theorem Spaced.length_le {ts : List Token} {s : List Char} (h : Spaced ts s) :
    ts.length ≤ s.length := by
  induction h with
  | nil => exact Nat.zero_le _
  | cons _ hword _ ih =>
      have hpos := hword.length_pos
      simp only [List.length_cons, List.length_append]
      omega

/-- How much a part of `n` tokens may be shown deeper than `2 * n - 2`. -/
def Part.slack : Part → Nat
  | operand => 0
  | level .factor => 1
  | level .term => 2
  | level .expression => 3
  | tail _ => 2

theorem Derives.height_le {part : Part} {ts : List Token} (h : Derives part ts node) :
    node.parts.height + 2 ≤ 2 * ts.length + part.slack := by
  induction h with
  | number | name => exact Nat.le_refl 2
  | done => exact Nat.le_refl 2
  | paren _ ih =>
      simp only [Node.parts, Parts.height, Part.slack, List.length_cons, List.length_append] at ih ⊢
      omega
  | minus _ ih | plus _ ih =>
      simp only [Node.parts, Parts.height, Part.slack, List.length_cons] at ih ⊢
      omega
  | @chain l _ _ _ _ _ _ ihhead ihtail =>
      cases l <;>
        simp only [Level.part, Node.parts, Parts.height, Part.slack, List.length_append]
          at ihhead ihtail ⊢ <;> omega
  | @step l _ _ _ _ _ _ _ _ ihoperand ihrest =>
      cases l <;>
        simp only [Level.part, Node.parts, Parts.height, Part.slack, List.length_cons,
          List.length_append] at ihoperand ihrest ⊢ <;> omega

/-- A short text is not shown deeply. -/
theorem height_le_of_read {text : String} (h : read text = .ok (some node)) :
    node.parts.height ≤ 2 * text.length + 1 := by
  have hrenders := read_sound text
  rw [h] at hrenders
  obtain ⟨ts, hderives, hspaced⟩ := hrenders
  have hheight := hderives.height_le
  have hlength := hspaced.length_le
  rw [node.parts_eraseSpans] at hheight
  rw [String.length_toList] at hlength
  simp only [Part.slack] at hheight
  omega

/-- Each step of a chain is shown inside the one before it. -/
theorem Node.length_steps_le_height (node : Node) :
    node.steps.1.length ≤ node.parts.height := by
  induction node with
  | step operator operand rest span _ ihrest =>
      have hsteps : (Node.step operator operand rest span).steps.1.length =
          rest.steps.1.length + 1 := rfl
      rw [hsteps, Node.parts, Parts.height, Parts.height]
      omega
  | _ => exact Nat.zero_le _

end Arith

namespace Pattern

/-- What an outline shows of a node below its kind. -/
def Node.parts : Node → Parts
  | char s => .text "char" (Quoted.text s) .done
  | concat left right | alternation left right =>
      .node "left" left.kind left.parts (.node "right" right.kind right.parts .done)
  | star body | group body => .node "node" body.kind body.parts .done
  | foreign _ _ => .done

variable {node node' : Node}

theorem outlineWithin_eq (limit depth : Nat) (h : node.isPattern = true) :
    node.outlineWithin limit depth = linesWithin limit depth node.kind node.parts := by
  induction node generalizing limit depth with
  | char => cases limit <;> rfl
  | concat left right ihleft ihright | alternation left right ihleft ihright =>
      rw [Node.isPattern, Bool.and_eq_true] at h
      cases limit with
      | zero => rfl
      | succ limit =>
          rw [Node.outlineWithin, ihleft _ _ h.1, ihright _ _ h.2, Node.parts, linesWithin_two]
          cases linesWithin limit (depth + 2) left.kind left.parts
          · rfl
          · cases linesWithin limit (depth + 2) right.kind right.parts <;> rfl
  | star body ih | group body ih =>
      cases limit with
      | zero => rfl
      | succ limit =>
          rw [Node.outlineWithin, ih _ _ h, Node.parts, linesWithin_one]
          cases linesWithin limit (depth + 2) body.kind body.parts <;> rfl
  | foreign => cases h

theorem Node.isWord_kind (h : node.isPattern = true) : IsWord node.kind := by
  cases node with
  | foreign => cases h
  | _ =>
      rw [Node.kind]
      decide

theorem Node.legible_parts (h : node.isPattern = true) : node.parts.Legible := by
  induction node with
  | char s => exact ⟨by decide, fun _ => Quoted.isPrintable_of_mem_text, trivial⟩
  | concat left right ihleft ihright | alternation left right ihleft ihright =>
      rw [Node.isPattern, Bool.and_eq_true] at h
      exact ⟨by decide, left.isWord_kind h.1, ihleft h.1, by decide, right.isWord_kind h.2,
        ihright h.2, trivial⟩
  | star body ih | group body ih => exact ⟨by decide, body.isWord_kind h, ih h, trivial⟩
  | foreign => cases h

/-- The kind and the parts of a node determine it. -/
theorem Node.eq_of_parts (h : node.isPattern = true) (h' : node'.isPattern = true)
    (hkind : node.kind = node'.kind) (hparts : node.parts = node'.parts) : node = node' := by
  induction node generalizing node' with
  | char s =>
      cases node' with
      | char s' =>
          obtain ⟨-, hs, -⟩ := Parts.text.inj hparts
          rw [Quoted.text_injective hs]
      | foreign => cases h'
      | _ => simp [Node.kind] at hkind
  | concat left right ihleft ihright =>
      cases node' with
      | concat left' right' =>
          rw [Node.isPattern, Bool.and_eq_true] at h h'
          obtain ⟨-, hleftkind, hleft, hmore⟩ := Parts.node.inj hparts
          obtain ⟨-, hrightkind, hright, -⟩ := Parts.node.inj hmore
          rw [ihleft h.1 h'.1 hleftkind hleft, ihright h.2 h'.2 hrightkind hright]
      | foreign => cases h'
      | _ => simp [Node.kind] at hkind
  | alternation left right ihleft ihright =>
      cases node' with
      | alternation left' right' =>
          rw [Node.isPattern, Bool.and_eq_true] at h h'
          obtain ⟨-, hleftkind, hleft, hmore⟩ := Parts.node.inj hparts
          obtain ⟨-, hrightkind, hright, -⟩ := Parts.node.inj hmore
          rw [ihleft h.1 h'.1 hleftkind hleft, ihright h.2 h'.2 hrightkind hright]
      | foreign => cases h'
      | _ => simp [Node.kind] at hkind
  | star body ih =>
      cases node' with
      | star body' =>
          obtain ⟨-, hbodykind, hbody, -⟩ := Parts.node.inj hparts
          have hsame : body = body' := ih h h' hbodykind hbody
          rw [hsame]
      | foreign => cases h'
      | _ => simp [Node.kind] at hkind
  | group body ih =>
      cases node' with
      | group body' =>
          obtain ⟨-, hbodykind, hbody, -⟩ := Parts.node.inj hparts
          have hsame : body = body' := ih h h' hbodykind hbody
          rw [hsame]
      | foreign => cases h'
      | _ => simp [Node.kind] at hkind
  | foreign => cases h

theorem Canonical.isPattern {shape : Shape} (h : Canonical shape node) : node.isPattern = true := by
  induction h with
  | char _ => rfl
  | group _ ih | once _ ih | star _ ih | lone _ ih | only _ ih => exact ih
  | concat _ _ ihleft ihright | alternation _ _ ihleft ihright =>
      rw [Node.isPattern, ihleft, ihright, Bool.and_self]

theorem isPattern_of_read {text : String} (h : read text = .ok (some node)) :
    node.isPattern = true := by
  have hsound := read_sound text
  rw [h] at hsound
  exact hsound.1.isPattern

theorem Canonical.height_lt {shape : Shape} (h : Canonical shape node) :
    node.parts.height < node.print.length := by
  induction h with
  | @char ch _ =>
      rw [Node.print, String.toList_singleton]
      exact Nat.zero_lt_one
  | group _ ih | star _ ih =>
      simp only [Node.parts, Parts.height, Node.print, List.length_cons, List.length_append]
      omega
  | once _ ih | lone _ ih | only _ ih => exact ih
  | concat _ _ ihleft ihright | alternation _ _ ihleft ihright =>
      simp only [Node.parts, Parts.height, Node.print, List.length_cons, List.length_append]
      omega

/-- A short pattern is not shown deeply. -/
theorem height_lt_of_read {text : String} (h : read text = .ok (some node)) :
    node.parts.height < text.length := by
  have hsound := read_sound text
  rw [h] at hsound
  rw [← String.length_toList, ← hsound.2]
  exact hsound.1.height_lt

theorem Node.height_join (link : Link) (left right : Node) :
    (Node.join link left right).parts.height =
      max (left.parts.height + 1) (right.parts.height + 1) := by
  cases link <;> simp [Node.join, Node.parts, Parts.height]

/-- Each part of a chain is shown inside the link before it. -/
theorem Node.length_spine_le_height (link : Link) (node : Node) :
    (node.spine link).length ≤ node.parts.height + 1 := by
  induction node using chain_induction link with
  | lone node hlone =>
      rw [hlone]
      exact Nat.le_add_left 1 _
  | join left right ih =>
      rw [spine_join, List.length_cons, height_join]
      omega

end Pattern

end ParserKit
