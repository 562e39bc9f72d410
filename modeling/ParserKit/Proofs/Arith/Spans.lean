import Mathlib
import ParserKit.Proofs.Arith.Layout
import ParserKit.Proofs.Lines

/-!
# Spans point at what they name

In the tree of a text, the span of a name or a number covers just its own
characters in one line of the text, and from left to right these spans stand one
behind the other.  The span of a step starts at its operator and stops where
something other than a blank stands behind its operand, which is where the next
step of the chain starts.
-/

namespace ParserKit

/-- The left span ends before the right one starts, and neither is empty. -/
def Span.Precedes (left right : Span) : Prop :=
  left.start.before left.stop = true ∧ left.stop.before right.start = true ∧
    right.start.before right.stop = true

namespace Arith

open CharClass

namespace Node

/-- The node and all nodes below it, from left to right. -/
def subtrees : Node → List Node
  | identifier name span => [identifier name span]
  | number value span => [number value span]
  | negate operand => negate operand :: operand.subtrees
  | paren body => paren body :: body.subtrees
  | chain level head tail => chain level head tail :: (head.subtrees ++ tail.subtrees)
  | step operator operand rest span =>
      step operator operand rest span :: (operand.subtrees ++ rest.subtrees)
  | done => [done]
  | foreign kind => [foreign kind]

/-- The spans of the names and numbers, from left to right. -/
def leafSpans : Node → List Span
  | identifier _ span => span.toList
  | number _ span => span.toList
  | negate operand => operand.leafSpans
  | paren body => body.leafSpans
  | chain _ head tail => head.leafSpans ++ tail.leafSpans
  | step _ operand rest _ => operand.leafSpans ++ rest.leafSpans
  | done => []
  | foreign _ => []

end Node

/-- The span starts at the sign of `op`.  Behind the sign the operand is spelled,
up to its last character, and the span stops behind the blanks that follow. -/
structure StepSpan (text : String) (op : Operator) (operand : Node) (span : Span) : Prop where
  spelled : ∃ (l : Level) (ts : List Token) (s : List Char) (last : Char)
    (blanks rest : List Char), op ∈ l.operators ∧
    Derives l.part ts operand.eraseSpans ∧ Spaced ts (s ++ [last]) ∧ isSpace last = false ∧
    Blank blanks ∧ Stops isSpace rest ∧
    RestAt text span.start (op.sign :: (s ++ [last] ++ (blanks ++ rest))) ∧
    RestAt text span.stop rest
  around : ∀ leaf ∈ operand.leafSpans, span.start.before leaf.start = true ∧
    (leaf.stop = span.stop ∨ leaf.stop.before span.stop = true)

/-- The node has a span that points at what it names. -/
def Node.SpanPoints (text : String) : Node → Prop
  | .identifier name span? => ∃ span, span? = some span ∧ span.Covers text name.toList
  | .number value span? => ∃ span digits, span? = some span ∧ digits ≠ [] ∧
      Run isDigit digits ∧ value = Decimal.value digits ∧ span.Covers text digits
  | .step op operand rest span? => ∃ span, span? = some span ∧ StepSpan text op operand span ∧
      ∀ op' operand' rest' next, rest = .step op' operand' rest' (some next) →
        next.start = span.stop
  | _ => True

variable {text : String} {part : Part} {c d : Cursor} {tree : Node} {ts : List Token}
variable {s : List Char} {l : Level}

/-! ## Tokens without the blanks behind them -/

theorem Token.Written.exists_last {t : Token} {word : List Char} (h : t.Written word) :
    ∃ front last, word = front ++ [last] ∧ isSpace last = false := by
  have hword : word ≠ [] → (∀ ch ∈ word, isAlphanum ch = true) →
      ∃ front last, word = front ++ [last] ∧ isSpace last = false := by
    intro hne hall
    obtain ⟨front, last, hlast⟩ := (List.eq_nil_or_concat word).resolve_left hne
    rw [List.concat_eq_append] at hlast
    exact ⟨front, last, hlast, isSpace_eq_false_of_isAlphanum (hall last (by simp [hlast]))⟩
  cases h with
  | opening => exact ⟨[], '(', rfl, rfl⟩
  | closing => exact ⟨[], ')', rfl, rfl⟩
  | operator op => exact ⟨[], op.sign, rfl, op.isSpace_sign⟩
  | number hne hdigits =>
      apply hword hne
      intro ch hch
      rw [isAlphanum, hdigits ch hch, Bool.or_true]
  | name hletter hs =>
      apply hword (List.cons_ne_nil _ _)
      intro ch hch
      rcases List.mem_cons.1 hch with rfl | hmem
      · rw [isAlphanum, hletter, Bool.true_or]
      · exact hs ch hmem

/-- Tokens with blanks around them end in a character that is no blank, and
blanks behind it. -/
theorem Spaced.exists_last (h : Spaced ts s) (hne : ts ≠ []) :
    ∃ front last blanks, s = front ++ [last] ++ blanks ∧ Spaced ts (front ++ [last]) ∧
      isSpace last = false ∧ Blank blanks := by
  induction h with
  | nil => exact absurd rfl hne
  | @cons t ts blanks word s hblank hword more ih =>
      cases ts with
      | nil =>
          cases more with
          | nil hblank' =>
              obtain ⟨front, last, rfl, hlast⟩ := hword.exists_last
              refine ⟨blanks ++ front, last, s, by simp, ?_, hlast, hblank'⟩
              have hnone : Blank [] := run_nil isSpace
              simpa using Spaced.cons hblank hword (.nil hnone)
      | cons t' ts =>
          obtain ⟨front, last, blanks', rfl, hspaced, hlast, hblank'⟩ := ih (by simp)
          refine ⟨blanks ++ (word ++ front), last, blanks', by simp, ?_, hlast, hblank'⟩
          have hspaced' := Spaced.cons hblank hword hspaced
          simpa using hspaced'

theorem Level.part_ne_tail (l l' : Level) : l.part ≠ .tail l' := by
  cases l <;> simp [Level.part]

theorem Derives.ne_nil (h : Derives part ts tree) (hpart : ∀ l, part ≠ .tail l) : ts ≠ [] := by
  induction h with
  | paren | number | name | minus | plus => simp
  | @chain l us vs head tail _ _ ih _ =>
      exact List.append_ne_nil_of_left_ne_nil (ih l.part_ne_tail) vs
  | done l => exact absurd rfl (hpart l)
  | @step l => exact absurd rfl (hpart l)

theorem Word.spaced {t : Token} {word : List Char} {stop : Cursor} (h : Word word c stop d)
    (hword : t.Written word) : ∃ s, c.Reads s d ∧ Spaced [t] s := by
  obtain ⟨blanks, hblanks, hblank⟩ := h.blanks
  have hnone : Blank [] := run_nil isSpace
  exact ⟨word ++ blanks, h.reads.append hblanks, .cons hnone hword (.nil hblank)⟩

/-- What is placed is derived. -/
theorem Placed.spaced (h : Placed part c tree d) :
    ∃ ts s, c.Reads s d ∧ Spaced ts s ∧ Derives part ts tree.eraseSpans := by
  induction h with
  | paren hopen _ hclose ih =>
      obtain ⟨s₁, hread₁, hspaced₁⟩ := hopen.spaced .opening
      obtain ⟨ts, s₂, hread₂, hspaced₂, hderives⟩ := ih
      obtain ⟨s₃, hread₃, hspaced₃⟩ := hclose.spaced .closing
      exact ⟨_, _, hread₁.append (hread₂.append hread₃),
        hspaced₁.append (hspaced₂.append hspaced₃), .paren hderives⟩
  | number hne hdigits hword =>
      obtain ⟨s, hread, hspaced⟩ := hword.spaced (.number hne hdigits)
      exact ⟨_, s, hread, hspaced, .number _⟩
  | name hletter hs hword =>
      obtain ⟨s, hread, hspaced⟩ := hword.spaced (.name hletter hs)
      exact ⟨_, s, hread, hspaced, .name _⟩
  | minus hsign _ ih =>
      obtain ⟨s₁, hread₁, hspaced₁⟩ := hsign.spaced (.operator .subtract)
      obtain ⟨ts, s₂, hread₂, hspaced₂, hderives⟩ := ih
      exact ⟨_, _, hread₁.append hread₂, hspaced₁.append hspaced₂, .minus hderives⟩
  | plus hsign _ ih =>
      obtain ⟨s₁, hread₁, hspaced₁⟩ := hsign.spaced (.operator .add)
      obtain ⟨ts, s₂, hread₂, hspaced₂, hderives⟩ := ih
      exact ⟨_, _, hread₁.append hread₂, hspaced₁.append hspaced₂, .plus hderives⟩
  | chain _ _ ihhead ihtail =>
      obtain ⟨us, s₁, hread₁, hspaced₁, hhead⟩ := ihhead
      obtain ⟨vs, s₂, hread₂, hspaced₂, htail⟩ := ihtail
      exact ⟨_, _, hread₁.append hread₂, hspaced₁.append hspaced₂, .chain hhead htail⟩
  | done l c => exact ⟨[], [], .nil c, .nil (by simp [Run]), .done l⟩
  | @step l op c stop d e f operand rest hop hsign _ _ ihoperand ihrest =>
      obtain ⟨s₁, hread₁, hspaced₁⟩ := hsign.spaced (.operator op)
      obtain ⟨us, s₂, hread₂, hspaced₂, hoperand⟩ := ihoperand
      obtain ⟨vs, s₃, hread₃, hspaced₃, hrest⟩ := ihrest
      exact ⟨.operator op :: (us ++ vs), _, hread₁.append (hread₂.append hread₃),
        hspaced₁.append (hspaced₂.append hspaced₃), .step hop hoperand hrest⟩

/-! ## Leaves -/

theorem Word.passes {word : List Char} {stop : Cursor} (h : Word word c stop d)
    (hne : word ≠ []) : c.Passes stop := by
  cases word with
  | nil => exact absurd rfl hne
  | cons ch more => exact ⟨ch, more, h.reads⟩

theorem Word.stop_reaches {word : List Char} {stop : Cursor} (h : Word word c stop d) :
    stop.Reaches d := by
  obtain ⟨s, hblanks, -⟩ := h.blanks
  exact ⟨s, hblanks⟩

theorem Word.passes_behind {word : List Char} {stop : Cursor} (h : Word word c stop d)
    (hne : word ≠ []) : c.Passes d :=
  (h.passes hne).trans_reaches h.stop_reaches

/-- Every leaf stands between the ends of its tree. -/
theorem Placed.leaf_between (h : Placed part c tree d) :
    ∀ leaf ∈ tree.leafSpans, ∃ c' d', c.Reaches c' ∧ c'.Passes d' ∧ d'.Reaches d ∧
      leaf = .between c'.location d'.location := by
  induction h with
  | paren hopen _ hclose ih =>
      intro leaf hleaf
      obtain ⟨c', d', hc', hpasses, hd', rfl⟩ := ih leaf hleaf
      exact ⟨c', d', hopen.reaches.trans hc', hpasses, hd'.trans hclose.reaches, rfl⟩
  | @number c stop d digits hne _ hword =>
      intro leaf hleaf
      obtain rfl : leaf = _ := List.mem_singleton.1 hleaf
      exact ⟨c, stop, .refl c, hword.passes hne, hword.stop_reaches, rfl⟩
  | @name c stop d ch s _ _ hword =>
      intro leaf hleaf
      obtain rfl : leaf = _ := List.mem_singleton.1 hleaf
      exact ⟨c, stop, .refl c, hword.passes (List.cons_ne_nil ch s), hword.stop_reaches, rfl⟩
  | minus hsign _ ih | plus hsign _ ih =>
      intro leaf hleaf
      obtain ⟨c', d', hc', hpasses, hd', rfl⟩ := ih leaf hleaf
      exact ⟨c', d', hsign.reaches.trans hc', hpasses, hd', rfl⟩
  | chain hhead htail ihhead ihtail =>
      intro leaf hleaf
      rcases List.mem_append.1 hleaf with hmem | hmem
      · obtain ⟨c', d', hc', hpasses, hd', rfl⟩ := ihhead leaf hmem
        exact ⟨c', d', hc', hpasses, hd'.trans htail.reaches, rfl⟩
      · obtain ⟨c', d', hc', hpasses, hd', rfl⟩ := ihtail leaf hmem
        exact ⟨c', d', hhead.reaches.trans hc', hpasses, hd', rfl⟩
  | done => exact fun leaf hleaf => absurd hleaf List.not_mem_nil
  | step _ hsign hoperand hrest ihoperand ihrest =>
      intro leaf hleaf
      rcases List.mem_append.1 hleaf with hmem | hmem
      · obtain ⟨c', d', hc', hpasses, hd', rfl⟩ := ihoperand leaf hmem
        exact ⟨c', d', hsign.reaches.trans hc', hpasses, hd'.trans hrest.reaches, rfl⟩
      · obtain ⟨c', d', hc', hpasses, hd', rfl⟩ := ihrest leaf hmem
        exact ⟨c', d', (hsign.reaches.trans hoperand.reaches).trans hc', hpasses, hd', rfl⟩

/-- In a tail, a sign stands before every leaf. -/
theorem Placed.leaf_behind_sign (h : Placed (.tail l) c tree d) :
    ∀ leaf ∈ tree.leafSpans, ∃ c' d', c.Passes c' ∧ c'.Passes d' ∧
      leaf = .between c'.location d'.location := by
  intro leaf hleaf
  cases h with
  | done => exact absurd hleaf List.not_mem_nil
  | step _ hsign hoperand hrest =>
      have hpasses := hsign.passes_behind (List.cons_ne_nil _ _)
      rcases List.mem_append.1 hleaf with hmem | hmem
      · obtain ⟨c', d', hc', hpasses', -, rfl⟩ := hoperand.leaf_between leaf hmem
        exact ⟨c', d', hpasses.trans_reaches hc', hpasses', rfl⟩
      · obtain ⟨c', d', hc', hpasses', -, rfl⟩ := hrest.leaf_between leaf hmem
        exact ⟨c', d', hpasses.trans_reaches (hoperand.reaches.trans hc'), hpasses', rfl⟩

/-- The leaves of a part come before those of the tail behind it. -/
theorem Placed.precedes_tail {e : Cursor} {tail : Node} (h : Placed part c tree d)
    (htail : Placed (.tail l) d tail e) :
    ∀ left ∈ tree.leafSpans, ∀ right ∈ tail.leafSpans, left.Precedes right := by
  intro left hleft right hright
  obtain ⟨c₁, d₁, -, hpasses₁, hd₁, rfl⟩ := h.leaf_between left hleft
  obtain ⟨c₂, d₂, hc₂, hpasses₂, rfl⟩ := htail.leaf_behind_sign right hright
  exact ⟨hpasses₁.before, (hd₁.trans_passes hc₂).before, hpasses₂.before⟩

theorem Placed.leafSpans_pairwise (h : Placed part c tree d) :
    tree.leafSpans.Pairwise Span.Precedes := by
  induction h with
  | paren _ _ _ ih | minus _ _ ih | plus _ _ ih => exact ih
  | number | name => exact List.pairwise_singleton _ _
  | done => exact List.Pairwise.nil
  | chain hhead htail ihhead ihtail =>
      exact List.pairwise_append.2 ⟨ihhead, ihtail, hhead.precedes_tail htail⟩
  | step _ _ hoperand hrest ihoperand ihrest =>
      exact List.pairwise_append.2 ⟨ihoperand, ihrest, hoperand.precedes_tail hrest⟩

/-! ## Nodes -/

/-- The span of a step, from its sign to the next token. -/
theorem stepSpan_of_placed {op : Operator} {stop e : Cursor} {operand : Node}
    (hc : (Cursor.start text).Reaches c) (hop : op ∈ l.operators)
    (hsign : Word [op.sign] c stop d) (hoperand : Placed l.part d operand e) :
    StepSpan text op operand (.between c.location e.location) := by
  constructor
  · obtain ⟨ts, s, hread, hspaced, hderives⟩ := hoperand.spaced
    obtain ⟨front, last, blanks, rfl, hspaced, hlast, hblank⟩ :=
      hspaced.exists_last (hderives.ne_nil l.part_ne_tail)
    obtain ⟨gap, hgap, hgapblank⟩ := hsign.blanks
    have hspelled : Spaced ts (gap ++ front ++ [last]) := by
      rw [List.append_assoc]
      exact hspaced.blank_append hgapblank
    have hremaining : c.remaining =
        op.sign :: (gap ++ front ++ [last] ++ (blanks ++ e.remaining)) := by
      rw [hsign.reads.remaining_eq, hgap.remaining_eq, hread.remaining_eq]
      simp
    have hstart := restAt_of_reaches hc
    rw [hremaining] at hstart
    exact ⟨l, ts, gap ++ front, last, blanks, e.remaining, hop, hderives, hspelled, hlast, hblank,
      hoperand.stops hsign.stops, hstart,
      restAt_of_reaches (hc.trans (hsign.reaches.trans hoperand.reaches))⟩
  · intro leaf hleaf
    obtain ⟨c', d', hc', -, hd', rfl⟩ := hoperand.leaf_between leaf hleaf
    have hpasses := (hsign.passes_behind (List.cons_ne_nil _ _)).trans_reaches hc'
    refine ⟨hpasses.before, ?_⟩
    rcases hd'.before_or_eq with rfl | ⟨-, hbefore⟩
    · exact .inl rfl
    · exact .inr hbefore

theorem not_mem_of_run {k : Char → Bool} {x : Char} (hs : Run k s) (hx : k x = false) :
    x ∉ s := by
  intro hmem
  rw [hs x hmem] at hx
  exact absurd hx (by simp)

/-- Every node of a placed tree has a span that points at what it names. -/
theorem Placed.spanPoints (h : Placed part c tree d) (hc : (Cursor.start text).Reaches c) :
    ∀ node ∈ tree.subtrees, node.SpanPoints text := by
  induction h with
  | paren hopen _ _ ih =>
      intro node hnode
      rcases List.mem_cons.1 hnode with rfl | hmem
      · trivial
      · exact ih (hc.trans hopen.reaches) node hmem
  | number hne hdigits hword =>
      intro node hnode
      obtain rfl : node = _ := List.mem_singleton.1 hnode
      have hcovers := covers_of_reads hc hword.reads (not_mem_of_run hdigits rfl)
      exact ⟨_, _, rfl, hne, hdigits, rfl, hcovers⟩
  | @name c stop d ch s hletter hs hword =>
      intro node hnode
      obtain rfl : node = _ := List.mem_singleton.1 hnode
      have hfeed : '\n' ∉ ch :: s := by
        rw [List.mem_cons, not_or]
        refine ⟨?_, not_mem_of_run hs rfl⟩
        rintro rfl
        exact absurd hletter (by decide)
      have hcovers := covers_of_reads hc hword.reads hfeed
      exact ⟨_, rfl, by rwa [String.toList_ofList]⟩
  | minus hsign _ ih =>
      intro node hnode
      rcases List.mem_cons.1 hnode with rfl | hmem
      · trivial
      · exact ih (hc.trans hsign.reaches) node hmem
  | plus hsign _ ih => exact ih (hc.trans hsign.reaches)
  | chain hhead _ ihhead ihtail =>
      intro node hnode
      rcases List.mem_cons.1 hnode with rfl | hmem
      · trivial
      · rcases List.mem_append.1 hmem with hmem | hmem
        · exact ihhead hc node hmem
        · exact ihtail (hc.trans hhead.reaches) node hmem
  | done =>
      intro node hnode
      obtain rfl : node = _ := List.mem_singleton.1 hnode
      trivial
  | @step l op c stop d e f operand rest hop hsign hoperand hrest ihoperand ihrest =>
      intro node hnode
      have hd := hc.trans hsign.reaches
      rcases List.mem_cons.1 hnode with rfl | hmem
      · refine ⟨_, rfl, stepSpan_of_placed hc hop hsign hoperand, ?_⟩
        rintro op' operand' rest' next rfl
        cases hrest
        rfl
      · rcases List.mem_append.1 hmem with hmem | hmem
        · exact ihoperand hd node hmem
        · exact ihrest (hd.trans hoperand.reaches) node hmem

/-- The spans of the tree of a text point at what the nodes name, and the leaves
stand in the order of the text. -/
theorem spans_point (text : String) (tree : Node) (h : read text = .ok (some tree)) :
    (∀ node ∈ tree.subtrees, node.SpanPoints text) ∧
      tree.leafSpans.Pairwise Span.Precedes := by
  obtain ⟨c, d, hc, -, hplaced, -⟩ := exists_placed_of_read h
  exact ⟨hplaced.spanPoints hc, hplaced.leafSpans_pairwise⟩

/-- A sum over two rows, with a product as its second part. -/
theorem spans_point_two_rows :
    ∃ tree, read "1 +\n ab* 07" = .ok (some tree) ∧
      tree.leafSpans = [.between ⟨1, 1⟩ ⟨1, 2⟩, .between ⟨2, 2⟩ ⟨2, 4⟩, .between ⟨2, 6⟩ ⟨2, 8⟩] ∧
      (∀ node ∈ tree.subtrees, node.SpanPoints "1 +\n ab* 07") ∧
      tree.leafSpans.Pairwise Span.Precedes := by
  have hread : ∃ tree, read "1 +\n ab* 07" = .ok (some tree) ∧
      tree.leafSpans =
        [.between ⟨1, 1⟩ ⟨1, 2⟩, .between ⟨2, 2⟩ ⟨2, 4⟩, .between ⟨2, 6⟩ ⟨2, 8⟩] := by
    refine ⟨?_, ?_, ?_⟩
    rotate_left
    · cbv
      rfl
    · cbv
  obtain ⟨tree, hread, hleaves⟩ := hread
  exact ⟨tree, hread, hleaves, spans_point _ tree hread⟩

end Arith

end ParserKit
