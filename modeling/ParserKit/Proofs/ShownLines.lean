import ParserKit.Proofs.Arith.Places
import ParserKit.Proofs.Arith.Spans
import ParserKit.Proofs.Arith.Stopping
import ParserKit.Proofs.Pattern.Stopping
import ParserKit.Proofs.SourceLines

/-!
# Diagnostics show the line they talk about

Every label of a problem with a text stands over characters of that text: over
those of a name, a number or a step, or over the one where reading stopped.  So
the problem is shown with the line of the label and with carets under those
characters, as long as line feeds alone end lines in the text.
-/

namespace ParserKit

open Lines Diagnostic

variable {text : String} {stopped : Cursor}

/-- Where reading stops short of the end of a text, something remains. -/
theorem reaches_of_stop {α : Type} {run : Cursor → Outcome α} (hmoves : Moves run)
    (hne : text ≠ "")
    (h : run (.start text) = .ok none ∧ stopped = .start text ∨
      ∃ a, run (.start text) = .ok (some (a, stopped)) ∧ stopped.atEnd = false) :
    (Cursor.start text).Reaches stopped ∧ stopped.remaining ≠ [] := by
  rcases h with ⟨-, rfl⟩ | ⟨a, hrun, hend⟩
  · refine ⟨.refl _, ?_⟩
    rw [Cursor.remaining_start]
    exact fun hnil => hne (String.toList_eq_nil_iff.1 hnil)
  · refine ⟨hmoves.reaches hrun, fun hnil => ?_⟩
    rw [(Cursor.atEnd_iff_remaining stopped).2 hnil] at hend
    cases hend

/-! ## Expressions -/

namespace Arith

open ParserKit.Parser

variable {part : Part} {c d : Cursor} {tree : Node}

/-- The span of a node, if it has one, goes from one cursor to a later one. -/
theorem Placed.span_between (h : Placed part c tree d) :
    ∀ span ∈ tree.span?, ∃ c' d', c.Reaches c' ∧ c'.Passes d' ∧
      span = .between c'.location d'.location := by
  induction h with
  | paren | minus | chain | done => simp [Node.span?]
  | number hne _ hword =>
      rintro span ⟨⟩
      exact ⟨_, _, .refl _, hword.passes hne, rfl⟩
  | name _ _ hword =>
      rintro span ⟨⟩
      exact ⟨_, _, .refl _, hword.passes (List.cons_ne_nil _ _), rfl⟩
  | plus hsign _ ih =>
      intro span hspan
      obtain ⟨c', d', hc', hpasses, rfl⟩ := ih span hspan
      exact ⟨c', d', hsign.reaches.trans hc', hpasses, rfl⟩
  | step _ hsign hoperand _ =>
      rintro span ⟨⟩
      exact ⟨_, _, .refl _,
        (hsign.passes_behind (List.cons_ne_nil _ _)).trans_reaches hoperand.reaches, rfl⟩

/-- Every label of a problem stands over characters of the text. -/
theorem label_standsOver {e : Evaluator} {problem : Diagnostic} (hne : text ≠ "")
    (h : e.evaluateText text = .ok (.failed problem)) :
    ∀ label ∈ problem.labels, ∃ covered, label.span.StandsOver text covered := by
  intro label hlabel
  rcases failed_cases h with ⟨stopped, hread, rfl⟩ | rfl | ⟨tree, hread, htree⟩
  · have hmoves : Moves (grammar.runOnStack program) := grammar.moves_runOnStack program
    obtain ⟨hreaches, hremaining⟩ := reaches_of_stop hmoves hne (stop_of_readAt hread)
    obtain ⟨ch, hspan⟩ := Span.standsOver_nextCol hreaches hremaining Span.inputName
    rw [labels_malformed, List.mem_singleton] at hlabel
    exact ⟨[ch], hlabel ▸ hspan⟩
  · cases hlabel
  · obtain ⟨c, d, hc, -, hplaced, -⟩ := exists_placed_of_read hread
    obtain ⟨s, hs, ⟨-, hlabels⟩ | ⟨rfl, -⟩⟩ := e.exists_standing_of_evaluate htree
    · have hspan : label.span ∈ s.node.span? :=
        Option.mem_toList.1 (hlabels ▸ List.mem_map_of_mem hlabel)
      obtain ⟨part, c₁, d₁, -, hc₁, hpart, -⟩ := hplaced.placedBetween_of_mem s hs
      obtain ⟨c₂, d₂, hc₂, ⟨ch, more, hreads⟩, heq⟩ := hpart.span_between label.span hspan
      rw [heq]
      exact ⟨ch :: more, Span.standsOver_between (hc.trans (hc₁.trans hc₂)) hreads
        (List.cons_ne_nil ch more)⟩
    · cases hlabel

end Arith

/-! ## Patterns -/

namespace Pattern

open ParserKit.Parser

theorem label_standsOver {R : Type → Type} {problem : Diagnostic} (hne : text ≠ "")
    (h : (compileText text : Except Diagnostic (Parser R String)) = .error problem) :
    ∀ label ∈ problem.labels, ∃ covered, label.span.StandsOver text covered := by
  intro label hlabel
  unfold compileText at h
  rcases hread : readAt text with fault | ⟨_ | tree, stopped⟩
  · simp only [hread, Except.error.injEq] at h
    rw [← h] at hlabel
    cases hlabel
  · simp only [hread, Except.error.injEq] at h
    have hmoves : Moves (grammar.runOnStack expression) := grammar.moves_runOnStack expression
    obtain ⟨hreaches, hremaining⟩ := reaches_of_stop hmoves hne (stop_of_readAt hread)
    obtain ⟨ch, hspan⟩ := Span.standsOver_nextCol hreaches hremaining "<pattern>"
    rw [← h] at hlabel
    exact ⟨[ch], span_of_mem_labels hlabel ▸ hspan⟩
  · simp only [hread] at h
    rcases eq_of_compileTree h with rfl | rfl <;> cases hlabel

end Pattern

/-- In a text where only line feeds end lines, every label of a problem with it,
as an expression or as a pattern, is shown with its line and with carets under
what it covers. -/
theorem labels_show_lines (text : String) (hne : text ≠ "")
    (hbreaks : BreaksAtFeeds text.toList) :
    (∀ (e : Arith.Evaluator) (problem : Diagnostic),
      e.evaluateText text = .ok (.failed problem) →
        ∀ label ∈ problem.labels, ShowsLine text problem label) ∧
    ∀ (R : Type → Type) (problem : Diagnostic),
      (Pattern.compileText text : Except Diagnostic (Parser R String)) = .error problem →
        ∀ label ∈ problem.labels, ShowsLine text problem label := by
  constructor
  · intro e problem h label hlabel
    obtain ⟨covered, hspan⟩ := Arith.label_standsOver hne h label hlabel
    exact showsLine_of_standsOver hbreaks hlabel hspan
  · intro R problem h label hlabel
    obtain ⟨covered, hspan⟩ := Pattern.label_standsOver hne h label hlabel
    exact showsLine_of_standsOver hbreaks hlabel hspan

/-- An unbound name in a second line, and a group that is not closed. -/
theorem labels_show_lines_two_rows :
    "1 +\r\n x2" ≠ "" ∧ BreaksAtFeeds "1 +\r\n x2".toList ∧
    (∃ problem label, ({} : Arith.Evaluator).evaluateText "1 +\r\n x2" = .ok (.failed problem) ∧
      label ∈ problem.labels ∧ label.span = .between ⟨2, 2⟩ ⟨2, 4⟩ ∧
      ShowsLine "1 +\r\n x2" problem label) ∧
    "a\n(b" ≠ "" ∧ BreaksAtFeeds "a\n(b".toList ∧
    ∃ problem label, (Pattern.compileText "a\n(b" : Except Diagnostic (Parser NoRule String)) =
        .error problem ∧
      label ∈ problem.labels ∧ label.span.start = ⟨2, 1⟩ ∧ ShowsLine "a\n(b" problem label := by
  have hsum : "1 +\r\n x2" ≠ "" ∧ BreaksAtFeeds "1 +\r\n x2".toList := by
    simp [BreaksAtFeeds, breaks]
  have hgroup : "a\n(b" ≠ "" ∧ BreaksAtFeeds "a\n(b".toList := by
    simp [BreaksAtFeeds, breaks]
  obtain ⟨problem, hproblem, label, hlabel, hspan⟩ : ∃ problem,
      ({} : Arith.Evaluator).evaluateText "1 +\r\n x2" = .ok (.failed problem) ∧
        ∃ label ∈ problem.labels, label.span = .between ⟨2, 2⟩ ⟨2, 4⟩ := by
    refine ⟨?_, ?_, ?_⟩
    rotate_left
    · cbv
      rfl
    · exact ⟨_, List.mem_cons_self, rfl⟩
  obtain ⟨problem', hproblem', label', hlabel', hspan'⟩ : ∃ problem,
      (Pattern.compileText "a\n(b" : Except Diagnostic (Parser NoRule String)) = .error problem ∧
        ∃ label ∈ problem.labels, label.span.start = ⟨2, 1⟩ := by
    have hread : Pattern.readAt "a\n(b" = .ok ⟨none, ⟨"a\n(b".toList.toArray, 2, ⟨2, 1⟩⟩⟩ := by
      rw [Pattern.readAt_eq]
      cbv
    unfold Pattern.compileText
    rw [hread]
    exact ⟨_, rfl, _, List.mem_cons_self, rfl⟩
  exact ⟨hsum.1, hsum.2, ⟨problem, label, hproblem, hlabel, hspan,
    (labels_show_lines _ hsum.1 hsum.2).1 _ problem hproblem label hlabel⟩, hgroup.1, hgroup.2,
    problem', label', hproblem', hlabel', hspan',
    (labels_show_lines _ hgroup.1 hgroup.2).2 NoRule problem' hproblem' label' hlabel'⟩

/-- A carriage return of its own ends the line that is shown, but no line of the
cursor: the name behind it is reported without the line that it stands in. -/
theorem not_showsLine_carriage_return :
    "1+\rx" ≠ "" ∧ ∃ problem label,
      ({} : Arith.Evaluator).evaluateText "1+\rx" = .ok (.failed problem) ∧
      label ∈ problem.labels ∧ label.span = .between ⟨1, 4⟩ ⟨1, 5⟩ ∧
      ¬ ShowsLine "1+\rx" problem label := by
  refine ⟨by simp, Diagnostic.report "E101" "unbound identifier 'x'"
    (some (.between ⟨1, 4⟩ ⟨1, 5⟩)) "not defined", _, by cbv, List.mem_cons_self, rfl, ?_⟩
  rintro ⟨row, line, above, below, hrow, hline, hrender, -⟩
  obtain rfl : row = 0 := by
    simp only [Span.between] at hrow
    omega
  obtain rfl : "1+\rx".toList = line := by
    rw [List.splitOn_eq_singleton (by decide)] at hline
    simpa using hline
  have hshown : (Diagnostic.report "E101" "unbound identifier 'x'"
      (some (.between ⟨1, 4⟩ ⟨1, 5⟩)) "not defined").render false (some "1+\rx") =
      "error[E101]: unbound identifier 'x'\n  --> <input>:1:4\n     |\n     1 | 1+\n" ++
        "     |    ^\n     |   not defined" := by
    cbv
  have hsource : '\r' ∈ (" " ++ String.ofList (withoutReturn "1+\rx".toList)).toList := by decide
  have hreturn : '\r' ∈ ((Diagnostic.report "E101" "unbound identifier 'x'"
      (some (.between ⟨1, 4⟩ ⟨1, 5⟩)) "not defined").render false (some "1+\rx")).toList := by
    rw [hrender false]
    exact mem_writeAll (List.mem_append_right above (List.mem_cons_of_mem _
      (List.mem_cons_of_mem _ List.mem_cons_self))) (List.mem_append_right _ List.mem_cons_self)
      hsource false
  rw [hshown] at hreturn
  exact absurd hreturn (by simp)

end ParserKit
