import ParserKit.Command.Run
import ParserKit.Proofs.Lengths
import ParserKit.Proofs.OutlinedTrees

/-!
# Showing trees

What the command `tree` prints of a source that is read is the outline of its
tree, line by line, without any of the sequences that color a terminal.  So the
printed texts of two sources agree exactly if their trees do.  There is one
reason for which nothing is printed: the outline nests too deeply, and then the
command ends without an answer, although the source was read.
-/

namespace ParserKit.Command

open Outline

/-- The words ask `tree` for one source, as a pattern or as an expression. -/
def AsksForTree (words : List String) (asPattern : Bool) (source : String) : Prop :=
  ∃ i, treeSpec.gather words = .ok i ∧ i.has .help = false ∧ i.has .regex = asPattern ∧
    i.arguments = [source]

/-- Reading a source, as a pattern or as an expression, gives a node of a kind with parts. -/
inductive ReadsAs : Bool → String → String → Parts → Prop
  | expression {source : String} {tree : Arith.Node} (h : Arith.read source = .ok (some tree)) :
      ReadsAs false source tree.kind tree.parts
  | pattern {source : String} {node : Pattern.Node} (h : Pattern.read source = .ok (some node)) :
      ReadsAs true source node.kind node.parts

variable {words words' : List String} {asPattern : Bool} {source source' kind kind' : String}
  {parts parts' : Parts}

theorem asksForTree_expression (source : String) : AsksForTree ["--", source] false source :=
  ⟨⟨[], [source]⟩, rfl, rfl, rfl, rfl⟩

theorem asksForTree_pattern (source : String) :
    AsksForTree ["--regex", "--", source] true source :=
  ⟨⟨[⟨.regex, ""⟩], [source]⟩, rfl, rfl, rfl, rfl⟩

theorem ReadsAs.isWord_kind (h : ReadsAs asPattern source kind parts) : IsWord kind := by
  cases h with
  | expression h => exact Arith.Node.isWord_kind (Arith.isArithmetic_of_read h)
  | pattern h => exact Pattern.Node.isWord_kind (Pattern.isPattern_of_read h)

theorem ReadsAs.legible (h : ReadsAs asPattern source kind parts) : parts.Legible := by
  cases h with
  | expression h => exact Arith.Node.legible_parts (Arith.isArithmetic_of_read h)
  | pattern h => exact Pattern.Node.legible_parts (Pattern.isPattern_of_read h)

/-- The answer for a source whose outline has these lines, or is too deep. -/
def outlineAnswer : Option (List String) → Answer
  | none => .error .outlineTooDeep
  | some lines => .ok (printed (String.join (lines.map (· ++ "\n"))))

theorem runTree_of_readsAs {i : Invocation} (hregex : i.has .regex = asPattern)
    (harguments : i.arguments = [source]) (h : ReadsAs asPattern source kind parts) :
    runTree i = outlineAnswer (linesWithin nestingLimit 0 kind parts) := by
  have hcheck : CommandSpec.checkArguments treeSpec.arguments i.arguments = .ok () := by
    rw [harguments]
    rfl
  rw [runTree, hcheck]
  simp only [harguments, List.headD_cons, hregex]
  cases h with
  | @expression _ tree h =>
      rw [if_neg Bool.false_ne_true, h, ← Arith.outlineWithin_eq]
      cases houtline : tree.outlineWithin nestingLimit 0 <;>
        simp [Except.map, Arith.Node.outline, houtline, showOutline, outlineAnswer]
  | @pattern _ node h =>
      rw [if_pos rfl, h, ← Pattern.outlineWithin_eq _ _ (Pattern.isPattern_of_read h)]
      cases houtline : node.outlineWithin nestingLimit 0 <;>
        simp [Except.map, Pattern.Node.outline, houtline, showOutline, outlineAnswer]

/-- The command prints the whole outline, unless it is too deep. -/
theorem run_tree (w : World) (hwords : AsksForTree words asPattern source)
    (h : ReadsAs asPattern source kind parts) :
    run w ("tree" :: words) =
      if parts.height < nestingLimit then .ok (printed (print kind parts))
      else .error .outlineTooDeep := by
  obtain ⟨i, hgather, hhelp, hregex, harguments⟩ := hwords
  have hgroup : runGroup w ("tree" :: words) = runCommand treeSpec runTree words := rfl
  have hstrip : Ansi.strip (print kind parts) = print kind parts := by
    apply Ansi.strip_eq_self
    intro hmem
    have hescape := isPrintable_of_mem_print h.isWord_kind h.legible hmem
    exact absurd hescape (by decide)
  rw [run, hgroup, runCommand, hgather]
  simp only [hhelp, Bool.false_eq_true, if_false]
  rw [runTree_of_readsAs hregex harguments h, linesWithin]
  by_cases hheight : parts.height < nestingLimit
  · rw [if_pos hheight, if_pos hheight, outlineAnswer, Nat.zero_add, ← print]
    cases w.color
    · simp [printed, hstrip, Ansi.strip_eq_self]
    · rfl
  · rw [if_neg hheight, if_neg hheight, outlineAnswer]

/-- The printed texts of two sources that are not too deep agree exactly if their outlines do. -/
theorem out_eq_iff (w w' : World) (hwords : AsksForTree words asPattern source)
    (hwords' : AsksForTree words' asPattern source') (h : ReadsAs asPattern source kind parts)
    (h' : ReadsAs asPattern source' kind' parts') (hheight : parts.height < nestingLimit)
    (hheight' : parts'.height < nestingLimit) :
    ∃ r r', run w ("tree" :: words) = .ok r ∧ run w' ("tree" :: words') = .ok r' ∧
      (r.out = r'.out ↔ kind = kind' ∧ parts = parts') := by
  have hrun := run_tree w hwords h
  have hrun' := run_tree w' hwords' h'
  rw [if_pos hheight] at hrun
  rw [if_pos hheight'] at hrun'
  refine ⟨_, _, hrun, hrun', fun hout => ?_, ?_⟩
  · exact print_injective h.isWord_kind h'.isWord_kind h.legible h'.legible hout
  · rintro ⟨rfl, rfl⟩
    rfl

/-- Two sources are shown alike exactly if they are read as the same tree, spans aside. -/
theorem shown_alike_iff_same_tree (w w' : World) :
    (AsksForTree words false source → AsksForTree words' false source' →
      ∀ tree tree', Arith.read source = .ok (some tree) → Arith.read source' = .ok (some tree') →
        tree.outline ≠ none → tree'.outline ≠ none →
          ∃ r r', run w ("tree" :: words) = .ok r ∧ run w' ("tree" :: words') = .ok r' ∧
            (r.out = r'.out ↔ tree.eraseSpans = tree'.eraseSpans)) ∧
    (AsksForTree words true source → AsksForTree words' true source' →
      ∀ node node', Pattern.read source = .ok (some node) →
        Pattern.read source' = .ok (some node') → node.outline ≠ none → node'.outline ≠ none →
          ∃ r r', run w ("tree" :: words) = .ok r ∧ run w' ("tree" :: words') = .ok r' ∧
            (r.out = r'.out ↔ node = node')) := by
  constructor
  · intro hwords hwords' tree tree' h h' houtline houtline'
    rw [Arith.Node.outline, Arith.outlineWithin_eq, linesWithin_ne_none] at houtline houtline'
    obtain ⟨r, r', hrun, hrun', hout⟩ :=
      out_eq_iff w w' hwords hwords' (.expression h) (.expression h') houtline houtline'
    refine ⟨r, r', hrun, hrun', hout.trans ⟨fun hsame => ?_, fun hsame => ?_⟩⟩
    · exact tree.eraseSpans_eq_of_parts (Arith.isArithmetic_of_read h)
        (Arith.isArithmetic_of_read h') hsame.1 hsame.2
    · rw [← tree.kind_eraseSpans, ← tree.parts_eraseSpans, hsame, tree'.kind_eraseSpans,
        tree'.parts_eraseSpans]
      exact ⟨rfl, rfl⟩
  · intro hwords hwords' node node' h h' houtline houtline'
    have hpattern := Pattern.isPattern_of_read h
    have hpattern' := Pattern.isPattern_of_read h'
    rw [Pattern.Node.outline, Pattern.outlineWithin_eq _ _ hpattern, linesWithin_ne_none]
      at houtline
    rw [Pattern.Node.outline, Pattern.outlineWithin_eq _ _ hpattern', linesWithin_ne_none]
      at houtline'
    obtain ⟨r, r', hrun, hrun', hout⟩ :=
      out_eq_iff w w' hwords hwords' (.pattern h) (.pattern h') houtline houtline'
    refine ⟨r, r', hrun, hrun', hout.trans ⟨fun hsame => ?_, ?_⟩⟩
    · exact node.eq_of_parts hpattern hpattern' hsame.1 hsame.2
    · rintro rfl
      exact ⟨rfl, rfl⟩

/-- Blanks between the tokens are not shown, and a quote is not shown like a backslash. -/
theorem shown_alike_iff_same_tree_blanks :
    (∃ tree tree', Arith.read "1+x" = .ok (some tree) ∧ Arith.read " 1 + x" = .ok (some tree') ∧
      tree.outline ≠ none ∧ tree'.outline ≠ none ∧
        ∃ r r', run ⟨⟨[]⟩, [], false⟩ ["tree", "--", "1+x"] = .ok r ∧
          run ⟨⟨[]⟩, [], true⟩ ["tree", "--", " 1 + x"] = .ok r' ∧ r.out = r'.out) ∧
    ∃ node node', Pattern.read "'*" = .ok (some node) ∧ Pattern.read "\\*" = .ok (some node') ∧
      node.outline ≠ none ∧ node'.outline ≠ none ∧
        ∃ r r', run ⟨⟨[]⟩, [], false⟩ ["tree", "--regex", "--", "'*"] = .ok r ∧
          run ⟨⟨[]⟩, [], true⟩ ["tree", "--regex", "--", "\\*"] = .ok r' ∧ r.out ≠ r'.out := by
  constructor
  · obtain ⟨tree, tree', h, h', houtline, houtline', hsame⟩ : ∃ tree tree',
        Arith.read "1+x" = .ok (some tree) ∧ Arith.read " 1 + x" = .ok (some tree') ∧
          tree.outline ≠ none ∧ tree'.outline ≠ none ∧ tree.eraseSpans = tree'.eraseSpans := by
      refine ⟨?_, ?_, ?_, ?_, ?_⟩
      rotate_left 2
      · cbv
        rfl
      · cbv
        rfl
      · exact ⟨by decide, by decide, rfl⟩
    obtain ⟨r, r', hrun, hrun', hout⟩ := (shown_alike_iff_same_tree ⟨⟨[]⟩, [], false⟩
      ⟨⟨[]⟩, [], true⟩).1 (asksForTree_expression "1+x") (asksForTree_expression " 1 + x") _ _ h
        h' houtline houtline'
    exact ⟨tree, tree', h, h', houtline, houtline', r, r', hrun, hrun', hout.2 hsame⟩
  · have hquote : Pattern.read "'*" = .ok (some (.star (.char "'"))) := by
      rw [Pattern.read_eq]
      cbv
    have hbackslash : Pattern.read "\\*" = .ok (some (.star (.char "\\"))) := by
      rw [Pattern.read_eq]
      cbv
    obtain ⟨r, r', hrun, hrun', hout⟩ := (shown_alike_iff_same_tree ⟨⟨[]⟩, [], false⟩
      ⟨⟨[]⟩, [], true⟩).2 (asksForTree_pattern "'*") (asksForTree_pattern "\\*") _ _ hquote
        hbackslash (by decide) (by decide)
    exact ⟨_, _, hquote, hbackslash, by decide, by decide, r, r', hrun, hrun',
      mt hout.1 (by decide)⟩

/-- A source that is read is shown completely, unless its tree nests too deeply.  Short sources are
never too deep, and long chains always are. -/
theorem shown_unless_too_deep (w : World) :
    (AsksForTree words false source → ∀ tree, Arith.read source = .ok (some tree) →
      run w ("tree" :: words) =
          (if tree.parts.height < nestingLimit then .ok (printed (print tree.kind tree.parts))
          else .error .outlineTooDeep) ∧
        (2 * source.length + 1 < nestingLimit → tree.parts.height < nestingLimit) ∧
        ∀ level head tail, tree = .chain level head tail →
          nestingLimit ≤ tail.steps.1.length → nestingLimit ≤ tree.parts.height) ∧
    (AsksForTree words true source → ∀ node, Pattern.read source = .ok (some node) →
      run w ("tree" :: words) =
          (if node.parts.height < nestingLimit then .ok (printed (print node.kind node.parts))
          else .error .outlineTooDeep) ∧
        (source.length ≤ nestingLimit → node.parts.height < nestingLimit) ∧
        ∀ link, nestingLimit < (node.spine link).length → nestingLimit ≤ node.parts.height) := by
  constructor
  · intro hwords tree h
    refine ⟨run_tree w hwords (.expression h), fun hshort => ?_, ?_⟩
    · exact Nat.lt_of_le_of_lt (Arith.height_le_of_read h) hshort
    · rintro level head tail rfl hlong
      have hsteps := hlong.trans tail.length_steps_le_height
      simp only [Arith.Node.parts, Parts.height]
      omega
  · intro hwords node h
    refine ⟨run_tree w hwords (.pattern h), fun hshort => ?_, fun link hlong => ?_⟩
    · exact Nat.lt_of_lt_of_le (Pattern.height_lt_of_read h) hshort
    · have hspine := node.length_spine_le_height link
      omega

/-- A product in a group, and a group behind a star. -/
theorem shown_unless_too_deep_groups :
    (∃ tree, Arith.read "(1*x)" = .ok (some tree) ∧
      run ⟨⟨[]⟩, [], false⟩ ["tree", "--", "(1*x)"] = .ok (printed (print tree.kind tree.parts))) ∧
    ∃ node, Pattern.read "a*(b|c)" = .ok (some node) ∧
      run ⟨⟨[]⟩, [], true⟩ ["tree", "--regex", "--", "a*(b|c)"] =
        .ok (printed (print node.kind node.parts)) := by
  constructor
  · obtain ⟨tree, h⟩ : ∃ tree, Arith.read "(1*x)" = .ok (some tree) := by
      refine ⟨?_, ?_⟩
      rotate_left
      · cbv
        rfl
    obtain ⟨hrun, hshort, -⟩ :=
      (shown_unless_too_deep ⟨⟨[]⟩, [], false⟩).1 (asksForTree_expression "(1*x)") tree h
    rw [if_pos (hshort (by decide))] at hrun
    exact ⟨tree, h, hrun⟩
  · obtain ⟨node, h⟩ : ∃ node, Pattern.read "a*(b|c)" = .ok (some node) := by
      refine ⟨?_, ?_⟩
      rotate_left
      · rw [Pattern.read_eq]
        cbv
        rfl
    obtain ⟨hrun, hshort, -⟩ :=
      (shown_unless_too_deep ⟨⟨[]⟩, [], true⟩).2 (asksForTree_pattern "a*(b|c)") node h
    rw [if_pos (hshort (by decide))] at hrun
    exact ⟨node, h, hrun⟩

/-- Plain characters that are too many are read as a pattern, but not shown. -/
theorem plain_too_deep (w : World) {ch : Char} {more : List Char}
    (h : ∀ c ∈ ch :: more, c ∉ Pattern.specials) (hlong : nestingLimit ≤ more.length) :
    run w ["tree", "--regex", "--", String.ofList (ch :: more)] = .error .outlineTooDeep := by
  have hspine : (Pattern.Node.ofChars ch more).spine .concat =
      .char (String.singleton ch) :: more.map fun c => .char (String.singleton c) := by
    apply Pattern.spine_nest
    rw [List.forall_mem_cons, List.forall_mem_map]
    exact ⟨rfl, fun _ _ => rfl⟩
  have hheight := (Pattern.Node.ofChars ch more).length_spine_le_height .concat
  rw [hspine, List.length_cons, List.length_map, Nat.succ_le_succ_iff] at hheight
  rw [run_tree w (asksForTree_pattern _) (.pattern (Pattern.read_plain h)),
    if_neg (Nat.not_lt.2 (hlong.trans hheight))]

/-- Two thousand letters are read as a pattern, but not shown. -/
theorem not_shown_two_thousand_letters :
    (∃ node, Pattern.read (String.ofList (List.replicate 2000 'a')) = .ok (some node)) ∧
      run ⟨⟨[]⟩, [], false⟩ ["tree", "--regex", "--", String.ofList (List.replicate 2000 'a')] =
        .error .outlineTooDeep := by
  have hplain : ∀ c ∈ 'a' :: List.replicate 1999 'a', c ∉ Pattern.specials := by
    intro c hc
    rw [← List.replicate_succ] at hc
    rw [List.eq_of_mem_replicate hc]
    decide
  rw [List.replicate_succ]
  refine ⟨⟨_, Pattern.read_plain hplain⟩, plain_too_deep _ hplain ?_⟩
  rw [List.length_replicate]
  decide

end ParserKit.Command
