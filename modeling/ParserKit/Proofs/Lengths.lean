import ParserKit.Proofs.Arith.Numerals
import ParserKit.Proofs.Arith.Overflow
import ParserKit.Proofs.Arith.Places
import ParserKit.Proofs.Pattern.EndlessStar
import ParserKit.Proofs.Pattern.Progress

/-!
# Length is no nesting

Chains of operators, runs of digits, names and blanks, concatenations and
alternatives may be of any length: all that counts against the limits are the
parentheses and signs of an expression, and the groups of a pattern, that stand
inside one another.
-/

namespace ParserKit

namespace Arith

variable {n : Nat} {part : Part} {ts : List Token} {tree : Node} {text : String}

/-- How many nodes an operand without parentheses and signs nests, and the chains
around it. -/
def Level.height : Level → Nat
  | factor => 2
  | term => 3
  | expression => 4

def Part.height : Part → Nat
  | operand => 1
  | level l => l.height
  | tail l => l.height - 1

theorem Level.height_part (l : Level) : l.part.height + 1 = l.height := by
  cases l <;> rfl

/-- Each parenthesis and each sign adds four nodes at most. -/
theorem DerivesWithin.nesting_le (h : DerivesWithin n part ts tree) :
    tree.nesting ≤ 4 * n + part.height := by
  induction h with
  | paren _ ih | minus _ ih =>
      simp only [Part.height, Level.height] at ih ⊢
      rw [Node.nesting]
      omega
  | plus _ ih => omega
  | number | name => exact Nat.le_add_left _ _
  | @chain _ l _ _ _ _ _ _ ihhead ihtail =>
      have hpart := l.height_part
      rw [Part.height] at ihtail
      rw [Node.nesting, Part.height]
      omega
  | done => exact Nat.zero_le _
  | @step _ l _ _ _ _ _ _ _ _ ihoperand ihrest =>
      have hpart := l.height_part
      rw [Part.height] at ihrest ⊢
      rw [Node.nesting]
      omega

theorem Node.nesting_eraseSpans (tree : Node) : tree.eraseSpans.nesting = tree.nesting := by
  induction tree with
  | identifier | number | done | foreign => rfl
  | negate operand ih => rw [eraseSpans, nesting, nesting, ih]
  | paren body ih => rw [eraseSpans, nesting, nesting, ih]
  | chain l head tail ihhead ihtail => rw [eraseSpans, nesting, nesting, ihhead, ihtail]
  | step op operand rest span ihoperand ihrest =>
      rw [eraseSpans, nesting, nesting, ihoperand, ihrest]

/-- One operand derives an expression. -/
theorem DerivesWithin.alone (h : DerivesWithin n .operand ts tree) :
    DerivesWithin n (.level .expression) ts (.alone tree) := by
  have hfactor : DerivesWithin n (.level .factor) (ts ++ []) _ := .chain h (.done .factor)
  have hterm : DerivesWithin n (.level .term) (ts ++ [] ++ []) _ := .chain hfactor (.done .term)
  have hchain := DerivesWithin.chain (l := .expression) hterm (.done .expression)
  simp only [List.append_nil] at hchain
  exact hchain

/-- A tree that was read and nests within the limit of walks is never reported as
too deep. -/
theorem code_ne_of_nesting_le (hread : read text = .ok (some tree))
    (hnesting : tree.nesting ≤ walkLimit) {e : Evaluator} {problem : Diagnostic}
    (h : e.evaluateText text = .ok (.failed problem)) : problem.code ≠ "E105" := by
  rw [e.evaluateText_of_read hread] at h
  obtain ⟨c, d, -, -, hplaced, -⟩ := exists_placed_of_read hread
  obtain ⟨s, hs, ⟨hcode, -⟩ | ⟨-, hplace, hlevel⟩⟩ := e.exists_standing_of_evaluate h
  · intro heq
    rw [heq] at hcode
    exact absurd hcode (by decide)
  · have hlt := Node.level_lt_of_mem_standing hs hplace (hplaced.takes_of_mem s hs)
    omega

/-- An expression is read and evaluated without any complaint about nesting, if
its tokens do not stand too deep. -/
theorem read_within (hderives : DerivesWithin n (.level .expression) ts tree)
    (hspaced : Spaced ts text.toList) (hshort : ShortRuns text.toList)
    (hlimit : n ≤ roomForNesting) :
    (∃ found, read text = .ok (some found) ∧ found.eraseSpans = tree) ∧
      ∀ (e : Evaluator) (problem : Diagnostic), e.evaluateText text = .ok (.failed problem) →
        problem.code ≠ "E105" := by
  obtain ⟨found, hread, herase⟩ := (read_of_derivesWithin hderives hspaced hshort).resolve_left
    fun hdeep => Nat.not_lt.2 hlimit hdeep.2
  refine ⟨⟨found, hread, herase⟩, fun e problem h => code_ne_of_nesting_le hread ?_ h⟩
  have hnesting := hderives.nesting_le
  rw [← herase, found.nesting_eraseSpans] at hnesting
  simp only [Part.height, Level.height, walkLimit, roomForNesting] at hnesting hlimit ⊢
  omega

end Arith

namespace Pattern

variable {text : String} {node : Node}

/-- What is compiled from a pattern fits the stack, as far as its groups do. -/
theorem fitsIn_stack (hcanonical : Canonical .expression node) (hprint : node.print = text.toList)
    (hlimit : node.groupDepth ≤ roomForNesting) {p : Parser NoRule String}
    (hcompile : compile nestingLimit node = .ok p) : p.FitsIn 0 stackFrames := by
  obtain ⟨q, hq⟩ := compiles_of_canonical NoRule hcanonical hprint hlimit
  have hsame : p = q := by
    have hhigher : compile nestingLimit node = .ok q := compile_mono (by decide) hq
    rw [hcompile] at hhigher
    exact Except.ok.inj hhigher
  rw [hsame]
  exact (fitsIn_of_compile hq).of_le (by decide)

/-- A pattern whose groups do not stand too deep is read, and unless it has an endless
star it is compiled to a parser that answers wherever it starts. -/
theorem compileText_of_canonical (hcanonical : Canonical .expression node)
    (hprint : node.print = text.toList) (hlimit : node.groupDepth ≤ roomForNesting) :
    (compileText text : Except Diagnostic (Parser NoRule String)) = .error (endless text) ∨
      ∃ p : Parser NoRule String, compileText text = .ok p ∧
        ∀ c, ∃ found, p.runOnStack c = .ok found := by
  have hread : read text = .ok (some node) :=
    (read_of_canonical hcanonical hprint).resolve_left fun hdeep => Nat.not_lt.2 hlimit hdeep.2
  obtain ⟨p, hcompile, htext⟩ := compileText_of_read NoRule hread
  obtain ⟨found, hfound⟩ := exists_emptyRepeat ⟨p, hcompile⟩
  by_cases hstar : node.emptyStar = none
  · rw [if_pos hstar] at htext
    have hnone : emptyRepeat nestingLimit node = .ok none := by
      rw [hfound, emptyRepeat_eq hfound, hstar]
    refine .inr ⟨p, htext, fun c => ?_⟩
    obtain ⟨answer, hanswer⟩ := (repetitionsEnd_of_emptyRepeat hnone hcompile).answers c
    exact ⟨answer, ((fitsIn_stack hcanonical hprint hlimit hcompile).run_approximates c).eq_of_ok
      hanswer⟩
  · rw [if_neg hstar] at htext
    exact .inl htext

theorem groupDepth_nest_le {link : Link} {first : Node} {more : List Node} {n : Nat}
    (h : ∀ node ∈ first :: more, node.groupDepth ≤ n) :
    (Node.nest link first more).groupDepth ≤ n := by
  induction more generalizing first with
  | nil => exact h first List.mem_cons_self
  | cons second more ih =>
      have hrest := ih fun node hnode => h node (List.mem_cons_of_mem _ hnode)
      cases link <;> exact Nat.max_le.2 ⟨h first List.mem_cons_self, hrest⟩

/-- The tree of one character or more. -/
def Node.ofChars (ch : Char) (more : List Char) : Node :=
  Node.nest .concat (.char (String.singleton ch)) (more.map fun c => .char (String.singleton c))

/-- Plain characters are read, however many there are. -/
theorem read_plain {ch : Char} {more : List Char} (h : ∀ c ∈ ch :: more, c ∉ specials) :
    read (String.ofList (ch :: more)) = .ok (some (.ofChars ch more)) := by
  rw [List.forall_mem_cons] at h
  have hmore : ∀ node ∈ more.map fun c => Node.char (String.singleton c),
      Canonical .factor node := by
    rw [List.forall_mem_map]
    exact fun c hc => .once (.char (h.2 c hc))
  have hterm : Canonical (Link.whole .concat) (.ofChars ch more) :=
    Canonical.nest (.once (.char h.1)) hmore
  have hcanonical : Canonical .expression (.ofChars ch more) := .only hterm
  have hdepth : (Node.ofChars ch more).groupDepth ≤ 0 := by
    apply groupDepth_nest_le
    simp [Node.groupDepth]
  have hprint : (Node.ofChars ch more).print = (String.ofList (ch :: more)).toList := by
    rw [Node.ofChars, print_nest, printMore, List.flatMap_map, String.toList_ofList]
    simp [Node.print, Link.separator]
  exact (read_of_canonical hcanonical hprint).resolve_left fun hdeep =>
    absurd (Nat.lt_of_lt_of_le hdeep.2 hdepth) (Nat.not_lt_zero _)

end Pattern

/-- Sixteen levels of nesting are never too deep for an expression, and thirty-two are
never too deep for a pattern, whatever the lengths: expressions are read and evaluated,
and patterns are compiled and matched with any text. -/
theorem length_is_not_nesting (text : String) :
    (∀ (ts : List Arith.Token) (tree : Arith.Node),
      Arith.DerivesWithin 16 (.level .expression) ts tree → Arith.Spaced ts text.toList →
      Arith.ShortRuns text.toList →
        (∃ found, Arith.read text = .ok (some found) ∧ found.eraseSpans = tree) ∧
        ∀ (e : Arith.Evaluator) (problem : Diagnostic),
          e.evaluateText text = .ok (.failed problem) → problem.code ≠ "E105") ∧
    ∀ node : Pattern.Node, Pattern.Canonical .expression node → node.print = text.toList →
      node.groupDepth ≤ 32 →
        (∀ problem, (Pattern.compileText text : Except Diagnostic (Parser NoRule String)) =
          .error problem → problem.code ≠ "E201") ∧
        ∀ p : Parser NoRule String, Pattern.compileText text = .ok p →
          ∀ c, ∃ found, p.runOnStack c = .ok found := by
  constructor
  · intro ts tree hderives hspaced hshort
    exact Arith.read_within hderives hspaced hshort (by decide)
  · intro node hcanonical hprint hdepth
    have hroom : node.groupDepth ≤ Pattern.roomForNesting := hdepth.trans (by decide)
    rcases Pattern.compileText_of_canonical hcanonical hprint hroom with
      hendless | ⟨p, hp, hanswers⟩
    · refine ⟨fun problem h => ?_, fun p h => ?_⟩
      · rw [hendless] at h
        cases h
        simp [Pattern.endless, Diagnostic.withNotes, Diagnostic.report]
      · rw [hendless] at h
        cases h
    · refine ⟨fun problem h => ?_, fun q h => ?_⟩
      · rw [hp] at h
        cases h
      · rw [hp] at h
        cases h
        exact hanswers

/-- A name in a group behind a sign, with blanks, and a starred group. -/
theorem length_is_not_nesting_group :
    (∃ ts tree, Arith.DerivesWithin 16 (.level .expression) ts tree ∧
      Arith.Spaced ts "-( x1 )".toList ∧ Arith.ShortRuns "-( x1 )".toList ∧
      ∃ found, Arith.read "-( x1 )" = .ok (some found) ∧ found.eraseSpans = tree) ∧
    ∃ node, Pattern.Canonical .expression node ∧ node.print = "(ab|c)*d".toList ∧
      node.groupDepth ≤ 32 ∧ ∃ p : Parser NoRule String, Pattern.compileText "(ab|c)*d" = .ok p ∧
        ∀ c, ∃ found, p.runOnStack c = .ok found := by
  have hexpressions := (length_is_not_nesting "-( x1 )").1
  have hpatterns := (length_is_not_nesting "(ab|c)*d").2
  constructor
  · have hblank : Blank [' '] := by simp [Run]; decide
    have hnone : Blank [] := run_nil CharClass.isSpace
    have hletters : CharClass.isLetter 'x' = true ∧ Run CharClass.isAlphanum ['1'] := by
      simp [Run]; decide
    have hx : Arith.DerivesWithin 14 .operand [.name "x1"] (.identifier "x1" none) := .name "x1"
    have hderives := hx.alone.paren.minus.alone
    have hword : Arith.Token.Written (.name "x1") ['x', '1'] := .name hletters.1 hletters.2
    have hspaced : Arith.Spaced [.operator .subtract, .opening, .name "x1", .closing]
        "-( x1 )".toList :=
      .cons hnone (.operator .subtract) (.cons hnone .opening (.cons hblank hword
        (.cons hblank .closing (.nil hnone))))
    have hshort : Arith.ShortRuns "-( x1 )".toList := Arith.shortRuns_of_length_le (by decide)
    exact ⟨_, _, hderives, hspaced, hshort, (hexpressions _ _ hderives hspaced hshort).1⟩
  · have hread : Pattern.read "(ab|c)*d" = .ok (some
        (.concat (.star (.group (.alternation (.concat (.char "a") (.char "b")) (.char "c"))))
          (.char "d"))) := by
      rw [Pattern.read_eq]
      cbv
    have hsound := Pattern.read_sound "(ab|c)*d"
    rw [hread] at hsound
    obtain ⟨hcanonical, hprint⟩ := hsound
    have hdepth : (Pattern.Node.concat (.star (.group (.alternation
        (.concat (.char "a") (.char "b")) (.char "c")))) (.char "d")).groupDepth ≤ 32 := by decide
    obtain ⟨p, hp⟩ : ∃ p : Parser NoRule String, Pattern.compileText "(ab|c)*d" = .ok p := by
      rw [Pattern.compileText_eq_compileTree hread]
      exact ⟨_, rfl⟩
    exact ⟨_, hcanonical, hprint, hdepth, p, hp, (hpatterns _ hcanonical hprint hdepth).2 p hp⟩

/-- An expression of seventeen levels is too deep already, where each of them is opened
at the end of three chains. -/
theorem seventeen_levels_too_deep :
    ∃ text ts tree, text = "1+1*1^(1+1*1^(1+1*1^(1+1*1^(1+1*1^(1+1*1^(1+1*1^(1+1*1^(" ++
        "1+1*1^(1+1*1^(1+1*1^(1+1*1^(1+1*1^(1+1*1^(1+1*1^(1+1*1^(1+1*1^(1)))))))))))))))))" ∧
      Arith.DerivesWithin 32 (.level .expression) ts tree ∧ Arith.Spaced ts text.toList ∧
      Arith.ShortRuns text.toList ∧ Arith.read text = .error .tooDeep ∧
      ∀ e : Arith.Evaluator, ∃ problem, e.evaluateText text = .ok (.failed problem) ∧
        problem.code = "E105" := by
  obtain ⟨ts, tree, hderives, hspaced⟩ := Arith.exists_derivesWithin_nested 17
  refine ⟨String.ofList (Arith.nested 17), ts, tree, ?_, hderives.mono (by decide), ?_, ?_,
    Arith.read_nested (Nat.le_refl 17), fun e => ⟨_, Arith.evaluateText_nested e (Nat.le_refl 17),
      rfl⟩⟩
  · rw [← String.toList_inj, String.toList_ofList]
    decide +kernel
  · rwa [String.toList_ofList]
  · rw [String.toList_ofList]
    exact Arith.shortRuns_of_length_le (by decide +kernel)

end ParserKit
