import Mathlib
import ParserKit.Pattern.Compile
import ParserKit.Proofs.LongestFront
import ParserKit.Proofs.Pattern.Reading
import ParserKit.Proofs.SteadyOnStack

/-!
# Where a pattern stops

The parser of patterns is steady on the stack, so the place that is reported for a
text that is no pattern is the end of the longest pattern that the text begins
with.  Groups that are not closed, bars with nothing behind them and second stars
all make the parser fall back to that place.
-/

namespace ParserKit.Pattern

open ParserKit.Parser

variable {rules : Rules (Framed Rule)} {plain : Rules Rule} {c d : Cursor} {s rest : List Char}
variable {node : Node}

/-! ## Single parts -/

/-- The step matches only in front of a character of the class `k`, if there is room
for it. -/
def MayBegin (k : Char → Bool) {α : Type} (step : Cursor → Outcome α) : Prop :=
  step = noRoom ∨ ∀ c, Stops k c.remaining → step c = .ok none

section MayBegin

variable {α β γ : Type} {k : Char → Bool} {step step' : Cursor → Outcome α}

theorem MayBegin.of_runsAs (hruns : RunsAs step step') (h : MayBegin k step') :
    MayBegin k step := by
  rcases hruns with rfl | rfl
  · exact .inl rfl
  · exact h

/-- A step that has answered somewhere has room to fail. -/
theorem MayBegin.eq_none (h : MayBegin k step) {found : Option (α × Cursor)}
    (hok : step d = .ok found) (hstops : Stops k c.remaining) : step c = .ok none := by
  rcases h with rfl | h
  · cases hok
  · exact h c hstops

theorem mayBegin_satisfy (k : Char → Bool) (n : Nat) :
    MayBegin k (((satisfy k : Parser Rule Char).onStack n).runWith rules) := by
  refine .of_runsAs (runsAs_satisfy k n) (.inr fun c hstops => ?_)
  apply Outcome.Meets.eq_none
  apply meets_satisfy k (fun _ => trivial)
  intro ch d hread hch
  rw [hread.remaining_eq, List.singleton_append, stops_cons, hch] at hstops
  exact absurd hstops (by simp)

theorem MayBegin.map {p : Parser (Framed Rule) α} (h : MayBegin k (p.runWith rules)) (f : α → β) :
    MayBegin k ((Parser.map p f).runWith rules) := by
  refine h.imp (fun h => noRoom_map h f) fun h c hc => ?_
  rw [runWith_map, h c hc]
  rfl

theorem MayBegin.sequence {p : Parser (Framed Rule) α} (h : MayBegin k (p.runWith rules))
    (q : Parser (Framed Rule) β) (f : α → β → γ) :
    MayBegin k ((Parser.sequence p q f).runWith rules) := by
  refine h.imp (fun h => noRoom_sequence h q f) fun h c hc => ?_
  rw [runWith_sequence, h c hc]
  rfl

end MayBegin

theorem mayBegin_grouped (n : Nat) : MayBegin (· == '(') ((grouped.onStack n).runWith rules) := by
  apply MayBegin.of_runsAs (runsAs_map _ _ n)
  apply MayBegin.map
  apply MayBegin.of_runsAs (runsAs_sequence ..)
  apply MayBegin.sequence
  exact .of_runsAs (runsAs_sequence ..) ((mayBegin_satisfy _ _).sequence _ _)

theorem mayBegin_plain (n : Nat) :
    MayBegin isPlain ((Pattern.plain.onStack n).runWith rules) :=
  .of_runsAs (runsAs_map ..) ((mayBegin_satisfy isPlain _).map _)

theorem grouped_excludes_plain (n : Nat) :
    Excludes ((grouped.onStack n).runWith rules) ((Pattern.plain.onStack n).runWith rules) := by
  intro c d a s c' rest hnone hrun hread hc'
  obtain ⟨_, hrun⟩ := exists_of_map ((runsAs_map _ _ n).ok hrun)
  obtain ⟨ch, rfl, hplain⟩ := reads_of_satisfy ((runsAs_satisfy isPlain _).ok hrun) hread
  apply (mayBegin_grouped n).eq_none hnone
  rw [hc', List.singleton_append, stops_cons, beq_eq_false_iff_ne]
  rintro rfl
  exact isPlain_iff.1 hplain (by simp [specials])

/-- The star behind a basic pattern is never missed. -/
theorem star_ne_none (n : Nat) :
    ((Parser.optional (map (char '*') some) none : Parser Rule (Option Char)).onStack n).runWith
      rules c ≠ .ok none := by
  intro hnone
  have hrun := (runsAs_optional_map (char '*') some none n).ok hnone
  rw [Parser.optional, runWith_orElse, Outcome.otherwise_eq_none, runWith] at hrun
  cases hrun.2

theorem Follows.stops {k : Char → Bool} (h : Follows .term rest) (hclose : k ')' = false)
    (hbar : k '|' = false) : Stops k rest := by
  intro ch hch
  rcases h ch hch with rfl | rfl
  · exact hclose
  · exact hbar

/-- Where a factor has failed to match there is room for it, so it fails again where a
term ends. -/
theorem factor_onStack_eq_none {n : Nat}
    (hnone : (factor.onStack n).runWith rules d = .ok none) (h : Follows .term c.remaining) :
    (factor.onStack n).runWith rules c = .ok none := by
  have hfactor := (runsAs_sequence basic (Parser.optional (map (char '*') some) none) starred n).ok
    hnone
  rw [runWith_sequence] at hfactor
  rcases hbasic : (basic.onStack (n - callFrames)).runWith rules d with
    fault | (_ | ⟨body, e⟩)
  · rw [hbasic] at hfactor
    cases hfactor
  · have hboth := (runsAs_orElse grouped Pattern.plain _).ok hbasic
    rw [runWith_orElse, Outcome.otherwise_eq_none] at hboth
    have hgrouped := (mayBegin_grouped _).eq_none hboth.1 (h.stops (by decide) (by decide))
    have hplain := (mayBegin_plain _).eq_none hboth.2 (h.stops (by decide) (by decide))
    have hfails : (basic.onStack (n - callFrames)).runWith rules c = .ok none := by
      refine ((runsAs_orElse grouped Pattern.plain _).apply_eq hbasic c).trans ?_
      rw [runWith_orElse, Outcome.otherwise_eq_none]
      exact ⟨hgrouped, hplain⟩
    refine ((runsAs_sequence basic _ starred n).apply_eq hnone c).trans ?_
    rw [runWith_sequence, hfails]
    rfl
  · -- Behind a basic pattern the star is optional.
    rw [hbasic, Outcome.some_andThen] at hfactor
    rcases hstar : ((Parser.optional (map (char '*') some) none : Parser Rule (Option Char)).onStack
      (n - callFrames)).runWith rules e with fault | (_ | found)
    · rw [hstar] at hfactor
      cases hfactor
    · exact absurd hstar (star_ne_none _)
    · rw [hstar] at hfactor
      cases hfactor

theorem bar_onStack_eq_none {n : Nat}
    (hnone : ((discardLeft (char '|') term).onStack n).runWith rules d = .ok none)
    (h : Follows .expression c.remaining) :
    ((discardLeft (char '|') term).onStack n).runWith rules c = .ok none := by
  have hbar : MayBegin (· == '|') (((discardLeft (char '|') term).onStack n).runWith rules) :=
    .of_runsAs (runsAs_sequence ..) ((mayBegin_satisfy _ _).sequence _ _)
  apply hbar.eq_none hnone
  intro ch hch
  obtain rfl : ch = ')' := h ch hch
  rfl

section Rules

variable (hmoves : ∀ {β : Type} (r : Framed Rule β), Moves (rules r))

include hmoves

theorem steady_grouped (hrules : ∀ m, Steady (Follows .expression) (rules ⟨.expression, m⟩))
    (n : Nat) : Steady (fun _ => True) ((grouped.onStack n).runWith rules) := by
  have hchar : ∀ {F : List Char → Prop} (ch : Char) (m : Nat),
      Steady F (((char ch : Parser Rule Char).onStack m).runWith rules) :=
    fun ch m => (runsAs_satisfy _ m).steady (steady_char ch)
  have hopened : ∀ m, Steady (Follows .expression)
      (((discardLeft (char '(') (ref .expression)).onStack m).runWith rules) := by
    intro m
    apply (runsAs_sequence ..).steady
    apply steady_sequence hmoves (hchar (F := fun _ => True) '(' _)
      ((runsAs_ref ..).steady (hrules _))
    intros
    exact .inl trivial
  apply (runsAs_map ..).steady
  apply steady_map
  apply (runsAs_sequence ..).steady
  apply steady_sequence hmoves (hopened _) (hchar ')' _)
  intro _ _ d _ _ s rest _ hclose hread
  obtain ⟨ch, rfl, hch⟩ := reads_of_satisfy ((runsAs_satisfy _ _).ok hclose) hread
  exact .inl ((follows_cons ..).2 (eq_of_beq hch))

theorem steady_factor (hrules : ∀ m, Steady (Follows .expression) (rules ⟨.expression, m⟩))
    (n : Nat) : Steady (Follows .factor) ((factor.onStack n).runWith rules) := by
  have hplain : ∀ m, Steady (fun _ => True) ((Pattern.plain.onStack m).runWith rules) := fun m =>
    (runsAs_map ..).steady (steady_map ((runsAs_satisfy ..).steady (steady_satisfy isPlain)) _)
  have hbasic : ∀ m, Steady (fun _ => True) ((basic.onStack m).runWith rules) := fun m =>
    (runsAs_orElse grouped Pattern.plain m).steady
      (steady_orElse (steady_grouped hmoves hrules _) (hplain _) (grouped_excludes_plain _))
  have hstar : ∀ m, Steady (Follows .factor) (((Parser.optional (map (char '*') some) none :
      Parser Rule (Option Char)).onStack m).runWith rules) := by
    intro m
    apply (runsAs_optional_map ..).steady
    apply steady_optional hmoves (steady_map ((runsAs_satisfy ..).steady (steady_char '*')) some)
    intro c d hnone hrest
    apply ((mayBegin_satisfy (· == '*') _).map some).eq_none hnone
    intro ch hch
    exact beq_eq_false_iff_ne.2 (hrest ch hch)
  apply (runsAs_sequence ..).steady
  apply steady_sequence hmoves (hbasic _) (hstar _)
  intros
  exact .inl trivial

/-! ## Chains -/

omit hmoves in
/-- Behind a part of a chain the next one may stand. -/
theorem follows_separator (link : Link) (hnode : Canonical link.part node) (rest : List Char) :
    Follows link.part (link.separator ++ node.print ++ rest) := by
  obtain ⟨ch, s, hprint, hstar⟩ := hnode.exists_print_eq_cons
  rw [hprint]
  cases link with
  | concat => exact (follows_cons ..).2 hstar
  | alternation => exact (follows_cons ..).2 (.inr rfl)

omit hmoves in
/-- What a further part of a chain reads may stand behind the part before. -/
theorem follows_of_linked {link : Link} {part : PatternParser}
    (hsound : ∀ c, Sound link.part c (part.runWith plain c))
    (hrun : (linked link part).runWith plain c = .ok (some (node, d))) (hread : c.Reads s d)
    (rest : List Char) : s ≠ [] ∧ Follows link.part (s ++ rest) := by
  have hmeets := sound_linked link hsound c
  rw [hrun] at hmeets
  obtain ⟨hnode, hreads⟩ := hmeets
  obtain rfl := hread.eq_of_reads hreads
  refine ⟨?_, follows_separator link hnode rest⟩
  obtain ⟨ch, s, hprint, -⟩ := hnode.exists_print_eq_cons
  rw [hprint]
  simp

theorem steady_linked (link : Link) {part : PatternParser}
    (hpart : ∀ m, Steady (Follows link.part) ((part.onStack m).runWith rules)) (n : Nat) :
    Steady (Follows link.part) (((linked link part).onStack n).runWith rules) := by
  cases link with
  | concat => exact hpart n
  | alternation =>
      apply (runsAs_sequence ..).steady
      apply steady_sequence hmoves
        ((runsAs_satisfy ..).steady (steady_char (F := fun _ => True) '|')) (hpart _)
      intros
      exact .inl trivial

/-- What the parts read is known from their runs without the stack. -/
theorem steady_chainParser (link : Link) {part : PatternParser}
    (hplain : ∀ {β : Type} (r : Rule β) (m : Nat) (c : Cursor),
      (rules ⟨r, m⟩ c).Approximates (plain r c))
    (hsound : ∀ c, Sound link.part c (part.runWith plain c))
    (hpart : ∀ m, Steady (Follows link.part) ((part.onStack m).runWith rules))
    (hstop : ∀ {m : Nat} {c d : Cursor},
      ((linked link part).onStack m).runWith rules d = .ok none → Follows link.whole c.remaining →
        ((linked link part).onStack m).runWith rules c = .ok none) (n : Nat) :
    Steady (Follows link.whole) (((chainParser link part).onStack n).runWith rules) := by
  have hfollows : ∀ {m : Nat} {c d : Cursor} {node : Node} {s : List Char},
      ((linked link part).onStack m).runWith rules c = .ok (some (node, d)) → c.Reads s d →
        ∀ rest, s ≠ [] ∧ Follows link.part (s ++ rest) := by
    intro m c d node s hrun hread
    have hruns := onStack_runsWithin (fun r m _ => hplain r m) (linked link part)
      ((linked link part).charges_zero 0) (Nat.le_refl m) c
    exact follows_of_linked hsound (hruns.eq_of_ok hrun) hread
  have htakes : ∀ m, Takes (((linked link part).onStack m).runWith rules) :=
    fun _ _ _ _ _ hrun hread => (hfollows hrun hread []).1
  have hmore : ∀ m, Steady (Follows link.whole)
      ((many ((linked link part).onStack m)).runWith rules) := by
    intro m
    apply steady_many hmoves (steady_linked hmoves link hpart m) (htakes m) fun _ => Follows.part
    · intro c a d b e s rest _ hrun hread
      exact (hfollows hrun hread rest).2
    · exact fun _ _ => hstop
  apply (runsAs_sequence ..).steady
  have hmany : RunsAs (((many (linked link part)).onStack (n - callFrames)).runWith rules) _ :=
    runsAs_many (linked link part) _
  apply steady_sequence_of_total hmoves (hpart _) (hmany.steady (hmore _))
    (hmany.total (total_many hmoves)) fun _ => Follows.part
  intro c a d b e s rest _ hrun hread
  rcases reads_of_many hmoves (hmany.ok hrun) hread with hnil | ⟨node, d', t, u, hnext, ht, rfl⟩
  · exact .inl hnil
  · rw [List.append_assoc]
    exact .inr (hfollows hnext ht (u ++ rest)).2

theorem steady_expression
    (hplain : ∀ {β : Type} (r : Rule β) (m : Nat) (c : Cursor),
      (rules ⟨r, m⟩ c).Approximates (plain r c))
    (hsound : ∀ c, Sound .expression c (plain .expression c))
    (hrules : ∀ m, Steady (Follows .expression) (rules ⟨.expression, m⟩)) (n : Nat) :
    Steady (Follows .expression) ((expression.onStack n).runWith rules) := by
  have hfactor := sound_factor hsound
  rw [expression_eq, term_eq]
  apply steady_chainParser hmoves .alternation hplain (sound_chainParser .concat hfactor) _
    bar_onStack_eq_none
  exact steady_chainParser hmoves .concat hplain hfactor (steady_factor hmoves hrules)
    factor_onStack_eq_none

end Rules

theorem steady_rule (depth n : Nat) :
    Steady (Follows .expression)
      (Grammar.rule (Grammar.onStack grammar) depth (⟨.expression, n⟩ : Framed Rule Node)) := by
  induction depth generalizing n with
  | zero =>
      intro c d a s c' rest hrun
      cases hrun
  | succ depth ih =>
      exact steady_expression (moves_rule (Grammar.onStack grammar) depth)
        (fun r m c => Grammar.rule_onStack_approximates grammar depth m r c) (sound_rule depth) ih n

theorem steady_runOnStack : Steady (Follows .expression) (grammar.runOnStack expression) :=
  steady_expression (moves_rule (Grammar.onStack grammar) _)
    (fun r m c => Grammar.rule_onStack_approximates grammar _ m r c) (sound_rule _)
    (steady_rule _) stackFrames

/-! ## Malformed patterns -/

/-- The text is a pattern as a whole. -/
def IsPattern (text : String) : Prop := ∃ tree, read text = .ok (some tree)

theorem accepts_expression : Accepts (grammar.runOnStack expression) = IsPattern := by
  funext text
  simp only [Accepts, IsPattern, read_eq_some_iff_run]

/-- Where no tree is read, nothing was read or something remains. -/
theorem stop_of_readAt {text : String} {stopped : Cursor} (h : readAt text = .ok ⟨none, stopped⟩) :
    grammar.runOnStack expression (.start text) = .ok none ∧ stopped = .start text ∨
      ∃ tree, grammar.runOnStack expression (.start text) = .ok (some (tree, stopped)) ∧
        stopped.atEnd = false := by
  rw [readAt_eq] at h
  rcases hrun : grammar.runOnStack expression (.start text) with fault | (_ | ⟨tree, d⟩)
  · simp [hrun] at h
  · exact .inl ⟨rfl, by simpa [hrun, eq_comm] using h⟩
  · obtain ⟨hend, rfl⟩ : d.atEnd = false ∧ d = stopped := by simpa [hrun] using h
    exact .inr ⟨tree, rfl, hend⟩

/-- The reported place is where the longest pattern in front ends. -/
theorem endsLongest_of_readAt {text : String} {stopped : Cursor}
    (h : readAt text = .ok ⟨none, stopped⟩) : EndsLongest IsPattern text stopped.location := by
  have hmoves : Moves (grammar.runOnStack expression) := grammar.moves_runOnStack expression
  have hlongest := steady_runOnStack.longestFront (by simp [Follows]) hmoves text
  rw [accepts_expression] at hlongest
  rcases stop_of_readAt h with ⟨hrun, rfl⟩ | ⟨tree, hrun, -⟩
  · rw [hrun] at hlongest
    exact .inr ⟨hlongest, rfl⟩
  · rw [hrun] at hlongest
    exact .inl ⟨_, hlongest.1, by rw [String.toList_ofList]; exact hlongest.2⟩

theorem labels_malformed (text : String) (stopped : Cursor) :
    ∃ label, (malformed text stopped).labels = [label] ∧
      label.span.start = stopped.location := by
  rw [malformed]
  split <;> exact ⟨_, rfl, rfl⟩

theorem span_of_mem_labels {text : String} {stopped : Cursor} {label : Label}
    (h : label ∈ (malformed text stopped).labels) :
    label.span = ⟨"<pattern>", stopped.location, stopped.location.nextCol⟩ := by
  rw [malformed] at h
  split at h <;> rw [List.mem_singleton.1 h]

theorem eq_of_compileTree {R : Type → Type} {text : String} {tree : Node} {problem : Diagnostic}
    (h : (compileTree text tree : Except Diagnostic (Parser R String)) = .error problem) :
    problem = endless text ∨ problem = tooDeepProblem := by
  rw [compileTree] at h
  split at h
  · cases h
  · exact .inl (by simpa using h.symm)
  · exact .inr (by simpa using h.symm)

theorem code_ne_of_compileTree {R : Type → Type} {text : String} {tree : Node}
    {problem : Diagnostic}
    (h : (compileTree text tree : Except Diagnostic (Parser R String)) = .error problem) :
    problem.code ≠ "E200" := by
  rcases eq_of_compileTree h with rfl | rfl
  · simp [endless, Diagnostic.withNotes, Diagnostic.report]
  · simp [tooDeepProblem, Diagnostic.report]

/-- A malformed pattern is labelled behind the longest pattern that it begins
with. -/
theorem malformed_label_endsLongest (R : Type → Type) (text : String) (problem : Diagnostic)
    (h : (compileText text : Except Diagnostic (Parser R String)) = .error problem)
    (hcode : problem.code = "E200") :
    ∃ label, problem.labels = [label] ∧ EndsLongest IsPattern text label.span.start := by
  unfold compileText at h
  rcases hread : readAt text with fault | ⟨_ | tree, stopped⟩
  · simp only [hread, Except.error.injEq] at h
    rw [← h] at hcode
    exact absurd hcode (by simp [tooDeepProblem, Diagnostic.report])
  · simp only [hread, Except.error.injEq] at h
    obtain ⟨label, hlabels, hstart⟩ := labels_malformed text stopped
    exact ⟨label, h ▸ hlabels, hstart ▸ endsLongest_of_readAt hread⟩
  · simp only [hread] at h
    exact absurd hcode (code_ne_of_compileTree h)

/-- A group that is not closed, behind a starred one. -/
theorem malformed_label_open_group :
    ∃ problem, (compileText "(a)*|b(c" : Except Diagnostic (Parser NoRule String)) =
        .error problem ∧ problem.code = "E200" ∧
      ∃ label, problem.labels = [label] ∧ label.span.start = ⟨1, 7⟩ ∧
        EndsLongest IsPattern "(a)*|b(c" label.span.start := by
  have hread : readAt "(a)*|b(c" = .ok ⟨none, ⟨"(a)*|b(c".toList.toArray, 6, ⟨1, 7⟩⟩⟩ := by
    rw [readAt_eq]
    cbv
  have hcompile : (compileText "(a)*|b(c" : Except Diagnostic (Parser NoRule String)) =
      .error (malformed "(a)*|b(c" ⟨"(a)*|b(c".toList.toArray, 6, ⟨1, 7⟩⟩) := by
    unfold compileText
    simp only [hread]
  obtain ⟨label, hlabels, hends⟩ := malformed_label_endsLongest NoRule _ _ hcompile rfl
  refine ⟨_, hcompile, rfl, label, hlabels, ?_, hends⟩
  obtain rfl : _ = label := List.singleton_inj.1 hlabels
  rfl

end ParserKit.Pattern
