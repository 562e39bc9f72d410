import ParserKit.Proofs.Pattern.Nesting
import ParserKit.Proofs.Pattern.Progress

/-!
# Endless stars

The check on patterns is exact.  It finds a star exactly if the pattern holds
one that, run alone on the empty text, repeats an empty match.  At the end of a
text nothing is left to be taken, so there what a pattern does is decided by
which of its parts can match nothing; the star that the check finds is itself
one that never ends.
-/

namespace ParserKit.Pattern

open ParserKit.Parser

variable {R : Type → Type} {rules : Rules R} {node body : Node} {c : Cursor}

/-- What a pattern does at the end of a text: it repeats an empty match, which
takes a star that the check finds, or it fails to match or matches nothing,
according to whether it can match nothing. -/
def AnswersAtEnd (node : Node) (c : Cursor) : Outcome String → Prop :=
  Outcome.Meets (fun fault => fault = .emptyRepetition c.location ∧ node.emptyStar ≠ none)
    (node.nullable = false) fun _ d => d = c ∧ node.nullable = true

/-- The first round of a star ends it, if the body fails to match there, and
never moves on. -/
theorem meets_star_atEnd (hbody : AnswersAtEnd body c (body.parser.runWith rules c)) :
    ((Node.star body).parser.runWith rules c).Meets
      (fun fault => fault = .emptyRepetition c.location ∧ (Node.star body).emptyStar ≠ none)
      False fun _ d => d = c ∧ body.nullable = false := by
  rw [Node.parser, meets_map]
  apply meets_many_of_rounds _ (fun _ d => d = c) rfl
  rintro _ d rfl
  refine hbody.mono (fun fault h => ⟨h.1, ?_⟩) (fun hnull => ⟨rfl, hnull⟩) fun a e h => ?_
  · exact fun hnone => h.2 (emptyStar_star_eq_none.1 hnone).2
  · rw [h.1, if_neg (Nat.lt_irrefl _)]
    exact ⟨rfl, fun hnone => by simp [(emptyStar_star_eq_none.1 hnone).1] at h⟩

theorem answersAtEnd_node (rules : Rules R) (hend : c.remaining = []) (node : Node) :
    AnswersAtEnd node c (node.parser.runWith rules c) := by
  induction node with
  | char s =>
      have hstep : c.advance = none := (Cursor.advance_eq_none_iff_remaining c).2 hend
      simp only [Node.parser, charText, runWith, hstep]
      exact rfl
  | concat left right ihleft ihright =>
      rw [AnswersAtEnd, Node.parser, meets_sequence]
      refine ihleft.mono (fun fault h => ⟨h.1, ?_⟩) (fun hleft => ?_) ?_
      · exact fun hnone => h.2 (emptyStar_or_eq_none.1 hnone).1
      · rw [Node.nullable, hleft, Bool.false_and]
      · rintro a d ⟨rfl, hleft⟩
        refine ihright.mono (fun fault h => ⟨h.1, ?_⟩) (fun hright => ?_) fun b e h => ⟨h.1, ?_⟩
        · exact fun hnone => h.2 (emptyStar_or_eq_none.1 hnone).2
        · rw [Node.nullable, hright, Bool.and_false]
        · rw [Node.nullable, hleft, h.2, Bool.and_self]
  | alternation left right ihleft ihright =>
      rw [AnswersAtEnd, Node.parser, meets_orElse]
      refine ihleft.mono (fun fault h => ⟨h.1, ?_⟩) (fun hleft => ?_) fun a d h => ⟨h.1, ?_⟩
      · exact fun hnone => h.2 (emptyStar_or_eq_none.1 hnone).1
      · refine ihright.mono (fun fault h => ⟨h.1, ?_⟩) (fun hright => ?_) fun b e h => ⟨h.1, ?_⟩
        · exact fun hnone => h.2 (emptyStar_or_eq_none.1 hnone).2
        · rw [Node.nullable, hleft, hright, Bool.or_self]
        · rw [Node.nullable, h.2, Bool.or_true]
      · rw [Node.nullable, h.2, Bool.true_or]
  | star body ih =>
      exact (meets_star_atEnd ih).mono (fun _ h => h) False.elim fun _ _ h => ⟨h.1, rfl⟩
  | group body ih => exact ih
  | foreign kind text => exact rfl

/-- A star over a pattern that can match nothing never ends at the end of a
text. -/
theorem star_eq_error (rules : Rules R) (hend : c.remaining = []) (hnull : body.nullable = true) :
    (Node.star body).parser.runWith rules c = .error (.emptyRepetition c.location) := by
  have hstar := meets_star_atEnd (answersAtEnd_node rules hend body)
  refine (hstar.mono (fun _ h => h.1) id fun a d h => ?_).eq_error
  rw [hnull] at h
  exact absurd h.2 (by simp)

/-- The check finds a star of the pattern, over a body that can match nothing. -/
theorem exists_mem_starBodies_of_emptyStar {found : Node} (h : node.emptyStar = some found) :
    ∃ body ∈ node.starBodies, found = .star body ∧ body.nullable = true := by
  induction node with
  | char s | foreign kind text => simp [Node.emptyStar] at h
  | concat left right ihleft ihright | alternation left right ihleft ihright =>
      rw [Node.emptyStar, Option.or_eq_some_iff] at h
      rcases h with h | ⟨_, h⟩
      · obtain ⟨body, hmem, hbody⟩ := ihleft h
        exact ⟨body, List.mem_append_left _ hmem, hbody⟩
      · obtain ⟨body, hmem, hbody⟩ := ihright h
        exact ⟨body, List.mem_append_right _ hmem, hbody⟩
  | star inner ih =>
      rw [Node.emptyStar] at h
      split at h
      · rename_i hnull
        exact ⟨inner, List.mem_cons_self, (Option.some.inj h).symm, hnull⟩
      · obtain ⟨body, hmem, hbody⟩ := ih h
        exact ⟨body, List.mem_cons_of_mem _ hmem, hbody⟩
  | group inner ih => exact ih h

/-! ## The check and the compiled stars -/

/-- The compiled star over `body` repeats an empty match on the empty text. -/
def Loops (rules : Rules R) (body : Node) : Prop :=
  ∃ limit place, ∃ p : Parser R String, compile limit (.star body) = .ok p ∧
    p.runWith rules (.start "") = .error (.emptyRepetition place)

theorem loops_of_nullable (rules : Rules R) {limit : Nat} (hbody : Compiles R limit body)
    (hnull : body.nullable = true) : Loops rules body := by
  obtain ⟨p, hp⟩ := hbody.star
  refine ⟨limit + 1, .start, p, hp, ?_⟩
  rw [compile_agree hp]
  exact star_eq_error rules (Cursor.remaining_start "") hnull

/-- A star that loops is one that the check finds, or holds one. -/
theorem Loops.emptyStar_ne_none (h : Loops rules body) : (Node.star body).emptyStar ≠ none := by
  obtain ⟨limit, place, p, hp, hrun⟩ := h
  have hstar := answersAtEnd_node rules (Cursor.remaining_start "") (.star body)
  rw [compile_agree hp] at hrun
  rw [hrun] at hstar
  exact hstar.2

theorem emptyStar_ne_none_of_mem (hmem : body ∈ node.starBodies)
    (h : (Node.star body).emptyStar ≠ none) : node.emptyStar ≠ none :=
  fun hnone => h (emptyStar_star_eq_none.2 (not_nullable_of_mem_starBodies hnone hmem))

/-- The answer of the check on a tree: some star loops exactly if one is found,
and the one that is found loops. -/
structure FindsLoops (rules : Rules R) (node : Node) (found : Option Node) : Prop where
  isSome_iff : found ≠ none ↔ ∃ body ∈ node.starBodies, Loops rules body
  found_loops : ∀ star, found = some star → ∃ body ∈ node.starBodies,
    star = .star body ∧ Loops rules body

theorem findsLoops_emptyStar (rules : Rules R) {limit : Nat} (h : Compiles R limit node) :
    FindsLoops rules node node.emptyStar := by
  have hfound : ∀ star, node.emptyStar = some star → ∃ body ∈ node.starBodies,
      star = .star body ∧ Loops rules body := by
    intro star hstar
    obtain ⟨p, hp⟩ := h
    obtain ⟨body, hmem, rfl, hnull⟩ := exists_mem_starBodies_of_emptyStar hstar
    have hbody : Compiles R limit body := exists_compile_of_mem_starBodies hp hmem
    exact ⟨body, hmem, rfl, loops_of_nullable rules hbody hnull⟩
  refine ⟨⟨fun hne => ?_, ?_⟩, hfound⟩
  · obtain ⟨star, hstar⟩ := Option.ne_none_iff_exists'.1 hne
    obtain ⟨body, hmem, -, hloops⟩ := hfound star hstar
    exact ⟨body, hmem, hloops⟩
  · rintro ⟨body, hmem, hloops⟩
    exact emptyStar_ne_none_of_mem hmem hloops.emptyStar_ne_none

/-- What is made of a tree that the check answers and that is compiled. -/
theorem compileTree_eq {text : String} {found : Option Node} {p : Parser R String}
    (hfound : emptyRepeat nestingLimit node = .ok found) (hp : compile nestingLimit node = .ok p) :
    compileTree text node = if found = none then .ok p else .error (endless text) := by
  rw [compileTree, hfound, hp]
  cases found <;> rfl

theorem compileText_eq_compileTree {text : String} (h : read text = .ok (some node)) :
    (compileText text : Except Diagnostic (Parser R String)) = compileTree text node := by
  rw [read] at h
  -- Rewriting would try to close the equation by running the reader.
  unfold compileText
  cases hat : readAt text with
  | error fault => simp [hat, Except.map] at h
  | ok reading =>
      obtain ⟨tree, stopped⟩ := reading
      obtain rfl : tree = some node := by simpa [hat, Except.map] using h
      rfl

/-- A pattern that was read is refused for its stars, or compiled. -/
theorem compileText_of_read (R : Type → Type) {text : String} (h : read text = .ok (some node)) :
    ∃ p : Parser R String, compile nestingLimit node = .ok p ∧
      compileText text = if node.emptyStar = none then .ok p else .error (endless text) := by
  have hcompiles := compiles_of_read R h
  obtain ⟨found, hfound⟩ := exists_emptyRepeat hcompiles
  obtain ⟨p, hp⟩ := hcompiles
  refine ⟨p, hp, ?_⟩
  rw [compileText_eq_compileTree h, compileTree_eq hfound hp, emptyRepeat_eq hfound]

/-- The check is exact on every tree, and it decides which of the patterns that
are read are refused. -/
theorem endless_stars (rules : Rules R) :
    (∀ node : Node, node.isPattern = true →
      (∃ limit, ∀ depth, limit ≤ depth → ∃ found, emptyRepeat depth node = .ok found) ∧
      ∀ depth found, emptyRepeat depth node = .ok found → FindsLoops rules node found) ∧
    ∀ text node, read text = .ok (some node) →
      ((∃ problem, (compileText text : Except Diagnostic (Parser R String)) = .error problem ∧
          problem.code = "E202") ↔
        ∃ body ∈ node.starBodies, Loops rules body) := by
  constructor
  · intro node hnode
    obtain ⟨limit, hlimit⟩ := exists_compiles R hnode
    refine ⟨⟨limit, fun depth hle => exists_emptyRepeat (hlimit depth hle)⟩, ?_⟩
    intro depth found hfound
    rw [emptyRepeat_eq hfound]
    exact findsLoops_emptyStar rules (hlimit limit le_rfl)
  · intro text node hread
    rw [← (findsLoops_emptyStar rules (compiles_of_read R hread)).isSome_iff]
    obtain ⟨p, -, htext⟩ := compileText_of_read R hread
    rw [htext]
    split
    · rename_i hnone
      simp [hnone]
    · rename_i hsome
      exact ⟨fun _ => hsome, fun _ => ⟨_, rfl, rfl⟩⟩

/-- A star over a starred group, behind a harmless star. -/
theorem endless_stars_starred_group :
    ∃ node : Node,
      node = .concat (.star (.char "b")) (.star (.group (.star (.char "a")))) ∧
      (node.isPattern = true ∧
        emptyRepeat 5 node = .ok (some (.star (.group (.star (.char "a"))))) ∧
        FindsLoops (Grammar.rule NoRule.grammar 0) node
          (some (.star (.group (.star (.char "a")))))) ∧
      read "b*(a*)*" = .ok (some node) ∧
      ∃ problem, (compileText "b*(a*)*" : Except Diagnostic (Parser NoRule String)) =
        .error problem ∧ problem.code = "E202" := by
  have hexact := endless_stars (R := NoRule) (Grammar.rule NoRule.grammar 0)
  have hfinds := (hexact.1 (.concat (.star (.char "b")) (.star (.group (.star (.char "a"))))) rfl).2
    5 _ rfl
  have hread : read "b*(a*)*" =
      .ok (some (.concat (.star (.char "b")) (.star (.group (.star (.char "a")))))) := by
    rw [read_eq]
    cbv
  refine ⟨_, rfl, ⟨rfl, rfl, hfinds⟩, hread, ?_⟩
  exact (hexact.2 _ _ hread).2 (hfinds.isSome_iff.1 (by simp))

end ParserKit.Pattern
