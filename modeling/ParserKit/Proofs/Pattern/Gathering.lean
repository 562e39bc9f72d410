import ParserKit.Proofs.Pattern.Nesting

/-!
# Gathered chains against single nodes

Compilation and the check for empty matches gather the parts of a chain before
they look at them.  They are compared here with the versions that take one node
at a time.  Only the limit on nesting can keep the gathering versions from an
answer, and `Node.levels` says for which limits it does.
-/

namespace ParserKit.Pattern

open ParserKit.Parser

variable {R : Type → Type} {node part : Node} {link : Link}

/-- How deep the nodes of a tree nest inside a chain of the given kind.  The
links of that chain add nothing. -/
def Node.levelsWithin : Option Link → Node → Nat
  | _, char _ => 1
  | outer, concat left right =>
      max (left.levelsWithin none) (right.levelsWithin (some .concat)) +
        if outer = some .concat then 0 else 1
  | outer, alternation left right =>
      max (left.levelsWithin none) (right.levelsWithin (some .alternation)) +
        if outer = some .alternation then 0 else 1
  | _, star body => body.levelsWithin none + 1
  | _, group body => body.levelsWithin none + 1
  | _, foreign _ _ => 1

/-- How deep the nodes of a tree nest, the links of each chain counted once. -/
def Node.levels (node : Node) : Nat := node.levelsWithin none

theorem levels_pos (node : Node) : 0 < node.levels := by
  cases node <;> simp [Node.levels, Node.levelsWithin]

/-- A chain is a part, or a part in front of a chain. -/
theorem chain_induction (link : Link) {motive : Node → Prop}
    (lone : ∀ node, node.spine link = [node] → motive node)
    (join : ∀ left right, motive right → motive (Node.join link left right)) (node : Node) :
    motive node := by
  induction node with
  | concat left right _ ih =>
      cases link with
      | concat => exact join left right ih
      | alternation => exact lone _ rfl
  | alternation left right _ ih =>
      cases link with
      | concat => exact lone _ rfl
      | alternation => exact join left right ih
  | _ => cases link <;> exact lone _ rfl

theorem levelsWithin_join (left right : Node) :
    (Node.join link left right).levelsWithin (some link) =
      max left.levels (right.levelsWithin (some link)) := by
  cases link <;> rfl

theorem levels_join (left right : Node) :
    (Node.join link left right).levels =
      (Node.join link left right).levelsWithin (some link) + 1 := by
  cases link <;> rfl

theorem levelsWithin_of_lone (h : node.spine link = [node]) :
    node.levelsWithin (some link) = node.levels := by
  cases link <;> cases node <;> first | rfl | cases h

theorem levelsWithin_le_iff {depth : Nat} :
    node.levelsWithin (some link) ≤ depth ↔ ∀ part ∈ node.spine link, part.levels ≤ depth := by
  induction node using chain_induction link with
  | lone node hlone => rw [hlone, levelsWithin_of_lone hlone, List.forall_mem_singleton]
  | join left right ih => rw [spine_join, levelsWithin_join, Nat.max_le, ih, List.forall_mem_cons]

/-- A chain nests one level deeper than its parts. -/
theorem levels_join_le_iff (link : Link) {left right : Node} {depth : Nat} :
    (Node.join link left right).levels ≤ depth + 1 ↔
      ∀ part ∈ (Node.join link left right).spine link, part.levels ≤ depth := by
  rw [levels_join, Nat.add_le_add_iff_right, levelsWithin_le_iff]

theorem isPattern_join (left right : Node) :
    (Node.join link left right).isPattern = (left.isPattern && right.isPattern) := by
  cases link <;> rfl

theorem isPattern_of_mem_spine (hnode : node.isPattern = true) (h : part ∈ node.spine link) :
    part.isPattern = true := by
  induction node using chain_induction link with
  | lone node hlone =>
      rw [hlone, List.mem_singleton] at h
      exact h ▸ hnode
  | join left right ih =>
      rw [isPattern_join, Bool.and_eq_true] at hnode
      rw [spine_join, List.mem_cons] at h
      rcases h with rfl | h
      · exact hnode.1
      · exact ih hnode.2 h

/-! ## Answers within the limit -/

/-- There is an answer, or the limit on nesting is in the way, and that only
where `beyond` holds. -/
def AnswersUnless {α : Type*} (beyond : Prop) (o : Except TreeError α) : Prop :=
  (∃ a, o = .ok a) ∨ beyond ∧ o = .error .tooDeep

variable {beyond : Prop} {parts : List Node}

theorem AnswersUnless.mono {α : Type*} {o : Except TreeError α} (h : AnswersUnless beyond o)
    {further : Prop} (himp : beyond → further) : AnswersUnless further o :=
  h.imp id fun h => ⟨himp h.1, h.2⟩

theorem answersUnless_compileParts {compile : Node → Except TreeError (Parser R String)}
    (h : ∀ part ∈ parts, AnswersUnless beyond (compile part)) :
    AnswersUnless beyond (compileParts compile parts) := by
  induction parts with
  | nil => exact .inl ⟨[], rfl⟩
  | cons part more ih =>
      rw [compileParts]
      rcases h part List.mem_cons_self with ⟨p, hp⟩ | ⟨hbeyond, hp⟩
      · rcases ih fun part hpart => h part (List.mem_cons_of_mem _ hpart) with
          ⟨ps, hps⟩ | ⟨hbeyond, hps⟩
        · exact .inl ⟨p :: ps, by rw [hp, hps]⟩
        · exact .inr ⟨hbeyond, by rw [hp, hps]⟩
      · exact .inr ⟨hbeyond, by rw [hp]⟩

theorem answersUnless_allParts {test : Node → Except TreeError Bool}
    (h : ∀ part ∈ parts, AnswersUnless beyond (test part)) :
    AnswersUnless beyond (allParts test parts) := by
  induction parts with
  | nil => exact .inl ⟨true, rfl⟩
  | cons part more ih =>
      rw [allParts]
      rcases h part List.mem_cons_self with ⟨_ | _, hpart⟩ | ⟨hbeyond, hpart⟩
      · exact .inl ⟨false, by rw [hpart]⟩
      · rw [hpart]
        exact ih fun part hpart => h part (List.mem_cons_of_mem _ hpart)
      · exact .inr ⟨hbeyond, by rw [hpart]⟩

theorem answersUnless_anyPart {test : Node → Except TreeError Bool}
    (h : ∀ part ∈ parts, AnswersUnless beyond (test part)) :
    AnswersUnless beyond (anyPart test parts) := by
  induction parts with
  | nil => exact .inl ⟨false, rfl⟩
  | cons part more ih =>
      rw [anyPart]
      rcases h part List.mem_cons_self with ⟨_ | _, hpart⟩ | ⟨hbeyond, hpart⟩
      · rw [hpart]
        exact ih fun part hpart => h part (List.mem_cons_of_mem _ hpart)
      · exact .inl ⟨true, by rw [hpart]⟩
      · exact .inr ⟨hbeyond, by rw [hpart]⟩

/-- What answers for all patterns with one level less answers for the parts of
a chain. -/
theorem answersUnless_part (link : Link) {α : Type*} {depth : Nat}
    {run : Node → Except TreeError α}
    (hrun : ∀ {node : Node}, node.isPattern = true →
      AnswersUnless (depth < node.levels) (run node))
    {left right : Node} (h : (Node.join link left right).isPattern = true) :
    ∀ part ∈ (Node.join link left right).spine link,
      AnswersUnless (depth + 1 < (Node.join link left right).levels) (run part) :=
  fun _ hpart => (hrun (isPattern_of_mem_spine h hpart)).mono fun hdepth =>
    Nat.lt_of_not_le fun hle => Nat.not_lt.2 ((levels_join_le_iff link).1 hle _ hpart) hdepth

theorem answersUnless_compile (R : Type → Type) (depth : Nat) (h : node.isPattern = true) :
    AnswersUnless (depth < node.levels) (compile (R := R) depth node) := by
  -- On the limit, not on the tree: a part of a chain stands several links below it.
  induction depth generalizing node with
  | zero => exact .inr ⟨levels_pos node, rfl⟩
  | succ depth ih =>
      cases node with
      | char s => exact .inl ⟨_, rfl⟩
      | concat left right =>
          have hparts : ∀ part ∈ (Node.concat left right).concatSpine, _ :=
            answersUnless_part .concat ih h
          rw [compile]
          rcases answersUnless_compileParts hparts with ⟨ps, hps⟩ | ⟨hbeyond, hps⟩ <;> rw [hps]
          · exact .inl ⟨_, rfl⟩
          · exact .inr ⟨hbeyond, rfl⟩
      | alternation left right =>
          have hparts : ∀ part ∈ (Node.alternation left right).alternationSpine, _ :=
            answersUnless_part .alternation ih h
          rw [compile]
          rcases answersUnless_compileParts hparts with ⟨ps, hps⟩ | ⟨hbeyond, hps⟩ <;> rw [hps]
          · exact .inl ⟨_, rfl⟩
          · exact .inr ⟨hbeyond, rfl⟩
      | star body =>
          have hbody : AnswersUnless (depth < body.levels) (compile (R := R) depth body) := ih h
          rw [compile]
          rcases hbody with ⟨p, hp⟩ | ⟨hbeyond, hp⟩ <;> rw [hp]
          · exact .inl ⟨_, rfl⟩
          · exact .inr ⟨Nat.succ_lt_succ hbeyond, rfl⟩
      | group body =>
          have hbody : AnswersUnless (depth < body.levels) (compile (R := R) depth body) := ih h
          rw [compile]
          exact hbody.mono Nat.succ_lt_succ
      | foreign kind text => simp [Node.isPattern] at h

theorem answersUnless_matchesEmpty (depth : Nat) (h : node.isPattern = true) :
    AnswersUnless (depth < node.levels) (matchesEmpty depth node) := by
  induction depth generalizing node with
  | zero => exact .inr ⟨levels_pos node, rfl⟩
  | succ depth ih =>
      cases node with
      | char s => exact .inl ⟨false, rfl⟩
      | concat left right =>
          have hparts := answersUnless_part .concat ih h
          exact answersUnless_allParts hparts
      | alternation left right =>
          have hparts := answersUnless_part .alternation ih h
          exact answersUnless_anyPart hparts
      | star body => exact .inl ⟨true, rfl⟩
      | group body =>
          have hbody : AnswersUnless (depth < body.levels) (matchesEmpty depth body) := ih h
          rw [matchesEmpty]
          exact hbody.mono Nat.succ_lt_succ
      | foreign kind text => simp [Node.isPattern] at h

theorem levels_le_of_compile {depth : Nat} {p : Parser R String}
    (h : compile depth node = .ok p) : node.levels ≤ depth := by
  induction depth generalizing node p with
  | zero => simp [compile] at h
  | succ depth ih =>
      have hparts {parts : List Node} {ps : List (Parser R String)}
          (hps : compileParts (compile depth) parts = .ok ps) :
          ∀ part ∈ parts, part.levels ≤ depth := by
        intro part hpart
        obtain ⟨p, hp⟩ := exists_compile_of_mem hps hpart
        exact ih hp
      cases compile_succ_eq_ok_iff.1 h with
      | char s => exact Nat.succ_le_succ (Nat.zero_le depth)
      | concat hps => exact (levels_join_le_iff .concat).2 (hparts hps)
      | alternation hps => exact (levels_join_le_iff .alternation).2 (hparts hps)
      | star hbody | group hbody => exact Nat.succ_le_succ (ih hbody)

/-- A pattern is compiled to a parser that does what the nodes say wherever it
is run, and the check for empty matches answers what the nodes say.  The limit
is in the way only of trees that nest deeper than it. -/
theorem compile_agrees_with_nodes (rules : Rules R) (depth : Nat) (h : node.isPattern = true) :
    (node.levels ≤ depth →
      (∃ p, compile depth node = .ok p ∧
        ∀ c, p.runWith rules c = node.parser.runWith rules c) ∧
      matchesEmpty depth node = .ok node.nullable) ∧
    (depth < node.levels →
      compile (R := R) depth node = .error .tooDeep ∧
      (matchesEmpty depth node = .ok node.nullable ∨
        matchesEmpty depth node = .error .tooDeep)) := by
  have hcompile := answersUnless_compile R depth h
  have hempty : matchesEmpty depth node = .ok node.nullable ∨
      depth < node.levels ∧ matchesEmpty depth node = .error .tooDeep := by
    rcases answersUnless_matchesEmpty depth h with ⟨b, hb⟩ | hdeep
    · exact .inl (matchesEmpty_eq hb ▸ hb)
    · exact .inr hdeep
  constructor
  · intro hlevels
    obtain ⟨p, hp⟩ := hcompile.resolve_right fun hdeep => Nat.not_lt.2 hlevels hdeep.1
    exact ⟨⟨p, hp, compile_agree hp⟩,
      hempty.resolve_right fun hdeep => Nat.not_lt.2 hlevels hdeep.1⟩
  · intro hdeep
    rcases hcompile with ⟨p, hp⟩ | ⟨-, hfails⟩
    · exact absurd (levels_le_of_compile hp) (Nat.not_le.2 hdeep)
    · exact ⟨hfails, hempty.imp_right And.right⟩

/-- Nested to the left, with a star over an empty match in the middle. -/
def leftNested : Node :=
  .concat (.concat (.char "a") (.star (.group (.star (.char "b"))))) (.char "c")

theorem leftNested_agrees_with_nodes :
    leftNested.isPattern = true ∧ leftNested.levels = 6 ∧
      matchesEmpty nestingLimit leftNested = .ok false ∧
      ∃ p : Parser NoRule String, compile nestingLimit leftNested = .ok p ∧
        p.run (.start "abbc") = .error (.emptyRepetition ⟨1, 4⟩) ∧
        leftNested.parser.run (.start "abbc") = p.run (.start "abbc") := by
  have hpattern : leftNested.isPattern = true := rfl
  have hlevels : leftNested.levels = 6 := rfl
  obtain ⟨⟨p, hp, hrun⟩, hempty⟩ :=
    (compile_agrees_with_nodes (Grammar.rule NoRule.grammar Grammar.nestingLimit) nestingLimit
      hpattern).1 (by rw [hlevels]; decide)
  have hnodes := (hrun (.start "abbc")).symm
  exact ⟨hpattern, hlevels, hempty, p, hp, hnodes.symm.trans (by cbv), hnodes⟩

end ParserKit.Pattern
