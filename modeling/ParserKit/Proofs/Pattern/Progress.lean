import Mathlib
import ParserKit.Proofs.Lexemes
import ParserKit.Proofs.Pattern.Binary

/-!
# Repetitions end

A pattern without a star over a pattern that can match nothing is run without a
fault.  What carries the proof is that a pattern which matches without taking a
character is one that the static check calls able to match nothing; so every
round of a star takes some character.
-/

namespace ParserKit.Pattern

open ParserKit.Parser

variable {R : Type → Type} {rules : Rules R} {node body : Node}

theorem emptyStar_or_eq_none {left right : Option Node} :
    left.or right = none ↔ left = none ∧ right = none := by
  cases left <;> simp

theorem emptyStar_star_eq_none :
    (Node.star body).emptyStar = none ↔ body.nullable = false ∧ body.emptyStar = none := by
  rw [Node.emptyStar]
  cases body.nullable <;> simp

/-- A match that takes no character is one of a pattern that can match nothing. -/
theorem meets_node (rules : Rules R) (h : node.emptyStar = none) (c : Cursor) :
    (node.parser.runWith rules c).Meets (fun _ => False) True fun _ d =>
      ∃ s, c.Reads s d ∧ (s = [] → node.nullable = true) := by
  induction node generalizing c with
  | char s =>
      exact meets_charText s fun ch d hread _ => ⟨[ch], hread, by simp⟩
  | concat left right ihleft ihright =>
      obtain ⟨hleft, hright⟩ := emptyStar_or_eq_none.1 h
      rw [Node.parser, meets_sequence]
      apply (ihleft hleft c).imp
      rintro a d ⟨s, hread, hempty⟩
      apply (ihright hright d).imp
      rintro b e ⟨t, hread', hempty'⟩
      refine ⟨s ++ t, hread.append hread', ?_⟩
      intro hnil
      obtain ⟨hs, ht⟩ := List.append_eq_nil_iff.1 hnil
      rw [Node.nullable, hempty hs, hempty' ht, Bool.and_true]
  | alternation left right ihleft ihright =>
      obtain ⟨hleft, hright⟩ := emptyStar_or_eq_none.1 h
      rw [Node.parser, meets_orElse]
      refine (ihleft hleft c).mono (fun _ hF => hF) (fun _ => ?_) ?_
      · apply (ihright hright c).imp
        rintro a d ⟨s, hread, hempty⟩
        refine ⟨s, hread, fun hs => ?_⟩
        rw [Node.nullable, hempty hs, Bool.or_true]
      · rintro a d ⟨s, hread, hempty⟩
        refine ⟨s, hread, fun hs => ?_⟩
        rw [Node.nullable, hempty hs, Bool.true_or]
  | star body ih =>
      obtain ⟨hbody, hinner⟩ := emptyStar_star_eq_none.1 h
      rw [Node.parser, meets_map]
      apply meets_many_of_invariant _ (fun _ d => ∃ s, c.Reads s d) ⟨[], .nil c⟩
      rintro _ d ⟨s, hread⟩
      refine (ih hinner d).mono (fun _ hF => hF) (fun _ => ⟨s, hread, fun _ => rfl⟩) ?_
      rintro _ e ⟨t, hread', hempty⟩
      refine ⟨?_, s ++ t, hread.append hread'⟩
      have hleft := hread'.left_eq
      cases t with
      | nil => simp [hempty rfl] at hbody
      | cons ch more =>
          rw [List.length_cons] at hleft
          omega
  | group body ih => exact ih h c
  | foreign kind text => trivial

/-- A round of such a pattern moves on. -/
theorem meets_node_of_not_nullable (rules : Rules R) (h : node.emptyStar = none)
    (hnull : node.nullable = false) (c : Cursor) :
    (node.parser.runWith rules c).Meets (fun _ => False) True fun _ d =>
      d.text = c.text ∧ c.offset < d.offset ∧ d.left < c.left := by
  apply (meets_node rules h c).imp
  rintro _ d ⟨s, hread, hempty⟩
  have hlength : 0 < s.length := by
    apply List.length_pos_iff.2
    intro hs
    simp [hempty hs] at hnull
  have hoffset := hread.offset_eq
  have hleft := hread.left_eq
  exact ⟨hread.text_eq, by omega, by omega⟩

/-- The loop ends, after no more rounds than characters remain. -/
theorem exists_repeatFrom_eq_ok (h : node.emptyStar = none) (hnull : node.nullable = false)
    (c : Cursor) :
    ∃ tokens d, repeatFrom (node.parser.runWith rules) [] c = .ok (tokens, d) ∧
      tokens.length ≤ c.left := by
  have hround : ∀ (tokens : List String) (d : Cursor), tokens.length + d.left ≤ c.left →
      (node.parser.runWith rules d).Meets (fun _ => False) (tokens.length ≤ c.left) fun a e =>
        e.left < d.left ∧ (tokens ++ [a]).length + e.left ≤ c.left := by
    intro tokens d hI
    refine (meets_node_of_not_nullable rules h hnull d).mono (fun _ hF => hF) (fun _ => by omega) ?_
    rintro a e ⟨_, _, hlt⟩
    refine ⟨hlt, ?_⟩
    rw [List.length_append, List.length_singleton]
    omega
  have hloop := repeatFrom_of_invariant (Q := fun tokens _ => tokens.length ≤ c.left)
    (fun tokens d => tokens.length + d.left ≤ c.left) hround [] c (by simp)
  rcases hrun : repeatFrom (node.parser.runWith rules) [] c with fault | ⟨tokens, d⟩
  · rw [hrun] at hloop
    exact hloop.elim
  · rw [hrun] at hloop
    exact ⟨tokens, d, rfl, hloop⟩

/-! ## Stars inside a pattern -/

/-- The bodies of all stars in a pattern. -/
def Node.starBodies : Node → List Node
  | char _ => []
  | concat left right => left.starBodies ++ right.starBodies
  | alternation left right => left.starBodies ++ right.starBodies
  | star body => body :: body.starBodies
  | group body => body.starBodies
  | foreign _ _ => []

theorem not_nullable_of_mem_starBodies (h : node.emptyStar = none)
    (hmem : body ∈ node.starBodies) : body.nullable = false ∧ body.emptyStar = none := by
  induction node with
  | char s | foreign kind text => simp [Node.starBodies] at hmem
  | concat left right ihleft ihright | alternation left right ihleft ihright =>
      obtain ⟨hleft, hright⟩ := emptyStar_or_eq_none.1 h
      rw [Node.starBodies, List.mem_append] at hmem
      rcases hmem with hmem | hmem
      · exact ihleft hleft hmem
      · exact ihright hright hmem
  | star inner ih =>
      have hinner := emptyStar_star_eq_none.1 h
      rw [Node.starBodies, List.mem_cons] at hmem
      rcases hmem with rfl | hmem
      · exact hinner
      · exact ih hinner.2 hmem
  | group inner ih => exact ih h hmem

theorem flatMap_starBodies_concatSpine (node : Node) :
    node.concatSpine.flatMap Node.starBodies = node.starBodies := by
  induction node with
  | concat left right _ ih => rw [Node.concatSpine, List.flatMap_cons, ih, Node.starBodies]
  | _ => simp [Node.concatSpine]

theorem flatMap_starBodies_alternationSpine (node : Node) :
    node.alternationSpine.flatMap Node.starBodies = node.starBodies := by
  induction node with
  | alternation left right _ ih =>
      rw [Node.alternationSpine, List.flatMap_cons, ih, Node.starBodies]
  | _ => simp [Node.alternationSpine]

/-- Where a pattern is compiled, so are the bodies of its stars. -/
theorem exists_compile_of_mem_starBodies {limit : Nat} {p : Parser R String}
    (h : compile limit node = .ok p) (hmem : body ∈ node.starBodies) :
    ∃ q : Parser R String, compile limit body = .ok q := by
  induction limit generalizing node p with
  | zero => simp [compile] at h
  | succ limit ih =>
      have hlower : ∀ {inner : Node} {q : Parser R String}, compile limit inner = .ok q →
          body ∈ inner.starBodies → ∃ q : Parser R String, compile (limit + 1) body = .ok q := by
        intro inner q hq hinner
        obtain ⟨q', hq'⟩ := ih hq hinner
        exact ⟨q', compile_succ hq'⟩
      cases compile_succ_eq_ok_iff.1 h with
      | char s => simp [Node.starBodies] at hmem
      | concat hps =>
          rw [← flatMap_starBodies_concatSpine, List.mem_flatMap] at hmem
          obtain ⟨part, hpart, hbody⟩ := hmem
          obtain ⟨q, hq⟩ := exists_compile_of_mem hps hpart
          exact hlower hq hbody
      | alternation hps =>
          rw [← flatMap_starBodies_alternationSpine, List.mem_flatMap] at hmem
          obtain ⟨part, hpart, hbody⟩ := hmem
          obtain ⟨q, hq⟩ := exists_compile_of_mem hps hpart
          exact hlower hq hbody
      | @star inner q hinner =>
          rw [Node.starBodies, List.mem_cons] at hmem
          rcases hmem with rfl | hmem
          · exact ⟨q, compile_succ hinner⟩
          · exact hlower hinner hmem
      | group hinner => exact hlower hinner hmem

/-! ## The compiled parser -/

/-- Running the parser `p` of the tree `node`, compiled under a limit on
nesting, ends without a fault at every cursor: each starred body that matches
has moved on, and no loop takes more rounds than characters remain. -/
structure RepetitionsEnd (rules : Rules R) (limit : Nat) (node : Node) (p : Parser R String) :
    Prop where
  answers : ∀ c, ∃ found, p.runWith rules c = .ok found
  stars : ∀ body ∈ node.starBodies, ∃ q : Parser R String, compile limit body = .ok q ∧
    (∀ c a d, q.runWith rules c = .ok (some (a, d)) → d.text = c.text ∧ c.offset < d.offset) ∧
    ∀ c, ∃ tokens d, repeatFrom (q.runWith rules) [] c = .ok (tokens, d) ∧
      tokens.length ≤ c.left

theorem repetitionsEnd_of_emptyRepeat {depth limit : Nat} {p : Parser R String}
    (hnone : emptyRepeat depth node = .ok none) (hcompile : compile limit node = .ok p) :
    RepetitionsEnd rules limit node p := by
  have hsafe : node.emptyStar = none := (emptyRepeat_eq hnone).symm
  refine ⟨fun c => ?_, fun body hmem => ?_⟩
  · have hmeets := meets_node rules hsafe c
    rw [compile_agree hcompile c]
    rcases hrun : node.parser.runWith rules c with fault | found
    · rw [hrun] at hmeets
      exact hmeets.elim
    · exact ⟨found, rfl⟩
  · obtain ⟨hnull, hbody⟩ := not_nullable_of_mem_starBodies hsafe hmem
    obtain ⟨q, hq⟩ := exists_compile_of_mem_starBodies hcompile hmem
    have hagree : q.runWith rules = body.parser.runWith rules := funext (compile_agree hq)
    refine ⟨q, hq, fun c a d hrun => ?_, fun c => ?_⟩
    · have hmeets := meets_node_of_not_nullable rules hbody hnull c
      rw [hagree] at hrun
      rw [hrun] at hmeets
      exact ⟨hmeets.1, hmeets.2.1⟩
    · rw [hagree]
      exact exists_repeatFrom_eq_ok hbody hnull c

/-- Neither a pattern that is accepted nor a tree that passes the check ever
repeats an empty match. -/
theorem repetitions_end (rules : Rules R) :
    (∀ text p, compileText text = .ok p →
      ∃ tree, read text = .ok (some tree) ∧ RepetitionsEnd rules nestingLimit tree p) ∧
    ∀ depth limit tree p, emptyRepeat depth tree = .ok none → compile limit tree = .ok p →
      RepetitionsEnd rules limit tree p := by
  refine ⟨fun text p h => ?_, fun _ _ _ _ => repetitionsEnd_of_emptyRepeat⟩
  unfold compileText at h
  cases hread : readAt text with
  | error fault => simp [hread] at h
  | ok reading =>
      obtain ⟨tree, stopped⟩ := reading
      cases tree with
      | none => simp [hread] at h
      | some tree =>
          simp only [hread, compileTree] at h
          split at h
          · rename_i q hnone hcompile
            obtain rfl : q = p := by simpa using h
            refine ⟨tree, ?_, repetitionsEnd_of_emptyRepeat hnone hcompile⟩
            simp [read, hread, Except.map]
          · simp at h
          · simp at h

/-- A star may stand over another one if each round takes a character. -/
theorem repetitionsEnd_nested_star :
    (∃ p : Parser NoRule String, compileText "(a*b)*" = .ok p ∧ ∃ tree,
      read "(a*b)*" = .ok (some tree) ∧
        RepetitionsEnd (Grammar.rule NoRule.grammar 0) nestingLimit tree p) ∧
    ∃ p : Parser NoRule String,
      emptyRepeat 4 (.star (.concat (.star (.char "a")) (.char "b"))) = .ok none ∧
      compile 4 (.star (.concat (.star (.char "a")) (.char "b"))) = .ok p ∧
        RepetitionsEnd (Grammar.rule NoRule.grammar 0) 4
          (.star (.concat (.star (.char "a")) (.char "b"))) p := by
  have hends := repetitions_end (R := NoRule) (Grammar.rule NoRule.grammar 0)
  have hread : ∃ stopped, readAt "(a*b)*" =
      .ok ⟨some (.star (.group (.concat (.star (.char "a")) (.char "b")))), stopped⟩ := by
    unfold readAt
    refine ⟨?_, ?_⟩
    rotate_left
    · cbv
      rfl
  obtain ⟨stopped, hread⟩ := hread
  have hcompile : ∃ p : Parser NoRule String, compileText "(a*b)*" = .ok p := by
    unfold compileText
    rw [hread]
    exact ⟨_, rfl⟩
  obtain ⟨p, hp⟩ := hcompile
  exact ⟨⟨p, hp, hends.1 _ p hp⟩, ⟨_, rfl, rfl, hends.2 4 4 _ _ rfl rfl⟩⟩

end ParserKit.Pattern
