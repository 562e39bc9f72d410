import ParserKit.Proofs.Pattern.Gathering
import ParserKit.Proofs.Pattern.Progress
import ParserKit.Proofs.Repetition

/-!
# Laws of patterns

Patterns do the same if they match the same text up to the same cursor, fail at
the same cursors and give up with the same fault.  An alternative that extends
an earlier one is never taken, and a concatenation distributes over the
alternatives behind it.  A star gives nothing back: what stands behind it runs
at the first cursor at which its body fails.
-/

namespace ParserKit

variable {α β : Type}

/-- An alternative that goes on from the first one is dead. -/
theorem Outcome.otherwise_andThen_self (o : Outcome α) (next : α → Cursor → Outcome α) :
    o.otherwise (o.andThen next) = o := by
  rcases o with fault | (_ | ⟨a, d⟩) <;> rfl

theorem Outcome.andThen_otherwise (o : Outcome α) (next other : α → Cursor → Outcome β) :
    (o.andThen fun a d => (next a d).otherwise (other a d)) =
      (o.andThen next).otherwise (o.andThen other) := by
  rcases o with fault | (_ | ⟨a, d⟩) <;> rfl

/-- A new token does not make a match fail. -/
theorem Outcome.otherwise_andThen_token (o other : Outcome α) (f : α → β) :
    (o.otherwise other).andThen (fun a d => .ok (some (f a, d))) =
      Outcome.otherwise (o.andThen fun a d => .ok (some (f a, d)))
        (other.andThen fun a d => .ok (some (f a, d))) := by
  rcases o with fault | (_ | ⟨a, d⟩) <;> rfl

namespace Pattern

open ParserKit.Parser

variable {R : Type → Type} {rules : Rules R} {a b r s t : Node} {c : Cursor}

/-- Under every limit that the pattern does not nest deeper than, it is compiled to a parser
whose runs have the property. -/
def Compiled (rules : Rules R) (node : Node) (P : (Cursor → Outcome String) → Prop) : Prop :=
  ∀ limit, node.levels ≤ limit →
    ∃ p : Parser R String, compile limit node = .ok p ∧ P (p.runWith rules)

theorem compiled_of_runs {P : (Cursor → Outcome String) → Prop} (hr : r.isPattern = true)
    (h : P (r.parser.runWith rules)) : Compiled rules r P := by
  intro limit hlimit
  obtain ⟨p, hp⟩ := (answersUnless_compile R limit hr).resolve_right fun hdeep =>
    Nat.not_lt.2 hlimit hdeep.1
  refine ⟨p, hp, ?_⟩
  rwa [funext (compile_agree hp)]

/-- The two patterns do the same wherever they are run. -/
def Equivalent (rules : Rules R) (a b : Node) : Prop :=
  Compiled rules a fun run => Compiled rules b fun run' => ∀ c, run c = run' c

theorem equivalent_of_agree (ha : a.isPattern = true) (hb : b.isPattern = true)
    (h : Agree rules a.parser b.parser) : Equivalent rules a b :=
  compiled_of_runs ha (compiled_of_runs hb h)

theorem runWith_concat (left right : Node) :
    (Node.concat left right).parser.runWith rules c =
      (left.parser.runWith rules c).andThen fun s d =>
        (right.parser.runWith rules d).andThen fun t e => .ok (some (s ++ t, e)) := by
  rw [Node.parser, runWith_sequence]

theorem runWith_alternation (left right : Node) :
    (Node.alternation left right).parser.runWith rules c =
      (left.parser.runWith rules c).otherwise (right.parser.runWith rules c) := by
  rw [Node.parser, runWith_orElse]

/-! ## Ordered choice -/

theorem agree_alternation_extension (r s : Node) :
    Agree rules (Node.alternation r (.concat r s)).parser r.parser := by
  intro c
  rw [runWith_alternation, runWith_concat, Outcome.otherwise_andThen_self]

theorem agree_concat_alternation (r s t : Node) :
    Agree rules (Node.concat r (.alternation s t)).parser
      (Node.alternation (.concat r s) (.concat r t)).parser := by
  intro c
  rw [runWith_concat, runWith_alternation, runWith_concat, runWith_concat,
    ← Outcome.andThen_otherwise]
  congr
  funext m d
  rw [runWith_alternation, Outcome.otherwise_andThen_token]

/-- An alternative that extends an earlier one is dead, and a concatenation distributes over
the alternatives behind it. -/
theorem ordered_choice_laws (rules : Rules R) (hr : r.isPattern = true) (hs : s.isPattern = true)
    (ht : t.isPattern = true) :
    Equivalent rules (.alternation r (.concat r s)) r ∧
      Equivalent rules (.concat r (.alternation s t))
        (.alternation (.concat r s) (.concat r t)) := by
  constructor
  · apply equivalent_of_agree _ hr (agree_alternation_extension r s)
    simp [Node.isPattern, hr, hs]
  · apply equivalent_of_agree _ _ (agree_concat_alternation r s t)
    · simp [Node.isPattern, hr, hs, ht]
    · simp [Node.isPattern, hr, hs, ht]

/-- An alternative that gives up stands behind the same letter on both sides. -/
theorem ordered_choice_laws_giving_up :
    ((Node.char "a").isPattern = true ∧ (Node.star (.star (.char "b"))).isPattern = true ∧
      (Node.char "c").isPattern = true) ∧
    (∃ p q : Parser NoRule String,
      compile nestingLimit (.alternation (.char "a") (.concat (.char "a") (.char "c"))) = .ok p ∧
        compile nestingLimit (.char "a") = .ok q ∧ p.run (.start "ac") = q.run (.start "ac") ∧
        q.run (.start "ac") = .ok (some ("a", ⟨#['a', 'c'], 1, ⟨1, 2⟩⟩))) ∧
    ∃ p q : Parser NoRule String,
      compile nestingLimit (.concat (.char "a") (.alternation (.star (.star (.char "b")))
          (.char "c"))) = .ok p ∧
        compile nestingLimit (.alternation (.concat (.char "a") (.star (.star (.char "b"))))
          (.concat (.char "a") (.char "c"))) = .ok q ∧
        p.run (.start "ac") = q.run (.start "ac") ∧
        q.run (.start "ac") = .error (.emptyRepetition ⟨1, 2⟩) := by
  have hletter : (Node.char "a").isPattern = true := rfl
  have hstars : (Node.star (.star (.char "b"))).isPattern = true := rfl
  have hother : (Node.char "c").isPattern = true := rfl
  refine ⟨⟨hletter, hstars, hother⟩, ?_, ?_⟩
  · obtain ⟨p, hp, hsame⟩ := (ordered_choice_laws (Grammar.rule NoRule.grammar
      Grammar.nestingLimit) hletter hother hstars).1 nestingLimit (by decide)
    obtain ⟨q, hq, hsame⟩ := hsame nestingLimit (by decide)
    exact ⟨p, q, hp, hq, hsame _, (compile_agree hq _).trans (by cbv)⟩
  · obtain ⟨p, hp, hsame⟩ := (ordered_choice_laws (Grammar.rule NoRule.grammar
      Grammar.nestingLimit) hletter hstars hother).2 nestingLimit (by decide)
    obtain ⟨q, hq, hsame⟩ := hsame nestingLimit (by decide)
    exact ⟨p, q, hp, hq, hsame _, (compile_agree hq _).trans (by cbv)⟩

/-! ## Possessive stars -/

/-- A star takes the rounds up to the first cursor at which its body fails. -/
theorem exists_rounds (rules : Rules R) (hsafe : (Node.star r).emptyStar = none) (c : Cursor) :
    ∃ tokens d, Repeats (r.parser.runWith rules) c tokens d ∧
      r.parser.runWith rules d = .ok none ∧
      (Node.star r).parser.runWith rules c = .ok (some (joined tokens, d)) := by
  obtain ⟨hnull, hbody⟩ := emptyStar_star_eq_none.1 hsafe
  have hmoves : Moves (r.parser.runWith rules) := by
    intro e
    refine (meets_node rules hbody e).mono (fun _ h => h.elim) (fun _ => trivial) ?_
    rintro m e' ⟨chars, hread, -⟩
    exact ⟨chars, hread⟩
  obtain ⟨tokens, d, hrounds, hhalts⟩ := exists_repeats hmoves c
  have hfails : r.parser.runWith rules d = .ok none := by
    have hmeets := meets_node_of_not_nullable rules hbody hnull d
    rcases hrun : r.parser.runWith rules d with fault | (_ | ⟨m, e⟩)
    · rw [hrun] at hmeets
      exact hmeets.elim
    · rfl
    · rw [hrun] at hmeets
      rw [hhalts m e hrun] at hmeets
      exact absurd hmeets.2.1 (Nat.lt_irrefl _)
  refine ⟨tokens, d, hrounds, hfails, ?_⟩
  rw [Node.parser, runWith_map, runWith_many_of_repeats hmoves hrounds hhalts, hfails]
  rfl

/-- Behind a star a pattern runs where the body of the star fails. -/
theorem exists_rounds_concat (rules : Rules R) (hsafe : (Node.star r).emptyStar = none)
    (s : Node) (c : Cursor) :
    ∃ tokens d, Repeats (r.parser.runWith rules) c tokens d ∧
      r.parser.runWith rules d = .ok none ∧
      (Node.concat (.star r) s).parser.runWith rules c =
        (s.parser.runWith rules d).andThen fun m e => .ok (some (joined tokens ++ m, e)) := by
  obtain ⟨tokens, d, hrounds, hfails, hstar⟩ := exists_rounds rules hsafe c
  refine ⟨tokens, d, hrounds, hfails, ?_⟩
  rw [runWith_concat, hstar]
  rfl

theorem concat_star_body_eq_none (hsafe : (Node.star r).emptyStar = none) (c : Cursor) :
    (Node.concat (.star r) r).parser.runWith rules c = .ok none := by
  obtain ⟨tokens, d, -, hfails, hconcat⟩ := exists_rounds_concat rules hsafe r c
  rw [hconcat, hfails]
  rfl

theorem agree_star_star (hsafe : (Node.star r).emptyStar = none) :
    Agree rules (Node.concat (.star r) (.star r)).parser (Node.star r).parser := by
  intro c
  obtain ⟨tokens, d, -, hfails, hstar⟩ := exists_rounds rules hsafe c
  -- The second star starts where the body fails, so it takes no round.
  obtain ⟨tokens', e, hrounds, -, hagain⟩ := exists_rounds rules hsafe d
  cases hrounds with
  | cons first => simp [hfails] at first
  | nil =>
      rw [runWith_concat, hstar]
      simp only [Outcome.andThen, hagain, joined, String.join_nil, String.append_empty]

/-- A star gives nothing back. -/
theorem star_is_possessive (rules : Rules R) (hr : r.isPattern = true) {depth : Nat}
    (hcheck : emptyRepeat depth (.star r) = .ok none) :
    (Compiled rules (.concat (.star r) r) fun run => ∀ c, run c = .ok none) ∧
    Equivalent rules (.concat (.star r) (.star r)) (.star r) ∧
    ∀ s : Node, s.isPattern = true →
      Compiled rules (.concat (.star r) s) fun run =>
        Compiled rules r fun body => Compiled rules s fun behind =>
          ∀ c, ∃ tokens d, Repeats body c tokens d ∧ body d = .ok none ∧
            run c = (behind d).andThen fun m e => .ok (some (joined tokens ++ m, e)) := by
  have hsafe : (Node.star r).emptyStar = none := (emptyRepeat_eq hcheck).symm
  have hstar : (Node.star r).isPattern = true := hr
  have hconcat {s : Node} (hs : s.isPattern = true) :
      (Node.concat (.star r) s).isPattern = true := by
    rw [Node.isPattern, hstar, hs, Bool.and_self]
  refine ⟨compiled_of_runs (hconcat hr) (concat_star_body_eq_none hsafe), ?_, fun s hs => ?_⟩
  · exact equivalent_of_agree (hconcat hstar) hstar (agree_star_star hsafe)
  · exact compiled_of_runs (hconcat hs) (compiled_of_runs hr (compiled_of_runs hs
      (exists_rounds_concat rules hsafe s)))

/-- Some of the one letter and then the other, as often as it goes, and what may follow. -/
theorem star_is_possessive_nested :
    (Node.concat (.star (.char "a")) (.char "b")).isPattern = true ∧
    emptyRepeat 4 (.star (.concat (.star (.char "a")) (.char "b"))) = .ok none ∧
    (∃ p : Parser NoRule String, compile nestingLimit (.concat
        (.star (.concat (.star (.char "a")) (.char "b")))
        (.concat (.star (.char "a")) (.char "b"))) = .ok p ∧
      p.run (.start "abaab") = .ok none) ∧
    ∃ p body behind : Parser NoRule String, compile nestingLimit (.concat
        (.star (.concat (.star (.char "a")) (.char "b"))) (.char "a")) = .ok p ∧
      compile nestingLimit (.concat (.star (.char "a")) (.char "b")) = .ok body ∧
      compile nestingLimit (.char "a") = .ok behind ∧
      (∃ tokens d, Repeats body.run (.start "abaabac") tokens d ∧ body.run d = .ok none ∧
        p.run (.start "abaabac") =
          (behind.run d).andThen fun m e => .ok (some (joined tokens ++ m, e))) ∧
      p.run (.start "abaabac") =
        .ok (some ("abaaba", ⟨#['a', 'b', 'a', 'a', 'b', 'a', 'c'], 6, ⟨1, 7⟩⟩)) := by
  have hpattern : (Node.concat (.star (.char "a")) (.char "b")).isPattern = true := rfl
  have hcheck : emptyRepeat 4 (.star (.concat (.star (.char "a")) (.char "b"))) = .ok none := rfl
  obtain ⟨hfails, -, hbehind⟩ := star_is_possessive
    (Grammar.rule NoRule.grammar Grammar.nestingLimit) hpattern hcheck
  obtain ⟨p, hp, hnone⟩ := hfails nestingLimit (by decide)
  obtain ⟨q, hq, hq'⟩ := hbehind (.char "a") rfl nestingLimit (by decide)
  obtain ⟨body, hbody, hbody'⟩ := hq' nestingLimit (by decide)
  obtain ⟨behind, hs, hrun⟩ := hbody' nestingLimit (by decide)
  exact ⟨hpattern, hcheck, ⟨p, hp, hnone _⟩, q, body, behind, hq, hbody, hs, hrun _,
    (compile_agree hq _).trans (by cbv)⟩

end Pattern

end ParserKit
