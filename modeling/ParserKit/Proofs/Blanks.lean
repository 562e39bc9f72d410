import ParserKit.Proofs.Tokens

/-!
# Blanks around tokens

A token skips the blanks on both sides of its parser, so blanks that are skipped once more around
it make no difference.  The run of blanks is read to its end: where it stops there is none left to
skip, whatever the parser in between has done, and even if it stopped among blanks itself.
-/

namespace ParserKit

open CharClass

namespace Cursor

variable {c d : Cursor} {s : List Char}

/-- The cursor behind all the blanks that stand in front of this one. -/
def behindBlanks (c : Cursor) : Cursor := c.behind (c.remaining.takeWhile isSpace)

theorem Reads.eq_behindBlanks (h : c.Reads s d) (hblank : Blank s)
    (hstops : Stops isSpace d.remaining) : d = c.behindBlanks := by
  have hfront : c.remaining.takeWhile isSpace = s := by
    rw [h.remaining_eq, hblank.takeWhile_append hstops]
  rw [behindBlanks, hfront]
  exact h.eq_behind

theorem behindBlanks_of_stops (h : Stops isSpace c.remaining) : c.behindBlanks = c :=
  ((Reads.nil c).eq_behindBlanks (run_nil isSpace) h).symm

end Cursor

namespace Parser

variable {R : Type → Type} {rules : Rules R} {α : Type}

theorem runWith_space (c : Cursor) :
    (space : Parser R Unit).runWith rules c = .ok (some ((), c.behindBlanks)) := by
  have hmeets : ((space : Parser R Unit).runWith rules c).Meets (fun _ => False) False
      fun _ d => d = c.behindBlanks :=
    meets_space fun _ _ hread hblank hstops => hread.eq_behindBlanks hblank hstops
  rcases hrun : (space : Parser R Unit).runWith rules c with fault | (_ | ⟨a, d⟩) <;>
    rw [hrun] at hmeets
  · exact hmeets.elim
  · exact hmeets.elim
  · rw [hmeets]

/-- A token is what its parser reads between two runs of blanks. -/
theorem runWith_token (p : Parser R α) (c : Cursor) :
    (token p).runWith rules c =
      (p.runWith rules c.behindBlanks).andThen fun a d => .ok (some (a, d.behindBlanks)) := by
  simp only [token, discardRight, discardLeft, runWith_sequence, runWith_space,
    Outcome.some_andThen, Outcome.andThen_assoc]

end Parser

/-- Where the run of blanks has stopped, no blank stands. -/
theorem Cursor.stops_behindBlanks (c : Cursor) : Stops isSpace c.behindBlanks.remaining := by
  have htight : Tight
      ((Parser.space : Parser NoRule Unit).runWith (Grammar.rule NoRule.grammar 0)) :=
    Parser.tight_space
  exact htight.stops (Parser.runWith_space c)

@[simp]
theorem Cursor.behindBlanks_behindBlanks (c : Cursor) :
    c.behindBlanks.behindBlanks = c.behindBlanks :=
  behindBlanks_of_stops c.stops_behindBlanks

namespace Parser

variable {R : Type → Type} {α : Type}

/-- Blanks in front of a token are the ones that it skips itself. -/
theorem runWith_token_behindBlanks (rules : Rules R) (p : Parser R α) (c : Cursor) :
    (token p).runWith rules c.behindBlanks = (token p).runWith rules c := by
  rw [runWith_token, runWith_token, Cursor.behindBlanks_behindBlanks]

/-- Skipping blanks behind a token leaves the cursor where it is. -/
theorem runWith_token_andThen_behindBlanks (rules : Rules R) (p : Parser R α) (c : Cursor) :
    (((token p).runWith rules c).andThen fun a d => .ok (some (a, d.behindBlanks))) =
      (token p).runWith rules c := by
  simp only [runWith_token, Outcome.andThen_assoc, Outcome.some_andThen,
    Cursor.behindBlanks_behindBlanks]

/-- Further blanks around a token make no difference, and behind it stands none. -/
theorem token_absorbs_blanks (rules : Rules R) (p : Parser R α) (c : Cursor) :
    (token (token p)).runWith rules c = (token p).runWith rules c ∧
    (discardLeft space (token p)).runWith rules c = (token p).runWith rules c ∧
    (andThen space (token p)).runWith rules c = (token p).runWith rules c ∧
    (discardRight (token p) space).runWith rules c = (token p).runWith rules c ∧
    ∀ a d, (token p).runWith rules c = .ok (some (a, d)) →
      ∀ ch ∈ d.remaining.head?, ch ∉ [' ', '\t', '\n', '\r'] := by
  refine ⟨?_, ?_, ?_, ?_, fun a d hrun ch hch hblank => ?_⟩
  · rw [runWith_token, runWith_token_behindBlanks, runWith_token_andThen_behindBlanks]
  · simp only [discardLeft, runWith_sequence, runWith_space, Outcome.some_andThen,
      Outcome.andThen_some, runWith_token_behindBlanks]
  · rw [andThen, runWith_bind, runWith_space, Outcome.some_andThen, runWith_token_behindBlanks]
  · simp only [discardRight, runWith_sequence, runWith_space, Outcome.some_andThen]
    exact runWith_token_andThen_behindBlanks rules p c
  · have hspace : isSpace ch = false := (tight_token p).stops hrun ch hch
    exact Bool.eq_false_iff.1 hspace (List.contains_iff_mem.2 hblank)

/-- A parser that ends among blanks: the character behind the first one is a blank as well. -/
theorem token_absorbs_blanks_among_blanks :
    let p : Parser NoRule (Char × Char) := sequence item item Prod.mk
    let stop : Cursor := ⟨#['\t', 'x', ' ', '\n', ' ', 'y'], 5, ⟨2, 2⟩⟩
    (token p).run (.start "\tx \n y") = .ok (some (('x', ' '), stop)) ∧
      (token (token p)).run (.start "\tx \n y") = .ok (some (('x', ' '), stop)) ∧
      ∀ ch ∈ stop.remaining.head?, ch ∉ [' ', '\t', '\n', '\r'] := by
  intro p stop
  have hrun : (token p).run (.start "\tx \n y") = .ok (some (('x', ' '), stop)) := by cbv
  obtain ⟨htwice, -, -, -, hnext⟩ := token_absorbs_blanks
    (Grammar.rule NoRule.grammar Grammar.nestingLimit) p (.start "\tx \n y")
  exact ⟨hrun, htwice.trans hrun, hnext _ _ hrun⟩

end Parser

end ParserKit
