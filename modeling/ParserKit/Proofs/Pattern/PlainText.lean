import ParserKit.Proofs.Lengths
import ParserKit.Proofs.Pattern.Laws

/-!
# Patterns without special characters

A text without parentheses, stars and bars is a pattern that matches just itself.
The pattern is compiled to a chain of single characters, a literal compares its
characters one after the other, and characters may also be put in a row one by
one: all three take the same characters from every cursor, or fail to match
wherever the text does not stand in front.
-/

namespace ParserKit

/-- The characters are taken exactly where they stand in front of the cursor. -/
theorem takeLiteral_eq_ite (s : List Char) (c : Cursor) :
    takeLiteral s c = if s <+: c.remaining then some (c.behind s) else none := by
  split
  · rename_i hfront
    obtain ⟨rest, hrest⟩ := hfront
    obtain ⟨d, hread, -⟩ := Cursor.exists_reads_of_remaining hrest.symm
    rw [Parser.takeLiteral_eq_some.2 hread, hread.eq_behind]
  · rename_i hfront
    rw [Option.eq_none_iff_forall_not_mem]
    intro d hd
    have hread : c.Reads s d := Parser.takeLiteral_eq_some.1 hd
    exact hfront ⟨d.remaining, hread.remaining_eq.symm⟩

theorem takeLiteral_cons (ch : Char) (more : List Char) (c : Cursor) :
    takeLiteral (ch :: more) c = (takeLiteral [ch] c).bind (takeLiteral more) := by
  simp only [takeLiteral]
  rcases c.advance with _ | ⟨first, d⟩
  · rfl
  · by_cases hfirst : first = ch
    · simp only [hfirst, if_true, Option.bind_some]
    · simp only [hfirst, if_false, Option.bind_none]

/-- The outcome of taking the characters of `s`, with the token `a`. -/
def takes {α : Type} (s : List Char) (a : α) (c : Cursor) : Outcome α :=
  .ok ((takeLiteral s c).map fun d => (a, d))

theorem takes_eq_ite {α : Type} (s : List Char) (a : α) (c : Cursor) :
    takes s a c = .ok (if s <+: c.remaining then some (a, c.behind s) else none) := by
  rw [takes, takeLiteral_eq_ite]
  split <;> rfl

/-- Some characters are taken by taking the first one and then those behind it. -/
theorem takes_cons {α β γ : Type} (ch : Char) (more : List Char) (a : α) (b : β)
    (f : α → β → γ) (c : Cursor) :
    takes (ch :: more) (f a b) c =
      (takes [ch] a c).andThen fun a d => (takes more b d).andThen fun b e =>
        .ok (some (f a b, e)) := by
  rw [takes, takes, takeLiteral_cons]
  rcases takeLiteral [ch] c with _ | d
  · rfl
  · simp only [Outcome.andThen, Option.bind_some, Option.map_some, takes]
    rcases takeLiteral more d with _ | e <;> rfl

namespace Parser

variable {R : Type → Type} {rules : Rules R} {β : Type} {c : Cursor}

theorem runWith_literal (s : String) :
    (literal s : Parser R String).runWith rules c = takes s.toList s c := by
  rw [runWith, takes]

theorem runWith_char (ch : Char) :
    (char ch : Parser R Char).runWith rules c = takes [ch] ch c := by
  rw [char, satisfy, runWith_accept, takes, takeLiteral]
  rcases c.advance with _ | ⟨first, d⟩
  · rfl
  · by_cases hfirst : first = ch <;> simp [Outcome.andThen, takeLiteral, hfirst]

/-- Single characters in a row take what a literal takes. -/
theorem runWith_chars (cs : List Char) (f : List Char → β) :
    (sequenceOf (cs.map char) f : Parser R β).runWith rules c = takes cs (f cs) c := by
  induction cs generalizing f c with
  | nil => rfl
  | cons ch more ih =>
      rw [List.map_cons, runWith_sequenceOf_cons, runWith_bind, runWith_char,
        takes_cons ch more ch more fun first rest => f (first :: rest)]
      congr
      funext first d
      rw [ih]
      simp only [takes]
      rcases takeLiteral more d with _ | e <;> rfl

end Parser

namespace Pattern

open ParserKit.Parser

variable {R : Type → Type} {rules : Rules R} {c : Cursor}

theorem runWith_charText (ch : Char) :
    (charText (String.singleton ch) : Parser R String).runWith rules c =
      takes [ch] (String.singleton ch) c := by
  rw [charText, runWith_accept, takes, takeLiteral]
  rcases c.advance with _ | ⟨first, d⟩
  · rfl
  · by_cases hfirst : first = ch
    · simp [Outcome.andThen, takeLiteral, hfirst]
    · simp [Outcome.andThen, hfirst, Ne.symm hfirst]

/-- By induction along the chain of characters. -/
theorem runWith_ofChars (ch : Char) (more : List Char) :
    (Node.ofChars ch more).parser.runWith rules c =
      takes (ch :: more) (String.ofList (ch :: more)) c := by
  induction more generalizing ch c with
  | nil => exact runWith_charText ch
  | cons second more ih =>
      have hchain : Node.ofChars ch (second :: more) =
          .concat (.char (String.singleton ch)) (.ofChars second more) := rfl
      have htext : String.ofList (ch :: second :: more) =
          String.singleton ch ++ String.ofList (second :: more) := by
        apply String.toList_injective
        simp
      rw [hchain, runWith_concat, htext, takes_cons, Node.parser, runWith_charText]
      congr
      funext s d
      rw [ih]

theorem emptyStar_ofChars (ch : Char) (more : List Char) :
    (Node.ofChars ch more).emptyStar = none := by
  induction more generalizing ch with
  | nil => rfl
  | cons second more ih => exact ih second

/-- A text without special characters is a pattern that does what its literal does, and what its
characters do one by one: it matches exactly where the text stands in front, and leaves the
cursor behind just its characters. -/
theorem plain_pattern_is_literal {s : String} (hne : s ≠ "")
    (hplain : ∀ ch ∈ s.toList, ch ∉ specials) :
    ∃ p : Parser NoRule String, compileText s = .ok p ∧ ∀ c,
      p.run c = (literal s).run c ∧
      (literal s).run c = (sequenceOf (s.toList.map char) String.ofList).run c ∧
      (literal s).run c =
        .ok (if s.toList <+: c.remaining then some (s, c.behind s.toList) else none) := by
  obtain ⟨ch, more, hchars⟩ := List.exists_cons_of_ne_nil fun hnil =>
    hne (String.toList_injective (hnil.trans String.toList_empty.symm))
  obtain rfl : s = String.ofList (ch :: more) := by rw [← hchars, String.ofList_toList]
  rw [String.toList_ofList] at hplain ⊢
  obtain ⟨p, hp, htext⟩ := compileText_of_read NoRule (read_plain hplain)
  rw [if_pos (emptyStar_ofChars ch more)] at htext
  refine ⟨p, htext, fun c => ?_⟩
  have hliteral : (literal (String.ofList (ch :: more))).run c =
      takes (ch :: more) (String.ofList (ch :: more)) c := by
    rw [Parser.run, Grammar.run, runWith_literal, String.toList_ofList]
  have hpattern : p.run c = takes (ch :: more) (String.ofList (ch :: more)) c :=
    (compile_agree hp c).trans (runWith_ofChars ch more)
  have hsequence : (sequenceOf ((ch :: more).map char) String.ofList).run c =
      takes (ch :: more) (String.ofList (ch :: more)) c := runWith_chars _ _
  exact ⟨hpattern.trans hliteral.symm, hliteral.trans hsequence.symm,
    hliteral.trans (takes_eq_ite _ _ _)⟩

/-- A text over two rows, in the middle of another text and where its last character differs. -/
theorem plain_pattern_two_rows :
    "a\né" ≠ "" ∧ (∀ ch ∈ "a\né".toList, ch ∉ specials) ∧
    ∃ p : Parser NoRule String, compileText "a\né" = .ok p ∧
      p.run ⟨#['x', 'a', '\n', 'é', 'y'], 1, ⟨3, 5⟩⟩ =
        .ok (some ("a\né", ⟨#['x', 'a', '\n', 'é', 'y'], 4, ⟨4, 2⟩⟩)) ∧
      p.run (.start "a\nb") = .ok none := by
  have hne : "a\né" ≠ "" := by decide
  have hplain : ∀ ch ∈ "a\né".toList, ch ∉ specials := by simp [specials]
  obtain ⟨p, hp, hruns⟩ := plain_pattern_is_literal hne hplain
  refine ⟨hne, hplain, p, hp, ?_, ?_⟩
  · obtain ⟨hsame, -, hliteral⟩ := hruns ⟨#['x', 'a', '\n', 'é', 'y'], 1, ⟨3, 5⟩⟩
    rw [hsame, hliteral]
    rfl
  · obtain ⟨hsame, -, hliteral⟩ := hruns (.start "a\nb")
    rw [hsame, hliteral]
    rfl

end Pattern

end ParserKit
