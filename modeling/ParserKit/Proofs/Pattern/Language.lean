import Mathlib
import ParserKit.Proofs.Pattern.Binary

/-!
# The language of a pattern

A pattern stands for a regular expression over characters, and so for a
language.  Repetition takes all it can get and an alternative is never taken
back, so a compiled pattern may miss words of its language; but what it matches
is the characters that it has read, and these are a word of the language.
-/

namespace ParserKit.Pattern

open ParserKit.Parser

/-- The regular expression of a pattern.  A group adds nothing, and a
single-character node with a text of another length stands for no word. -/
def Node.regular : Node → RegularExpression Char
  | char s =>
      match s.toList with
      | [ch] => .char ch
      | _ => 0
  | concat left right => left.regular * right.regular
  | alternation left right => left.regular + right.regular
  | star body => body.regular.star
  | group body => body.regular
  | foreign _ _ => 0

def Node.language (node : Node) : Language Char := node.regular.matches'

variable {R : Type → Type} {rules : Rules R}

theorem mem_language_char {s : String} {ch : Char} (h : s.toList = [ch]) :
    [ch] ∈ (Node.char s).language := by
  rw [Node.language, Node.regular, h]
  exact Set.mem_singleton _

/-- One more round of a star. -/
theorem append_mem_language_star {body : Node} {s t : List Char}
    (hs : s ∈ (Node.star body).language) (ht : t ∈ body.language) :
    s ++ t ∈ (Node.star body).language :=
  Set.mem_of_mem_of_subset (Language.append_mem_mul hs ht)
    (kstar_mul_le_kstar (a := body.language))

/-- A text that was read and is a word of the language. -/
def Matched (node : Node) (c : Cursor) (matched : String) (d : Cursor) : Prop :=
  c.Reads matched.toList d ∧ matched.toList ∈ node.language

theorem toList_joined_append (tokens : List String) (a : String) :
    (joined (tokens ++ [a])).toList = (joined tokens).toList ++ a.toList := by
  simp [joined, String.join_append]

/-- The rounds of a star, one behind the other, make up a word of the star's
language. -/
theorem meets_star {body : Node} {p : Parser R String}
    (h : ∀ c, (p.runWith rules c).Meets (fun _ => True) True (Matched body c)) (c : Cursor) :
    ((map (many p) joined).runWith rules c).Meets (fun _ => True) True
      (Matched (.star body) c) := by
  rw [meets_map]
  apply meets_many_of_rounds p fun tokens d => Matched (.star body) c (joined tokens) d
  · exact ⟨.nil c, Language.nil_mem_kstar body.language⟩
  · intro tokens d hI
    refine (h d).mono (fun _ hF => hF) (fun _ => hI) fun a e ha => ?_
    split
    · rw [Matched, toList_joined_append]
      refine ⟨hI.1.append ha.1, ?_⟩
      exact append_mem_language_star hI.2 ha.2
    · trivial

/-- Whatever a pattern matches is a word of its language. -/
theorem meets_node_language (rules : Rules R) (node : Node) (c : Cursor) :
    (node.parser.runWith rules c).Meets (fun _ => True) True (Matched node c) := by
  induction node generalizing c with
  | char s =>
      apply meets_charText s
      intro ch d hread hs
      rw [Matched, hs]
      exact ⟨hread, mem_language_char hs⟩
  | concat left right ihleft ihright =>
      rw [Node.parser, meets_sequence]
      apply (ihleft c).imp
      intro a d ha
      apply (ihright d).imp
      intro b e hb
      rw [Matched, String.toList_append]
      exact ⟨ha.1.append hb.1, Language.append_mem_mul ha.2 hb.2⟩
  | alternation left right ihleft ihright =>
      rw [Node.parser, meets_orElse]
      refine (ihleft c).mono (fun _ hF => hF) (fun _ => ?_) fun a d ha => ⟨ha.1, .inl ha.2⟩
      exact (ihright c).imp fun a d ha => ⟨ha.1, .inr ha.2⟩
  | star body ih => exact meets_star ih c
  | group body ih => exact ih c
  | foreign kind text => trivial

/-- A match of a compiled pattern is the part of the text that was read, the
rest of the text remains behind it, and it is a word of the language. -/
theorem mem_language_of_compile (rules : Rules R) (limit : Nat) (node : Node)
    (p : Parser R String) (c d : Cursor) (matched : String) (hcompile : compile limit node = .ok p)
    (hrun : p.runWith rules c = .ok (some (matched, d))) :
    matched.toList = c.slice d ∧ d.text = c.text ∧ c.offset ≤ d.offset ∧
      matched.toList ++ d.remaining = c.remaining ∧ matched.toList ∈ node.language := by
  have hmeets := meets_node_language rules node c
  rw [compile_agree hcompile c] at hrun
  rw [hrun] at hmeets
  obtain ⟨hread, hword⟩ := hmeets
  have hoffset := hread.offset_eq
  exact ⟨hread.slice_eq.symm, hread.text_eq, by omega, hread.remaining_eq.symm, hword⟩

/-- A star over alternatives, run behind the first character of a text. -/
theorem mem_language_starred_alternatives :
    ∃ (p : Parser NoRule String) (d : Cursor),
      compile 4 (.star (.alternation (.concat (.char "a") (.char "b")) (.char "c"))) = .ok p ∧
      p.runWith (Grammar.rule NoRule.grammar 0) ⟨"xabcba".toList.toArray, 1, ⟨1, 2⟩⟩ =
        .ok (some ("abc", d)) ∧
      "abc".toList = (⟨"xabcba".toList.toArray, 1, ⟨1, 2⟩⟩ : Cursor).slice d ∧
      "abc".toList ∈
        (Node.star (.alternation (.concat (.char "a") (.char "b")) (.char "c"))).language := by
  obtain ⟨p, hcompile⟩ : ∃ p : Parser NoRule String,
      compile 4 (.star (.alternation (.concat (.char "a") (.char "b")) (.char "c"))) = .ok p :=
    ⟨_, rfl⟩
  have hrun : p.runWith (Grammar.rule NoRule.grammar 0) ⟨"xabcba".toList.toArray, 1, ⟨1, 2⟩⟩ =
      .ok (some ("abc", ⟨"xabcba".toList.toArray, 4, ⟨1, 5⟩⟩)) := by
    rw [compile_agree hcompile]
    cbv
  have hmatch := mem_language_of_compile _ 4 _ p _ _ _ hcompile hrun
  exact ⟨p, _, hcompile, hrun, hmatch.1, hmatch.2.2.2.2⟩

end ParserKit.Pattern
