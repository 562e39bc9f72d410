import Mathlib
import ParserKit.Proofs.Arith.Completeness
import ParserKit.Proofs.Arith.Frames

/-!
# Reading is parsing

Reading a text gives a tree exactly if the text spells that tree, spans aside.
Texts with too long a run of digits, and texts that nest too deeply, are left
out.
-/

namespace ParserKit.Arith

open ParserKit.Parser CharClass

variable {text : String} {tree : Node}

/-- A tree is read where the program ends at the end of the text. -/
theorem read_eq_some_iff_run : read text = .ok (some tree) ↔
    ∃ d, grammar.runOnStack program (.start text) = .ok (some (tree, d)) ∧ d.remaining = [] := by
  rw [read, readAt]
  rcases grammar.runOnStack program (.start text) with fault | (_ | ⟨found, d⟩)
  · simp [Except.map]
  · simp [Except.map]
  · by_cases hend : d.atEnd = true
    · have hremaining := (Cursor.atEnd_iff_remaining d).1 hend
      simp [Except.map, hend, hremaining]
    · have hremaining := mt (Cursor.atEnd_iff_remaining d).2 hend
      simp [Except.map, hend, hremaining]

theorem read_eq_error_iff_run {fault : Fault} : read text = .error fault ↔
    grammar.runOnStack program (.start text) = .error fault := by
  rw [read, readAt]
  rcases grammar.runOnStack program (.start text) with fault' | (_ | ⟨found, d⟩) <;>
    simp [Except.map]

/-- A tree is read where a program that opens few parentheses and signs ends at the end. -/
theorem read_of_program {d : Cursor} (hrun : program.runWith (Grammar.rule grammar roomForNesting)
    (.start text) = .ok (some (tree, d))) (hd : d.remaining = []) :
    read text = .ok (some tree) :=
  read_eq_some_iff_run.2 ⟨d, (program_approximates _).eq_of_ok hrun, hd⟩

/-- What is read is read without the stack as well. -/
theorem exists_run_of_read (h : read text = .ok (some tree)) :
    ∃ d, grammar.run program (.start text) = .ok (some (tree, d)) ∧ d.remaining = [] := by
  obtain ⟨d, hrun, hd⟩ := read_eq_some_iff_run.1 h
  exact ⟨d, (grammar.runOnStack_approximates program _).eq_of_ok hrun, hd⟩

/-- What reading answers is sound for the whole text. -/
theorem read_sound (text : String) :
    match read text with
    | .error fault => ReadingFault text.toList fault
    | .ok none => True
    | .ok (some tree) => Renders tree text.toList := by
  have hprogram : (grammar.runOnStack program (Cursor.start text)).Meets
      (ReadingFault text.toList) True fun tree d =>
        d.atEnd = true → Renders tree text.toList := by
    apply (grammar.runOnStack_approximates program _).meets (.inl rfl)
    rw [Grammar.run, program, discardLeft, meets_sequence]
    apply meets_space
    intro blanks c hblanks hblank _
    rw [← Cursor.remaining_start text]
    have hrules := soundRules_rule Grammar.nestingLimit
    apply (sound_expression hrules c).after hblanks
    intro tree d ts s hread hspaced hderives hend
    refine ⟨ts, hderives, ?_⟩
    rw [hblanks.remaining_eq, hread.remaining_eq, (Cursor.atEnd_iff_remaining d).1 hend,
      List.append_nil]
    exact hspaced.blank_append hblank
  simp only [read, readAt]
  rcases hrun : grammar.runOnStack program (Cursor.start text) with fault | (_ | ⟨tree, d⟩)
  · rw [hrun] at hprogram
    exact hprogram
  · trivial
  · rw [hrun] at hprogram
    by_cases hend : d.atEnd = true
    · simp only [Except.map, hend, if_true]
      exact hprogram hend
    · simp only [Except.map, hend]
      trivial

/-- A program that may open some number of references reads a text that spells a tree,
unless its tokens nest deeper. -/
theorem completes_program {n : Nat} {ts : List Token} (depth : Nat)
    (hderives : DerivesWithin n (.level .expression) ts tree) (hspaced : Spaced ts text.toList)
    (hshort : ShortRuns text.toList) :
    (program.runWith (Grammar.rule grammar depth) (.start text)).Meets (DeepFault (depth + 1) n)
      False fun found d => found.eraseSpans = tree ∧ d.remaining = [] := by
  obtain ⟨blanks, s, htext, hblank, hlaid⟩ := hspaced.exists_laid
  rw [program, discardLeft, meets_sequence]
  apply meets_space
  intro blanks' c hblanks hblank' hstops
  have hremaining := hblanks.remaining_eq
  rw [Cursor.remaining_start, htext] at hremaining
  have hspace : Stops isSpace s := by simpa using hlaid.stops (stops_nil _)
  obtain ⟨-, hc⟩ := hblank.append_inj hblank' hspace hstops hremaining
  have hrules := completeRules_rule depth
  have hshort' : ShortRuns s := hshort.of_infix (htext ▸ (List.suffix_append _ _).isInfix)
  have hend : Follows (.level .expression) [] := by simp [Follows]
  exact completes_expression hrules hderives hlaid hend hshort' (by rw [← hc, List.append_nil])

/-- A text that spells a tree is read as that tree, unless its tokens nest deeper
than the stack has room for. -/
theorem read_of_derivesWithin {n : Nat} {ts : List Token}
    (hderives : DerivesWithin n (.level .expression) ts tree) (hspaced : Spaced ts text.toList)
    (hshort : ShortRuns text.toList) :
    read text = .error .tooDeep ∧ roomForNesting < n ∨
      ∃ found, read text = .ok (some found) ∧ found.eraseSpans = tree := by
  have hprogram : (grammar.runOnStack program (.start text)).Meets (· = .tooDeep) False
      fun found d => found.eraseSpans = tree ∧ d.remaining = [] := by
    refine (grammar.runOnStack_approximates program _).meets (F := (· = .tooDeep)) rfl ?_
    exact (completes_program Grammar.nestingLimit hderives hspaced hshort).mono
      (fun _ => And.left) id fun _ _ h => h
  rcases hrun : grammar.runOnStack program (.start text) with fault | (_ | ⟨found, d⟩)
  · rw [hrun] at hprogram
    obtain rfl : fault = .tooDeep := hprogram
    refine .inl ⟨read_eq_error_iff_run.2 hrun, ?_⟩
    -- With few parentheses and signs the run without the stack does not end in a fault.
    have hroom := completes_program roomForNesting hderives hspaced hshort
    rcases program_approximates (.start text) with hdeep | hsame
    · rw [hdeep] at hroom
      exact hroom.2
    · rw [hsame, hrun] at hroom
      exact hroom.2
  · rw [hrun] at hprogram
    exact hprogram.elim
  · rw [hrun] at hprogram
    exact .inr ⟨found, read_eq_some_iff_run.2 ⟨d, hrun, hprogram.2⟩, hprogram.1⟩

theorem read_complete (hrenders : Renders tree text.toList) (hshort : ShortRuns text.toList) :
    read text = .error .tooDeep ∨
      ∃ found, read text = .ok (some found) ∧ found.eraseSpans = tree.eraseSpans := by
  obtain ⟨ts, hderives, hspaced⟩ := hrenders
  obtain ⟨n, hwithin⟩ := hderives.exists_within
  exact (read_of_derivesWithin hwithin hspaced hshort).imp_left And.left

theorem ReadingFault.eq_tooDeep {s : List Char} {fault : Fault} (h : ReadingFault s fault)
    (hshort : ShortRuns s) : fault = .tooDeep := by
  rcases h with h | ⟨run, hrun, hdigits, hlong, -⟩
  · exact h
  · exact absurd (hshort run hrun hdigits) (Nat.not_le.2 hlong)

/-- The reader accepts exactly the texts that spell an expression, and each with
the one tree that it spells. -/
theorem read_eq_some_iff_renders (text : String) (hshort : ShortRuns text.toList)
    (hdeep : read text ≠ .error .tooDeep) :
    (∀ tree, (∃ found, read text = .ok (some found) ∧ found.eraseSpans = tree.eraseSpans) ↔
      Renders tree text.toList) ∧
    (read text = .ok none ↔ ∀ tree, ¬ Renders tree text.toList) ∧
    ∀ tree tree', Renders tree text.toList → Renders tree' text.toList →
      tree.eraseSpans = tree'.eraseSpans := by
  have hsound := read_sound text
  have hcomplete : ∀ tree, Renders tree text.toList →
      ∃ found, read text = .ok (some found) ∧ found.eraseSpans = tree.eraseSpans := by
    intro tree hrenders
    exact (read_complete hrenders hshort).resolve_left hdeep
  refine ⟨fun tree => ⟨?_, hcomplete tree⟩, ?_, ?_⟩
  · rintro ⟨found, hread, herase⟩
    rw [hread] at hsound
    rwa [Renders, ← herase]
  · constructor
    · intro hnone tree hrenders
      obtain ⟨found, hread, -⟩ := hcomplete tree hrenders
      rw [hnone] at hread
      exact absurd hread (by simp)
    · intro hnone
      rcases hread : read text with fault | (_ | tree)
      · rw [hread] at hsound hdeep
        exact absurd (congrArg Except.error (hsound.eq_tooDeep hshort)) hdeep
      · rfl
      · rw [hread] at hsound
        exact absurd hsound (hnone tree)
  · intro tree tree' hrenders hrenders'
    obtain ⟨found, hread, herase⟩ := hcomplete tree hrenders
    obtain ⟨found', hread', herase'⟩ := hcomplete tree' hrenders'
    rw [hread] at hread'
    obtain rfl : found = found' := by simpa using hread'
    calc
      tree.eraseSpans = found.eraseSpans := herase.symm
      _ = tree'.eraseSpans := herase'

theorem shortRuns_of_length_le {s : List Char} (h : s.length ≤ Decimal.digitLimit) :
    ShortRuns s :=
  fun _ hrun _ => Nat.le_trans hrun.length_le h

/-- Blanks around the tokens, signs that meet, and leading zeros. -/
theorem renders_signed_power :
    ShortRuns " -+x^\t007\n".toList ∧ read " -+x^\t007\n" ≠ .error .tooDeep ∧
      Renders (.chain .expression (.chain .term (.chain .factor
        (.negate (.identifier "x" none)) (.step .power (.number 7 none) .done none)) .done) .done)
        " -+x^\t007\n".toList := by
  have hshort : ShortRuns " -+x^\t007\n".toList := shortRuns_of_length_le (by decide)
  have hread : ∃ found, read " -+x^\t007\n" = .ok (some found) ∧ found.eraseSpans =
      .chain .expression (.chain .term (.chain .factor
        (.negate (.identifier "x" none)) (.step .power (.number 7 none) .done none)) .done)
        .done := by
    refine ⟨?_, ?_, ?_⟩
    rotate_left
    · cbv
      rfl
    · cbv
  have hdeep : read " -+x^\t007\n" ≠ .error .tooDeep := by
    obtain ⟨found, hfound, -⟩ := hread
    rw [hfound]
    simp
  exact ⟨hshort, hdeep, ((read_eq_some_iff_renders _ hshort hdeep).1 _).1 hread⟩

end ParserKit.Arith
