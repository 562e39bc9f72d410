import ParserKit.Diagnostic.Render
import ParserKit.Proofs.Decimals
import ParserKit.Text.Ansi

/-!
# Colors are decoration

A rendering with colors is the rendering without them and the terminal sequences
of the paints in between.  Texts without escape characters cannot be taken for a
part of a sequence, so taking the sequences out again leaves the rendering
without colors, whatever labels, notes and source the diagnostic is shown with.
-/

namespace ParserKit

/-- No terminal sequence starts in the text. -/
def NoEscape (s : String) : Prop := Ansi.escapeChar ∉ s.toList

instance (s : String) : Decidable (NoEscape s) :=
  inferInstanceAs (Decidable (Ansi.escapeChar ∉ s.toList))

variable {s t : String}

theorem noEscape_append : NoEscape (s ++ t) ↔ NoEscape s ∧ NoEscape t := by
  rw [NoEscape, String.toList_append, List.mem_append, not_or]
  rfl

theorem NoEscape.append (hs : NoEscape s) (ht : NoEscape t) : NoEscape (s ++ t) :=
  noEscape_append.2 ⟨hs, ht⟩

theorem NoEscape.pushn (hs : NoEscape s) {ch : Char} (hch : ch ≠ Ansi.escapeChar) (n : Nat) :
    NoEscape (s.pushn ch n) := by
  induction n with
  | zero => exact hs
  | succ n ih =>
      change NoEscape ((s.pushn ch n).push ch)
      rw [NoEscape, String.toList_push, List.mem_append, List.mem_singleton, not_or]
      exact ⟨ih, hch.symm⟩

theorem noEscape_numeral (v : Int) : NoEscape (toString v) := by
  change Ansi.escapeChar ∉ (Decimal.numeral v).toList
  have hdigits : Ansi.escapeChar ∉ Nat.toDigits 10 v.natAbs :=
    fun hmem => absurd (Decimal.run_toDigits _ _ hmem) (by decide)
  rw [Decimal.toList_numeral]
  split
  · exact List.not_mem_cons_of_ne_of_not_mem (by decide) hdigits
  · exact hdigits

namespace Paint

def all : List Paint := [red, bold, blue, reset]

/-- Take the sequences of all paints out of a text, from the left to the right. -/
def eraseChars : List Char → List Char
  | [] => []
  | c :: cs =>
      match all.find? fun p => p.code.toList.isPrefixOf (c :: cs) with
      | some p => eraseChars (cs.drop (p.code.length - 1))
      | none => c :: eraseChars cs
termination_by cs => cs.length

def erase (s : String) : String := String.ofList (eraseChars s.toList)

theorem eraseChars_nil : eraseChars [] = [] := by rw [eraseChars]

theorem eraseChars_code_append (p : Paint) (cs : List Char) :
    eraseChars (p.code.toList ++ cs) = eraseChars cs := by
  cases p <;> exact eraseChars.eq_def _

/-- A character that starts no sequence stays. -/
theorem eraseChars_cons {c : Char} (h : c ≠ Ansi.escapeChar) (cs : List Char) :
    eraseChars (c :: cs) = c :: eraseChars cs := by
  have hnone : (all.find? fun p => p.code.toList.isPrefixOf (c :: cs)) = none := by
    rw [List.find?_eq_none]
    intro p _ hprefix
    have hhead : p.code.toList.head? = some Ansi.escapeChar := by cases p <;> rfl
    obtain ⟨rest, hrest⟩ := List.isPrefixOf_iff_prefix.1 hprefix
    have hfirst : (p.code.toList ++ rest).head? = some Ansi.escapeChar := by
      rw [List.head?_append, hhead, Option.some_or]
    rw [hrest, List.head?_cons, Option.some.injEq] at hfirst
    exact h hfirst
  rw [eraseChars, hnone]

theorem eraseChars_append {cs : List Char} (h : Ansi.escapeChar ∉ cs) (more : List Char) :
    eraseChars (cs ++ more) = cs ++ eraseChars more := by
  induction cs with
  | nil => rfl
  | cons c cs ih =>
      rw [List.mem_cons, not_or] at h
      rw [List.cons_append, eraseChars_cons (Ne.symm h.1), ih h.2, List.cons_append]

end Paint

namespace Fragment

/-- The texts among the fragments hold no escape character. -/
def Clear (fragments : List Fragment) : Prop := ∀ s, text s ∈ fragments → NoEscape s

variable {fragments more : List Fragment}

theorem clear_nil : Clear [] := fun _ h => absurd h List.not_mem_nil

theorem Clear.text (hs : NoEscape s) (h : Clear fragments) : Clear (text s :: fragments) := by
  intro t ht
  rcases List.mem_cons.1 ht with heq | ht
  · cases heq
    exact hs
  · exact h t ht

theorem Clear.paint (p : Paint) (h : Clear fragments) : Clear (paint p :: fragments) := by
  intro t ht
  rcases List.mem_cons.1 ht with heq | ht
  · cases heq
  · exact h t ht

theorem Clear.append (h : Clear fragments) (hmore : Clear more) : Clear (fragments ++ more) :=
  fun t ht => (List.mem_append.1 ht).elim (h t) (hmore t)

theorem clear_joinLines {rows : List (List Fragment)} (h : ∀ row ∈ rows, Clear row) :
    Clear (joinLines rows) := by
  induction rows with
  | nil => exact clear_nil
  | cons first rows ih =>
      rw [List.forall_mem_cons] at h
      cases rows with
      | nil => exact h.1
      | cons second rows => exact h.1.append (.text (by decide) (ih h.2))

/-- One fragment after the other: a text stays and a sequence goes. -/
theorem eraseChars_writeAll (h : Clear fragments) :
    Paint.eraseChars (writeAll true fragments).toList = (writeAll false fragments).toList := by
  induction fragments with
  | nil => exact Paint.eraseChars_nil
  | cons fragment more ih =>
      have hmore := ih fun s hs => h s (List.mem_cons_of_mem _ hs)
      simp only [writeAll, List.map_cons, String.join_cons, String.toList_append] at hmore ⊢
      cases fragment with
      | text s =>
          have hs : NoEscape s := h s List.mem_cons_self
          rw [write, write, Paint.eraseChars_append hs, hmore]
      | paint p =>
          rw [write, write, if_pos rfl, if_neg Bool.false_ne_true, Paint.eraseChars_code_append,
            hmore]
          rfl

end Fragment

namespace Diagnostic

open Fragment

/-- No text of the diagnostic holds an escape character. -/
structure Escapeless (d : Diagnostic) : Prop where
  code : NoEscape d.code
  message : NoEscape d.message
  labels : ∀ label ∈ d.labels,
    NoEscape label.span.file ∧ NoEscape label.message
  notes : ∀ note ∈ d.notes, NoEscape note

variable {d : Diagnostic} {lines : List (List Char)} {label : Label}

theorem clear_margin {mark : String} (h : NoEscape mark) {more : List Fragment}
    (hmore : Clear more) : Clear (margin mark ++ more) :=
  .text (by decide) (.paint _ (.text h (.paint _ hmore)))

theorem clear_headline (h : d.Escapeless) : Clear d.headline := by
  have hcode : NoEscape (severity ++ "[" ++ d.code ++ "]") :=
    ((show NoEscape (severity ++ "[") by decide).append h.code).append (by decide)
  have hmessage : NoEscape (": " ++ d.message) := .append (by decide) h.message
  exact .paint _ (.text hcode (.paint _ (.paint _ (.text hmessage (.paint _ clear_nil)))))

theorem clear_noteLine {note : String} (h : NoEscape note) : Clear (noteLine note) :=
  clear_margin (by decide) (.text (.append (by decide) h) clear_nil)

theorem noEscape_gutter (n : Int) : NoEscape (gutter n) :=
  (NoEscape.pushn (by decide) (by decide) _).append (noEscape_numeral n)

theorem noEscape_spanText {span : Span} (h : NoEscape span.file) :
    NoEscape span.text := by
  have hplace : NoEscape span.start.text :=
    ((noEscape_numeral _).append (by decide)).append (noEscape_numeral _)
  exact (h.append (by decide)).append hplace

theorem noEscape_sourceLine (hlines : ∀ line ∈ lines, Ansi.escapeChar ∉ line) {row : Int}
    {line : String} (h : sourceLine? lines row = some line) : NoEscape line := by
  rw [sourceLine?] at h
  split at h
  · cases h
  · obtain ⟨chars, hchars, rfl⟩ := Option.map_eq_some_iff.1 h
    rw [NoEscape, String.toList_ofList]
    exact hlines chars (List.mem_of_getElem? hchars)

/-- The rows of a label, those that depend on the span and on the source included. -/
theorem clear_labelLines (hlines : ∀ line ∈ lines, Ansi.escapeChar ∉ line)
    (hfile : NoEscape label.span.file) (hmessage : NoEscape label.message) :
    ∀ row ∈ labelLines lines label, Clear row := by
  have hrule : NoEscape "   |" := by decide
  intro row hrow
  simp only [labelLines, List.append_assoc, List.mem_append, List.mem_cons, List.not_mem_nil,
    or_false] at hrow
  rcases hrow with (rfl | rfl) | hsource | hmarks | hlast
  · exact clear_margin (by decide) (.text (.append (by decide) (noEscape_spanText hfile)) clear_nil)
  · exact List.append_nil (margin "   |") ▸ clear_margin hrule clear_nil
  · split at hsource
    · rename_i line hline
      obtain rfl := List.mem_singleton.1 hsource
      have hline := noEscape_sourceLine hlines hline
      exact clear_margin ((noEscape_gutter _).append (by decide))
        (.text (.append (by decide) hline) clear_nil)
    · exact absurd hsource List.not_mem_nil
  · split at hmarks
    · obtain rfl := List.mem_singleton.1 hmarks
      have hindent : NoEscape (indent label.span) := .pushn (by decide) (by decide) _
      have hcarets : NoEscape (carets label.span) := .pushn (by decide) (by decide) _
      exact clear_margin hrule (.text (.append (by decide) hindent)
        (.paint _ (.text hcarets (.paint _ clear_nil))))
    · exact absurd hmarks List.not_mem_nil
  · split at hlast
    · exact absurd hlast List.not_mem_nil
    · obtain rfl := List.mem_singleton.1 hlast
      exact clear_margin hrule (.text (by decide) (.paint _ (.text hmessage (.paint _ clear_nil))))

variable {source : Option String}

/-- The rows of a diagnostic that is shown against these lines. -/
theorem clear_rows (hd : d.Escapeless) (hlines : ∀ line ∈ lines, Ansi.escapeChar ∉ line) :
    Clear (joinLines
      ([d.headline] ++ d.labels.flatMap (labelLines lines) ++ d.notes.map noteLine)) := by
  apply clear_joinLines
  intro row hrow
  simp only [List.append_assoc, List.mem_append, List.mem_singleton, List.mem_flatMap,
    List.mem_map] at hrow
  rcases hrow with rfl | ⟨label, hlabel, hrow⟩ | ⟨note, hnote, rfl⟩
  · exact clear_headline hd
  · exact clear_labelLines hlines (hd.labels label hlabel).1 (hd.labels label hlabel).2 row hrow
  · exact clear_noteLine (hd.notes note hnote)

theorem clear_fragments (hd : d.Escapeless) (hsource : ∀ s ∈ source, NoEscape s) :
    Clear (d.fragments source) := by
  cases source with
  | none => exact clear_rows hd fun _ h => absurd h List.not_mem_nil
  | some s => exact clear_rows hd fun _ h hc => hsource s rfl (Lines.mem_of_mem_split h hc)

/-- Taking the sequences of the paints out of a rendering with colors leaves the rendering
without colors. -/
theorem erase_render (hd : d.Escapeless) (hsource : ∀ s ∈ source, NoEscape s) :
    Paint.erase (d.render true source) = d.render false source := by
  rw [Paint.erase, render, eraseChars_writeAll (clear_fragments hd hsource), String.ofList_toList]
  rfl

/-- A label in one row, one over two rows that has no message, and a note. -/
theorem erase_render_two_labels :
    ∃ d : Diagnostic, d.Escapeless ∧ (∀ s ∈ some "1+x\n+2", NoEscape s) ∧
      Paint.erase (d.render true (some "1+x\n+2")) = d.render false (some "1+x\n+2") ∧
      d.render false (some "1+x\n+2") =
        "error[E101]: unbound identifier 'x'\n  --> <input>:1:3\n     |\n     1 | 1+x\n" ++
          "     |   ^\n     |   not defined\n  --> <input>:1:2\n     |\n     1 | 1+x\n" ++
          "  = note: bind it" := by
  have hd : Escapeless ⟨"E101", "unbound identifier 'x'",
      [⟨.between ⟨1, 3⟩ ⟨1, 4⟩, "not defined"⟩, ⟨.between ⟨1, 2⟩ ⟨2, 3⟩, ""⟩], ["bind it"]⟩ :=
    ⟨by decide, by decide, by decide, by decide⟩
  have hsource : ∀ s ∈ some "1+x\n+2", NoEscape s := by decide
  exact ⟨_, hd, hsource, erase_render hd hsource, by decide +kernel⟩

end Diagnostic

end ParserKit
