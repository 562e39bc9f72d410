import Mathlib
import ParserKit.Diagnostic.Render
import ParserKit.Proofs.Lines

/-!
# The lines that are shown

Cursors count line feeds only, while a source that is shown is split at every
character that ends a line.  Where all those characters belong to line feeds,
both count the same lines, and only the carriage return at the end of a line is
not shown.
-/

namespace ParserKit

namespace Lines

/-- All characters that end a line are line feeds, or carriage returns before a
line feed or at the end. -/
def BreaksAtFeeds : List Char → Prop
  | [] => True
  | ch :: more =>
      (ch ∈ breaks → ch = '\n' ∨ ch = '\r' ∧ ∀ next ∈ more.head?, next = '\n') ∧
        BreaksAtFeeds more

/-- A line without a carriage return at its end. -/
def withoutReturn : List Char → List Char
  | [] => []
  | ['\r'] => []
  | ch :: more => ch :: withoutReturn more

/-- The lines between line feeds as they are shown: no line is opened by a line
feed at the very end. -/
def shown : List (List Char) → List (List Char)
  | [] => []
  | [last] => if last = [] then [] else [withoutReturn last]
  | line :: more => withoutReturn line :: shown more

variable {s line : List Char} {lines more : List (List Char)} {ch : Char}

theorem withoutReturn_cons (h : ch ≠ '\r') (line : List Char) :
    withoutReturn (ch :: line) = ch :: withoutReturn line := by
  rw [withoutReturn]
  rintro rfl
  exact absurd rfl h

theorem shown_cons (line : List Char) (h : lines ≠ []) :
    shown (line :: lines) = withoutReturn line :: shown lines := by
  cases lines with
  | nil => exact absurd rfl h
  | cons next more => rfl

theorem eq_of_shown_eq_nil (h : lines ≠ []) (hshown : shown lines = []) : lines = [[]] := by
  cases lines with
  | nil => exact absurd rfl h
  | cons line more =>
      cases more with
      | nil => simpa [shown] using hshown
      | cons next more => cases hshown

/-- A character that ends no line stands in front of the first line. -/
theorem shown_cons_cons {first : List Char} (hch : ch ≠ '\r')
    (h : shown (first :: lines) = line :: more) :
    shown ((ch :: first) :: lines) = (ch :: line) :: more := by
  cases lines with
  | nil =>
      rw [shown] at h
      split at h
      · cases h
      · cases h
        rw [shown, if_neg (List.cons_ne_nil ch first), withoutReturn_cons hch]
  | cons next lines =>
      rw [shown_cons _ (List.cons_ne_nil next lines)] at h ⊢
      cases h
      rw [withoutReturn_cons hch]

theorem splitOn_feed_cons (s : List Char) : ('\n' :: s).splitOn '\n' = [] :: s.splitOn '\n' := by
  rw [List.splitOn_cons_eq_if_modifyHead, if_pos (beq_self_eq_true _)]

theorem splitOn_cons_of_ne (h : ch ≠ '\n') (s : List Char) :
    (ch :: s).splitOn '\n' = (s.splitOn '\n').modifyHead (List.cons ch) := by
  rw [List.splitOn_cons_eq_if_modifyHead, if_neg (by simpa using h)]

/-- The shown lines are the lines between line feeds. -/
theorem split_eq_shown (h : BreaksAtFeeds s) : split s = shown (s.splitOn '\n') := by
  have hne : ∀ t : List Char, t.splitOn '\n' ≠ [] := List.splitOn_ne_nil _
  fun_induction split s with
  | case1 => rfl
  | case2 more ih =>
      rw [splitOn_cons_of_ne (by decide), splitOn_feed_cons, List.modifyHead_cons,
        shown_cons _ (hne more), ih h.2.2, withoutReturn]
  | case3 ch more hfeed hbreak ih =>
      rcases h.1 (by simpa using hbreak) with rfl | ⟨rfl, hend⟩
      · rw [splitOn_feed_cons, shown_cons _ (hne more), ih h.2, withoutReturn]
      · cases more with
        | nil => rfl
        | cons next more =>
            obtain rfl : next = '\n' := hend next rfl
            exact (hfeed more rfl rfl).elim
  | case4 ch more _ hbreak hnil ih =>
      have hch : ch ≠ '\n' ∧ ch ≠ '\r' := by
        constructor <;> rintro rfl <;> exact hbreak rfl
      rw [ih h.2] at hnil
      rw [splitOn_cons_of_ne hch.1, eq_of_shown_eq_nil (hne more) hnil, List.modifyHead_cons, shown,
        if_neg (List.cons_ne_nil _ _), withoutReturn_cons hch.2, withoutReturn]
  | case5 ch more _ hbreak line lines hsplit ih =>
      have hch : ch ≠ '\n' ∧ ch ≠ '\r' := by
        constructor <;> rintro rfl <;> exact hbreak rfl
      obtain ⟨first, rest, hrest⟩ := List.exists_cons_of_ne_nil (hne more)
      rw [ih h.2, hrest] at hsplit
      rw [splitOn_cons_of_ne hch.1, hrest, List.modifyHead_cons, shown_cons_cons hch.2 hsplit]

theorem getElem?_shown {row : Nat} (hline : lines[row]? = some line)
    (h : line ≠ [] ∨ row + 1 < lines.length) : (shown lines)[row]? = some (withoutReturn line) := by
  induction lines generalizing row with
  | nil => simp at hline
  | cons first lines ih =>
      cases lines with
      | nil =>
          cases row with
          | zero =>
              obtain rfl : first = line := by simpa using hline
              rw [shown, if_neg (by simpa using h)]
              rfl
          | succ row => simp at hline
      | cons next lines =>
          rw [shown_cons _ (List.cons_ne_nil next lines)]
          cases row with
          | zero =>
              obtain rfl : first = line := by simpa using hline
              rfl
          | succ row =>
              rw [List.getElem?_cons_succ] at hline ⊢
              exact ih hline (h.imp_right fun hlt => by simpa using hlt)

/-- The line of a character, or of the line feed behind it, is shown under its number. -/
theorem getElem?_split {before rest : List Char} (h : BreaksAtFeeds (before ++ rest))
    (hrest : rest ≠ []) :
    (split (before ++ rest))[before.count '\n']? =
      some (withoutReturn (before.rtakeWhile (· ≠ '\n') ++ rest.takeWhile (· ≠ '\n'))) := by
  rw [split_eq_shown h]
  apply getElem?_shown (getElem?_count_splitOn '\n' before rest)
  obtain ⟨ch, more, rfl⟩ := List.exists_cons_of_ne_nil hrest
  by_cases hch : ch = '\n'
  · right
    rw [length_splitOn, List.count_append, hch, List.count_cons_self]
    omega
  · left
    rw [List.takeWhile_cons_of_pos (by simpa using hch)]
    simp

end Lines

/-! ## Spans over a source -/

/-- The span starts before the characters `covered` of the text, and if it stays
in one row it is as wide as they are.  Only a line feed of its own may then be
among them. -/
structure Span.StandsOver (span : Span) (text : String) (covered : List Char) : Prop where
  start : ∃ rest, RestAt text span.start (covered ++ rest)
  nonempty : covered ≠ []
  width : span.start.row = span.stop.row →
    ('\n' ∉ covered ∨ covered = ['\n']) ∧ span.stop.col = span.start.col + covered.length

variable {text : String} {c d : Cursor}

theorem Span.standsOver_between {covered : List Char} (hc : (Cursor.start text).Reaches c)
    (hread : c.Reads covered d) (hne : covered ≠ []) :
    (Span.between c.location d.location).StandsOver text covered := by
  refine ⟨⟨d.remaining, ?_⟩, hne, fun hrow => ?_⟩
  · rw [← hread.remaining_eq]
    exact restAt_of_reaches hc
  · have hcount := Location.row_foldl_after c.location covered
    rw [← hread.location_eq] at hcount
    simp only [Span.between] at hrow ⊢
    have hfeed : '\n' ∉ covered := by
      rw [← List.count_eq_zero]
      omega
    rw [hread.location_eq, Location.foldl_after_of_not_mem c.location hfeed]
    exact ⟨.inl hfeed, rfl⟩

/-- The place of a cursor before the end, as a span of one column. -/
theorem Span.standsOver_nextCol (hc : (Cursor.start text).Reaches c) (hne : c.remaining ≠ [])
    (file : String) :
    ∃ ch, (Span.mk file c.location c.location.nextCol).StandsOver text [ch] := by
  obtain ⟨ch, more, hremaining⟩ := List.exists_cons_of_ne_nil hne
  refine ⟨ch, ⟨more, ?_⟩, List.cons_ne_nil _ _, fun _ => ⟨?_, rfl⟩⟩
  · rw [List.singleton_append, ← hremaining]
    exact restAt_of_reaches hc
  · by_cases hch : ch = '\n'
    · exact .inr (by rw [hch])
    · exact .inl (by simpa using Ne.symm hch)

/-! ## What is rendered -/

namespace Diagnostic

open Fragment Lines

def placeRow (span : Span) : List Fragment := margin "-->" ++ [.text (" " ++ span.text)]

/-- A line of the source behind its number. -/
def sourceRow (row : Nat) (line : List Char) : List Fragment :=
  margin (gutter (row + 1) ++ " |") ++ [.text (" " ++ String.ofList line)]

/-- Carets under the line above, behind as many columns. -/
def caretRow (columns width : Nat) : List Fragment :=
  margin "   |" ++ [.text (" " ++ "".pushn ' ' columns), .paint .red,
    .text ("".pushn '^' width), .paint .reset]

/-- The diagnostic is shown with the line that the label starts in, as line feeds
count lines, and under it carets for just the characters that the span covers if
it stays in that line.  A carriage return at the end of the line is not shown. -/
def ShowsLine (source : String) (problem : Diagnostic) (label : Label) : Prop :=
  ∃ (row : Nat) (line : List Char) (above below : List (List Fragment)),
    label.span.start.row = row + 1 ∧ (source.toList.splitOn '\n')[row]? = some line ∧
    (∀ color, problem.render color (some source) = writeAll color (joinLines
      (above ++ placeRow label.span :: margin "   |" :: sourceRow row (withoutReturn line) ::
        below))) ∧
    (label.span.start.row = label.span.stop.row → ∃ front covered behind rest more,
      line ++ ['\n'] = front ++ (covered ++ behind) ∧
      RestAt source label.span.start (covered ++ rest) ∧
      label.span.stop.col = label.span.start.col + covered.length ∧
      below = caretRow front.length covered.length :: more)

variable {source : String} {label : Label} {covered : List Char}

/-- The rows of a label stand together in what is rendered. -/
theorem exists_fragments_eq {problem : Diagnostic} (hlabel : label ∈ problem.labels)
    (source : String) : ∃ above below, problem.fragments (some source) =
      joinLines (above ++ (labelLines (Lines.split source.toList) label ++ below)) := by
  obtain ⟨before, after, hlabels⟩ := List.append_of_mem hlabel
  refine ⟨problem.headline :: before.flatMap (labelLines (Lines.split source.toList)),
    after.flatMap (labelLines (Lines.split source.toList)) ++ problem.notes.map noteLine, ?_⟩
  rw [fragments, hlabels]
  simp

theorem mem_joinLines {rows : List (List Fragment)} {row : List Fragment} {fragment : Fragment}
    (hrow : row ∈ rows) (hfragment : fragment ∈ row) : fragment ∈ joinLines rows := by
  induction rows with
  | nil => exact absurd hrow List.not_mem_nil
  | cons first rows ih =>
      cases rows with
      | nil =>
          obtain rfl : row = first := List.mem_singleton.1 hrow
          exact hfragment
      | cons second rows =>
          change fragment ∈ first ++ .text "\n" :: joinLines (second :: rows)
          rcases List.mem_cons.1 hrow with rfl | hrow
          · exact List.mem_append_left _ hfragment
          · exact List.mem_append_right _ (List.mem_cons_of_mem _ (ih hrow))

/-- What a row says is written out, with colors and without. -/
theorem mem_writeAll {rows : List (List Fragment)} {row : List Fragment} {s : String} {ch : Char}
    (hrow : row ∈ rows) (hs : .text s ∈ row) (hch : ch ∈ s.toList) (color : Bool) :
    ch ∈ (writeAll color (joinLines rows)).toList := by
  rw [writeAll, String.toList_join, List.mem_flatMap]
  exact ⟨s, List.mem_map.2 ⟨_, mem_joinLines hrow hs, rfl⟩, hch⟩

/-- The line that is found under a row that cursors count. -/
theorem sourceLine?_succ (lines : List (List Char)) (row : Nat) :
    sourceLine? lines (row + 1) = lines[row]?.map String.ofList := by
  rw [sourceLine?, if_neg (by omega), Int.toNat_natCast_add_one, Nat.add_sub_cancel]

/-- In its line, with the line feed at the end counted in, the span stands over
the characters that it covers. -/
theorem exists_takeWhile_append_feed (h : '\n' ∉ covered ∨ covered = ['\n']) (rest : List Char) :
    ∃ behind, (covered ++ rest).takeWhile (· ≠ '\n') ++ ['\n'] = covered ++ behind := by
  rcases h with hmem | rfl
  · refine ⟨rest.takeWhile (· ≠ '\n') ++ ['\n'], ?_⟩
    rw [List.takeWhile_append_of_pos fun ch hch => by simpa using ne_of_mem_of_not_mem hch hmem,
      List.append_assoc]
  · exact ⟨[], rfl⟩

theorem caretRow_of_width {span : Span} {columns : Nat} (hcol : span.start.col = columns + 1)
    (hne : covered ≠ []) (hwidth : span.stop.col = span.start.col + covered.length) :
    margin "   |" ++ [.text (" " ++ indent span), .paint .red, .text (carets span), .paint .reset] =
      caretRow columns covered.length := by
  have hindent : (span.start.col - 1).toNat = columns := by omega
  have hcarets : max 1 (span.stop.col - span.start.col).toNat = covered.length := by
    have hpos := List.length_pos_iff.2 hne
    omega
  rw [caretRow, indent, carets, hindent, hcarets]

/-- The rows of a label over a line that there is. -/
theorem exists_labelLines_eq {lines : List (List Char)} {row : Nat} {line : List Char}
    (hrow : label.span.start.row = row + 1) (hline : lines[row]? = some line) :
    ∃ below, labelLines lines label =
        placeRow label.span :: margin "   |" :: sourceRow row line :: below ∧
      (label.span.start.row = label.span.stop.row → ∃ more,
        below = (margin "   |" ++ [.text (" " ++ indent label.span), .paint .red,
          .text (carets label.span), .paint .reset]) :: more) := by
  have hsource := sourceLine?_succ lines row
  rw [hline, Option.map_some, ← hrow] at hsource
  simp only [labelLines, hsource]
  generalize (if label.message.isEmpty = true then [] else
    [margin "   |" ++ [text "   ", paint .red, text label.message, paint .reset]]) = message
  by_cases hsame : label.span.start.row = label.span.stop.row
  · rw [if_pos hsame, hrow]
    exact ⟨_ :: message, rfl, fun _ => ⟨message, rfl⟩⟩
  · rw [if_neg hsame]
    refine ⟨message, ?_, fun h => absurd h hsame⟩
    rw [hrow]
    rfl

/-- A span over the source is shown with its line. -/
theorem showsLine_of_standsOver {problem : Diagnostic} (hbreaks : BreaksAtFeeds source.toList)
    (hlabel : label ∈ problem.labels) (hspan : label.span.StandsOver source covered) :
    ShowsLine source problem label := by
  obtain ⟨above, behind, hfragments⟩ := exists_fragments_eq hlabel source
  obtain ⟨⟨rest, before, htext, hstart⟩, hne, hwidth⟩ := hspan
  have hplace := hstart.trans (Location.foldl_after_start before)
  have hrow : label.span.start.row = (before.count '\n' : Nat) + 1 := by rw [hplace]
  have hcol : label.span.start.col = ((before.rtakeWhile (· ≠ '\n')).length : Nat) + 1 := by
    rw [hplace]
    rfl
  have hline := getElem?_count_splitOn '\n' before (covered ++ rest)
  have hshown := getElem?_split (htext ▸ hbreaks) (List.append_ne_nil_of_left_ne_nil hne rest)
  rw [← htext] at hline hshown
  obtain ⟨below, hlabelLines, hcarets⟩ := exists_labelLines_eq hrow hshown
  refine ⟨_, _, above, below ++ behind, hrow, hline, fun color => ?_, fun hsame => ?_⟩
  · rw [render, hfragments, hlabelLines]
    rfl
  · obtain ⟨hfeed, hstop⟩ := hwidth hsame
    obtain ⟨more, rfl⟩ := hcarets hsame
    obtain ⟨last, hlast⟩ := exists_takeWhile_append_feed hfeed rest
    refine ⟨before.rtakeWhile (· ≠ '\n'), covered, last, rest, more ++ behind, ?_,
      ⟨before, htext, hstart⟩, hstop, ?_⟩
    · rw [List.append_assoc, hlast]
    · rw [caretRow_of_width hcol hne hstop, List.cons_append]

end Diagnostic

end ParserKit
