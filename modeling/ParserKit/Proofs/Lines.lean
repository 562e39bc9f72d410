import Mathlib
import ParserKit.Proofs.Position

/-!
# Lines of a text

A row is the number of a line and a column that of a character in its line.  So
a run of characters without a line feed is found in the line of its row, from
the column where it starts up to the column where it stops.
-/

namespace ParserKit

/-- Within one line of the text the span covers just the characters `s`.  Rows
and columns are counted from one. -/
def Span.Covers (span : Span) (text : String) (s : List Char) : Prop :=
  ∃ (row first last : Nat) (line : List Char),
    span.start = ⟨row + 1, first + 1⟩ ∧ span.stop = ⟨row + 1, last + 1⟩ ∧
    (text.toList.splitOn '\n')[row]? = some line ∧ last ≤ line.length ∧
    line.extract first last = s

/-- In the text, just the characters `rest` remain at the place. -/
def RestAt (text : String) (place : Location) (rest : List Char) : Prop :=
  ∃ before, text.toList = before ++ rest ∧ place = before.foldl Location.after .start

section Lines

variable {α : Type} [DecidableEq α] {sep : α} {before row s rest : List α}

theorem length_splitOn (sep : α) (s : List α) : (s.splitOn sep).length = s.count sep + 1 := by
  induction s with
  | nil => rfl
  | cons x more ih =>
      rw [List.splitOn_cons_eq_if_modifyHead]
      by_cases hx : x = sep
      · rw [if_pos (by simpa using hx), List.length_cons, ih, hx, List.count_cons_self]
      · rw [if_neg (by simpa using hx), List.length_modifyHead, ih, List.count_cons_of_ne hx]

/-- The first line goes on up to the first separator. -/
theorem getElem?_zero_splitOn (hrow : sep ∉ row) (rest : List α) :
    ((row ++ rest).splitOn sep)[0]? = some (row ++ rest.takeWhile (· ≠ sep)) := by
  have hline : sep ∉ row ++ rest.takeWhile (· ≠ sep) := by
    rw [List.mem_append, not_or]
    exact ⟨hrow, fun hmem => by simpa using List.mem_takeWhile_imp hmem⟩
  have hsplit : row ++ rest =
      row ++ rest.takeWhile (· ≠ sep) ++ rest.dropWhile (· ≠ sep) := by
    rw [List.append_assoc, List.takeWhile_append_dropWhile]
  rw [hsplit]
  rcases hdrop : rest.dropWhile (· ≠ sep) with _ | ⟨x, more⟩
  · rw [List.append_nil, List.splitOn_eq_singleton hline]
    rfl
  · have hx : x = sep := by
      have hhead := List.head?_dropWhile_not (· ≠ sep) rest
      rw [hdrop] at hhead
      simpa using hhead
    rw [hx, List.splitOn_append_cons_self_of_not_mem hline]
    rfl

/-- The line of a number stands behind as many separators. -/
theorem getElem?_count_splitOn (sep : α) (before rest : List α) :
    ((before ++ rest).splitOn sep)[before.count sep]? =
      some (before.rtakeWhile (· ≠ sep) ++ rest.takeWhile (· ≠ sep)) := by
  have hrow : sep ∉ before.rtakeWhile (· ≠ sep) :=
    fun hmem => by simpa using List.mem_rtakeWhile_imp hmem
  have hsplit := List.rdropWhile_append_rtakeWhile (p := (· ≠ sep)) (l := before)
  generalize before.rtakeWhile (· ≠ sep) = row at hrow hsplit ⊢
  by_cases hnil : before.rdropWhile (· ≠ sep) = []
  · rw [hnil, List.nil_append] at hsplit
    rw [← hsplit, List.count_eq_zero_of_not_mem hrow]
    exact getElem?_zero_splitOn hrow rest
  · have hlast : (before.rdropWhile (· ≠ sep)).getLast hnil = sep := by
      simpa using List.rdropWhile_last_not (· ≠ sep) before hnil
    obtain ⟨front, hfront⟩ : ∃ front, before.rdropWhile (· ≠ sep) = front ++ [sep] :=
      ⟨_, hlast ▸ (List.dropLast_append_getLast hnil).symm⟩
    rw [hfront, List.append_assoc, List.singleton_append] at hsplit
    have hcount : before.count sep = (front.splitOn sep).length := by
      rw [length_splitOn, ← hsplit, List.count_append, List.count_cons_self,
        List.count_eq_zero_of_not_mem hrow]
    have htext : before ++ rest = front ++ sep :: (row ++ rest) := by
      rw [← hsplit, List.append_assoc, List.cons_append]
    rw [htext, List.splitOn_append_cons_self, hcount, List.getElem?_append_right (Nat.le_refl _),
      Nat.sub_self]
    exact getElem?_zero_splitOn hrow rest

end Lines

/-! ## Places of cursors -/

variable {text : String} {c d : Cursor} {s : List Char}

/-- At least one character stands between the two cursors. -/
def Cursor.Passes (c d : Cursor) : Prop := ∃ ch s, c.Reads (ch :: s) d

theorem Cursor.Passes.reaches {c d : Cursor} (h : c.Passes d) : c.Reaches d := by
  obtain ⟨ch, s, hread⟩ := h
  exact ⟨ch :: s, hread⟩

theorem Cursor.Passes.trans_reaches {c d e : Cursor} (h : c.Passes d) (h' : d.Reaches e) :
    c.Passes e := by
  obtain ⟨ch, s, hread⟩ := h
  obtain ⟨t, hread'⟩ := h'
  exact ⟨ch, s ++ t, hread.append hread'⟩

theorem Cursor.Reaches.trans_passes {c d e : Cursor} (h : c.Reaches d) (h' : d.Passes e) :
    c.Passes e := by
  obtain ⟨s, hread⟩ := h
  obtain ⟨ch, t, hread'⟩ := h'
  cases s with
  | nil => exact ⟨ch, t, hread.append hread'⟩
  | cons first more => exact ⟨first, more ++ ch :: t, hread.append hread'⟩

theorem Cursor.Passes.before {c d : Cursor} (h : c.Passes d) :
    c.location.before d.location = true := by
  obtain ⟨ch, s, hread⟩ := h
  rw [hread.location_eq]
  exact Location.before_foldl_after c.location (List.cons_ne_nil ch s)

theorem restAt_of_reaches (h : (Cursor.start text).Reaches c) :
    RestAt text c.location c.remaining := by
  obtain ⟨before, hbefore⟩ := h
  refine ⟨before, ?_, hbefore.location_eq⟩
  rw [← hbefore.remaining_eq, Cursor.remaining_start]

/-- From the start of a text, the column counts the characters since the last
line feed. -/
theorem Location.foldl_after_start (before : List Char) :
    before.foldl Location.after .start =
      ⟨(before.count '\n' : Nat) + 1, (Location.lastRowLength before : Nat) + 1⟩ := by
  have hrow := Location.row_foldl_after .start before
  have hcol := Location.col_foldl_after .start before
  have hplace : ∀ place : Location, place = ⟨place.row, place.col⟩ := fun _ => rfl
  have hlength : '\n' ∉ before → Location.lastRowLength before = before.length := by
    intro hmem
    have hall : before.rtakeWhile (· ≠ '\n') = before := by
      rw [List.rtakeWhile_eq_self_iff]
      intro ch hch
      simpa using ne_of_mem_of_not_mem hch hmem
    rw [Location.lastRowLength, hall]
  rw [hplace (before.foldl Location.after .start), hrow, hcol, Location.start]
  split
  · rw [add_comm, add_comm (1 : Int)]
  · rename_i hmem
    rw [hlength hmem, add_comm, add_comm (1 : Int)]

/-- Reading on in one line moves the column only. -/
theorem Location.foldl_after_of_not_mem (place : Location) (hs : '\n' ∉ s) :
    s.foldl Location.after place = ⟨place.row, place.col + s.length⟩ := by
  have hrow := Location.row_foldl_after place s
  have hcol := Location.col_foldl_after place s
  rw [List.count_eq_zero_of_not_mem hs, Nat.cast_zero, add_zero] at hrow
  rw [if_neg hs] at hcol
  rw [← hrow, ← hcol]

/-- A run of characters that was read is covered by the places around it. -/
theorem covers_of_reads (hc : (Cursor.start text).Reaches c) (hread : c.Reads s d)
    (hs : '\n' ∉ s) : (Span.between c.location d.location).Covers text s := by
  obtain ⟨before, hbefore⟩ := hc
  have hstart := hbefore.location_eq.trans (Location.foldl_after_start before)
  have hstop : d.location = ⟨c.location.row, c.location.col + s.length⟩ :=
    hread.location_eq.trans (Location.foldl_after_of_not_mem c.location hs)
  have htext : text.toList = before ++ (s ++ d.remaining) := by
    rw [← hread.remaining_eq, ← hbefore.remaining_eq, Cursor.remaining_start]
  have hrow : (s ++ d.remaining).takeWhile (· ≠ '\n') =
      s ++ d.remaining.takeWhile (· ≠ '\n') := by
    apply List.takeWhile_append_of_pos
    intro ch hch
    simpa using ne_of_mem_of_not_mem hch hs
  have hline := getElem?_count_splitOn '\n' before (s ++ d.remaining)
  rw [hrow, ← htext] at hline
  refine ⟨_, Location.lastRowLength before, Location.lastRowLength before + s.length, _, hstart,
    ?_, hline, ?_, ?_⟩
  · rw [Span.between, hstop, hstart, Nat.cast_add]
    ring_nf
  · rw [List.length_append, List.length_append, Location.lastRowLength]
    omega
  · rw [List.extract_eq_take_drop, Nat.add_sub_cancel_left, Location.lastRowLength,
      List.drop_left, List.take_left]

end ParserKit
