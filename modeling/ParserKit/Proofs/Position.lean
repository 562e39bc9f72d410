import Mathlib
import ParserKit.Arith.Grammar
import ParserKit.Proofs.Movement

/-!
# Rows and columns

Behind every successful parser the row has grown by the line feeds among the
characters read, and the column counts the characters behind the last of them.
So of two cursors that parsers reach from the start of one text, the one with
the smaller offset has the smaller location, and a location is a place of the
text.
-/

namespace ParserKit

namespace Location

variable {place : Location} {s : List Char}

/-- Every line feed opens a row. -/
theorem row_foldl_after (place : Location) (s : List Char) :
    (s.foldl after place).row = place.row + s.count '\n' := by
  induction s generalizing place with
  | nil => simp
  | cons ch more ih =>
      rw [List.foldl_cons, ih, after]
      by_cases hfeed : ch = '\n'
      · rw [if_pos hfeed, hfeed, List.count_cons_self]
        simp only
        omega
      · rw [if_neg hfeed, List.count_cons_of_ne hfeed]

/-- How many characters of `s` stand behind its last line feed. -/
def lastRowLength (s : List Char) : Nat := (s.rtakeWhile (· ≠ '\n')).length

/-- The column starts again behind the last line feed. -/
theorem col_foldl_after (place : Location) (s : List Char) :
    (s.foldl after place).col =
      if '\n' ∈ s then 1 + (lastRowLength s : Int) else place.col + s.length := by
  induction s using List.reverseRecOn with
  | nil => simp
  | append_singleton s ch ih =>
      rw [List.foldl_append, List.foldl_cons, List.foldl_nil, after, lastRowLength]
      by_cases hfeed : ch = '\n'
      · simp [hfeed]
      · have hkept := List.rtakeWhile_concat_pos (· ≠ '\n') s ch (by simpa using hfeed)
        rw [if_neg hfeed, ih, lastRowLength, hkept, List.length_append, List.length_append,
          List.length_singleton]
        by_cases hmem : '\n' ∈ s
        · rw [if_pos hmem, if_pos (List.mem_append_left _ hmem)]
          push_cast
          ring
        · have hmem' : '\n' ∉ s ++ [ch] := by simp [hmem, Ne.symm hfeed]
          rw [if_neg hmem, if_neg hmem']
          push_cast
          ring

theorem before_iff (left right : Location) :
    left.before right = true ↔
      left.row < right.row ∨ left.row = right.row ∧ left.col < right.col := by
  simp [before]

/-- Reading on leads to a later location. -/
theorem before_foldl_after (place : Location) (hs : s ≠ []) :
    place.before (s.foldl after place) = true := by
  rw [before_iff, row_foldl_after, col_foldl_after]
  by_cases hmem : '\n' ∈ s
  · have hcount := List.count_pos_iff.2 hmem
    exact .inl (by omega)
  · have hlength := List.length_pos_iff.2 hs
    rw [if_neg hmem, List.count_eq_zero_of_not_mem hmem]
    exact .inr ⟨by simp, by omega⟩

theorem before_irrefl (place : Location) : place.before place = false := by
  simp [before]

theorem ne_of_before {left right : Location} (h : left.before right = true) : left ≠ right := by
  rintro rfl
  simp [before_irrefl] at h

theorem before_asymm {left right : Location} (h : left.before right = true) :
    right.before left = false := by
  rw [before_iff] at h
  rw [← Bool.not_eq_true, before_iff]
  omega

end Location

namespace Cursor

variable {c d e : Cursor} {s t : List Char}

/-- The cursor `d` stands in the text of `c` where the characters between the
two cursors lead: a row further for every line feed, and in the column behind
the characters since the last one. -/
structure Tracks (c d : Cursor) : Prop where
  text_eq : d.text = c.text
  offset_le : c.offset ≤ d.offset
  length_slice : (c.slice d).length = d.offset - c.offset
  row_eq : d.location.row = c.location.row + (c.slice d).count '\n'
  col_eq : d.location.col =
    if '\n' ∈ c.slice d then 1 + (Location.lastRowLength (c.slice d) : Int)
    else c.location.col + (c.slice d).length

theorem Reaches.tracks (h : c.Reaches d) : c.Tracks d := by
  obtain ⟨s, hs⟩ := h
  have hoffset := hs.offset_eq
  constructor
  · exact hs.text_eq
  · omega
  · rw [hs.slice_eq]
    omega
  · rw [hs.slice_eq, hs.location_eq, Location.row_foldl_after]
  · rw [hs.slice_eq, hs.location_eq, Location.col_foldl_after]

/-- Two readings from one cursor: one of them goes on where the other stops. -/
theorem Reads.linear (h : c.Reads s d) (h' : c.Reads t e) : d.Reaches e ∨ e.Reaches d := by
  induction h generalizing t with
  | nil => exact .inl ⟨t, h'⟩
  | cons first more ih =>
      cases h' with
      | nil => exact .inr ⟨_, .cons first more⟩
      | cons first' more' =>
          rw [first, Option.some.injEq, Prod.mk.injEq] at first'
          obtain ⟨rfl, rfl⟩ := first'
          exact ih more'

theorem Reaches.before_or_eq (h : c.Reaches d) :
    c = d ∨ c.offset < d.offset ∧ c.location.before d.location = true := by
  obtain ⟨s, hs⟩ := h
  by_cases hempty : s = []
  · subst hempty
    cases hs
    exact .inl rfl
  · have hoffset := hs.offset_eq
    have hlength := List.length_pos_iff.2 hempty
    refine .inr ⟨by omega, ?_⟩
    rw [hs.location_eq]
    exact Location.before_foldl_after c.location hempty

end Cursor

/-- The cursors that parsers reach from the start of a text, each going on where
another one stopped. -/
inductive Reached (text : String) : Cursor → Prop
  | start : Reached text (.start text)
  | run {R : Type → Type} {α : Type} (grammar : Grammar R) (depth : Nat) (p : Parser R α)
      {c d : Cursor} {a : α} (reached : Reached text c)
      (hrun : p.runWith (Grammar.rule grammar depth) c = .ok (some (a, d))) : Reached text d

theorem reaches_of_run {R : Type → Type} {α : Type} {grammar : Grammar R} {depth : Nat}
    {p : Parser R α} {c d : Cursor} {a : α}
    (hrun : p.runWith (Grammar.rule grammar depth) c = .ok (some (a, d))) : c.Reaches d :=
  (Parser.moves_runWith (fun r => moves_rule grammar depth r) p).reaches hrun

theorem Reached.reaches {text : String} {c : Cursor} (h : Reached text c) :
    (Cursor.start text).Reaches c := by
  induction h with
  | start => exact .refl _
  | run grammar depth p _ hrun ih => exact ih.trans (reaches_of_run hrun)

/-- Offsets and locations order the cursors of one text alike. -/
theorem Reached.offset_lt_iff_before {text : String} {c d : Cursor} (hc : Reached text c)
    (hd : Reached text d) :
    (c.offset < d.offset ↔ c.location.before d.location = true) ∧
      (c.offset = d.offset ↔ c.location = d.location) := by
  obtain ⟨s, hs⟩ := hc.reaches
  obtain ⟨t, ht⟩ := hd.reaches
  rcases hs.linear ht with hreaches | hreaches
  · rcases hreaches.before_or_eq with rfl | ⟨hlt, hbefore⟩
    · simp [Location.before_irrefl]
    · have hne := Location.ne_of_before hbefore
      exact ⟨iff_of_true hlt hbefore, iff_of_false (by omega) hne⟩
  · rcases hreaches.before_or_eq with rfl | ⟨hlt, hbefore⟩
    · simp [Location.before_irrefl]
    · have hne := Location.ne_of_before hbefore
      have hafter := Location.before_asymm hbefore
      exact ⟨iff_of_false (by omega) (by simp [hafter]), iff_of_false (by omega) hne.symm⟩

/-- Whatever parser runs, its cursor tracks the characters read; and a location
stands for one offset, later locations for larger ones. -/
theorem position_tracked :
    (∀ (R : Type → Type) (α : Type) (grammar : Grammar R) (depth : Nat) (p : Parser R α)
      (c d : Cursor) (a : α),
      p.runWith (Grammar.rule grammar depth) c = .ok (some (a, d)) → c.Tracks d) ∧
    ∀ (text : String) (c d : Cursor), Reached text c → Reached text d →
      (c.offset < d.offset ↔ c.location.before d.location = true) ∧
        (c.offset = d.offset ↔ c.location = d.location) :=
  ⟨fun _ _ _ _ _ _ _ _ hrun => (reaches_of_run hrun).tracks,
    fun _ _ _ hc hd => hc.offset_lt_iff_before hd⟩

/-- An expression in parentheses that is broken over two rows. -/
theorem position_tracked_two_rows :
    ∃ tree d, Arith.program.runWith (Grammar.rule Arith.grammar 1) (.start "(1\n+ 2)") =
        .ok (some (tree, d)) ∧
      d.location = ⟨2, 5⟩ ∧ (Cursor.start "(1\n+ 2)").Tracks d ∧
      Reached "(1\n+ 2)" (.start "(1\n+ 2)") ∧ Reached "(1\n+ 2)" d ∧
      ((Cursor.start "(1\n+ 2)").offset < d.offset ↔
        (Cursor.start "(1\n+ 2)").location.before d.location = true) := by
  have hrun : ∃ tree, Arith.program.runWith (Grammar.rule Arith.grammar 1) (.start "(1\n+ 2)") =
      .ok (some (tree, ⟨"(1\n+ 2)".toList.toArray, 7, ⟨2, 5⟩⟩)) := by
    refine ⟨?_, ?_⟩
    rotate_left
    · cbv
      rfl
  obtain ⟨tree, hrun⟩ := hrun
  have hend := Reached.start.run Arith.grammar 1 Arith.program hrun
  exact ⟨tree, _, hrun, rfl, position_tracked.1 _ _ _ _ _ _ _ _ hrun, .start, hend,
    (position_tracked.2 _ _ _ .start hend).1⟩

end ParserKit
