import ParserKit.Source.Cursor

/-!
# Reading characters

A parser moves a cursor over the characters that remain, one by one and never
back.  `Cursor.Reads c s d` says that the characters `s` stand between the
cursors `c` and `d`; a run that is read determines where the cursor stops.
-/

namespace ParserKit.Cursor

inductive Reads : Cursor → List Char → Cursor → Prop
  | nil (c : Cursor) : Reads c [] c
  | cons {c d e : Cursor} {ch : Char} {s : List Char} (first : c.advance = some (ch, d))
      (more : Reads d s e) : Reads c (ch :: s) e

variable {c d e : Cursor} {s t : List Char} {ch : Char}

theorem left_eq_length_remaining (c : Cursor) : c.left = c.remaining.length := by
  simp [left, remaining]

theorem atEnd_iff_remaining (c : Cursor) : c.atEnd = true ↔ c.remaining = [] := by
  simp [atEnd, remaining]

theorem advance_eq_none_iff_remaining (c : Cursor) :
    c.advance = none ↔ c.remaining = [] := by
  rw [advance_eq_none_iff]
  simp [remaining]

theorem remaining_start (text : String) : (start text).remaining = text.toList := by
  simp [remaining, start]

theorem eq_of_advance (h : c.advance = some (ch, d)) :
    d = ⟨c.text, c.offset + 1, c.location.after ch⟩ := by
  unfold advance at h
  split at h
  · simp only [Option.some.injEq, Prod.mk.injEq] at h
    rw [← h.1, ← h.2]
  · simp at h

theorem Reads.append (h : c.Reads s d) (more : d.Reads t e) : c.Reads (s ++ t) e := by
  induction h with
  | nil => exact more
  | cons first _ ih => exact .cons first (ih more)

theorem reads_of_advance (h : c.advance = some (ch, d)) : c.Reads [ch] d :=
  .cons h (.nil d)

theorem Reads.remaining_eq (h : c.Reads s d) : c.remaining = s ++ d.remaining := by
  induction h with
  | nil => rfl
  | cons first _ ih => rw [remaining_of_advance first, ih, List.cons_append]

theorem Reads.left_eq (h : c.Reads s d) : c.left = s.length + d.left := by
  calc
    c.left = c.remaining.length := left_eq_length_remaining c
    _ = (s ++ d.remaining).length := by rw [h.remaining_eq]
    _ = s.length + d.left := by rw [List.length_append, left_eq_length_remaining]

theorem Reads.text_eq (h : c.Reads s d) : d.text = c.text := by
  induction h with
  | nil => rfl
  | cons first _ ih => rw [ih, eq_of_advance first]

theorem Reads.offset_eq (h : c.Reads s d) : d.offset = c.offset + s.length := by
  induction h with
  | nil => rfl
  | cons first _ ih =>
      cases eq_of_advance first
      rw [ih, List.length_cons]
      simp only
      omega

theorem Reads.location_eq (h : c.Reads s d) : d.location = s.foldl Location.after c.location := by
  induction h with
  | nil => rfl
  | cons first _ ih => rw [ih, eq_of_advance first, List.foldl_cons]

/-- The cursor behind some characters that stand in front of this one. -/
def behind (c : Cursor) (s : List Char) : Cursor :=
  ⟨c.text, c.offset + s.length, s.foldl Location.after c.location⟩

theorem Reads.eq_behind (h : c.Reads s d) : d = c.behind s := by
  rw [behind, ← h.text_eq, ← h.offset_eq, ← h.location_eq]

/-- The characters of the text of `c` from `c` up to, and not including, `d`. -/
def slice (c d : Cursor) : List Char := c.text.toList.extract c.offset d.offset

theorem Reads.slice_eq (h : c.Reads s d) : c.slice d = s := by
  have hremaining := h.remaining_eq
  rw [remaining] at hremaining
  rw [slice, List.extract_eq_take_drop, h.offset_eq, Nat.add_sub_cancel_left, hremaining,
    List.take_left]

/-- A run that stands in front of a cursor can be read. -/
theorem exists_reads_of_remaining (h : c.remaining = s ++ t) :
    ∃ d, c.Reads s d ∧ d.remaining = t := by
  induction s generalizing c with
  | nil => exact ⟨c, .nil c, h⟩
  | cons ch more ih =>
      rcases hstep : c.advance with _ | ⟨first, next⟩
      · rw [advance_eq_none_iff_remaining] at hstep
        simp [hstep] at h
      · have hread := remaining_of_advance hstep
        rw [h, List.cons_append, List.cons.injEq] at hread
        obtain ⟨rfl, hnext⟩ := hread
        obtain ⟨d, hd, hrest⟩ := ih hnext.symm
        exact ⟨d, .cons hstep hd, hrest⟩

/-- What remains behind a run is a suffix of what remains before it. -/
theorem Reads.suffix (h : c.Reads s d) : d.remaining <:+ c.remaining :=
  ⟨s, h.remaining_eq.symm⟩

end ParserKit.Cursor
