/-!
# Terminal sequences

A terminal sequence is an escape character, a bracket, digits, semicolons or
question marks, and a letter.  `strip` takes all of them out of a text.
-/

namespace ParserKit.Ansi

def escapeChar : Char := '\x1b'

def isParameter (c : Char) : Bool := c.isDigit || c == ';' || c == '?'

/-- A text as far as it was looked at: what is kept, and what may be the start
of a sequence, both the last character first. -/
structure State where
  kept : List Char
  pending : List Char

/-- Look at one more character. -/
def step (s : State) (c : Char) : State :=
  if c = escapeChar then ⟨s.pending ++ s.kept, [c]⟩
  else
    match s.pending with
    | [] => ⟨c :: s.kept, []⟩
    | [_] => if c = '[' then ⟨s.kept, c :: s.pending⟩ else ⟨c :: s.pending ++ s.kept, []⟩
    | pending =>
        if isParameter c then ⟨s.kept, c :: pending⟩
        else if c.isAlpha then ⟨s.kept, []⟩
        else ⟨c :: pending ++ s.kept, []⟩

def stripChars (cs : List Char) : List Char :=
  let s := cs.foldl step ⟨[], []⟩
  (s.pending ++ s.kept).reverse

def strip (s : String) : String := String.ofList (stripChars s.toList)

theorem foldl_step_of_not_mem {cs : List Char} (h : escapeChar ∉ cs) (kept : List Char) :
    cs.foldl step ⟨kept, []⟩ = ⟨cs.reverse ++ kept, []⟩ := by
  induction cs generalizing kept with
  | nil => rfl
  | cons c cs ih =>
      rw [List.mem_cons, not_or] at h
      rw [List.foldl_cons, step, if_neg (Ne.symm h.1), ih h.2, List.reverse_cons,
        List.append_assoc, List.singleton_append]

/-- The state with more characters kept before all others. -/
def State.onto (s : State) (base : List Char) : State := ⟨s.kept ++ base, s.pending⟩

theorem step_onto (s : State) (base : List Char) (c : Char) :
    step (s.onto base) c = (step s c).onto base := by
  rw [step, step]
  split
  · simp [State.onto]
  · obtain ⟨kept, pending⟩ := s
    simp only [State.onto]
    split
    · rfl
    · split <;> simp
    · split
      · rfl
      · split <;> simp

theorem foldl_step_onto (cs : List Char) (s : State) (base : List Char) :
    cs.foldl step (s.onto base) = (cs.foldl step s).onto base := by
  induction cs generalizing s with
  | nil => rfl
  | cons c cs ih => rw [List.foldl_cons, List.foldl_cons, step_onto, ih]

/-- A text without escape characters stays, whatever stands behind it. -/
theorem strip_append {s : String} (h : escapeChar ∉ s.toList) (t : String) :
    strip (s ++ t) = s ++ strip t := by
  have hfold : (s ++ t).toList.foldl step ⟨[], []⟩ =
      (t.toList.foldl step ⟨[], []⟩).onto s.toList.reverse := by
    rw [String.toList_append, List.foldl_append, foldl_step_of_not_mem h, List.append_nil,
      ← foldl_step_onto]
    rfl
  apply String.toList_injective
  rw [strip, stripChars, hfold, String.toList_append, strip, stripChars]
  simp [State.onto]

/-- No sequence goes over the end of a line. -/
theorem strip_line (s : String) : strip (s ++ "\n") = strip s ++ "\n" := by
  have hstep : ∀ state : State, step state '\n' = ⟨'\n' :: state.pending ++ state.kept, []⟩ := by
    rintro ⟨kept, _ | ⟨last, _ | ⟨before, more⟩⟩⟩ <;> rfl
  apply String.toList_injective
  rw [strip, stripChars, String.toList_append, List.foldl_append, String.toList_append, strip,
    stripChars]
  simp [hstep]

/-- A text without escape characters holds no sequence. -/
theorem strip_eq_self {s : String} (h : escapeChar ∉ s.toList) : strip s = s := by
  rw [strip, stripChars, foldl_step_of_not_mem h]
  simp

end ParserKit.Ansi
